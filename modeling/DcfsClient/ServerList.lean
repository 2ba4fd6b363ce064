import DcfsClient.CStrings
import DcfsClient.DCClient

/-!
# The list of servers: the constructor of `ClientComm`

The servers are given as a text of items `ip:count`, joined by commas. The constructor cuts the text at
the commas and each item at its colon, and opens two sockets for each server: one for writes and one for
requests. It keeps the positions of commas and colons in an `int`, and it compares a position with
`std::string::npos` only after that. `toInt` and `toSize` are the conversions this makes.

The loop over the commas may come back to where it was, so it runs on fuel. The sockets come from
ZeroMQ, which this program does not contain: it has room for some number of them and may refuse to
connect to an address, and throws in either case.
-/

namespace DcfsClient

open CString

def initDcServerId : Nat := 101
def netDcServerBasePort : Nat := 4001
def netServePort : Nat := 4300

/-- How the constructor ends without an object: `exit(1)`, an exception of the string functions or of
ZeroMQ, or undefined behaviour. The last is a loop that is not through yet. -/
inductive CommFailure where
  | exit
  | thrown (e : StdException)
  | zmqError
  | undefined
  | running
  deriving DecidableEq

namespace ClientComm

/-! ## The text -/

def intResult (n : Int) : Except CommFailure Int :=
  if minInt ≤ n ∧ n ≤ maxInt then .ok n else .error .undefined

def std {α : Type} (x : Except StdException α) : Except CommFailure α := x.mapError .thrown

def parseItem (ipCount : Bytes) : Except CommFailure (Bytes × Int) := do
  let pos := toInt (find ipCount 58 0)
  let ip ← std (substr ipCount 0 (toSize pos))
  let behind ← intResult (pos + 1)
  let digits ← std (substr ipCount (toSize behind) npos)
  let count ← std (stoi digits)
  pure (ip, count)

/-- The rest of the text from `last` on; the item behind the last comma is cut off after the loop. -/
def parseServers (serverIps : Bytes) : Nat → Int → Except CommFailure (List (Bytes × Int))
  | 0, _ => .error .running
  | fuel + 1, last =>
    let next := toInt (find serverIps 44 (toSize last))
    if toSize next = npos then do
      let ipCount ← std (substr serverIps (toSize last) npos)
      let item ← parseItem ipCount
      pure [item]
    else do
      let len ← intResult (next - last)
      let ipCount ← std (substr serverIps (toSize last) (toSize len))
      let item ← parseItem ipCount
      let items ← parseServers serverIps fuel (toInt (toSize (next + 1)))
      pure (item :: items)

end ClientComm

/-! ## The sockets -/

structure Zmq where
  maxSockets : Nat
  accepts : Bytes → Bool

structure Socket where
  id : Nat
  addr : Bytes
  deriving DecidableEq

structure SocketMaps where
  opened : Nat := 0
  dcServerDcSockets : List (Bytes × Socket) := []
  dcServerServeSockets : List (Bytes × Socket) := []

inductive Use where
  | dc
  | serve
  deriving DecidableEq

def Use.basePort : Use → Nat
  | .dc => netDcServerBasePort
  | .serve => netServePort

namespace SocketMaps

def map (c : SocketMaps) : Use → List (Bytes × Socket)
  | .dc => c.dcServerDcSockets
  | .serve => c.dcServerServeSockets

def setMap (c : SocketMaps) (m : List (Bytes × Socket)) : Use → SocketMaps
  | .dc => { c with dcServerDcSockets := m }
  | .serve => { c with dcServerServeSockets := m }

def emplace (use : Use) (key : Bytes) (socket : Socket) (c : SocketMaps) : SocketMaps :=
  if key ∈ (c.map use).map Prod.fst then c else c.setMap (c.map use ++ [(key, socket)]) use

end SocketMaps

abbrev CommM := Exec Empty CommFailure SocketMaps

namespace ClientComm

variable (Z : Zmq)

def endpoint (serverAddr : Bytes) : Bytes := cStr ([116, 99, 112, 58, 47, 47] ++ serverAddr)

def openSocket (serverAddr : Bytes) : CommM Socket := do
  let c ← get
  Exec.check (c.opened < Z.maxSockets) .zmqError
  set { c with opened := c.opened + 1 }
  Exec.check (Z.accepts (endpoint serverAddr)) .zmqError
  pure ⟨c.opened, endpoint serverAddr⟩

def connectAddr (use : Use) (serverAddr : Bytes) : CommM Unit := do
  let socket ← openSocket Z serverAddr
  modify (·.emplace use serverAddr socket)

def serverAddr (ip : Bytes) (port : Nat) : Bytes := ip ++ [58] ++ digitText 10 port

def connectServer (use : Use) (p : Bytes × Int) : CommM Unit := do
  Exec.check (p.2 + initDcServerId ≤ maxInt) .undefined
  (List.range' initDcServerId p.2.toNat).forM fun i => do
    Exec.check (use.basePort + i ≤ maxInt) .undefined
    connectAddr Z use (serverAddr p.1 (use.basePort + i))

def connectServers (use : Use) (serverIpCount : List (Bytes × Int)) : CommM Unit :=
  serverIpCount.forM (connectServer Z use)

def new (ip serverIps : Bytes) (fuel : Nat) : CommM Unit := do
  Exec.check (ip ≠ []) .exit
  Exec.check (serverIps ≠ []) .exit
  match parseServers serverIps fuel 0 with
  | .error e => Exec.abort e
  | .ok serverIpCount => do
    connectServers Z .dc serverIpCount
    connectServers Z .serve serverIpCount

end ClientComm

/-! ## The configuration -/

/-- A server of the configuration: the items are written for addresses without comma and colon, and the
ports end at 65535. -/
@[mk_iff] structure ValidServer (p : Bytes × Nat) : Prop where
  ip : p.1 ≠ []
  comma : 44 ∉ p.1
  colon : 58 ∉ p.1
  ports : 4400 + p.2 ≤ 65535

instance : DecidablePred ValidServer := fun p => decidable_of_iff' _ (validServer_iff p)

def renderItem (p : Bytes × Nat) : Bytes := p.1 ++ 58 :: digitText 10 p.2

def render (servers : List (Bytes × Nat)) : Bytes := [44].intercalate (servers.map renderItem)

def serverAddrs (use : Use) (servers : List (Bytes × Nat)) : List Bytes :=
  servers.flatMap fun p =>
    (List.range' initDcServerId p.2).map fun i => ClientComm.serverAddr p.1 (use.basePort + i)

def pairsOf (servers : List (Bytes × Nat)) : List (Bytes × Int) :=
  servers.map fun p => (p.1, (p.2 : Int))

/-- The maps have one socket for each address, and no others. -/
structure Configured (servers : List (Bytes × Nat)) (c : SocketMaps) : Prop where
  keys : ∀ use key, key ∈ (c.map use).map Prod.fst ↔ ∃ p ∈ servers, ∃ i, 101 ≤ i ∧ i < 101 + p.2 ∧
    key = ClientComm.serverAddr p.1 (use.basePort + i)
  once : ∀ use, ((c.map use).map Prod.fst).Nodup
  sockets : ((c.map .dc ++ c.map .serve).map Prod.snd).Nodup
  connected : ∀ use, ∀ e ∈ c.map use, e.2.addr = ClientComm.endpoint e.1

/-- The loop comes to its end with the list of servers in their order, and the constructor with the
sockets for them. -/
def Configures (Z : Zmq) (ip : Bytes) (servers : List (Bytes × Nat)) : Prop :=
  ∃ n, ∀ fuel, n ≤ fuel →
    ClientComm.parseServers (render servers) fuel 0 = .ok (pairsOf servers) ∧
      ∃ c, ClientComm.new Z ip (render servers) fuel {} = .ok () c ∧ Configured servers c

def EarlyCommas (text : Bytes) : Prop := ∀ i : Nat, text[i]? = some 44 → i + 1 < 2 ^ 31

/-- What the constructor needs: an address of its own, positions that an `int` can hold, room for two
sockets a server, and addresses that ZeroMQ accepts. -/
structure Recoverable (Z : Zmq) (ip : Bytes) (servers : List (Bytes × Nat)) : Prop where
  client : ip ≠ []
  commas : EarlyCommas (render servers)
  lastIp : ∀ p ∈ servers.getLast?, p.1.length + 1 < 2 ^ 31
  room : 2 * (servers.map Prod.snd).sum ≤ Z.maxSockets
  accepted : ∀ use, ∀ addr ∈ serverAddrs use servers, Z.accepts (ClientComm.endpoint addr) = true

end DcfsClient
