import DcfsClient.Exec
import DcfsClient.Capsule

/-!
# The client of the DataCapsule servers: `dc_client.cpp` and `client_comm.cpp`

`DCClient` is used from two sides. The caller's `Put` and `Get` insert an entry into a status map, send
a message if the entry is new, and wait until the entry is done; `putBegin` and `getBegin` are what
comes before the wait, `putEnd` and `getEnd` what comes after it. The listen thread handles one message
at a time: `handleAck` counts acks in a map that is never reset and calls `CommitAck` when the count is
equal to the threshold, `handleGetResp` hands a successful response to `CommitGetResp` or to
`CommitFreshResp`.

The entry of a `Get` is found again by the hash of the response and by whether the record in it came
with a payload. Entries of `Put` are erased when it returns; entries of `Get` stay and are the
client's record cache.
-/

namespace DcfsClient

structure DCGetOptions where
  isFreshReq : Bool
  isMetaonlyReq : Bool
  deriving DecidableEq

structure ClientGetRequest where
  hash : Bytes
  replyAddr : Bytes
  freshReq : Bool
  metaonlyReq : Bool

structure ClientGetResponse where
  success : Bool := false
  hash : Bytes := []
  record : CapsulePDU := {}
  freshResp : Bool := false
  freshHashes : List Bytes := []

structure FreshHashesContainer where
  freshHashes : List Bytes

/-- The platform of a client, the codec of `request.proto`, and the configuration of the network:
`WRITE_THRESHOLD`, the address that get responses are sent to, and the servers that are connected for
writing and for reading. -/
structure Network extends Platform where
  serializeGetRequest : ClientGetRequest → Bytes
  parseGetResponse : Bytes → ClientGetResponse
  serializeFreshHashes : FreshHashesContainer → Bytes
  writeThreshold : Nat
  recvGetRespAddr : Bytes
  dcServers : List Bytes
  serveServers : List Bytes

def replicationAck : Bytes :=
  [82, 69, 80, 76, 73, 67, 65, 84, 73, 79, 78, 95, 65, 67, 75]

def intMax : Nat := 2 ^ 31 - 1

structure PutStatus where
  done : Bool := false
  ret : Int := 0

structure GetStatus where
  done : Bool := false
  ret : Int := 0
  srlPdu : Option Bytes := none
  isFreshReq : Bool
  isMetaonlyReq : Bool

/-- The maps of `DCClient` and `ClientComm`, and two logs that no call reads, newest first: the messages
handed to sockets and the hashes that `CommitAck` was called with. -/
structure DCClient where
  putStatus : Bytes → Option PutStatus := fun _ => none
  getStatus : Bytes × Bool → Option GetStatus := fun _ => none
  recvAckMap : Bytes → Nat := fun _ => 0
  sent : List (Bytes × Bytes) := []
  commits : List Bytes := []

/-- The assertions of `Get` and `handle_ack`, and what C++ leaves undefined: an `int` overflow, a null
entry, a remainder by zero. -/
inductive ClientAbort where
  | getOptions
  | ackType
  | undefined
  deriving DecidableEq

abbrev ClientM := Exec Empty ClientAbort DCClient

/-! ## The sending side of `ClientComm` -/

namespace ClientComm

def mcastDc (N : Network) (msg : Bytes) : ClientM Unit :=
  modify fun s => { s with sent := N.dcServers.map (·, msg) ++ s.sent }

def sendGetReq (N : Network) (rand : Nat) (msg : Bytes) : ClientM Unit := do
  let addr ← Exec.orAbort N.serveServers[rand % N.serveServers.length]? .undefined
  modify fun s => { s with sent := (addr, msg) :: s.sent }

end ClientComm

/-! ## `DCClient` -/

namespace DCClient

def putBegin (N : Network) (hash srlPdu : Bytes) : ClientM Unit := do
  let s ← get
  if (s.putStatus hash).isNone then do
    set { s with putStatus := Function.update s.putStatus hash (some {}) }
    ClientComm.mcastDc N srlPdu

/-- A non-zero `ret` is only logged. -/
def putEnd (hash : Bytes) : ClientM Unit := do
  let s ← get
  let _ ← Exec.orAbort (s.putStatus hash) .undefined
  set { s with putStatus := Function.update s.putStatus hash none }

def getBegin (N : Network) (rand : Nat) (hash : Bytes) (opt : DCGetOptions) : ClientM Unit := do
  Exec.check (!opt.isFreshReq || hash.length == 0) .getOptions
  Exec.check (!(opt.isFreshReq && opt.isMetaonlyReq)) .getOptions
  let gops : GetStatus := { isFreshReq := opt.isFreshReq, isMetaonlyReq := opt.isMetaonlyReq }
  let gk := (hash, opt.isMetaonlyReq)
  let s ← get
  if (s.getStatus gk).isNone then do
    set { s with getStatus := Function.update s.getStatus gk (some gops) }
    let outReq : ClientGetRequest :=
      { hash := hash, replyAddr := N.recvGetRespAddr, freshReq := gops.isFreshReq,
        metaonlyReq := gops.isMetaonlyReq }
    ClientComm.sendGetReq N rand (N.serializeGetRequest outReq)

def getEnd (hash : Bytes) (opt : DCGetOptions) : ClientM (Option Bytes) := do
  let s ← get
  let gops ← Exec.orAbort (s.getStatus (hash, opt.isMetaonlyReq)) .undefined
  pure (if gops.ret = 0 then gops.srlPdu else none)

def commitAck (hash : Bytes) : ClientM Bool := do
  modify fun s => { s with commits := hash :: s.commits }
  let s ← get
  match s.putStatus hash with
  | none => pure false
  | some pops => do
    let pops := { pops with done := true, ret := 0 }
    set { s with putStatus := Function.update s.putStatus hash (some pops) }
    pure true

/-- The entry under `gk` is answered with `srlPdu`: what `CommitGetResp` and `CommitFreshResp` share. -/
def commitAnswer (gk : Bytes × Bool) (srlPdu : Bytes) : ClientM Bool := do
  let s ← get
  match s.getStatus gk with
  | none => pure false
  | some gops => do
    let gops := { gops with done := true, ret := 0, srlPdu := some srlPdu }
    set { s with getStatus := Function.update s.getStatus gk (some gops) }
    pure true

def commitGetResp (N : Network) (hash : Bytes) (pdu : CapsulePDU) : ClientM Bool :=
  let isMetaonlyReq := pdu.payloadInTransit.length == 0
  commitAnswer (hash, isMetaonlyReq) (N.serialize pdu)

def commitFreshResp (N : Network) (hash : Bytes) (fhc : FreshHashesContainer) : ClientM Bool :=
  commitAnswer (hash, false) (N.serializeFreshHashes fhc)

end DCClient

/-! ## The listening side of `ClientComm` -/

namespace ClientComm

def handleAck (N : Network) (msg : Bytes) : ClientM Unit := do
  let ackDc := N.parse msg
  Exec.check (ackDc.header.msgtype == replicationAck) .ackType
  let s ← get
  let acks := s.recvAckMap ackDc.headerHash + 1
  Exec.check (acks ≤ intMax) .undefined
  set { s with recvAckMap := Function.update s.recvAckMap ackDc.headerHash acks }
  if acks = N.writeThreshold then do
    -- an unknown hash is only logged
    let _ ← DCClient.commitAck ackDc.headerHash

def handleGetResp (N : Network) (msg : Bytes) : ClientM Unit := do
  let resp := N.parseGetResponse msg
  if resp.freshResp then
    if resp.success then do
      let _ ← DCClient.commitFreshResp N resp.hash ⟨resp.freshHashes⟩
  else
    if resp.success then do
      let _ ← DCClient.commitGetResp N resp.hash resp.record

end ClientComm

/-! ## `DCServerNet` of `backend_real.cpp` -/

inductive ClientCall where
  | put (hash srlPdu : Bytes)
  | get (hash : Bytes) (opt : DCGetOptions)
  deriving DecidableEq

namespace DCServerNet

def readRecordCall (recordname : Bytes) : ClientCall := .get recordname ⟨false, false⟩

/-- What `ReadRecord` makes of the pointer that `Get` returned, for a buffer of `cap` bytes. -/
def readRecordEnd (out : Option Bytes) (cap : Nat) : Except (Exit ErrT Abort) Bytes :=
  match out with
  | none => .error (.err errIo)
  | some out => if out.length ≤ cap then .ok out else .error (.abort .recordFits)

def writeRecordCall (recordname buf : Bytes) : ClientCall := .put recordname buf

end DCServerNet

end DcfsClient
