import DcfsClient.Memory

/-!
# DataCapsule records and the platform that makes them

The constants of `const.hpp`, `backend.hpp`, `crypto.hpp` and `errno.hpp`, the protobuf messages of
`capsule.proto` with the fields the client sets or reads, and what the client takes from libraries it
does not contain: SHA-256, AES-128-CBC, ECDSA and the protobuf codec. `Platform` collects these as
functions, `Platform.Lawful` the documented behaviour the client relies on.

A `Draft` is a record as `DCFSMidSim::composeRecord` builds it; its name is the hash of its header.
-/

namespace DcfsClient

def hashLen : Nat := 32
def aesKeyLen : Nat := 16
def aesPadLen : Nat := 16
def defaultBlockSizeInKb : Nat := 16
def blockmapCover : Nat := defaultBlockSizeInKb * 1024 / hashLen
def fdTableMax : Nat := 256

def spareHashSpace : Nat := 32 * 10
def recordHeaderSize : Nat := 256
def maxInodeRecordSize : Nat := 1024
def maxBlockmapRecordSize : Nat := 1024 + 32 * blockmapCover
def inodeAesKeyOffset : Nat := 8

/-- The block the middleware counts in, whatever the mount option says. -/
def midBlockSize : Nat := defaultBlockSizeInKb * 1024

abbrev ErrT := Int

def errNotFound : ErrT := -1
def errIo : ErrT := -5
def errBufTooSmall : ErrT := -6
def errVerify : ErrT := -7
def errCrypto : ErrT := -8
def errSign : ErrT := -9

/-- What ends the process: the assertions of the client, undefined behaviour (an index out of range,
a null or uninitialised pointer), or somebody stopping it. -/
inductive Abort where
  | recordFits
  | prevhashSize
  | keyLength
  | requestSize
  | refCount
  | undefined
  | stopped
  deriving DecidableEq

def u64 (n : Nat) : Nat := n % 2 ^ 64

theorem u64_of_lt {n : Nat} (h : n < 2 ^ 64) : u64 n = n := Nat.mod_eq_of_lt h

inductive RecordType where
  | capsuleMeta
  | directory
  | inode
  | blockmap
  | datablock
  deriving DecidableEq

def recordTypeToString : RecordType → Bytes
  | .capsuleMeta => [77, 69, 84, 65]
  | .directory => [68, 73, 82, 69, 67, 84, 79, 82, 89]
  | .inode => [73, 78, 79, 68, 69]
  | .blockmap => [66, 76, 79, 67, 75, 77, 65, 80]
  | .datablock => [68, 65, 84, 65, 66, 76, 79, 67, 75]

theorem recordTypeToString_injective : Function.Injective recordTypeToString := by
  intro a b h
  cases a <;> cases b <;> first | rfl | (simp [recordTypeToString] at h)

structure CapsuleHeader where
  sender : Nat := 0
  prevhash : List Bytes := []
  hash : Bytes := []
  timestamp : BitVec 64 := 0
  msgtype : Bytes := []
  replyaddr : Bytes := []
  deriving DecidableEq

structure CapsulePDU where
  header : CapsuleHeader := {}
  headerHash : Bytes := []
  signature : Bytes := []
  payloadInTransit : Bytes := []
  deriving DecidableEq

/-- The libraries and the fixed configuration of one client process. `decrypt` is what ends up in the
output buffer; `junk` is the byte that freshly allocated memory holds. -/
structure Platform where
  hash256 : Bytes → Bytes
  serializeHeader : CapsuleHeader → Bytes
  serialize : CapsulePDU → Bytes
  parse : Bytes → CapsulePDU
  encrypt : Bytes → Bytes → Bytes
  decrypt : Bytes → Bytes → Bytes
  sign : Bytes → Bytes
  verify : Bytes → Bytes → Bool
  symmetricMiddlewareKey : Bytes
  replyaddr : Bytes
  junk : UInt8

def zeroString : Bytes := [48]

/-- What `composeRecord` is called with, and the clock reading it takes. -/
structure Draft where
  type : RecordType
  prevhash : List Bytes
  payload : Option Bytes
  timestamp : BitVec 64
  deriving DecidableEq

namespace Draft

variable (P : Platform) (r : Draft)

def header : CapsuleHeader where
  sender := 0
  prevhash := r.prevhash
  hash := r.payload.elim zeroString P.hash256
  timestamp := r.timestamp
  msgtype := recordTypeToString r.type
  replyaddr := P.replyaddr

def name : Bytes := P.hash256 (P.serializeHeader (r.header P))

def pdu : CapsulePDU where
  header := r.header P
  headerHash := r.name P
  signature := zeroString
  payloadInTransit := r.payload.getD []

def bytes : Bytes := P.serialize (r.pdu P)

def strings : List Bytes := P.serializeHeader (r.header P) :: r.payload.toList

end Draft

/-- Documented behaviour of the libraries. Lengths of ciphertexts are an `int`. `header_fits` is the
room the read buffers leave for a record's header and its one or two previous hashes. -/
structure Platform.Lawful (P : Platform) : Prop where
  hash_length : ∀ b, (P.hash256 b).length = hashLen
  header_injective : Function.Injective P.serializeHeader
  parse_serialize : ∀ p, P.parse (P.serialize p) = p
  parse_nil : P.parse [] = {}
  decrypt_encrypt : ∀ k b, b.length + aesPadLen < 2 ^ 31 → P.decrypt k (P.encrypt k b) = b
  encrypt_length : ∀ k b, b.length + aesPadLen < 2 ^ 31 → b.length % 16 = 0 →
    (P.encrypt k b).length = b.length + aesPadLen
  verify_sign : ∀ d, P.verify d (P.sign d) = true
  header_fits : ∀ r : Draft, r.prevhash.length ≤ 2 → (∀ h ∈ r.prevhash, h.length = hashLen) →
    (r.bytes P).length ≤ (r.payload.getD []).length + (recordHeaderSize + spareHashSpace)

def Platform.CollisionFree (P : Platform) (hashed : List Bytes) : Prop :=
  ∀ x ∈ hashed, ∀ y ∈ hashed, P.hash256 x = P.hash256 y → x = y

theorem Platform.CollisionFree.of_subset {P : Platform} {l l' : List Bytes}
    (h : P.CollisionFree l') (hsub : l ⊆ l') : P.CollisionFree l :=
  fun x hx y hy => h x (hsub hx) y (hsub hy)

theorem Platform.CollisionFree.of_nodup {P : Platform} {l : List Bytes}
    (h : (l.dedup.map P.hash256).Nodup) : P.CollisionFree l :=
  fun _ hx _ hy he =>
    List.inj_on_of_nodup_map h (List.mem_dedup.mpr hx) (List.mem_dedup.mpr hy) he

/-- Two processes with the same SHA-256 and the same protobuf library; their keys and addresses may
differ. -/
structure Platform.SharesNames (P P' : Platform) : Prop where
  hash256 : P'.hash256 = P.hash256
  serializeHeader : P'.serializeHeader = P.serializeHeader

/-- Without collisions a name belongs to one record: the header is recovered from the name and the
payload from the hash in the header. -/
theorem Draft.eq_of_shared_name {P P' : Platform} (hP : P.Lawful) (hs : P.SharesNames P')
    {l : List Bytes} (hl : P.CollisionFree l) {r r' : Draft} (hr : r.strings P ⊆ l)
    (hr' : r'.strings P' ⊆ l) (h : r.name P = r'.name P') : r = r' ∧ P.replyaddr = P'.replyaddr := by
  unfold Draft.name at h
  rw [hs.hash256, hs.serializeHeader] at h
  have hmem : P.serializeHeader (r'.header P') ∈ l := by
    rw [← hs.serializeHeader]
    exact hr' (by simp [strings])
  have hbytes := hl _ (hr (by simp [strings])) _ hmem h
  have hheader := hP.header_injective hbytes
  simp only [header, CapsuleHeader.mk.injEq, true_and, hs.hash256] at hheader
  obtain ⟨hprev, hhash, htime, htype, haddr⟩ := hheader
  have htype := recordTypeToString_injective htype
  have hzero : ∀ b, P.hash256 b ≠ zeroString := by
    intro b he
    have hlen := hP.hash_length b
    rw [he] at hlen
    cases hlen
  have hpayload : r.payload = r'.payload := by
    cases hp : r.payload with
    | none =>
        cases hp' : r'.payload with
        | none => rfl
        | some b' => exact absurd (by simpa [hp, hp'] using hhash.symm) (hzero b')
    | some b =>
        cases hp' : r'.payload with
        | none => exact absurd (by simpa [hp, hp'] using hhash) (hzero b)
        | some b' =>
            have he : P.hash256 b = P.hash256 b' := by simpa [hp, hp'] using hhash
            rw [hl b (hr (by simp [strings, hp])) b' (hr' (by simp [strings, hp'])) he]
  refine ⟨?_, haddr⟩
  cases r
  cases r'
  simp_all

theorem Draft.eq_of_name_eq {P : Platform} (hP : P.Lawful) {l : List Bytes}
    (hl : P.CollisionFree l) {r r' : Draft} (hr : r.strings P ⊆ l) (hr' : r'.strings P ⊆ l)
    (h : r.name P = r'.name P) : r = r' :=
  (Draft.eq_of_shared_name hP ⟨rfl, rfl⟩ hl hr hr' h).1

theorem Draft.name_ne_nil {P : Platform} (hP : P.Lawful) (r : Draft) : r.name P ≠ [] := by
  intro h
  have hlen := hP.hash_length (P.serializeHeader (r.header P))
  change (r.name P).length = hashLen at hlen
  rw [h] at hlen
  cases hlen

theorem Draft.length_name {P : Platform} (hP : P.Lawful) (r : Draft) :
    (r.name P).length = hashLen := hP.hash_length _

end DcfsClient
