import DcfsClient.CStrings
import DcfsClient.StorageBackend

/-!
# Open files: `Inode` and `RecordCache` of `inode.cpp`

The two source classes point at each other and always live and die together, so one structure holds
the fields of both. A `Session` is an open file together with the backend it talks to; every method
runs on a session, so that what it does to the cache before it fails is not lost.

`Read` and `Write` split the requested range in the same three ways. `copyPieces` is that split, a
list of block, offset and length in the order of the caller's buffer, and the two methods differ in
the direction of the copy. The last piece of a split range is one byte longer than the request: the
source copies `ed_offset + 1` bytes. Caller buffers are `Mem`, so a copy past their end reads
whatever is there.
-/

namespace DcfsClient

structure CStat where
  cached : Bool := false
  dirty : Bool := false
  deriving DecidableEq

structure Inode where
  hashname : Bytes
  inoRecordname : Bytes
  size : Nat
  blockSize : Nat
  bmCover : Nat
  bmRecordname : Bytes
  aesKey : Bytes
  refCount : Nat
  dcacheStats : List CStat
  dcacheBlocks : List (Option Mem)
  bm : Option Mem

namespace Inode

def load (hashname inoRecordname bmRecordname : Bytes) (blockSizeInKb bmCover iSize : Nat)
    (aesKey : Bytes) : Inode where
  hashname := hashname
  inoRecordname := inoRecordname
  size := iSize
  blockSize := blockSizeInKb * 1024
  bmCover := bmCover
  bmRecordname := bmRecordname
  aesKey := aesKey
  refCount := 0
  dcacheStats := List.replicate (iSize / (blockSizeInKb * 1024) + 1) {}
  dcacheBlocks := List.replicate (iSize / (blockSizeInKb * 1024) + 1) none
  bm := none

def fresh (hashname : Bytes) (blockSizeInKb bmCover : Nat) (aesKey : Bytes) : Inode :=
  load hashname [] [] blockSizeInKb bmCover 0 aesKey

def setStat (ino : Inode) (blk : Nat) (stat : CStat) : Inode :=
  { ino with dcacheStats := ino.dcacheStats.set blk stat }

def setBlock (ino : Inode) (blk : Nat) (block : Mem) : Inode :=
  { ino with dcacheBlocks := ino.dcacheBlocks.set blk (some block) }

def isDirty (ino : Inode) (blk : Nat) : Bool := ino.dcacheStats[blk]?.any (·.dirty)

def dirtyCount (ino : Inode) : Nat := ino.dcacheStats.countP (·.dirty)

/-- The block size as `FlushCache` passes it to `encrypt_symmetric`. -/
def inlen (ino : Inode) : Int := CString.toInt ino.blockSize

def SendsNothing (ino : Inode) : Prop := ino.dirtyCount = 0 ∨ ino.inlen < 0

section Length

variable {ino : Inode}

theorem inlen_of_lt (h : ino.blockSize < 2 ^ 31) : ino.inlen = ino.blockSize :=
  CString.toInt_natCast h

/-- A number of KiB leaves room for the padding. -/
theorem add_aesPadLen_lt {kb : Nat} (h : kb * 1024 < 2 ^ 31) : kb * 1024 + aesPadLen < 2 ^ 31 := by
  unfold aesPadLen
  generalize hn : kb * 1024 = n at *
  omega

/-- A block of 2 GiB or more does not pass as it is: what is left of its size is less, and still a number
of KiB. -/
theorem inlen_of_le {kb : Nat} (hbs : ino.blockSize = kb * 1024) (h : 2 ^ 31 ≤ kb * 1024) :
    ino.inlen.toNat < ino.blockSize ∧ ino.inlen.toNat + aesPadLen < 2 ^ 31 := by
  have hadd := Int.bmod_add_bdiv (ino.blockSize : Int) (2 ^ 32)
  have hrange := CString.toInt_range ino.blockSize
  have hmoved : ino.inlen + 2 ^ 32 ≤ ino.blockSize := by
    apply CString.toInt_add_le
    rw [hbs]
    unfold CString.maxInt
    omega
  unfold CString.maxInt CString.minInt at hrange
  unfold inlen CString.toInt aesPadLen at *
  rw [hbs] at *
  omega

end Length

end Inode

structure Session where
  ino : Inode
  be : Backend

def Session.withEnv (s : Session) (e : Env) : Session := { s with be := { s.be with env := e } }

abbrev CacheM := Exec ErrT Abort Session

def onBackend {α : Type} (m : BackendM α) : CacheM α :=
  Exec.zoom Session.be (fun be s => { s with be := be }) m

def onInode (f : Inode → Inode) : CacheM Unit := modify fun s => { s with ino := f s.ino }

section Rules

variable {α : Type} {s : Session} {E : Exit ErrT Abort → Session → Prop}

@[simp] theorem wp_onBackend {Q : α → Session → Prop} (m : BackendM α) :
    Exec.wp (onBackend m) Q E s ↔
      Exec.wp m (fun a be => Q a { s with be := be }) (fun x be => E x { s with be := be }) s.be :=
  Exec.wp_zoom _ _ _

@[simp] theorem wp_onInode {Q : Unit → Session → Prop} (f : Inode → Inode) :
    Exec.wp (onInode f) Q E s ↔ Q () { s with ino := f s.ino } := Iff.rfl

end Rules

/-- The call of `encrypt_symmetric`, whose length is an `int`. OpenSSL refuses a negative one. -/
def Platform.encryptSymmetric (P : Platform) (key : Bytes) (inbuf : Mem) (inlen : Int) :
    BackendM Bytes := do
  fallible errCrypto
  Exec.failIf (inlen < 0) errCrypto
  pure (P.encrypt key (inbuf.bytesAt 0 inlen.toNat))

def strcmpEq : Bytes → Bytes → Bool
  | a :: as, b :: bs => a == b && (a == 0 || strcmpEq as bs)
  | _, _ => true

structure Piece where
  block : Nat
  off : Nat
  len : Nat
  deriving DecidableEq

def copyPieces (blockSize offset size : Nat) : List Piece :=
  let stBlock := offset / blockSize
  let edBlock := u64 (offset + size) / blockSize
  let stOffset := offset % blockSize
  let edOffset := u64 (offset + size) % blockSize
  if stBlock = edBlock then [⟨stBlock, stOffset, size⟩]
  else if stBlock + 1 = edBlock then
    [⟨stBlock, stOffset, blockSize - stOffset⟩, ⟨edBlock, 0, edOffset + 1⟩]
  else
    ⟨stBlock, stOffset, blockSize - stOffset⟩ ::
      ((List.range' (stBlock + 1) (edBlock - (stBlock + 1))).map (⟨·, 0, blockSize⟩) ++
        [⟨edBlock, 0, edOffset + 1⟩])

namespace RecordCache

variable (P : Platform)

def fillBmcache : CacheM Unit := do
  let s ← get
  if s.ino.bm.isNone ∧ 0 < s.ino.bmRecordname.length then do
    let size := hashLen * s.ino.bmCover
    let zeros := Mem.memset (fun _ => P.junk) 0 size
    onInode fun ino => { ino with bm := some zeros }
    let data ← onBackend
      (StorageBackend.readRecordData P s.ino.hashname s.ino.bmRecordname size)
    onInode fun ino => { ino with bm := some (zeros.place data) }
  else pure ()

def bmCheck (ino : Inode) (blkIdx : Nat) : Option Bytes :=
  match ino.bm with
  | none => none
  | some bm =>
    if ino.bmCover ≤ blkIdx then none
    else
      let ret := Mem.bytesAt bm (blkIdx * hashLen) hashLen
      if strcmpEq ret (List.replicate hashLen 0) then none else some ret

/-- The block pushed when the loop of `fillDcache` runs past the vectors. -/
def growTo (ino : Inode) (blkIdx : Nat) : Inode :=
  if ino.dcacheStats.length ≤ blkIdx then
    { ino with dcacheStats := ino.dcacheStats ++ [{}], dcacheBlocks := ino.dcacheBlocks ++ [none] }
  else ino

def fillBlock (blkIdx : Nat) : CacheM Unit := do
  onInode (growTo · blkIdx)
  let s ← get
  let stat ← Exec.orAbort s.ino.dcacheStats[blkIdx]? .undefined
  if stat.cached then pure ()
  else do
    onInode (·.setBlock blkIdx fun _ => P.junk)
    match bmCheck s.ino blkIdx with
    | some recordname => do
      let data ← onBackend (StorageBackend.readRecordData P s.ino.hashname recordname
        (s.ino.blockSize + aesPadLen))
      onInode (·.setBlock blkIdx (Mem.place (fun _ => P.junk) (P.decrypt s.ino.aesKey data)))
    | none => onInode (·.setBlock blkIdx (Mem.memset (fun _ => P.junk) 0 s.ino.blockSize))
    onInode (·.setStat blkIdx { stat with cached := true })

def fillDcache (offset size : Nat) : CacheM Unit := do
  let s ← get
  let stBlock := min (offset / s.ino.blockSize) s.ino.dcacheStats.length
  let edBlock := u64 (offset + size) / s.ino.blockSize
  fillBmcache P
  (List.range' stBlock (edBlock + 1 - stBlock)).forM (fillBlock P)

def blockOf (ino : Inode) (p : Piece) : CacheM Mem := do
  let block ← Exec.orAbort (ino.dcacheBlocks[p.block]?).join .undefined
  Exec.check (p.off + p.len ≤ ino.blockSize + aesPadLen) .undefined
  pure block

def readPieces : Mem → Nat → List Piece → CacheM Mem
  | buf, _, [] => pure buf
  | buf, cur, p :: ps => do
    let s ← get
    let block ← blockOf s.ino p
    readPieces (Mem.memcpy buf cur block p.off p.len) (cur + p.len) ps

def writePieces (buf : Mem) : Nat → List Piece → CacheM Unit
  | _, [] => pure ()
  | cur, p :: ps => do
    let s ← get
    let block ← blockOf s.ino p
    let stat ← Exec.orAbort s.ino.dcacheStats[p.block]? .undefined
    onInode fun ino => (ino.setBlock p.block (Mem.memcpy block p.off buf cur p.len)).setStat
      p.block { stat with dirty := true }
    writePieces buf (cur + p.len) ps

def read (buf : Mem) (offset size : Nat) : CacheM Mem := do
  Exec.check (0 < size) .requestSize
  let s ← get
  fillDcache P offset size
  readPieces buf 0 (copyPieces s.ino.blockSize offset size)

/-- The result of the fill is returned at the end, after the copy. -/
def write (buf : Mem) (offset size : Nat) : CacheM Unit := do
  Exec.check (0 < size) .requestSize
  let s ← get
  let ret ← Exec.attempt (fillDcache P offset size)
  writePieces buf 0 (copyPieces s.ino.blockSize offset size)
  match ret with
  | .ok _ => pure ()
  | .error e => Exec.fail e

def collectDirty (ino : Inode) : List Nat → BackendM (List BufDesc)
  | [] => pure []
  | blkIdx :: rest =>
    if ino.isDirty blkIdx then do
      let block ← Exec.orAbort (ino.dcacheBlocks[blkIdx]?).join .undefined
      let encryptedBuf ← P.encryptSymmetric ino.aesKey block ino.inlen
      let descs ← collectDirty ino rest
      pure (⟨encryptedBuf, u64 (blkIdx * ino.blockSize)⟩ :: descs)
    else collectDirty ino rest

def dropCaches (ino : Inode) : Inode :=
  { ino with
    dcacheStats := ino.dcacheStats.map fun _ => {}
    dcacheBlocks := ino.dcacheBlocks.map fun _ => none }

def flushCache : CacheM Unit := do
  let s ← get
  let descVec ← onBackend (collectDirty P s.ino (List.range s.ino.dcacheStats.length))
  onBackend (StorageBackend.writeRecord P s.ino.hashname descVec s.ino.inoRecordname s.ino.aesKey)
  onInode dropCaches

end RecordCache

namespace Inode

variable (P : Platform)

/-- The caller's buffer afterwards and `*read_size`, which is not written past the end of file. -/
def read (buf : Mem) (offset size : Nat) : CacheM (Mem × Option Nat) := do
  let s ← get
  if s.ino.size ≤ offset then pure (buf, none)
  else do
    let readSize := if s.ino.size < u64 (offset + size) then s.ino.size - offset else size
    let buf' ← RecordCache.read P buf offset readSize
    pure (buf', some readSize)

def write (buf : Mem) (offset size : Nat) : CacheM Nat := do
  let s ← get
  let offset' := if s.ino.size ≤ offset then s.ino.size else offset
  RecordCache.write P buf offset' size
  onInode fun ino =>
    if ino.size < u64 (offset' + size) then { ino with size := u64 (offset' + size) } else ino
  pure size

def ref (ino : Inode) : Inode := { ino with refCount := ino.refCount + 1 }

/-- The new count. The result of the flush is not looked at. -/
def unref : CacheM Nat := do
  let s ← get
  Exec.check (0 < s.ino.refCount) .refCount
  onInode fun ino => { ino with refCount := ino.refCount - 1 }
  if s.ino.refCount - 1 = 0 then do
    let _ ← Exec.attempt (RecordCache.flushCache P)
    pure (s.ino.refCount - 1)
  else pure (s.ino.refCount - 1)

end Inode

end DcfsClient
