import DcfsClient.Store

/-!
# The middleware: `DCFSMidSim` of `backend_sim.cpp`

Each operation is translated in the order of its source. `Modify` is cut where the source has its
section comments: check the request, read the current inode and blockmap records, push the data
blocks, push the blockmap, push the inode, and only then move the index. The names of the parts are
the source's variables.

Two things are worth noticing while comparing. The old inode record is read only for its blockmap
hash and its (still encrypted) key, so `isize` of the working copy stays `0`; and the operator `[]`
of the index inserts an empty entry for an unknown capsule before the existence test runs.
-/

namespace DcfsClient

/-- `buf_desc_t` as `Modify` receives it; its size is the length of `buf`. -/
structure BufDesc where
  buf : Bytes
  fileOffset : Nat
  deriving DecidableEq

structure InodeRecord where
  isize : Nat := 0
  blockmapHash : Bytes := []
  key : Bytes := []

structure BlockMapRecord where
  dataHashes : List Bytes := []
  hashToLatestDataBlock : Bytes := []

def indexAt (dcname : Bytes) : BackendM Bytes :=
  modifyGet fun b => match b.index dcname with
    | some recordname => (recordname, b)
    | none => ([], b.setIndex dcname [])

def assignIndex (dcname recordname : Bytes) : BackendM Unit :=
  modify (·.setIndex dcname recordname)

namespace DCFSMidSim

variable (P : Platform)

def composeRecord (type : RecordType) (hashes : List Bytes) (inDesc : Option Bytes) :
    BackendM (Bytes × Bytes) := do
  let payloadHash ← inDesc.elim (pure zeroString) (hashPart P)
  let timestamp ← now
  let header : CapsuleHeader :=
    { sender := 0, prevhash := hashes, hash := payloadHash, timestamp := timestamp,
      msgtype := recordTypeToString type, replyaddr := P.replyaddr }
  let hashname ← hashPart P (P.serializeHeader header)
  let pdu : CapsulePDU :=
    { header := header, headerHash := hashname, signature := zeroString,
      payloadInTransit := inDesc.getD [] }
  pure (P.serialize pdu, hashname)

def createNew : BackendM (Bytes × Bytes) := do
  let (record, hashname) ← composeRecord P .capsuleMeta [] none
  writeRecord hashname hashname record
  assignIndex hashname []
  let b ← get
  pure (hashname, Mem.bytesAt b.env.aesKey 0 aesKeyLen)

def getInodeName (hashname sig : Bytes) : BackendM Bytes := do
  Exec.failIf (!P.verify (P.hash256 hashname) sig) errVerify
  let b ← get
  match b.index hashname with
  | none => Exec.fail errNotFound
  | some recordname => pure recordname

def modifyArgs (dcname : Bytes) (descs : List BufDesc) (inodeHash aesKey : Bytes) : Bytes :=
  dcname ++ descs.flatMap BufDesc.buf ++ inodeHash ++ aesKey

/-- The working copies `inode_record` and `blockmap_record`. -/
def readCurrent (dcname current aesKey : Bytes) : BackendM (InodeRecord × BlockMapRecord) :=
  if current ≠ [] then do
    let record ← readRecord dcname current maxInodeRecordSize
    let inoPdu := P.parse record
    let blockmapHash ← Exec.orAbort inoPdu.header.prevhash[1]? .undefined
    let key := (inoPdu.payloadInTransit.drop inodeAesKeyOffset).take aesKeyLen
    let record ← readRecord dcname blockmapHash maxBlockmapRecordSize
    let bmPdu := P.parse record
    let latest ← Exec.orAbort bmPdu.header.prevhash[1]? .undefined
    pure ({ blockmapHash := blockmapHash, key := key },
      { dataHashes := chunks hashLen bmPdu.payloadInTransit, hashToLatestDataBlock := latest })
  else pure ({ key := aesKey.take aesKeyLen }, {})

def pushRecord (dcname : Bytes) (type : RecordType) (hashes : List Bytes) (payload : Bytes) :
    BackendM Bytes := do
  let (record, name) ← composeRecord P type hashes (some payload)
  writeRecord dcname name record
  pure name

/-- The loop over `descs`; `dataBlockHashname` is the name pushed last, empty before the first. -/
def pushDataBlocks (dcname latest : Bytes) : Bytes → List BufDesc → BackendM (List (Nat × Bytes))
  | _, [] => pure []
  | dataBlockHashname, desc :: descs => do
    let hash := if dataBlockHashname = [] then (if latest ≠ [] then latest else dcname)
      else dataBlockHashname
    let name ← pushRecord P dcname .datablock [hash] desc.buf
    let rest ← pushDataBlocks dcname latest name descs
    pure ((desc.fileOffset, name) :: rest)

def placeBlock (isize : Nat) (dataHashes : List Bytes) (block : Nat × Bytes) :
    Option (List Bytes) :=
  if block.1 < isize then
    if block.1 / midBlockSize < dataHashes.length then
      some (dataHashes.set (block.1 / midBlockSize) block.2)
    else none
  else some (dataHashes ++ [block.2])

def pushBlockmap (dcname : Bytes) (inode : InodeRecord) (blockmap : BlockMapRecord)
    (newDataBlocks : List (Nat × Bytes)) : BackendM Bytes := do
  let latest ← Exec.orAbort newDataBlocks.getLast? .undefined
  let previous := if inode.blockmapHash ≠ [] then inode.blockmapHash else dcname
  let dataHashes ← Exec.orAbort
    (newDataBlocks.foldlM (placeBlock inode.isize) blockmap.dataHashes) .undefined
  pushRecord P dcname .blockmap [previous, latest.2] (dataHashes.flatMap (·.take hashLen))

def pushInode (dcname current : Bytes) (inode : InodeRecord) (newBlockmapHashname : Bytes)
    (count : Nat) : BackendM Bytes := do
  let previous := if current ≠ [] then current else dcname
  let size := u64 (count * defaultBlockSizeInKb * 1024)
  let isize := if inode.isize ≤ size then size else inode.isize
  let encrypted := P.encrypt P.symmetricMiddlewareKey inode.key
  Exec.check (encrypted.length = aesKeyLen + aesPadLen) .keyLength
  pushRecord P dcname .inode [previous, newBlockmapHashname] (leBytes 8 isize ++ encrypted)

def modify (dcname : Bytes) (descs : List BufDesc) (inodeHash aesKey sig : Bytes) :
    BackendM Unit := do
  Exec.failIf (!P.verify (P.hash256 (modifyArgs dcname descs inodeHash aesKey)) sig) errVerify
  let current ← indexAt dcname
  Exec.failIf (inodeHash ≠ current) (-1)
  let b ← get
  Exec.failIf (b.index dcname).isNone errNotFound
  let (inode, blockmap) ← readCurrent P dcname current aesKey
  let newDataBlocks ← pushDataBlocks P dcname blockmap.hashToLatestDataBlock [] descs
  let newBlockmapHashname ← pushBlockmap P dcname inode blockmap newDataBlocks
  let newInodeHashname ← pushInode P dcname current inode newBlockmapHashname descs.length
  assignIndex dcname newInodeHashname

def decryptAESKey (encryptedKey : Bytes) : BackendM Bytes := do
  let aesKey := P.decrypt P.symmetricMiddlewareKey encryptedKey
  Exec.check (aesKey.length = aesKeyLen) .keyLength
  pure aesKey

end DCFSMidSim

end DcfsClient
