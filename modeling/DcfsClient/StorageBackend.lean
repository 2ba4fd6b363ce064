import DcfsClient.Middleware

/-!
# The client's view of storage: `StorageBackend` of `backend.cpp`

`ReadFileMeta` does not look at the result of its read before it parses: after a failed read it
parses the empty buffer, and the assertion on the number of previous hashes is what stops it.
-/

namespace DcfsClient

structure FileMeta where
  recordname : Bytes
  isize : Nat
  aesKey : Bytes
  blockmapHash : Bytes

namespace StorageBackend

variable (P : Platform)

open DCFSMidSim

def readFileMeta (hashname : Bytes) : BackendM FileMeta := do
  fallible errSign
  let recordname ← getInodeName P hashname (P.sign (P.hash256 hashname))
  let ret ← Exec.attempt (readRecord hashname recordname maxInodeRecordSize)
  let pdu := P.parse (ret.toOption.getD [])
  Exec.check (pdu.header.prevhash.length = 2) .prevhashSize
  let blockmapHash ← Exec.orAbort pdu.header.prevhash[1]? .undefined
  let isize := ofLe (pdu.payloadInTransit.take inodeAesKeyOffset)
  let encryptedAesKey :=
    (pdu.payloadInTransit.drop inodeAesKeyOffset).take (aesKeyLen + aesPadLen)
  let aesKey ← decryptAESKey P encryptedAesKey
  match ret with
  | .ok _ => pure ⟨recordname, isize, aesKey, blockmapHash⟩
  | .error e => Exec.fail e

def readRecordData (dcname recordname : Bytes) (cap : Nat) : BackendM Bytes := do
  let record ← readRecord dcname recordname (cap + recordHeaderSize + spareHashSpace)
  let payload := (P.parse record).payloadInTransit
  Exec.failIf (cap < payload.length) errBufTooSmall
  pure payload

def writeRecord (dcname : Bytes) (descs : List BufDesc) (inodeRecordname aesKey : Bytes) :
    BackendM Unit :=
  if descs.length = 0 then pure ()
  else do
    fallible errSign
    let sig := P.sign (P.hash256 (modifyArgs dcname descs inodeRecordname aesKey))
    modify P dcname descs inodeRecordname aesKey sig

def createNewFile : BackendM (Bytes × Bytes) := createNew P

end StorageBackend

end DcfsClient
