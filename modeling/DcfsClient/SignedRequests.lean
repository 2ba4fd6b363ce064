import DcfsClient.Middleware
import DcfsClient.Reference

/-!
# What the signature of a `Modify` request covers

`StorageBackend::WriteRecord` signs, and `DCFSMidSim::Modify` verifies, the concatenation of the
capsule name, the buffers, the inode hash and the key. Neither the file offsets nor any length goes
into this string. `ModifyRequest.shape` is what is missing: together with it the string determines
the request, and without it every request has another one with the same string.
-/

namespace DcfsClient

structure ModifyRequest where
  dcname : Bytes
  descs : List BufDesc
  inodeHash : Bytes
  aesKey : Bytes
  deriving DecidableEq

namespace ModifyRequest

structure Valid (r : ModifyRequest) : Prop where
  dcname : r.dcname.length = hashLen
  descs : r.descs ≠ []
  fileOffset : ∀ desc ∈ r.descs, desc.fileOffset < 2 ^ 64
  inodeHash : r.inodeHash = [] ∨ r.inodeHash.length = hashLen
  aesKey : r.aesKey.length = aesKeyLen

def args (r : ModifyRequest) : Bytes :=
  DCFSMidSim.modifyArgs r.dcname r.descs r.inodeHash r.aesKey

/-- The lengths of the buffers, their places in the file, and the length of the inode hash. -/
def shape (r : ModifyRequest) : List (Nat × Nat) × Nat :=
  (r.descs.map fun desc => (desc.buf.length, desc.fileOffset), r.inodeHash.length)

def blocks (r : ModifyRequest) : List Nat :=
  r.descs.map fun desc => desc.fileOffset / midBlockSize

def moved (r : ModifyRequest) : ModifyRequest :=
  { r with descs := r.descs.modifyHead fun desc =>
      { desc with fileOffset := if desc.fileOffset < midBlockSize then midBlockSize else 0 } }

variable {r r' : ModifyRequest}

theorem args_moved (r : ModifyRequest) : r.moved.args = r.args := by
  unfold args moved DCFSMidSim.modifyArgs
  cases r.descs <;> rfl

theorem blocks_moved_ne (h : r.descs ≠ []) : r.moved.blocks ≠ r.blocks := by
  intro heq
  obtain ⟨desc, descs, hcons⟩ := List.exists_cons_of_ne_nil h
  have hmid : midBlockSize = 16384 := rfl
  simp only [blocks, moved, hcons, List.modifyHead_cons, List.map_cons, List.cons.injEq,
    and_true, hmid] at heq
  split at heq <;> omega

theorem Valid.moved (h : r.Valid) : r.moved.Valid := by
  obtain ⟨desc, descs, hcons⟩ := List.exists_cons_of_ne_nil h.descs
  refine ⟨h.dcname, ?_, ?_, h.inodeHash, h.aesKey⟩
  · simp [ModifyRequest.moved, hcons]
  · have hold := h.fileOffset
    simp only [ModifyRequest.moved, hcons, List.modifyHead_cons, List.forall_mem_cons] at hold ⊢
    refine ⟨?_, hold.2⟩
    split
    · decide
    · exact Nat.two_pow_pos 64

/-- Buffers of known lengths are recovered from their concatenation, and with their offsets so are the
descs. -/
theorem descs_eq_of_flatMap_eq {descs descs' : List BufDesc}
    (hshape : (descs.map fun desc => (desc.buf.length, desc.fileOffset)) =
      descs'.map fun desc => (desc.buf.length, desc.fileOffset))
    (hflat : descs.flatMap BufDesc.buf = descs'.flatMap BufDesc.buf) : descs = descs' := by
  induction descs generalizing descs' with
  | nil =>
      cases descs' with
      | nil => rfl
      | cons desc' descs' => cases hshape
  | cons desc descs ih =>
      cases descs' with
      | nil => cases hshape
      | cons desc' descs' =>
          simp only [List.map_cons, List.cons.injEq, Prod.mk.injEq] at hshape
          rw [List.flatMap_cons, List.flatMap_cons] at hflat
          obtain ⟨hbuf, hrest⟩ := List.append_inj hflat hshape.1.1
          rw [ih hshape.2 hrest]
          cases desc
          cases desc'
          simp_all

/-- The string and the shape determine a request. -/
theorem eq_of_args_eq (h : r.Valid) (h' : r'.Valid) (hargs : r.args = r'.args)
    (hshape : r.shape = r'.shape) : r = r' := by
  simp only [shape, Prod.mk.injEq] at hshape
  unfold args DCFSMidSim.modifyArgs at hargs
  simp only [List.append_assoc] at hargs
  obtain ⟨hdcname, hargs⟩ := List.append_inj hargs (h.dcname.trans h'.dcname.symm)
  have hlen : (r.descs.flatMap BufDesc.buf).length = (r'.descs.flatMap BufDesc.buf).length := by
    have hfst := congrArg (List.map Prod.fst) hshape.1
    simp only [List.map_map, Function.comp_def] at hfst
    simp only [List.length_flatMap, hfst]
  obtain ⟨hbufs, hargs⟩ := List.append_inj hargs hlen
  obtain ⟨hinode, hkey⟩ := List.append_inj hargs hshape.2
  have hdescs := descs_eq_of_flatMap_eq hshape.1 hbufs
  cases r
  cases r'
  simp_all

end ModifyRequest

/-- Every request has another one that puts its buffers into other blocks of the file and is accepted
under the same signature. Two requests with the same signed string are equal exactly if they have the same
shape. -/
theorem signature_covers_no_request (P : Platform) (hP : P.Lawful) (r : ModifyRequest)
    (h : r.Valid) :
    (∃ r' : ModifyRequest, r'.Valid ∧ r'.args = r.args ∧ r' ≠ r ∧
      r'.blocks ≠ r.blocks ∧
      P.verify (P.hash256 r'.args) (P.sign (P.hash256 r.args)) = true) ∧
    ∀ r' : ModifyRequest, r'.Valid → r'.args = r.args → (r' = r ↔ r'.shape = r.shape) := by
  constructor
  · have hmoved := ModifyRequest.blocks_moved_ne h.descs
    refine ⟨r.moved, h.moved, r.args_moved, ?_, hmoved, ?_⟩
    · intro heq
      rw [heq] at hmoved
      exact hmoved rfl
    · rw [r.args_moved]
      exact hP.verify_sign _
  · intro r' h' hargs
    constructor
    · intro heq
      rw [heq]
    · exact ModifyRequest.eq_of_args_eq h' h hargs

def oneBlockRequest : ModifyRequest where
  dcname := List.replicate hashLen 5
  descs := [⟨List.replicate 33 1, 0⟩]
  inodeHash := []
  aesKey := Reference.zeroKey

theorem oneBlockRequest_valid : oneBlockRequest.Valid :=
  ⟨by decide, by decide, by decide, by decide, by decide⟩

theorem signature_covers_no_request_oneBlock : ∃ r' : ModifyRequest, r'.Valid ∧ r' ≠ oneBlockRequest ∧
    Reference.platform.verify (Reference.platform.hash256 r'.args)
      (Reference.platform.sign (Reference.platform.hash256 oneBlockRequest.args)) = true := by
  obtain ⟨⟨r', hvalid, -, hne, -, hverify⟩, -⟩ := signature_covers_no_request Reference.platform
    Reference.lawful oneBlockRequest oneBlockRequest_valid
  exact ⟨r', hvalid, hne, hverify⟩

def shiftedRequest : ModifyRequest := { oneBlockRequest with descs := [⟨List.replicate 33 1, 16384⟩] }

def cutRequest : ModifyRequest :=
  { oneBlockRequest with descs := [⟨[1], 0⟩, ⟨List.replicate 32 1, 16384⟩] }

def tailRequest : ModifyRequest :=
  { oneBlockRequest with descs := [⟨[1], 0⟩], inodeHash := List.replicate 32 1 }

theorem same_args_oneBlockRequest : oneBlockRequest.Valid ∧
    (shiftedRequest.Valid ∧ shiftedRequest.args = oneBlockRequest.args ∧
      shiftedRequest ≠ oneBlockRequest) ∧
    (cutRequest.Valid ∧ cutRequest.args = oneBlockRequest.args ∧ cutRequest ≠ oneBlockRequest) ∧
    (tailRequest.Valid ∧ tailRequest.args = oneBlockRequest.args ∧ tailRequest ≠ oneBlockRequest) := by
  refine ⟨oneBlockRequest_valid, ⟨?_, by decide, by decide⟩, ⟨?_, by decide, by decide⟩,
    ⟨?_, by decide, by decide⟩⟩
  all_goals exact ⟨by decide, by decide, by decide, by decide, by decide⟩

end DcfsClient
