import DcfsClient.CacheReads
import DcfsClient.MiddlewareRuns
import DcfsClient.Reference

/-!
# Reads after failed reads

A read that fails leaves a partly filled cache to the reads after it. Blocks are marked as cached only
once they are loaded, so a failed block load does no harm. The blockmap is different: `fillBmcache`
installs a zeroed blockmap before it asks for the record, and a failure leaves it installed. From then
on every block looks like a hole, and reads succeed with zeros.

`Careful` is the condition on one read under which this cannot happen.
-/

namespace DcfsClient

open Backend

structure ReadCall where
  buf : Mem
  offset : Nat
  size : Nat
  env : Env

def ReadCall.run (P : Platform) (c : ReadCall) (s : Session) :
    EStateM.Result (Exit ErrT Abort) Session (Mem × Option Nat) :=
  Inode.read P c.buf c.offset c.size (s.withEnv c.env)

/-- The calls, newest first, lead from `s₀` to `s`: each returned bytes or an error code, and each
met the condition `C` in the state it started from. -/
inductive ReadsTo (P : Platform) (C : Session → ReadCall → Prop) (s₀ : Session) :
    List ReadCall → Session → Prop where
  | nil : ReadsTo P C s₀ [] s₀
  | returned {calls : List ReadCall} {s s' : Session} {c : ReadCall} {out : Mem × Option Nat} :
      ReadsTo P C s₀ calls s → C s c → c.run P s = .ok out s' → ReadsTo P C s₀ (c :: calls) s'
  | failed {calls : List ReadCall} {s s' : Session} {c : ReadCall} {e : ErrT} :
      ReadsTo P C s₀ calls s → C s c → c.run P s = .error (.err e) s' →
      ReadsTo P C s₀ (c :: calls) s'

def ReadCall.Undisturbed (_ : Session) (c : ReadCall) : Prop := ∀ f ∈ c.env.faults, f = .none

/-- The range does not wrap, and if the call has to load the blockmap, that load returns. -/
def ReadCall.Careful (P : Platform) (s : Session) (c : ReadCall) : Prop :=
  c.offset + c.size < 2 ^ 64 ∧ (c.offset < s.ino.size → (s.withEnv c.env).BmReadable P)

/-- If the call returns bytes in state `s`, then a call for the same range without failures, after
any reads without failures, returns the same. -/
def SameAsUndisturbed (P : Platform) (s₀ s : Session) (c : ReadCall) : Prop :=
  ∀ out s', c.run P s = .ok out s' → ∀ calls t, ReadsTo P ReadCall.Undisturbed s₀ calls t →
    ∀ e : Env, (∀ f ∈ e.faults, f = .none) → ∃ t', { c with env := e }.run P t = .ok out t'

section Runs

variable {P : Platform} {ino₀ : Inode} {b₀ : Backend} {s t : Session} {calls : List ReadCall}
  {c : ReadCall}

theorem Clean.withEnv (h : Clean P ino₀ b₀ s) (e : Env) : Clean P ino₀ b₀ (s.withEnv e) :=
  ⟨h.file, h.size, h.be.trans (Same.withEnv s.be e), h.lengths, h.cover, h.bm, h.blocks⟩

/-- An inode just loaded has nothing cached. -/
theorem clean_load (hashname inoRecordname bmRecordname : Bytes) (kb cover isize : Nat)
    (aesKey : Bytes) (b : Backend) :
    let ino := Inode.load hashname inoRecordname bmRecordname kb cover isize aesKey
    Clean P ino b ⟨ino, b⟩ := by
  intro ino
  refine ⟨Inode.SameFile.refl ino, rfl, Same.refl b, ?_, ?_, Or.inl rfl, ?_⟩
  · simp [ino, Inode.load]
  · simp [ino, Inode.load]
  · intro blk hc
    obtain ⟨stat, hstat, hcached⟩ := isCached_iff.mp hc
    simp only [ino, Inode.load, List.getElem?_replicate] at hstat
    split at hstat
    · rw [Option.some.injEq] at hstat
      rw [← hstat] at hcached
      cases hcached
    · cases hstat

/-- The invariant along runs whose calls do not fail to load the blockmap. -/
theorem ReadsTo.clean {C : Session → ReadCall → Prop} (h₀ : Clean P ino₀ b₀ ⟨ino₀, b₀⟩)
    (hC : ∀ s c, Clean P ino₀ b₀ s → C s c → c.offset < ino₀.size → (s.withEnv c.env).BmReadable P)
    (hrun : ReadsTo P C ⟨ino₀, b₀⟩ calls s) : Clean P ino₀ b₀ s := by
  induction hrun with
  | nil => exact h₀
  | @returned calls s s' c out _ _ hok ih =>
      have hclean := Exec.wp_ok (wp_read_clean (ih.withEnv c.env) c.buf c.offset c.size) hok
      exact hclean
  | @failed calls s s' c e _ hc herr ih =>
      have hspec := wp_read_clean (ih.withEnv c.env) c.buf c.offset c.size
      exact Exec.wp_error hspec herr (hC s c ih hc) e rfl

theorem ReadsTo.size {C : Session → ReadCall → Prop} {s₀ : Session}
    (hrun : ReadsTo P C s₀ calls s) : s.ino.size = s₀.ino.size := by
  induction hrun with
  | nil => rfl
  | @returned calls s s' c out _ _ hok ih =>
      have hspec := read_fills (P := P) c.buf c.offset c.size (s.withEnv c.env)
      exact (Exec.wp_ok hspec hok).size.trans ih
  | @failed calls s s' c e _ _ herr ih =>
      have hspec := read_fills (P := P) c.buf c.offset c.size (s.withEnv c.env)
      exact (Exec.wp_error hspec herr).size.trans ih

theorem read_past_end (buf : Mem) {offset : Nat} (size : Nat) (h : s.ino.size ≤ offset) :
    Inode.read P buf offset size s = .ok (buf, none) s := by
  change (ite (s.ino.size ≤ offset) _ _ : CacheM (Mem × Option Nat)) s = _
  rw [if_pos h]
  rfl

/-- Without failures the blockmap can be loaded if the store has it. -/
theorem bmReadable_of_calm (h : Clean P ino₀ b₀ s) (hcalm : s.be.Calm)
    (hbm : ino₀.blockmapOf P b₀ ≠ none) : s.BmReadable P := by
  intro _ hlen
  have hlen₀ : 0 < ino₀.bmRecordname.length := by rw [← h.file.bmRecordname]; exact hlen
  have hpay : payloadOf P s.be s.ino.hashname s.ino.bmRecordname (hashLen * s.ino.bmCover) ≠
      none := by
    rw [payloadOf_congr h.be.store, h.file.hashname, h.file.bmRecordname, h.file.bmCover]
    intro hnone
    rw [Inode.blockmapOf, if_pos hlen₀, hnone] at hbm
    exact hbm rfl
  have hspec := wp_readRecordData (P := P) (b := s.be) s.ino.hashname s.ino.bmRecordname
    (hashLen * s.ino.bmCover)
  obtain ⟨data, b', hok, -⟩ := Exec.exists_ok
    (Exec.wp_mono hspec (fun _ _ h => h) (fun _ _ h => h.2 hpay hcalm))
  exact ⟨data, b', hok⟩

/-- A block that the store has was found through a blockmap that the store has. -/
theorem ReadsAs.blockmap (hsum : c.offset + c.size < 2 ^ 64) {out : Mem × Option Nat}
    (h : ReadsAs P b₀ ino₀ c.buf c.offset c.size out) (hlt : c.offset < ino₀.size) :
    ino₀.blockmapOf P b₀ ≠ none := by
  rw [ReadsAs, if_neg (by omega)] at h
  obtain ⟨-, hneed, -, -⟩ := h
  intro hnone
  apply hneed (c.offset / ino₀.blockSize) le_rfl
  · rw [u64_of_lt hsum]
    set readSize := if ino₀.size < c.offset + c.size then ino₀.size - c.offset else c.size
      with hrs
    have hle : readSize ≤ c.size := by
      rw [hrs]
      split <;> omega
    rw [u64_of_lt (by omega)]
    exact Nat.div_le_div_right (by omega)
  · rw [Inode.blockOnStore, hnone]
    rfl

/-- In a run of careful reads, whatever else fails, each read that returns delivers the bytes that
reads without failures deliver. -/
theorem careful_reads_agree {hashname inoRecordname bmRecordname aesKey : Bytes} {kb cover isize : Nat}
    (hino : ino₀ = Inode.load hashname inoRecordname bmRecordname kb cover isize aesKey)
    (hrun : ReadsTo P (ReadCall.Careful P) ⟨ino₀, b₀⟩ calls s) (hc : c.Careful P s) :
    SameAsUndisturbed P ⟨ino₀, b₀⟩ s c := by
  intro out s' hok calls' t href e he
  have h₀ : Clean P ino₀ b₀ ⟨ino₀, b₀⟩ := by
    rw [hino]
    exact clean_load _ _ _ _ _ _ _ _
  have hs : Clean P ino₀ b₀ s := by
    apply hrun.clean h₀
    intro s c hs hcare hlt
    exact hcare.2 (by rw [hs.size]; exact hlt)
  have hspec := Exec.wp_ok (wp_read_spec (hs.withEnv c.env) c.buf hc.1) hok
  by_cases hlt : c.offset < ino₀.size
  · have hbm := hspec.blockmap hc.1 hlt
    have ht : Clean P ino₀ b₀ t := by
      apply href.clean h₀
      intro s c hs hcalm _
      exact bmReadable_of_calm (hs.withEnv c.env) hcalm hbm
    have hread := wp_read_spec (ht.withEnv e) c.buf hc.1
    obtain ⟨out', t', hok', hout'⟩ := Exec.exists_ok
      (Exec.wp_mono hread (fun _ _ h => h) (fun _ _ h => h out hspec he))
    have heq : out' = out := by
      rw [ReadsAs, if_neg (by omega)] at hout' hspec
      rw [hout'.2.2.2, hspec.2.2.2]
    rw [heq] at hok'
    exact ⟨t', hok'⟩
  · -- past the end of the file nothing is looked up
    rw [ReadsAs, if_pos (by omega)] at hspec
    rw [hspec]
    have hend : (t.withEnv e).ino.size ≤ c.offset := by
      have hsize : (t.withEnv e).ino.size = ino₀.size := href.size
      omega
    exact ⟨_, read_past_end c.buf c.size hend⟩

end Runs

/-! ## One file, two ways to fail -/

section Instances

open Reference

@[irreducible] def storedFile : Backend :=
  current (replay platform [(.signed platform (fileAt 5)
    [⟨platform.encrypt zeroKey (List.replicate 1024 7), 0⟩] [] zeroKey, { clock := [6, 7, 8] }),
    (.createNew, { clock := [5] })])

@[irreducible] def loadedFile : Inode :=
  match StorageBackend.readFileMeta platform (fileAt 5) storedFile with
  | .ok m _ => .load (fileAt 5) m.recordname m.blockmapHash 1 blockmapCover m.isize m.aesKey
  | .error _ _ => .fresh (fileAt 5) 1 blockmapCover zeroKey

def ReadCall.after (P : Platform) (c : ReadCall) (s : Session) : Session :=
  match c.run P s with
  | .ok _ s' => s'
  | .error _ s' => s'

def ReadCall.error (P : Platform) (c : ReadCall) (s : Session) : Option ErrT :=
  match c.run P s with
  | .error (.err e) _ => some e
  | _ => none

def ReadCall.byte (P : Platform) (c : ReadCall) (s : Session) (i : Nat) : Option UInt8 :=
  match c.run P s with
  | .ok out _ => some (out.1 i)
  | .error _ _ => none

theorem ReadCall.run_of_error {P : Platform} {c : ReadCall} {s : Session} {e : ErrT}
    (h : c.error P s = some e) : c.run P s = .error (.err e) (c.after P s) := by
  unfold ReadCall.error at h
  unfold ReadCall.after
  cases hr : c.run P s with
  | ok out s' => rw [hr] at h; cases h
  | error x s' =>
      rw [hr] at h
      cases x with
      | err e' => rw [Option.some.inj h]
      | abort k => cases h

theorem ReadCall.run_of_byte {P : Platform} {c : ReadCall} {s : Session} {i : Nat} {v : UInt8}
    (h : c.byte P s i = some v) : ∃ out, c.run P s = .ok out (c.after P s) ∧ out.1 i = v := by
  unfold ReadCall.byte at h
  unfold ReadCall.after
  cases hr : c.run P s with
  | ok out s' =>
      rw [hr] at h
      exact ⟨out, rfl, Option.some.inj h⟩
  | error x s' => rw [hr] at h; cases h

def readByte (faults : List Fault) : ReadCall :=
  { buf := fun _ => 1, offset := 0, size := 1, env := { faults := faults } }

theorem loadedFile_eq : loadedFile = .load loadedFile.hashname loadedFile.inoRecordname
    loadedFile.bmRecordname 1 blockmapCover loadedFile.size loadedFile.aesKey := by
  unfold loadedFile
  cases StorageBackend.readFileMeta platform (fileAt 5) storedFile <;> rfl

/-- What a read returns after a failed load of the block and after a failed load of the blockmap. -/
theorem readByte_leaves :
    Exec.returns (StorageBackend.readRecordData platform loadedFile.hashname
      loadedFile.bmRecordname (hashLen * loadedFile.bmCover))
      { storedFile with env := { faults := [.none, .fail] } } = true ∧
    (readByte [.none, .fail]).error platform ⟨loadedFile, storedFile⟩ = some errIo ∧
    ((readByte [.none, .fail]).after platform ⟨loadedFile, storedFile⟩).ino.bm.isSome = true ∧
    (readByte []).byte platform ((readByte [.none, .fail]).after platform ⟨loadedFile, storedFile⟩) 0 =
      some 7 ∧
    (readByte [.fail]).error platform ⟨loadedFile, storedFile⟩ = some errIo ∧
    (readByte []).byte platform ((readByte [.fail]).after platform ⟨loadedFile, storedFile⟩) 0 =
      some 0 ∧
    (readByte []).byte platform ⟨loadedFile, storedFile⟩ 0 = some 7 := by decide +kernel

/-- The load of the block fails once; the read after it is as if nothing had happened. -/
theorem careful_reads_agree_blockFailure :
    (readByte []).byte platform ((readByte [.none, .fail]).after platform ⟨loadedFile, storedFile⟩) 0
        = some 7 ∧
      SameAsUndisturbed platform ⟨loadedFile, storedFile⟩
        ((readByte [.none, .fail]).after platform ⟨loadedFile, storedFile⟩) (readByte []) := by
  obtain ⟨hreturns, hfailed, hloaded, hseven, -⟩ := readByte_leaves
  have hreadable : (readByte [.none, .fail]).Careful platform ⟨loadedFile, storedFile⟩ :=
    ⟨by decide, fun _ _ _ => Exec.exists_of_returns hreturns⟩
  have hrun := ReadsTo.failed .nil hreadable (ReadCall.run_of_error hfailed)
  refine ⟨hseven, careful_reads_agree loadedFile_eq hrun ⟨by decide, fun _ hbm => ?_⟩⟩
  change ((readByte [.none, .fail]).after platform ⟨loadedFile, storedFile⟩).ino.bm = none at hbm
  rw [hbm] at hloaded
  cases hloaded

/-- The load of the blockmap fails once; the read after it succeeds with a zero. -/
theorem reads_agree_blockmapFailure : ∃ s, ReadsTo platform (fun _ _ => True)
    ⟨loadedFile, storedFile⟩ [readByte [.fail]] s ∧
      ¬ SameAsUndisturbed platform ⟨loadedFile, storedFile⟩ s (readByte []) := by
  obtain ⟨-, -, -, -, hfailed, hzero, hseven⟩ := readByte_leaves
  refine ⟨_, .failed .nil trivial (ReadCall.run_of_error hfailed), ?_⟩
  intro h
  obtain ⟨out, hok, hout⟩ := ReadCall.run_of_byte hzero
  obtain ⟨out', hok', hout'⟩ := ReadCall.run_of_byte hseven
  obtain ⟨t', ht'⟩ := h out _ hok [] _ .nil {} (by simp)
  have heq : out' = out := by
    have hrun : (readByte []).run platform ⟨loadedFile, storedFile⟩ = .ok out t' := ht'
    rw [hok'] at hrun
    injection hrun
  rw [heq, hout] at hout'
  exact absurd hout' (by decide)

end Instances

end DcfsClient
