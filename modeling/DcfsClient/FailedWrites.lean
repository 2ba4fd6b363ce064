import DcfsClient.FileContents

/-!
# Writes that fail

`RecordCache::Write` does not look at the result of `fillDcache` before it copies: after a failed fill
it copies into the blocks of the range all the same, and returns the error at the end. So a failed
write marks a block as dirty whose contents were never loaded, or goes through a block pointer that
is not there. `RecordCache.loads` is what the fill asks of the backend; a write does what a failed
write should do exactly when none of these loads returns an error.
-/

namespace DcfsClient

open Backend

/-- Every dirty block has been loaded, so a flush sends no block with unknown contents. -/
def Inode.DirtyLoaded (ino : Inode) : Prop := ∀ blk, ino.isDirty blk = true → ino.isCached blk = true

/-- How a write that does not succeed should end: not by indexing a vector outside its length or by
going through an unallocated block, and if it returns an error, then with the content, the size and
the dirty flags of before and with no dirty block that was not loaded. -/
def CleanExit (P : Platform) (s : Session) (x : Exit ErrT Abort) (u : Session) : Prop :=
  x ≠ .abort .undefined ∧ ∀ e, x = .err e →
    (∀ pos, u.content P pos = s.content P pos) ∧ u.ino.size = s.ino.size ∧
      (∀ blk, u.ino.isDirty blk = s.ino.isDirty blk) ∧ u.ino.DirtyLoaded

def FailsCleanly (P : Platform) (s : Session) (buf : Mem) (offset size : Nat) : Prop :=
  Exec.wp (Inode.write P buf offset size) (fun _ u => u.ino.DirtyLoaded) (CleanExit P s) s

def Inode.Covers (ino : Inode) (offset size : Nat) : Prop :=
  ∀ p ∈ copyPieces ino.blockSize offset size, p.off + p.len ≤ ino.blockSize + aesPadLen ∧
    (ino.isCached p.block = true ∨ ino.inFill offset size p.block)

/-- The loads for a request return no error, and they cover it if they all return. -/
def Session.Loadable (P : Platform) (s : Session) (offset size : Nat) : Prop :=
  Exec.wp (RecordCache.loads P s.ino offset size) (fun _ _ => s.ino.Covers offset size)
    (fun x _ => ∀ e, x ≠ .err e) s.be

section Loads

open Exec

variable (P : Platform)

/-- A request that does not wrap is covered. -/
theorem Inode.covers_of_not_wrap {ino : Inode} (hbs : 0 < ino.blockSize) {offset size : Nat}
    (hsum : offset + size < 2 ^ 64) : ino.Covers offset size := by
  intro p hp
  have hfits := (tiles_copyPieces hbs hsum).1.fits p hp
  obtain ⟨hst, hed⟩ := block_of_mem_copyPieces hsum hp
  exact ⟨by omega, Or.inr ⟨(Nat.min_le_left _ _).trans hst, hed⟩⟩

theorem loads_spares (ino : Inode) (offset size : Nat) :
    Spares .undefined (RecordCache.loads P ino offset size) := by
  refine .bind ?_ fun bm => .forM fun blk _ => ?_
  · exact .ite (.bind (readRecordData_spares P (by decide) (by decide) _ _ _) fun _ => .pure _) (.pure _)
  · refine .ite (.pure _) ?_
    cases RecordCache.bmCheck { ino with bm := bm } blk with
    | none => exact .pure _
    | some recordname =>
        exact .bind (readRecordData_spares P (by decide) (by decide) _ _ _) fun _ => .pure _

end Loads

section Write

open Exec

variable {P : Platform} {s : Session} {buf : Mem} {offset size : Nat}

/-- What the write knows after the fill. -/
theorem wp_attempt_fillDcache (htidy : s.ino.Tidy) (offset size : Nat) :
    wp (attempt (RecordCache.fillDcache P offset size))
      (fun ret t =>
        (∀ v, ret = .ok v → s.Filled P t ∧ (∀ blk, t.ino.isCached blk = true ↔
            s.ino.isCached blk = true ∨ s.ino.inFill offset size blk) ∧
          RecordCache.loads P s.ino offset size s.be = .ok () t.be) ∧
        (∀ e, ret = .error e → s.Fills t ∧ t.ino.Tidy ∧
          (∃ p ∈ copyPieces s.ino.blockSize offset size, t.ino.isCached p.block = false) ∧
          RecordCache.loads P s.ino offset size s.be = .error (.err e) t.be))
      (fun x t => ∃ k, x = .abort k ∧ RecordCache.loads P s.ino offset size s.be = .error x t.be)
      s := by
  rw [wp_attempt]
  apply wp_mono (wp_fillDcache_filled htidy.toAllocated offset size)
  · rintro _ t ⟨hfilled, hcached, -, hloads⟩
    exact ⟨fun _ _ => ⟨hfilled, hcached, hloads⟩, fun _ he => by cases he⟩
  · rintro x t ⟨hfills, -, hafter, hloads⟩
    cases x with
    | abort k => exact ⟨k, rfl, hloads⟩
    | err e =>
        refine ⟨fun _ he => (by cases he), fun e' he => ?_⟩
        cases he
        exact ⟨hfills, (hafter htidy).1, (hafter htidy).2, hloads⟩

/-- If the loads return no error, the write either succeeds or is stopped. -/
theorem wp_write_loadable (htidy : s.ino.Tidy) (h : s.Loadable P (min offset s.ino.size) size) :
    wp (Inode.write P buf offset size) (fun _ u => u.ino.Tidy)
      (fun x _ => x ≠ .abort .undefined ∧ ∀ e, x ≠ .err e) s := by
  unfold Session.Loadable at h
  simp only [Inode.write, RecordCache.write, wp_bind, wp_get, start_eq_min, wp_check, wp_onInode, wp_pure]
  refine ⟨fun _ => ?_, fun _ => ⟨by simp, by simp⟩⟩
  apply wp_mono (wp_attempt_fillDcache htidy (min offset s.ino.size) size)
  · rintro ret t ⟨hok, herr⟩
    cases ret with
    | error e =>
        obtain ⟨-, -, -, hloads⟩ := herr e rfl
        exact absurd rfl ((wp_of_error hloads).mp h e)
    | ok v =>
        obtain ⟨hfilled, hcached, hloads⟩ := hok v rfl
        have hcovers := (wp_of_ok hloads).mp h
        have htidy' := hfilled.tidy htidy
        have hps : ∀ p ∈ copyPieces s.ino.blockSize (min offset s.ino.size) size,
            t.ino.isCached p.block = true := fun p hp => (hcached p.block).mpr (hcovers p hp).2
        apply wp_mono (wp_writePieces_wrote (P := P) htidy'.lengths buf 0 _)
        · rintro _ u ⟨hwrote, -⟩
          have htidyu := hwrote.tidy htidy' hps
          simp only [wp_pure]
          split
          · exact htidyu.resize _
          · exact htidyu
        · rintro x u ⟨-, hnot⟩
          apply absurd _ hnot
          intro p hp
          obtain ⟨m, hm⟩ := htidy'.alloc p.block (hps p hp)
          rw [hm, hfilled.file.blockSize]
          exact ⟨by simp, (hcovers p hp).1⟩
  · rintro _ t ⟨k, rfl, hloads⟩
    have hspares := wp_error (loads_spares P s.ino (min offset s.ino.size) size s.be) hloads
    exact ⟨hspares, by simp⟩

theorem failsCleanly_of_loadable (htidy : s.ino.Tidy)
    (h : s.Loadable P (min offset s.ino.size) size) : FailsCleanly P s buf offset size := by
  apply wp_mono (wp_write_loadable htidy h)
  · intro _ u htidyu
    exact htidyu.dirty
  · rintro x u ⟨hdefined, hnot⟩
    exact ⟨hdefined, fun e he => absurd he (hnot e)⟩

/-- If a load returns an error, the write leaves a dirty block that was not loaded, or it goes through
a pointer that is not there. -/
theorem loadable_of_failsCleanly (htidy : s.ino.Tidy) (hsize : 0 < size)
    (h : FailsCleanly P s buf offset size) : s.Loadable P (min offset s.ino.size) size := by
  simp only [FailsCleanly, Inode.write, RecordCache.write, wp_bind, wp_get, start_eq_min, wp_check,
    wp_onInode, wp_pure] at h
  have hrun := wp_and (wp_attempt_fillDcache (P := P) htidy (min offset s.ino.size) size)
    (h.1 (by simpa using hsize))
  apply of_wp_const
  apply wp_mono hrun
  · rintro ret t ⟨⟨hok, herr⟩, hpieces⟩
    cases ret with
    | ok v =>
        obtain ⟨hfilled, hcached, hloads⟩ := hok v rfl
        apply (wp_of_ok hloads).mpr
        have hwrote := wp_and (wp_writePieces_wrote (P := P) (hfilled.allocated htidy.toAllocated).lengths
          buf 0 (copyPieces s.ino.blockSize (min offset s.ino.size) size)) hpieces
        apply of_wp_const
        apply wp_mono hwrote
        · rintro _ u ⟨⟨hu, hall⟩, hdirty⟩ p hp
          rw [hfilled.file.blockSize] at hall
          refine ⟨(hall p hp).2, ?_⟩
          have hloaded : u.ino.DirtyLoaded := by
            simp only [wp_pure] at hdirty
            split at hdirty
            · exact hdirty
            · exact hdirty
          have hc := hloaded p.block ((hu.dirty p.block).mpr (Or.inr ⟨p, hp, rfl⟩))
          rw [hu.cached] at hc
          exact (hcached p.block).mp hc
        · rintro x u ⟨⟨hx, -⟩, hclean⟩
          exact absurd hx hclean.1
    | error e =>
        obtain ⟨hfills, htidy', ⟨p, hp, hun⟩, hloads⟩ := herr e rfl
        have hwrote := wp_and (wp_writePieces_wrote (P := P) htidy'.lengths buf 0
          (copyPieces s.ino.blockSize (min offset s.ino.size) size)) hpieces
        apply of_wp_const
        apply wp_mono hwrote
        · rintro _ u ⟨⟨hu, -⟩, hexit⟩
          simp only [wp_fail] at hexit
          obtain ⟨-, -, -, hloaded⟩ := hexit.2 e rfl
          -- the block that was not loaded is dirty now
          have hc := hloaded p.block ((hu.dirty p.block).mpr (Or.inr ⟨p, hp, rfl⟩))
          rw [hu.cached, hun] at hc
          cases hc
        · rintro x u ⟨⟨hx, -⟩, hclean⟩
          exact absurd hx hclean.1
  · rintro x t ⟨⟨k, rfl, hloads⟩, -⟩
    apply (wp_of_error hloads).mpr
    intro e he
    cases he

end Write

/-- A write on a tidy inode does what a failed write should do exactly when none of the loads that its
range needs returns an error. -/
theorem failed_write_clean_iff (P : Platform) (s : Session) (htidy : s.ino.Tidy) (buf : Mem)
    (offset size : Nat) (hsize : 0 < size) :
    FailsCleanly P s buf offset size ↔ s.Loadable P (min offset s.ino.size) size :=
  ⟨loadable_of_failsCleanly htidy hsize, failsCleanly_of_loadable htidy⟩

theorem failed_write_clean_zerosFile :
    zerosFile.Loadable Reference.platform (min 1022 zerosFile.ino.size) 3 ∧
      FailsCleanly Reference.platform zerosFile (fun _ => 7) 1022 3 := by
  have hloads : RecordCache.loads Reference.platform zerosFile.ino (min 1022 zerosFile.ino.size) 3
      zerosFile.be = .ok () {} := rfl
  have hloadable : zerosFile.Loadable Reference.platform (min 1022 zerosFile.ino.size) 3 :=
    (Exec.wp_of_ok hloads).mpr (Inode.covers_of_not_wrap (by decide) (by decide))
  exact ⟨hloadable, (failed_write_clean_iff Reference.platform zerosFile
    (Inode.tidy_load [] [] [] 1 blockmapCover 2000 Reference.zeroKey) (fun _ => 7) 1022 3
    (by decide)).mpr hloadable⟩

def brokenFile : Session where
  ino := { Inode.load [] [] [9] 1 blockmapCover 2000 Reference.zeroKey with bm := some fun _ => 1 }
  be := { env := { faults := [.fail] } }

/-- The write returns an error, and its block is dirty without having been loaded. -/
theorem not_failsCleanly_brokenFile :
    (∃ u, Inode.write Reference.platform (fun _ => 7) 0 3 brokenFile = .error (.err errIo) u ∧
      u.ino.isDirty 0 = true ∧ u.ino.isCached 0 = false) ∧ brokenFile.ino.isDirty 0 = false ∧
      ¬ FailsCleanly Reference.platform brokenFile (fun _ => 7) 0 3 := by
  obtain ⟨u, hu, hdirty, hcached⟩ : ∃ u,
      Inode.write Reference.platform (fun _ => 7) 0 3 brokenFile = .error (.err errIo) u ∧
      u.ino.isDirty 0 = true ∧ u.ino.isCached 0 = false := ⟨_, rfl, rfl, rfl⟩
  refine ⟨⟨u, hu, hdirty, hcached⟩, rfl, ?_⟩
  intro h
  have hexit := (Exec.wp_of_error hu).mp h
  have hsame := (hexit.2 errIo rfl).2.2.1 0
  rw [hdirty] at hsame
  cases hsame

end DcfsClient
