import DcfsClient.FailedWrites
import DcfsClient.FlushRuns
import DcfsClient.TransientFailures

/-!
# The cache of a file in use

What holds of the cache of an open file after any calls of `Inode::Read`, `Inode::Write` and
`FlushCache`, also those that gave an error code. The vectors always have one length and a cached block
is always allocated. That dirty blocks are loaded can only be said of runs whose writes could load
their range: a write that could not is what breaks it.
-/

namespace DcfsClient

open Backend Exec

inductive FileCall where
  | read (buf : Mem) (offset size : Nat)
  | write (buf : Mem) (offset size : Nat)
  | flush

def FileCall.run (P : Platform) : FileCall → CacheM Unit
  | .read buf offset size => Inode.read P buf offset size >>= fun _ => pure ()
  | .write buf offset size => Inode.write P buf offset size >>= fun _ => pure ()
  | .flush => RecordCache.flushCache P

/-- The calls, newest first, with what the world contributes to them, lead from `s₀` to `s`: each
returned or gave an error code, and each met the condition `C` in the state it started from. -/
inductive CallsTo (P : Platform) (C : Session → FileCall → Prop) (s₀ : Session) :
    List (FileCall × Env) → Session → Prop where
  | nil : CallsTo P C s₀ [] s₀
  | returned {calls : List (FileCall × Env)} {s s' : Session} {c : FileCall} {e : Env} :
      CallsTo P C s₀ calls s → C (s.withEnv e) c → c.run P (s.withEnv e) = .ok () s' →
      CallsTo P C s₀ ((c, e) :: calls) s'
  | failed {calls : List (FileCall × Env)} {s s' : Session} {c : FileCall} {e : Env} {x : ErrT} :
      CallsTo P C s₀ calls s → C (s.withEnv e) c → c.run P (s.withEnv e) = .error (.err x) s' →
      CallsTo P C s₀ ((c, e) :: calls) s'

def FileCall.Loads (P : Platform) (s : Session) : FileCall → Prop
  | .write _ offset size => s.Loadable P (min offset s.ino.size) size
  | _ => True

section Calls

variable {P : Platform} {s : Session}

theorem dropCaches_tidy {ino : Inode} (h : ino.Allocated) : (RecordCache.dropCaches ino).Tidy := by
  have hdrop := dropCaches_drops ino
  refine ⟨⟨?_, ?_⟩, ?_, fun _ _ blk => (hdrop blk).2⟩
  · simp only [RecordCache.dropCaches, List.length_map]
    exact h.lengths
  · intro blk hc
    rw [(hdrop blk).2] at hc
    cases hc
  · intro blk hd
    rw [(hdrop blk).1] at hd
    cases hd

/-- A read keeps the invariants however it ends. -/
theorem wp_read_tidy (halloc : s.ino.Allocated) (buf : Mem) (offset size : Nat) :
    wp (Inode.read P buf offset size)
      (fun _ t => t.ino.Allocated ∧ (s.ino.Tidy → t.ino.Tidy))
      (fun _ t => t.ino.Allocated ∧ (s.ino.Tidy → t.ino.Tidy)) s := by
  simp only [Inode.read, RecordCache.read, wp_bind, wp_get, wp_ite, wp_check, wp_pure]
  refine ⟨fun _ => ⟨halloc, id⟩, fun _ => ⟨fun _ => ?_, fun _ => ⟨halloc, id⟩⟩⟩
  apply wp_mono (wp_fillDcache_filled halloc _ _)
  · rintro _ t ⟨hfilled, -⟩
    have hkept : t.ino.Allocated ∧ (s.ino.Tidy → t.ino.Tidy) :=
      ⟨hfilled.allocated halloc, hfilled.tidy⟩
    apply wp_mono (readPieces_moves _ _ _ t)
    · intro _ u hu
      rw [← hu]
      exact hkept
    · intro _ u hu
      rw [← hu]
      exact hkept
  · rintro _ t ⟨-, hkept, hafter, -⟩
    exact ⟨hkept, fun htidy => (hafter htidy).1⟩

/-- A write that comes back keeps the vectors in step. -/
theorem wp_write_allocated (halloc : s.ino.Allocated) (buf : Mem) (offset size : Nat) :
    wp (Inode.write P buf offset size) (fun _ t => t.ino.Allocated)
      (fun x t => ∀ e, x = .err e → t.ino.Allocated) s := by
  simp only [Inode.write, RecordCache.write, wp_bind, wp_get, wp_check, wp_attempt, wp_onInode, wp_pure]
  generalize (if s.ino.size ≤ offset then s.ino.size else offset) = start
  refine ⟨fun _ => ?_, fun _ e he => by cases he⟩
  have hcopy : ∀ t : Session, t.ino.Allocated →
      wp (RecordCache.writePieces buf 0 (copyPieces s.ino.blockSize start size))
        (fun _ u => u.ino.Allocated) (fun x u => ∀ e, x = .err e → u.ino.Allocated) t := by
    intro t ht
    apply wp_mono (wp_writePieces_wrote (P := P) ht.lengths buf 0 _)
    · rintro _ u ⟨hwrote, -⟩
      exact hwrote.allocated ht
    · rintro x u ⟨rfl, -⟩ e he
      cases he
  apply wp_mono (wp_fillDcache_filled halloc start size)
  · rintro _ t ⟨hfilled, -⟩
    apply wp_mono (hcopy t (hfilled.allocated halloc))
    · intro _ u hu
      split
      · exact hu.resize _
      · exact hu
    · exact fun _ _ hx => hx
  · rintro x t ⟨-, hkept, -⟩
    cases x with
    | abort k => exact fun e he => by cases he
    | err e =>
        apply wp_mono (hcopy t hkept)
        · intro _ u hu e' _
          exact hu
        · exact fun _ _ hx => hx

theorem FileCall.allocated (c : FileCall) (halloc : s.ino.Allocated) :
    wp (c.run P) (fun _ t => t.ino.Allocated) (fun x t => ∀ e, x = .err e → t.ino.Allocated) s := by
  cases c with
  | read buf offset size =>
      simp only [FileCall.run, wp_bind, wp_pure]
      exact wp_mono (wp_read_tidy halloc buf offset size) (fun _ _ h => h.1) (fun _ _ h _ _ => h.1)
  | write buf offset size =>
      simp only [FileCall.run, wp_bind, wp_pure]
      exact wp_write_allocated halloc buf offset size
  | flush =>
      apply wp_mono (wp_flushCache_ino s)
      · intro _ t hino
        rw [hino]
        exact (dropCaches_tidy halloc).toAllocated
      · intro _ t hino _ _
        rw [hino]
        exact halloc

theorem FileCall.tidy {c : FileCall} (htidy : s.ino.Tidy) (hC : c.Loads P s) :
    wp (c.run P) (fun _ t => t.ino.Tidy) (fun x t => ∀ e, x = .err e → t.ino.Tidy) s := by
  cases c with
  | read buf offset size =>
      simp only [FileCall.run, wp_bind, wp_pure]
      exact wp_mono (wp_read_tidy htidy.toAllocated buf offset size) (fun _ _ h => h.2 htidy)
        (fun _ _ h _ _ => h.2 htidy)
  | write buf offset size =>
      simp only [FileCall.run, wp_bind, wp_pure]
      exact wp_mono (wp_write_loadable htidy hC) (fun _ _ h => h) (fun _ _ h e he => absurd he (h.2 e))
  | flush =>
      apply wp_mono (wp_flushCache_ino s)
      · intro _ t hino
        rw [hino]
        exact dropCaches_tidy htidy.toAllocated
      · intro _ t hino _ _
        rw [hino]
        exact htidy

/-- A rule for properties of the inode that every call keeps. -/
theorem CallsTo.keeps {C : Session → FileCall → Prop} {I : Inode → Prop} {s₀ : Session}
    {calls : List (FileCall × Env)}
    (hstep : ∀ (t : Session) (c : FileCall), I t.ino → C t c →
      wp (c.run P) (fun _ u => I u.ino) (fun x u => ∀ e, x = .err e → I u.ino) t)
    (h₀ : I s₀.ino) (h : CallsTo P C s₀ calls s) : I s.ino := by
  induction h with
  | nil => exact h₀
  | @returned calls s s' c e _ hC hrun ih =>
      have hpost := wp_ok (hstep (s.withEnv e) c ih hC) hrun
      exact hpost
  | @failed calls s s' c e x _ hC hrun ih =>
      have hpost := wp_error (hstep (s.withEnv e) c ih hC) hrun
      exact hpost x rfl

end Calls

/-- After any calls on a file that was opened, the two vectors have one length and a cached block is
allocated. -/
theorem allocated_in_use (P : Platform) (hashname inoRecordname bmRecordname : Bytes)
    (kb cover iSize : Nat) (aesKey : Bytes) (b : Backend) {C : Session → FileCall → Prop}
    {calls : List (FileCall × Env)} {s : Session} (h : CallsTo P C
      ⟨Inode.load hashname inoRecordname bmRecordname kb cover iSize aesKey, b⟩ calls s) :
    s.ino.Allocated := by
  have hload := Inode.tidy_load hashname inoRecordname bmRecordname kb cover iSize aesKey
  exact h.keeps (fun _ c ht _ => c.allocated ht) hload.toAllocated

/-- After any calls among which every write could load its range, each dirty block is loaded, and the
next write fails cleanly if it can load its range too. -/
theorem tidy_in_use (P : Platform) (hashname inoRecordname bmRecordname : Bytes)
    (kb cover iSize : Nat) (aesKey : Bytes) (b : Backend) {calls : List (FileCall × Env)} {s : Session}
    (h : CallsTo P (fun s c => c.Loads P s)
      ⟨Inode.load hashname inoRecordname bmRecordname kb cover iSize aesKey, b⟩ calls s) :
    s.ino.Tidy ∧ ∀ buf offset size, s.Loadable P (min offset s.ino.size) size →
      FailsCleanly P s buf offset size := by
  have hload := Inode.tidy_load hashname inoRecordname bmRecordname kb cover iSize aesKey
  have htidy : s.ino.Tidy := h.keeps (fun _ c ht hC => FileCall.tidy ht hC) hload
  exact ⟨htidy, fun _ _ _ hloads => failsCleanly_of_loadable htidy hloads⟩

end DcfsClient
