import DcfsClient.FsInvariant

/-!
# Runs of a mount

The kernel sends callbacks to a mounted file system one after another; each runs to its end on whatever
clock readings, key and faults the world has for it. As for the middleware, a run is the list of what
happened, newest event first, and it ends with the process.

A run is `Alive` if every callback replied. `FsInv` holds in every state of such a run in which nothing
that was hashed collides.
-/

namespace DcfsClient

open Backend Exec

structure FsEvent where
  callback : Callback
  env : Env
  answer : Except (Exit ErrT Abort) Reply
  after : Fs

def Fs.serve (P : Platform) (fs : Fs) (cb : Callback) (e : Env) :
    Except (Exit ErrT Abort) Reply × Fs :=
  match cb.run P (fs.withEnv e) with
  | .ok reply fs' => (.ok reply, fs')
  | .error x fs' => (.error x, fs')

def mounted (kb : Nat) : List FsEvent → Fs
  | [] => { blockSizeInKb := kb }
  | ev :: _ => ev.after

def Alive (evs : List FsEvent) : Prop := ∀ ev ∈ evs, ∃ reply, ev.answer = .ok reply

def IsMountRun (P : Platform) (kb : Nat) : List FsEvent → Prop
  | [] => True
  | ev :: evs => IsMountRun P kb evs ∧ Alive evs ∧
      (ev.answer, ev.after) = (mounted kb evs).serve P ev.callback ev.env

def FsEvent.next (P : Platform) (kb : Nat) (evs : List FsEvent) (cb : Callback) (e : Env) : FsEvent :=
  let out := (mounted kb evs).serve P cb e
  ⟨cb, e, out.1, out.2⟩

def replayMount (P : Platform) (kb : Nat) : List (Callback × Env) → List FsEvent
  | [] => []
  | (cb, e) :: older => .next P kb (replayMount P kb older) cb e :: replayMount P kb older

section Runs

variable {P : Platform} {kb : Nat} {evs older : List FsEvent} {ev : FsEvent}

theorem Alive.tail (h : Alive (ev :: evs)) : Alive evs := fun ev' hev => h ev' (by simp [hev])

theorem IsMountRun.next (h : IsMountRun P kb evs) (halive : Alive evs) (cb : Callback) (e : Env) :
    IsMountRun P kb (.next P kb evs cb e :: evs) := ⟨h, halive, rfl⟩

theorem isMountRun_replay (cbs : List (Callback × Env)) (h : Alive (replayMount P kb cbs).tail) :
    IsMountRun P kb (replayMount P kb cbs) := by
  induction cbs with
  | nil => trivial
  | cons cb cbs ih => exact (ih fun ev hev => h ev (List.mem_of_mem_tail hev)).next h cb.1 cb.2

theorem serve_ok_iff {fs fs' : Fs} {cb : Callback} {e : Env} {reply : Reply} :
    (.ok reply, fs') = fs.serve P cb e ↔ cb.run P (fs.withEnv e) = .ok reply fs' := by
  unfold Fs.serve
  cases cb.run P (fs.withEnv e) with
  | ok r t => simp [eq_comm]
  | error x t => simp

def FsEvent.replied (ev : FsEvent) : Bool :=
  match ev.answer with
  | .ok _ => true
  | .error _ => false

theorem Alive.cons (h : Alive evs) (hr : ev.replied = true) : Alive (ev :: evs) := by
  intro ev' hev
  rcases List.mem_cons.mp hev with rfl | hev
  · unfold FsEvent.replied at hr
    cases ha : ev'.answer with
    | ok reply => exact ⟨reply, rfl⟩
    | error x =>
        rw [ha] at hr
        cases hr
  · exact h ev' hev

theorem alive_of_all (h : evs.all FsEvent.replied = true) : Alive evs := by
  induction evs with
  | nil =>
      intro ev hev
      cases hev
  | cons ev evs ih =>
      rw [List.all_cons, Bool.and_eq_true] at h
      exact (ih h.2).cons h.1

/-- What the newest event of a run did. -/
theorem IsMountRun.effect (h : IsMountRun P kb (ev :: evs)) {reply : Reply}
    (hok : ev.answer = .ok reply) :
    ((mounted kb evs).withEnv ev.env).Effect P ev.callback reply ev.after := by
  have hserved := h.2.2
  rw [hok] at hserved
  have hspec := @wp_callback P ((mounted kb evs).withEnv ev.env) ev.callback
  exact wp_ok hspec (serve_ok_iff.mp hserved)

/-! ## What was hashed stays in the log -/

theorem flushCache_remembers (s : Session) :
    wp (RecordCache.flushCache P) (fun _ s' => s.be.Remembers s'.be)
      (fun _ s' => s.be.Remembers s'.be) s := by
  simp only [RecordCache.flushCache, wp_bind, wp_get, wp_onBackend, wp_onInode]
  refine wp_mono (wp_collectDirty s.ino _) ?_ (fun _ _ h => h.1.remembers)
  rintro descs b₁ ⟨_, hs, _⟩
  have hwrite : Moves Remembers (StorageBackend.writeRecord P s.ino.hashname descs
      s.ino.inoRecordname s.ino.aesKey) := by
    refine .ite (.pure _) (.bind ?_ fun _ => DCFSMidSim.modify_remembers P _ _ _ _ _)
    exact (fallible_moves _).mono fun _ _ h => h.remembers
  apply wp_mono (hwrite b₁)
  · intro _ b₂ h
    exact trans_of Remembers hs.remembers h
  · intro _ b₂ h
    exact trans_of Remembers hs.remembers h

theorem Flushed.same {s s' : Session} (h : Flushed P s s') (hnothing : s.ino.SendsNothing) :
    s.be.Same s'.be := by
  have hspec := @wp_flushCache_sendsNothing P s hnothing
  rcases h with hok | ⟨e, herr⟩
  · have hafter := wp_ok hspec hok
    exact hafter
  · exact wp_error hspec herr

theorem Flushed.remembers {s s' : Session} (h : Flushed P s s') : s.be.Remembers s'.be := by
  have hspec := flushCache_remembers (P := P) s
  rcases h with hok | ⟨e, herr⟩
  · have hafter := wp_ok hspec hok
    exact hafter
  · exact wp_error hspec herr

theorem Fs.Effect.remembers {fs fs' : Fs} {cb : Callback} {reply : Reply}
    (he : fs.Effect P cb reply fs') : fs.be.Remembers fs'.be := by
  cases he with
  | idle hkeep _ _ => exact hkeep.be.remembers
  | refused root hroot e b hnew =>
      have hspec := DCFSMidSim.createNew_remembers P fs.be
      exact wp_error hspec hnew
  | created root hroot hfresh h key b hnew hfd =>
      have hspec := DCFSMidSim.createNew_remembers P fs.be
      have hafter := wp_ok hspec hnew
      exact hafter
  | opened htarget hload hfd => exact hload.be.remembers
  | used s hload hwrites _ _ => exact (hload.be.trans hwrites.be).remembers
  | unreffed htarget hload hcount => exact hload.be.remembers
  | released s htarget hload hcount hflush =>
      exact trans_of Remembers hload.be.remembers hflush.remembers

theorem IsMountRun.suffix (hrun : IsMountRun P kb evs) (hsuf : older <:+ evs) :
    IsMountRun P kb older := by
  induction evs with
  | nil =>
      rw [List.suffix_nil.mp hsuf]
      trivial
  | cons ev evs ih =>
      rcases List.suffix_cons_iff.mp hsuf with he | hsuf
      · rw [he]
        exact hrun
      · exact ih hrun.1 hsuf

theorem Alive.suffix (halive : Alive evs) (hsuf : older <:+ evs) : Alive older :=
  fun ev hev => halive ev (hsuf.subset hev)

/-- Nothing that was hashed in a part of the run is forgotten by its end. -/
theorem IsMountRun.remembers (hrun : IsMountRun P kb evs) (halive : Alive evs)
    (hsuf : older <:+ evs) : (mounted kb older).be.Remembers (mounted kb evs).be := by
  induction evs with
  | nil =>
      rw [List.suffix_nil.mp hsuf]
      exact refl_of Remembers _
  | cons ev evs ih =>
      rcases List.suffix_cons_iff.mp hsuf with he | hsuf
      · rw [he]
        exact refl_of Remembers _
      · obtain ⟨reply, hok⟩ := halive ev (by simp)
        have hstep := (hrun.effect hok).remembers
        exact trans_of Remembers (ih hrun.1 hrun.2.1 hsuf) ⟨hstep.hashed, hstep.index⟩

theorem Fs.Effect.blockSizeInKb {fs fs' : Fs} {cb : Callback} {reply : Reply}
    (he : fs.Effect P cb reply fs') : fs'.blockSizeInKb = fs.blockSizeInKb := by
  cases he with
  | idle hkeep _ _ => exact hkeep.blockSizeInKb
  | refused root hroot e b hnew => rfl
  | created root hroot hfresh h key b hnew hfd => rfl
  | opened htarget hload hfd => exact hload.rest.2.2
  | used s hload hwrites _ _ => exact hload.rest.2.2
  | unreffed htarget hload hcount => exact hload.rest.2.2
  | released s htarget hload hcount hflush => exact hload.rest.2.2

/-- The mount keeps its block size. -/
theorem IsMountRun.blockSizeInKb (hrun : IsMountRun P kb evs) (halive : Alive evs) :
    (mounted kb evs).blockSizeInKb = kb := by
  induction evs with
  | nil => rfl
  | cons ev evs ih =>
      obtain ⟨reply, hok⟩ := halive ev (by simp)
      have hstep := (hrun.effect hok).blockSizeInKb
      exact hstep.trans (ih hrun.1 hrun.2.1)

/-! ## The invariant of a run -/

theorem fsInv_mount (kb : Nat) : FsInv P (mounted kb []) := by
  refine ⟨sound_empty P, ?_, ?_, ?_⟩
  · intro d n hn
    cases hn
  · intro h ino hino
    cases hino
  · intro h ino hino
    cases hino

/-- The invariant holds after every callback of a run. -/
theorem IsMountRun.inv (hP : P.Lawful) (hrun : IsMountRun P kb evs) (halive : Alive evs)
    (hfree : P.CollisionFree (mounted kb evs).be.hashed) : FsInv P (mounted kb evs) := by
  induction evs with
  | nil => exact fsInv_mount kb
  | cons ev evs ih =>
      obtain ⟨reply, hok⟩ := halive ev (by simp)
      have heffect := hrun.effect hok
      have hi := ih hrun.1 hrun.2.1 (hfree.of_subset heffect.remembers.hashed)
      exact (hi.withEnv ev.env).effect hP heffect hfree

end Runs

end DcfsClient
