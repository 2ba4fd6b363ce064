import DcfsClient.ClosedFiles
import DcfsClient.IndexKeys

/-!
# Which files can be looked up again

`get_inode` finds a file in the inode table or reads its newest inode record. A file without an inode
record is one that was never flushed with a dirty block; as long as somebody holds it open it is in the
table. When its last handle is closed and nothing was written, the flush sends nothing, the inode is
released, and from then on every lookup of the file runs into the assertion of `ReadFileMeta`.
-/

namespace DcfsClient

open Backend Exec

/-- Every file of the root directory is found, and one that nobody has written to has size 0. -/
def Fs.LooksUp (P : Platform) (fs : Fs) : Prop :=
  ∀ ent ∈ fs.root.entries, ∀ e : Env, (∀ f ∈ e.faults, f = .none) →
    ∃ fs' ino, Fs.getInode P ent.hashname (fs.withEnv e) = .ok (some ent.hashname) fs' ∧
      fs'.inodeTable ent.hashname = some ino ∧
      (fs.be.index ent.hashname = some [] → ino.dirtyCount = 0 → ino.size = 0)

/-- The event is a flush that drops the last reference to a file which has no inode record yet, and sends
nothing. -/
def DropsUnwritten (kb : Nat) (ev : FsEvent) (evs : List FsEvent) : Prop :=
  ∃ path fh h ino, ev.callback = .flush path fh ∧ (mounted kb evs).target path fh = some h ∧
    (mounted kb evs).inodeTable h = some ino ∧ ino.refCount = 1 ∧ ino.SendsNothing ∧
    (mounted kb evs).be.index h = some []

def Fs.Listed (fs : Fs) : Prop :=
  ∀ h, fs.be.Known h ↔ ∃ ent ∈ fs.root.entries, ent.hashname = h

def Fs.UnwrittenCached (fs : Fs) : Prop :=
  ∀ h, fs.be.index h = some [] → fs.inodeTable h ≠ none

section Effects

variable {P : Platform} {fs fs' : Fs} {cb : Callback} {reply : Reply} {h : Bytes} {ino : Inode}

/-- A callback that replies adds a new file to the directory and the index, or adds to neither. -/
theorem FsInv.listed_cases (hP : P.Lawful) (hi : FsInv P fs) (he : fs.Effect P cb reply fs')
    (hfree : P.CollisionFree fs'.be.hashed) :
    (∃ ent : DirectoryEntry, fs'.root.entries = fs.root.entries ++ [ent] ∧
      fs'.be.index = Function.update fs.be.index ent.hashname (some [])) ∨
    (fs'.root.entries = fs.root.entries ∧ ∀ h, fs'.be.Known h ↔ fs.be.Known h) := by
  cases he with
  | idle hkeep _ _ => exact Or.inr ⟨hkeep.entries, fun h => by rw [Known, Known, hkeep.be.index]⟩
  | refused root hroot e b hnew =>
      obtain ⟨hsame, -⟩ := wp_error (wp_createNew_sound hP hi.sound) hnew
      exact Or.inr ⟨hroot, fun h => by rw [Known, Known, hsame]⟩
  | @created path root hroot hfresh h key b hnew hfd =>
      obtain ⟨hout, hindex, -⟩ := wp_ok (wp_createNew_sound hP hi.sound) hnew
      rw [Prod.mk.injEq] at hout
      rw [← hout.1] at hindex
      refine Or.inl ⟨⟨path.tail, h⟩, ?_, hindex⟩
      simp only [Directory.addent, hroot]
  | opened htarget hload hfd =>
      exact Or.inr ⟨hload.entries, fun h => by rw [Known, Known, ← hload.be.index]; rfl⟩
  | used s hload hwrites _ _ =>
      have hsame := hload.be.trans hwrites.be
      exact Or.inr ⟨hload.entries, fun h => by rw [Known, Known, ← hsame.index]; rfl⟩
  | unreffed htarget hload hcount =>
      exact Or.inr ⟨hload.entries, fun h => by rw [Known, Known, ← hload.be.index]; rfl⟩
  | @released path h₀ fh ino fs₁ s htarget hload hcount hflush =>
      have hi' := hi.loads hP hload
      obtain ⟨hist, hsnap⟩ := hi'.inodes _ _ hload.found
      obtain ⟨-, -, hcase⟩ := (hsnap.withRefCount 0).flushed hP hi'.sound hflush hfree
      refine Or.inr ⟨hload.entries, fun h => ?_⟩
      change s.be.index h ≠ none ↔ fs.be.index h ≠ none
      rw [← congrFun hload.be.index h]
      rcases hcase with ⟨hsame, -⟩ | ⟨c, -, -, hupdate, -⟩
      · rw [hsame]
      · by_cases hh : h = h₀
        · rw [hupdate, hh, Function.update_self, hsnap.state.index]
          simp
        · rw [hupdate, Function.update_of_ne hh]

theorem FsInv.listed_effect (hP : P.Lawful) (hi : FsInv P fs) (he : fs.Effect P cb reply fs')
    (hfree : P.CollisionFree fs'.be.hashed) (hl : fs.Listed) : fs'.Listed := by
  intro h
  rcases hi.listed_cases hP he hfree with ⟨new, hentries, hindex⟩ | ⟨hentries, hknown⟩
  · have hnew : fs'.be.Known h ↔ fs.be.Known h ∨ new.hashname = h := by
      rw [Known, Known, hindex]
      by_cases hh : new.hashname = h
      · simp [hh]
      · simp [hh, Function.update_of_ne (Ne.symm hh)]
    rw [hnew, hl h, hentries]
    simp only [List.mem_append, List.mem_singleton, or_and_right, exists_or, exists_eq_left]
  · rw [hknown, hl h, hentries]

/-- A replacement of one inode keeps every inode that is in the table. -/
theorem update_ne_none {table : Bytes → Option Inode} {h₀ : Bytes} (hh : table h ≠ none) :
    Function.update table h₀ (some ino) h ≠ none := by
  rw [Function.update_apply]
  split
  · simp
  · exact hh

/-- A lookup of any file keeps a file without an inode record in the table. -/
theorem Fs.Loads.keepsUnwritten {h₀ : Bytes} {fs₁ : Fs} (hload : fs.Loads P h₀ ino fs₁)
    (hcached : fs.be.index h = some [] → fs.inodeTable h ≠ none)
    (hindex : fs₁.be.index h = some []) : fs₁.inodeTable h ≠ none := by
  rw [hload.be.index] at hindex
  rw [hload.inodeTable]
  exact update_ne_none (hcached hindex)

/-- Without failures, a file with no inode record leaves the table only by `DropsUnwritten`. -/
theorem FsInv.cached_effect (hP : P.Lawful) (hi : FsInv P fs) (he : fs.Effect P cb reply fs')
    (hfree : P.CollisionFree fs'.be.hashed) (hcalm : fs.be.Calm)
    (hcached : fs.be.index h = some [] → fs.inodeTable h ≠ none)
    (hdrop : ∀ path fh ino, cb = .flush path fh → fs.target path fh = some h →
      fs.inodeTable h = some ino → ino.refCount = 1 → ino.SendsNothing →
      fs.be.index h ≠ some []) :
    fs'.be.index h = some [] → fs'.inodeTable h ≠ none := by
  cases he with
  | idle hkeep _ _ =>
      rw [hkeep.be.index, hkeep.inodeTable]
      exact hcached
  | refused root hroot e b hnew =>
      obtain ⟨hsame, -⟩ := wp_error (wp_createNew_sound hP hi.sound) hnew
      change b.index h = some [] → fs.inodeTable h ≠ none
      rw [hsame]
      exact hcached
  | @created path root hroot hfresh h₀ key b hnew hfd =>
      obtain ⟨hout, hindex, -⟩ := wp_ok (wp_createNew_sound hP hi.sound) hnew
      rw [Prod.mk.injEq] at hout
      rw [← hout.1] at hindex
      change b.index h = some [] → Function.update fs.inodeTable h₀ _ h ≠ none
      by_cases hh : h = h₀
      · rw [hh, Function.update_self]
        simp
      · rw [hindex, Function.update_of_ne hh, Function.update_of_ne hh]
        exact hcached
  | @opened path h₀ ino fs₁ htarget hload hfd =>
      intro hindex
      apply update_ne_none
      exact hload.keepsUnwritten hcached hindex
  | @used _ _ h₀ ino fs₁ s hload hwrites _ _ =>
      intro hindex
      change s.be.index h = some [] at hindex
      rw [hwrites.be.index] at hindex
      apply update_ne_none
      exact hload.keepsUnwritten hcached hindex
  | @unreffed path h₀ fh ino fs₁ htarget hload hcount =>
      intro hindex
      apply update_ne_none
      exact hload.keepsUnwritten hcached hindex
  | @released path h₀ fh ino fs₁ s htarget hload hcount hflush =>
      obtain ⟨hino, root, -, hlook⟩ := hload.cached_of_refCount (by omega)
      have hi' := hi.loads hP hload
      obtain ⟨hist, hsnap⟩ := hi'.inodes _ _ hload.found
      obtain ⟨-, -, hcase⟩ := (hsnap.withRefCount 0).flushed hP hi'.sound hflush hfree
      change s.be.index h = some [] → Function.update fs₁.inodeTable h₀ none h ≠ none
      intro hindex
      by_cases hh : h = h₀
      · subst hh
        rcases hcase with ⟨hsame, hnil | ⟨-, hcause⟩⟩ | ⟨c, -, -, hupdate, -⟩
        · have hclean : ino.dirtyCount = 0 := by
            have hlen := @length_dirtyDescs P { ino with refCount := 0 }
            rw [hnil] at hlen
            exact hlen.symm
          rw [hsame, hload.be.index] at hindex
          exact absurd hindex (hdrop path fh ino rfl htarget hino hcount (Or.inl hclean))
        · rw [hlook] at hcause
          rw [hsame, hload.be.index] at hindex
          exact absurd hindex (hdrop path fh ino rfl htarget hino hcount (Or.inr (hcause hcalm)))
        · rw [hupdate, Function.update_self, Option.some.injEq] at hindex
          exact absurd hindex (c.inode.name_ne_nil hP)
      · have hbefore : s.be.index h = fs₁.be.index h := by
          rcases hcase with ⟨hsame, -⟩ | ⟨c, -, -, hupdate, -⟩
          · rw [hsame]
          · rw [hupdate, Function.update_of_ne hh]
        rw [hbefore] at hindex
        rw [Function.update_of_ne hh]
        exact hload.keepsUnwritten hcached hindex

end Effects

section Runs

variable {P : Platform} {kb : Nat} {evs : List FsEvent} {ev : FsEvent} {h : Bytes}

theorem IsMountRun.listed (hP : P.Lawful) (hrun : IsMountRun P kb evs) (halive : Alive evs)
    (hfree : P.CollisionFree (mounted kb evs).be.hashed) : (mounted kb evs).Listed := by
  induction evs with
  | nil =>
      intro h
      simp [Known, mounted]
  | cons ev evs ih =>
      obtain ⟨reply, hok⟩ := halive ev (by simp)
      have heffect := hrun.effect hok
      have hfree' := hfree.of_subset heffect.remembers.hashed
      have hi := (hrun.1.inv hP hrun.2.1 hfree').withEnv ev.env
      exact hi.listed_effect hP heffect hfree (ih hrun.1 hrun.2.1 hfree')

/-- A run without failures that never drops an unwritten file keeps all of them in the table. -/
theorem IsMountRun.unwrittenCached (hP : P.Lawful) (hrun : IsMountRun P kb evs)
    (halive : Alive evs) (hfree : P.CollisionFree (mounted kb evs).be.hashed)
    (hquiet : ∀ ev ∈ evs, ev.Undisturbed)
    (hkeep : ∀ ev older, ev :: older <:+ evs → ¬ DropsUnwritten kb ev older) :
    (mounted kb evs).UnwrittenCached := by
  induction evs with
  | nil =>
      intro h hindex
      cases hindex
  | cons ev evs ih =>
      obtain ⟨reply, hok⟩ := halive ev (by simp)
      have heffect := hrun.effect hok
      have hfree' := hfree.of_subset heffect.remembers.hashed
      have hi := (hrun.1.inv hP hrun.2.1 hfree').withEnv ev.env
      have hcached := ih hrun.1 hrun.2.1 hfree' (fun ev' hev => hquiet ev' (by simp [hev]))
        (fun ev' older hs => hkeep ev' older (hs.trans (List.suffix_cons ev evs)))
      intro h
      refine hi.cached_effect hP heffect hfree (hquiet ev (by simp)) (hcached h) ?_
      intro path fh ino hcb htarget hino hcount hclean hindex
      exact hkeep ev evs (List.suffix_refl _)
        ⟨path, fh, h, ino, hcb, htarget, hino, hcount, hclean, hindex⟩

/-- What is listed and cached can be looked up. -/
theorem FsInv.looksUp (hP : P.Lawful) {fs : Fs} (hi : FsInv P fs) (hl : fs.Listed)
    (hcached : fs.UnwrittenCached) : fs.LooksUp P := by
  intro ent hent e hcalm
  have hi' := hi.withEnv e
  have hknown : fs.be.index ent.hashname ≠ none := (hl _).mpr ⟨ent, hent, rfl⟩
  obtain ⟨n, hn⟩ := Option.ne_none_iff_exists'.mp hknown
  have hreturns : ∃ out fs', Fs.getInode P ent.hashname (fs.withEnv e) = .ok out fs' ∧
      ∃ ino, fs'.inodeTable ent.hashname = some ino := by
    cases hino : fs.inodeTable ent.hashname with
    | some ino =>
        have hino' : (fs.withEnv e).inodeTable ent.hashname = some ino := hino
        apply exists_ok
        simp only [Fs.getInode, wp_bind, wp_get, hino', wp_pure]
        exact ⟨ino, rfl⟩
    | none =>
        obtain ⟨hist, hstate⟩ := hi'.files ent.hashname n hn
        cases hist with
        | nil => exact absurd hino (hcached _ hstate.index)
        | cons c cs => exact exists_getInode hP hi'.sound hcalm hstate
  obtain ⟨out, fs', hget, ino, hino⟩ := hreturns
  rcases wp_ok (wp_getInode ent.hashname) hget with ⟨-, hnone, hkeep⟩ | ⟨rfl, ino', hload⟩
  · rw [hkeep.inodeTable, hnone] at hino
    cases hino
  · refine ⟨fs', ino, hget, hino, ?_⟩
    intro hempty hclean
    obtain ⟨hist, hsnap⟩ := (hi'.loads hP hload).inodes _ _ hino
    have hhead := hsnap.state.index
    rw [hload.be.index] at hhead
    change fs.be.index ent.hashname = _ at hhead
    rw [hempty, Option.some.injEq] at hhead
    rw [hsnap.size (ino.dirtyCount_eq_zero_iff.mp hclean)]
    cases hist with
    | nil => rfl
    | cons c cs => exact absurd hhead.symm (c.inode.name_ne_nil hP)

/-- Once the inode of an unwritten file is released, the file cannot be looked up. -/
theorem not_looksUp_of_released (hP : P.Lawful) {fs : Fs} (hi : FsInv P fs)
    (hindex : fs.be.index h = some []) (hnone : fs.inodeTable h = none)
    (hlisted : ∃ ent ∈ fs.root.entries, ent.hashname = h) : ¬ fs.LooksUp P := by
  intro hlook
  obtain ⟨ent, hent, rfl⟩ := hlisted
  obtain ⟨fs', ino, hget, hino, -⟩ := hlook ent hent {} (fun f hf => by cases hf)
  rcases wp_ok (wp_getInode ent.hashname) hget with ⟨hout, -, -⟩ | ⟨-, ino', hload⟩
  · cases hout
  · cases hload with
    | cached hlook hcached =>
        change fs.inodeTable ent.hashname = some ino' at hcached
        rw [hnone] at hcached
        cases hcached
    | loaded m b root hroot _ hread hsame _ hfs =>
        have hi' := hi.withEnv {}
        obtain ⟨hist, hstate⟩ := hi'.files ent.hashname [] hindex
        have hspec := wp_readFileMeta hP hi'.sound hstate.index hstate.linked
        obtain ⟨-, -, c, cs, rfl, -⟩ := wp_ok hspec hread
        have hhead := hstate.index
        change fs.be.index ent.hashname = _ at hhead
        rw [hindex, Option.some.injEq] at hhead
        exact c.inode.name_ne_nil hP hhead.symm

/-- A flush through a handle or a path whose inode is in the table replies `0`. -/
theorem IsMountRun.flush_answer (hrun : IsMountRun P kb (ev :: evs)) {reply : Reply}
    (hok : ev.answer = .ok reply) {path : Bytes} {fh : Nat} {ino : Inode}
    (hcb : ev.callback = .flush path fh) (htarget : (mounted kb evs).target path fh = some h)
    (hino : (mounted kb evs).inodeTable h = some ino) : reply = .code 0 := by
  have heffect := hrun.effect hok
  rw [hcb] at heffect
  generalize ev.after = after at heffect
  cases heffect with
  | idle _ _ hflush =>
      have hmiss := (hflush path fh rfl).2 h htarget
      change (mounted kb evs).inodeTable h = none at hmiss
      rw [hino] at hmiss
      cases hmiss
  | used _ _ _ _ hflush => cases hflush
  | unreffed _ _ _ => rfl
  | released _ _ _ _ _ => rfl

/-- The state that `DropsUnwritten` leaves behind. -/
theorem IsMountRun.dropped (hrun : IsMountRun P kb (ev :: evs)) (halive : Alive (ev :: evs))
    (hdrop : DropsUnwritten kb ev evs) :
    ∃ h, ev.after.be.index h = some [] ∧ ev.after.inodeTable h = none := by
  obtain ⟨path, fh, h, ino, hcb, htarget, hino, hcount, hnothing, hindex⟩ := hdrop
  obtain ⟨reply, hok⟩ := halive ev (by simp)
  have hreply := hrun.flush_answer hok hcb htarget hino
  have hcloses : Closes kb h ino ev evs :=
    ⟨⟨path, fh, hcb, htarget⟩, by rw [hok, hreply], hino, hcount⟩
  obtain ⟨s, hflush, hbe, htable⟩ := hrun.closed hcloses
  refine ⟨h, ?_, by rw [htable, Function.update_self]⟩
  rw [hbe, (hflush.same hnothing).index]
  exact hindex

/-- In a run without failures every file can be looked up in every state, exactly if no flush drops the
last reference to a file that was never written. -/
theorem looksUp_iff (hP : P.Lawful) (hrun : IsMountRun P kb evs) (halive : Alive evs)
    (hfree : P.CollisionFree (mounted kb evs).be.hashed) (hquiet : ∀ ev ∈ evs, ev.Undisturbed) :
    (∀ older, older <:+ evs → (mounted kb older).LooksUp P) ↔
      ∀ ev older, ev :: older <:+ evs → ¬ DropsUnwritten kb ev older := by
  have hfree' : ∀ older, older <:+ evs → P.CollisionFree (mounted kb older).be.hashed :=
    fun older hs => hfree.of_subset (hrun.remembers halive hs).hashed
  constructor
  · intro hlook ev older hs hdrop
    have hrun' := hrun.suffix hs
    have halive' := halive.suffix hs
    obtain ⟨h, hindex, hnone⟩ := hrun'.dropped halive' hdrop
    have hlisted := (hrun'.listed hP halive' (hfree' _ hs) h).mp (by
      change ev.after.be.index h ≠ none
      rw [hindex]
      simp)
    exact not_looksUp_of_released hP (hrun'.inv hP halive' (hfree' _ hs)) hindex hnone hlisted
      (hlook _ hs)
  · intro hkeep older hs
    have hrun' := hrun.suffix hs
    have halive' := halive.suffix hs
    have hcached := hrun'.unwrittenCached hP halive' (hfree' _ hs)
      (fun ev hev => hquiet ev (hs.mem hev)) (fun ev older' hs' => hkeep ev older' (hs'.trans hs))
    exact (hrun'.inv hP halive' (hfree' _ hs)).looksUp hP (hrun'.listed hP halive' (hfree' _ hs))
      hcached

end Runs

section Instances

open Reference

/-- A file is created and closed; nothing was written. -/
@[irreducible] def unwrittenRun : List FsEvent :=
  replayMount platform 16 [(.flush [47, 97] 11, {}), (.create [47, 97], { clock := [5] })]

theorem undisturbed_of_all {evs : List FsEvent}
    (h : evs.all (fun ev => ev.env.faults.isEmpty) = true) : ∀ ev ∈ evs, ev.Undisturbed := by
  intro ev hev f hf
  have hnil := List.all_eq_true.mp h ev hev
  rw [List.isEmpty_iff] at hnil
  rw [hnil] at hf
  cases hf

def finds (fs : Fs) (h : Bytes) : Bool :=
  match Fs.getInode platform h (fs.withEnv {}) with
  | .ok out _ => out == some h
  | .error _ _ => false

theorem Fs.LooksUp.finds {fs : Fs} (hl : fs.LooksUp platform) {ent : DirectoryEntry}
    (hent : ent ∈ fs.root.entries) : finds fs ent.hashname = true := by
  obtain ⟨fs', ino, hget, -, -⟩ := hl ent hent {} (fun f hf => by cases hf)
  unfold DcfsClient.finds
  rw [hget]
  exact beq_self_eq_true _

/-- The empty file is in the directory, and it is not found. -/
theorem unwrittenRun_leaves : unwrittenRun.all FsEvent.replied = true ∧
    unwrittenRun.all (fun ev => ev.env.faults.isEmpty) = true ∧
    ((mounted 16 unwrittenRun).be.hashed.dedup.map platform.hash256).Nodup ∧
    (mounted 16 unwrittenRun).root.entries = [⟨[97], fileAt 5⟩] ∧
    finds (mounted 16 unwrittenRun) (fileAt 5) = false := by decide +kernel

/-- The empty file is in the directory and its inode record cannot be read. -/
theorem looksUp_unwrittenRun : IsMountRun platform 16 unwrittenRun ∧ Alive unwrittenRun ∧
    platform.CollisionFree (mounted 16 unwrittenRun).be.hashed ∧
    (∀ ev ∈ unwrittenRun, ev.Undisturbed) ∧ ¬ (mounted 16 unwrittenRun).LooksUp platform := by
  obtain ⟨hreplied, hquiet, hnodup, hentry, hlost⟩ := unwrittenRun_leaves
  have halive := alive_of_all hreplied
  have hrun : IsMountRun platform 16 unwrittenRun := by
    unfold unwrittenRun at halive ⊢
    exact isMountRun_replay _ fun ev hev => halive ev (List.mem_of_mem_tail hev)
  refine ⟨hrun, halive, .of_nodup hnodup, undisturbed_of_all hquiet, ?_⟩
  intro hl
  have hfinds := hl.finds (show ⟨[97], fileAt 5⟩ ∈ _ by rw [hentry]; simp)
  rw [hlost] at hfinds
  cases hfinds

/-- The file that is closed was written before. -/
theorem closing_keeps : ∀ ev older, ev :: older <:+ closing [] :: writtenRun →
    ¬ DropsUnwritten 16 ev older := by
  rintro ev older hs ⟨path, fh, h, ino, hcb, htarget, hino, -, hnothing, -⟩
  rcases List.suffix_cons_iff.mp hs with he | hs
  · injection he with hev holder
    subst hev
    subst holder
    have hflush : (closing []).callback = .flush [47, 97] 11 := by
      unfold closing
      rfl
    rw [hflush] at hcb
    injection hcb with hpath hfh
    subst hpath
    subst hfh
    obtain ⟨-, hfile, -⟩ := writtenRun_leaves
    rw [hfile, Option.some.injEq] at htarget
    subst htarget
    have hsends : ((mounted 16 writtenRun).inodeTable (fileAt 5)).any
        (fun ino => ino.dirtyCount == 0 || decide (ino.inlen < 0)) = false := by decide +kernel
    rw [hino, Option.any_some, Bool.or_eq_false_iff, beq_eq_false_iff_ne, decide_eq_false_iff_not]
      at hsends
    exact hnothing.elim hsends.1 hsends.2
  · have hall : writtenRun.all (fun ev => !ev.callback.isFlush) = true := by decide +kernel
    have hnot := List.all_eq_true.mp hall ev (hs.mem (by simp))
    rw [hcb] at hnot
    cases hnot

/-- The file is found before it is closed and after. -/
theorem looksUp_closing : (mounted 16 writtenRun).LooksUp platform ∧
    (mounted 16 (closing [] :: writtenRun)).LooksUp platform := by
  have hfree : platform.CollisionFree (mounted 16 (closing [] :: writtenRun)).be.hashed :=
    .of_nodup closing_leaves.2.2.1
  have hall := (looksUp_iff lawful (isMountRun_closing []) alive_closing hfree
    (undisturbed_of_all (by decide +kernel))).mpr closing_keeps
  exact ⟨hall _ (List.suffix_cons _ _), hall _ (List.suffix_refl _)⟩

end Instances

end DcfsClient
