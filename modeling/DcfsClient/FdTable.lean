import DcfsClient.MountRuns
import DcfsClient.Reference

/-!
# Handles and the handle table

`fd_cnt` only grows, so no handle is assigned twice, and the entry of a handle stays until a flush of
that handle. But nothing compares the counter with the size of the table: after 245 handles, whether
closed or not, the next `dcfs_create` or `dcfs_open` writes behind the end of `fd_table`.
-/

namespace DcfsClient

open Exec

def FsEvent.assigned (ev : FsEvent) : Option Nat :=
  match ev.answer with
  | .ok (.handle fd) => some fd
  | _ => none

def handles (evs : List FsEvent) : List Nat := evs.filterMap FsEvent.assigned

def Callback.opens : Callback → Option Bytes
  | .create path => some path
  | .open path => some path
  | _ => none

/-- The search of the directory does not already end the call. -/
def Callback.NeedsHandle (fs : Fs) : Callback → Prop
  | .create path => fs.target path 0 = none
  | .open path => fs.target path 0 ≠ none
  | _ => False

def RoomForHandles (kb : Nat) (run : List FsEvent) : Prop :=
  ∀ ev evs, ev :: evs <:+ run → ev.callback.NeedsHandle (mounted kb evs) →
    (mounted kb evs).fdCnt + 1 < fdTableMax

/-- `create` and `open` stay inside the table, give out a handle once, and the table maps it to the file
of the path until the handle is flushed. -/
structure GoodHandles (kb : Nat) (run : List FsEvent) : Prop where
  inRange : ∀ ev evs, ev :: evs <:+ run → ∀ path, ev.callback.opens = some path →
    ev.answer ≠ .error (.abort .undefined) ∧ ∀ fd, ev.assigned = some fd → fd < fdTableMax
  distinct : ∀ ev evs, ev :: evs <:+ run → ∀ fd, ev.assigned = some fd → fd ∉ handles evs
  kept : ∀ newer ev evs, newer ++ ev :: evs <:+ run → Alive newer → ∀ path fd,
    ev.callback.opens = some path → ev.assigned = some fd →
    (∀ later ∈ newer, ∀ path', later.callback ≠ .flush path' fd) →
    ev.after.target path 0 = some ((mounted kb (newer ++ ev :: evs)).fdTable fd)

/-! ## No other undefined behaviour -/

section Defined

variable {P : Platform} {fs : Fs}

/-- `ReadFileMeta` takes the second of two previous hashes: it has just counted them. -/
theorem readFileMeta_spares_undefined (h : Bytes) :
    Spares .undefined (StorageBackend.readFileMeta P h) := by
  intro b
  have hsign : Spares .undefined (fallible errSign) := fallible_spares (by decide) _
  simp only [StorageBackend.readFileMeta, wp_bind]
  refine wp_mono (hsign b) ?_ (fun _ _ hx => hx)
  intro _ b₁ _
  refine wp_mono (getInodeName_spares P h _ b₁) ?_ (fun _ _ hx => hx)
  intro n b₂ _
  have hread : Spares .undefined (readRecord h n maxInodeRecordSize) :=
    readRecord_spares (by decide) (by decide) _ _ _
  refine wp_mono (hread.attempt b₂) ?_ (fun _ _ hx => hx)
  intro ret b₃ _
  simp only [wp_check, wp_orAbort, decide_eq_true_eq]
  refine ⟨fun hlen => ⟨fun bm _ => ?_, fun hnone => ?_⟩, fun _ => by simp⟩
  · simp only [DCFSMidSim.decryptAESKey, wp_bind, wp_check, wp_pure]
    refine ⟨fun _ => ?_, fun _ => by simp⟩
    cases ret with
    | ok _ => trivial
    | error e => simp
  · rw [List.getElem?_eq_none_iff] at hnone
    omega

theorem getInode_spares_undefined (h : Bytes) : Spares .undefined (Fs.getInode P h) := by
  refine .bind .get fun fs => ?_
  cases fs.inodeTable h with
  | some ino => exact .pure _
  | none =>
      refine .bind (Spares.zoom (readFileMeta_spares_undefined h)).attempt fun err => ?_
      cases err with
      | ok m => exact .bind (.modify _) fun _ => .pure _
      | error e => exact .pure _

theorem wp_newHandle_defined (h : Bytes) (hroom : fs.fdCnt + 1 < fdTableMax) :
    wp (Fs.newHandle h) (fun _ _ => True) (fun x _ => x ≠ .abort .undefined) fs := by
  simp only [Fs.newHandle, wp_bind, wp_get, wp_check, wp_set, wp_pure, decide_eq_true_eq]
  exact ⟨fun _ => trivial, fun hnot => absurd hroom (by simpa using hnot)⟩

theorem wp_dcfsCreate_defined (path : Bytes)
    (hroom : fs.target path 0 = none → fs.fdCnt + 1 < fdTableMax) :
    wp (Fs.dcfsCreate P path) (fun _ _ => True) (fun x _ => x ≠ .abort .undefined) fs := by
  simp only [Fs.dcfsCreate, wp_bind]
  apply wp_lookup
  intro fs₀ hlook
  cases hent : fs.root.entries.find? (fun ent => path.tail = ent.filename) with
  | some ent => trivial
  | none =>
      have hfd : fs.fdCnt + 1 < fdTableMax := hroom (by rw [Fs.target_zero, hent]; rfl)
      obtain ⟨root, hroot, rfl⟩ := hlook
      have hspare : Spares .undefined (DCFSMidSim.createNew P) := createNew_spares P (by decide)
      simp only [Fs.allocateInode, StorageBackend.createNewFile, wp_bind, wp_attempt, wp_onStorage]
      apply wp_mono (hspare fs.be)
      · intro out b _
        obtain ⟨h, key⟩ := out
        simp only [wp_bind, Exec.wp_modify, wp_pure]
        rw [wp_onSession (Function.update_self _ _ _)]
        simp only [wp_onInode]
        exact wp_newHandle_defined h hfd
      · intro x b hx
        cases x with
        | err e => trivial
        | abort k => exact hx

theorem wp_dcfsOpen_defined (path : Bytes)
    (hroom : fs.target path 0 ≠ none → fs.fdCnt + 1 < fdTableMax) :
    wp (Fs.dcfsOpen P path) (fun _ _ => True) (fun x _ => x ≠ .abort .undefined) fs := by
  simp only [Fs.dcfsOpen, wp_bind]
  apply wp_lookup
  intro fs₀ hlook
  cases hent : fs.root.entries.find? (fun ent => path.tail = ent.filename) with
  | none => trivial
  | some ent =>
      have hfd : fs.fdCnt + 1 < fdTableMax := hroom (by rw [Fs.target_zero, hent]; simp)
      simp only [wp_bind]
      refine wp_mono (wp_and (wp_getInode ent.hashname)
        (getInode_spares_undefined ent.hashname fs₀)) ?_ (fun _ _ hx => hx.2)
      rintro out fs₁ ⟨hcase, _⟩
      rcases hcase with ⟨rfl, -, -⟩ | ⟨rfl, ino, hload⟩
      · trivial
      · have hcnt := (hlook.trans_loads hload).rest.1
        simp only [wp_bind, wp_pure]
        rw [wp_onSession hload.found]
        simp only [wp_onInode]
        apply wp_newHandle_defined
        change fs₁.fdCnt + 1 < fdTableMax
        rw [hcnt]
        exact hfd

end Defined

/-! ## One callback -/

section Step

variable {P : Platform} {fs fs' : Fs} {cb : Callback} {reply : Reply}

structure Fs.Assigns (fs : Fs) (cb : Callback) (fd : Nat) (fs' : Fs) : Prop where
  next : fd = fs.fdCnt + 1
  inRange : fd < fdTableMax
  counted : fs'.fdCnt = fd
  file : ∀ path, cb.opens = some path → fs'.target path 0 = some (fs'.fdTable fd)
  others : ∀ n, n ≠ fd → fs'.fdTable n = fs.fdTable n

structure Fs.KeepsHandles (fs : Fs) (cb : Callback) (fs' : Fs) : Prop where
  counted : fs'.fdCnt = fs.fdCnt
  unflushed : ∀ n, (∀ path, cb ≠ .flush path n) → fs'.fdTable n = fs.fdTable n

/-- Every callback that replies assigns a handle or keeps those there are. -/
theorem Fs.Effect.handles (he : fs.Effect P cb reply fs') :
    (∃ fd, reply = .handle fd ∧ fs.Assigns cb fd fs') ∨
      reply.isHandle = false ∧ fs.KeepsHandles cb fs' := by
  cases he with
  | idle hkeep hreply _ => exact Or.inr ⟨hreply, hkeep.fdCnt, fun n _ => by rw [hkeep.fdTable]⟩
  | refused root hroot e b hnew => exact Or.inr ⟨rfl, rfl, fun n _ => rfl⟩
  | @created path root hroot hfresh h key b hnew hfd =>
      refine Or.inl ⟨_, rfl, rfl, hfd, rfl, ?_, fun n hn => Function.update_of_ne hn _ _⟩
      intro path' hpath
      simp only [Callback.opens, Option.some.injEq] at hpath
      subst hpath
      rw [Fs.target_addent hroot hfresh rfl]
      simp only [Function.update_self]
  | @opened path h ino fs₁ htarget hload hfd =>
      refine Or.inl ⟨_, rfl, rfl, hfd, rfl, ?_, fun n hn => Function.update_of_ne hn _ _⟩
      intro path' hpath
      simp only [Callback.opens, Option.some.injEq] at hpath
      subst hpath
      have hsame : fs₁.target path 0 = fs.target path 0 := by
        rw [Fs.target_zero, Fs.target_zero, hload.entries]
      change fs₁.target path 0 = some (Function.update fs.fdTable (fs.fdCnt + 1) h (fs.fdCnt + 1))
      rw [hsame, htarget, Function.update_self]
  | used s hload hwrites hreply _ =>
      obtain ⟨hcnt, htable, -⟩ := hload.rest
      refine Or.inr ⟨hreply, hcnt, fun n _ => ?_⟩
      rw [← htable]
      rfl
  | unreffed htarget hload hcount =>
      obtain ⟨hcnt, htable, -⟩ := hload.rest
      refine Or.inr ⟨rfl, hcnt, fun n _ => ?_⟩
      rw [← htable]
      rfl
  | @released path h fh ino fs₁ s htarget hload hcount hflush =>
      refine Or.inr ⟨rfl, hload.rest.1, fun n hn => ?_⟩
      have hne : n ≠ fh := by
        rintro rfl
        exact hn path rfl
      dsimp only
      split
      · exact Function.update_of_ne hne _ _
      · rfl

end Step

/-! ## Runs -/

section Runs

variable {P : Platform} {kb : Nat} {evs run newer : List FsEvent} {ev : FsEvent} {fd : Nat}

theorem FsEvent.assigned_eq_some : ev.assigned = some fd ↔ ev.answer = .ok (.handle fd) := by
  unfold FsEvent.assigned
  cases ha : ev.answer with
  | error x => simp
  | ok reply => cases reply <;> simp

theorem assigned_of_isHandle {reply : Reply} (hok : ev.answer = .ok reply)
    (hreply : reply.isHandle = false) : ev.assigned = none := by
  unfold FsEvent.assigned
  rw [hok]
  cases reply <;> first | rfl | cases hreply

theorem IsMountRun.assigns (hrun : IsMountRun P kb (ev :: evs)) (hfd : ev.assigned = some fd) :
    (mounted kb evs).Assigns ev.callback fd ev.after := by
  have hok := FsEvent.assigned_eq_some.mp hfd
  rcases (hrun.effect hok).handles with ⟨fd', hreply, hassign⟩ | ⟨hreply, -⟩
  · injection hreply with he
    rw [he]
    exact ⟨hassign.next, hassign.inRange, hassign.counted, hassign.file, hassign.others⟩
  · cases hreply

/-- All handles given out so far are at most the counter. -/
theorem IsMountRun.handles_le (hrun : IsMountRun P kb evs) (halive : Alive evs) :
    ∀ fd ∈ handles evs, fd ≤ (mounted kb evs).fdCnt := by
  induction evs with
  | nil => simp [handles]
  | cons ev evs ih =>
      obtain ⟨reply, hok⟩ := halive ev (by simp)
      have hold := ih hrun.1 hrun.2.1
      change ∀ fd ∈ handles (ev :: evs), fd ≤ ev.after.fdCnt
      rcases (hrun.effect hok).handles with ⟨fd', rfl, hassign⟩ | ⟨hreply, hkeep⟩
      · have hcons : handles (ev :: evs) = fd' :: handles evs := by
          simp [handles, FsEvent.assigned_eq_some.mpr hok]
        have hnext : fd' = (mounted kb evs).fdCnt + 1 := hassign.next
        rw [hcons, hassign.counted]
        intro fd hfd
        rcases List.mem_cons.mp hfd with rfl | hfd
        · exact le_refl _
        · have hle := hold fd hfd
          omega
      · have hcons : handles (ev :: evs) = handles evs := by
          simp [handles, assigned_of_isHandle hok hreply]
        rw [hcons, hkeep.counted]
        exact hold

/-- The entry of a handle stays through events that do not flush it. -/
theorem IsMountRun.fdTable_kept (hrun : IsMountRun P kb (newer ++ ev :: evs)) (halive : Alive newer)
    (hfd : ev.assigned = some fd)
    (hnone : ∀ later ∈ newer, ∀ path, later.callback ≠ .flush path fd) :
    fd ≤ (mounted kb (newer ++ ev :: evs)).fdCnt ∧
      (mounted kb (newer ++ ev :: evs)).fdTable fd = ev.after.fdTable fd := by
  induction newer with
  | nil =>
      refine ⟨?_, rfl⟩
      change fd ≤ ev.after.fdCnt
      rw [(hrun.assigns hfd).counted]
  | cons later newer ih =>
      rw [List.cons_append] at hrun ⊢
      obtain ⟨hle, hentry⟩ := ih hrun.1 halive.tail (fun l hl => hnone l (by simp [hl]))
      obtain ⟨reply, hok⟩ := halive later (by simp)
      change fd ≤ later.after.fdCnt ∧ later.after.fdTable fd = _
      rcases (hrun.effect hok).handles with ⟨fd', -, hassign⟩ | ⟨-, hkeep⟩
      · have hnext : fd' = (mounted kb (newer ++ ev :: evs)).fdCnt + 1 := hassign.next
        have hne : fd ≠ fd' := by omega
        refine ⟨by rw [hassign.counted]; omega, ?_⟩
        rw [hassign.others fd hne]
        exact hentry
      · refine ⟨by rw [hkeep.counted]; exact hle, ?_⟩
        rw [hkeep.unflushed fd (hnone later (by simp))]
        exact hentry

theorem IsMountRun.defined (hrun : IsMountRun P kb (ev :: evs)) {path : Bytes}
    (hopens : ev.callback.opens = some path)
    (hroom : ev.callback.NeedsHandle (mounted kb evs) → (mounted kb evs).fdCnt + 1 < fdTableMax) :
    ev.answer ≠ .error (.abort .undefined) := by
  have hspec : wp (ev.callback.run P) (fun _ _ => True) (fun x _ => x ≠ .abort .undefined)
      ((mounted kb evs).withEnv ev.env) := by
    cases hcb : ev.callback with
    | create path =>
        rw [hcb] at hroom
        exact wp_dcfsCreate_defined path hroom
    | «open» path =>
        rw [hcb] at hroom
        exact wp_dcfsOpen_defined path hroom
    | _ => simp [Callback.opens, hcb] at hopens
  intro herr
  have hserved := hrun.2.2
  rw [herr, Fs.serve] at hserved
  cases hm : ev.callback.run P ((mounted kb evs).withEnv ev.env) with
  | ok reply fs' =>
      rw [hm] at hserved
      cases hserved
  | error x fs' =>
      rw [hm, Prod.mk.injEq, Except.error.injEq] at hserved
      exact wp_error hspec hm hserved.1.symm

/-- The counter starts at 10 and a callback moves it by at most one. -/
theorem IsMountRun.fdCnt_le (hrun : IsMountRun P kb evs) (halive : Alive evs) :
    (mounted kb evs).fdCnt ≤ 10 + evs.length := by
  induction evs with
  | nil => exact le_refl 10
  | cons ev evs ih =>
      obtain ⟨reply, hok⟩ := halive ev (by simp)
      have hold := ih hrun.1 hrun.2.1
      change ev.after.fdCnt ≤ 10 + (evs.length + 1)
      rcases (hrun.effect hok).handles with ⟨fd, -, hassign⟩ | ⟨-, hkeep⟩
      · have hnext : fd = (mounted kb evs).fdCnt + 1 := hassign.next
        rw [hassign.counted]
        omega
      · have hcnt : ev.after.fdCnt = (mounted kb evs).fdCnt := hkeep.counted
        omega

/-- Up to 245 callbacks there is room. -/
theorem IsMountRun.roomForHandles (hrun : IsMountRun P kb run) (hlen : run.length ≤ 245) :
    RoomForHandles kb run := by
  intro ev evs hs _
  have hev := hrun.suffix hs
  have hle := hev.1.fdCnt_le hev.2.1
  have hshort := hs.length_le
  rw [List.length_cons] at hshort
  change _ < 256
  omega

/-- As long as there is room in the table, handles are in range, distinct and lead to their files. -/
theorem handles_good (hrun : IsMountRun P kb run) (hroom : RoomForHandles kb run) :
    GoodHandles kb run := by
  constructor
  · intro ev evs hs path hopens
    have hev := hrun.suffix hs
    exact ⟨hev.defined hopens (hroom ev evs hs), fun fd hfd => (hev.assigns hfd).inRange⟩
  · intro ev evs hs fd hfd hmem
    have hev := hrun.suffix hs
    have hle := hev.1.handles_le hev.2.1 fd hmem
    have hnext := (hev.assigns hfd).next
    omega
  · intro newer ev evs hs halive path fd hopens hfd hnone
    have hall := hrun.suffix hs
    have hev := hall.suffix (List.suffix_append newer (ev :: evs))
    obtain ⟨-, hentry⟩ := hall.fdTable_kept halive hfd hnone
    rw [hentry]
    exact (hev.assigns hfd).file path hopens

end Runs

/-! ## Behind the end of the table -/

section Full

variable {P : Platform} {fs : Fs} {path h : Bytes} {ino : Inode}

/-- A file whose inode is in the table is opened without any call to the server. -/
theorem wp_dcfsOpen_cached (htarget : fs.target path 0 = some h)
    (hino : fs.inodeTable h = some ino) :
    wp (Fs.dcfsOpen P path)
      (fun reply fs' => reply = .handle (fs.fdCnt + 1) ∧ fs'.fdCnt = fs.fdCnt + 1 ∧
        fs'.root.entries = fs.root.entries ∧ fs'.inodeTable h = some ino.ref)
      (fun x _ => x = .abort .undefined ∧ fdTableMax ≤ fs.fdCnt + 1) fs := by
  rw [Fs.target_zero, Option.map_eq_some_iff] at htarget
  obtain ⟨ent, hent, rfl⟩ := htarget
  simp only [Fs.dcfsOpen, wp_bind]
  apply wp_lookup
  rintro fs₀ ⟨root, hroot, rfl⟩
  rw [hent]
  have hino' : { fs with root := root }.inodeTable ent.hashname = some ino := hino
  simp only [Fs.getInode, wp_bind, wp_get, hino, wp_pure]
  rw [wp_onSession hino']
  simp only [wp_onInode, Fs.newHandle, wp_bind, wp_get, wp_check, wp_set, wp_pure,
    decide_eq_true_eq, decide_eq_false_iff_not, not_lt, Fs.putInode]
  exact ⟨fun _ => ⟨trivial, trivial, hroot, Function.update_self _ _ _⟩,
    fun hfull => ⟨trivial, hfull⟩⟩

def openedRun (P : Platform) : Nat → List FsEvent
  | 0 => replayMount P defaultBlockSizeInKb [(.create [47, 97], { clock := [5] })]
  | n + 1 => .next P defaultBlockSizeInKb (openedRun P n) (.open [47, 97]) {} :: openedRun P n

structure Fs.Openable (fs : Fs) (path h : Bytes) (cnt : Nat) : Prop where
  target : fs.target path 0 = some h
  cached : ∃ ino, fs.inodeTable h = some ino
  fdCnt : fs.fdCnt = cnt

/-- What serving an open of an openable file gives. -/
theorem Fs.Openable.served {kb n : Nat} {evs : List FsEvent}
    (ho : (mounted kb evs).Openable path h n) :
    let ev := FsEvent.next P kb evs (.open path) {}
    (ev.answer = .ok (.handle (n + 1)) ∧ ev.after.Openable path h (n + 1)) ∨
      (ev.answer = .error (.abort .undefined) ∧ fdTableMax ≤ n + 1) := by
  obtain ⟨htarget, ⟨ino, hino⟩, hcnt⟩ := ho
  have hspec := @wp_dcfsOpen_cached P ((mounted kb evs).withEnv {}) path h ino htarget hino
  have hcnt' : ((mounted kb evs).withEnv {}).fdCnt = n := hcnt
  rw [hcnt'] at hspec
  simp only [FsEvent.next, Fs.serve]
  cases hm : (Callback.open path).run P ((mounted kb evs).withEnv {}) with
  | ok reply fs' =>
      obtain ⟨hreply, hcnt', hentries, hino'⟩ := wp_ok hspec hm
      refine Or.inl ⟨by rw [hreply], ?_, ⟨_, hino'⟩, hcnt'⟩
      rw [Fs.target_zero, hentries]
      exact htarget
  | error x fs' =>
      obtain ⟨hx, hfull⟩ := wp_error hspec hm
      exact Or.inr ⟨by rw [hx], hfull⟩

end Full

section Instances

open Reference

theorem openedRun_zero : Alive (openedRun platform 0) ∧
    (mounted defaultBlockSizeInKb (openedRun platform 0)).Openable [47, 97] (fileAt 5) 11 := by
  refine ⟨alive_of_all (by decide), by decide +kernel, ?_, by decide +kernel⟩
  exact Option.isSome_iff_exists.mp (by decide)

theorem openedRun_openable (n : Nat) (hn : n ≤ 244) : IsMountRun platform defaultBlockSizeInKb
    (openedRun platform n) ∧ Alive (openedRun platform n) ∧
    (mounted defaultBlockSizeInKb (openedRun platform n)).Openable [47, 97] (fileAt 5) (11 + n) := by
  induction n with
  | zero =>
      have hnil : Alive [] := fun _ h => (by cases h)
      exact ⟨isMountRun_replay _ hnil, openedRun_zero⟩
  | succ n ih =>
      obtain ⟨hrun, halive, hopen⟩ := ih (by omega)
      rcases hopen.served (P := platform) with ⟨hok, hopen'⟩ | ⟨-, hfull⟩
      · refine ⟨hrun.next halive _ _, ?_, hopen'⟩
        intro ev hev
        rcases List.mem_cons.mp hev with rfl | hev
        · exact ⟨_, hok⟩
        · exact halive ev hev
      · change 256 ≤ _ at hfull
        omega

/-- The 246th handle would be 256. -/
theorem handles_good_openedRun : IsMountRun platform defaultBlockSizeInKb (openedRun platform 245) ∧
    (∀ ev ∈ openedRun platform 245, ev.callback = .create [47, 97] ∨ ev.callback = .open [47, 97]) ∧
    ¬ GoodHandles defaultBlockSizeInKb (openedRun platform 245) := by
  obtain ⟨hrun, halive, hopen⟩ := openedRun_openable 244 (le_refl _)
  refine ⟨hrun.next halive _ _, ?_, ?_⟩
  · have hcallbacks : ∀ n, ∀ ev ∈ openedRun platform n,
        ev.callback = .create [47, 97] ∨ ev.callback = .open [47, 97] := by
      intro n
      induction n with
      | zero =>
          intro ev hev
          rw [List.mem_singleton.mp hev]
          exact Or.inl rfl
      | succ n ih =>
          intro ev hev
          rcases List.mem_cons.mp hev with rfl | hev
          · exact Or.inr rfl
          · exact ih ev hev
    exact hcallbacks 245
  · intro hgood
    have hlast := (hgood.inRange _ _ (List.suffix_refl _) [47, 97] rfl).1
    rcases hopen.served (P := platform) with ⟨hok, hopen'⟩ | ⟨herr, -⟩
    · have hlt := (hrun.next halive (.open [47, 97]) {}).assigns (FsEvent.assigned_eq_some.mpr hok)
      exact absurd hlt.inRange (by decide)
    · exact hlast herr

def threeHandles : List FsEvent :=
  replayMount platform defaultBlockSizeInKb [(.open [47, 97], {}), (.flush [47, 98] 12, {}),
    (.open [47, 97], {}), (.create [47, 98], { clock := [6] }), (.create [47, 97], { clock := [5] })]

theorem threeHandles_isMountRun : IsMountRun platform defaultBlockSizeInKb threeHandles :=
  isMountRun_replay _ (alive_of_all (by decide))

example : handles threeHandles = [14, 13, 12, 11] := by decide

theorem handles_good_threeHandles : RoomForHandles defaultBlockSizeInKb threeHandles ∧
    GoodHandles defaultBlockSizeInKb threeHandles := by
  have hroom := threeHandles_isMountRun.roomForHandles (by decide)
  exact ⟨hroom, handles_good threeHandles_isMountRun hroom⟩

end Instances

end DcfsClient
