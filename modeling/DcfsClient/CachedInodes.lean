import DcfsClient.MountRuns
import DcfsClient.Reference

/-!
# Cached inodes are current

An inode object is never updated when the index moves; it is released instead. So every inode in the
table names the newest inode record of its file and that record's blockmap, and the flush that drops
its last reference is based on the current version: the staleness check of `Modify` never refuses it.
-/

namespace DcfsClient

open Backend Exec

structure Inode.Current (P : Platform) (b : Backend) (h : Bytes) (ino : Inode) : Prop where
  hashname : ino.hashname = h
  inoRecordname : b.index h = some ino.inoRecordname
  bmRecordname : ino.inoRecordname ≠ [] → ∃ pdu, b.records P h ino.inoRecordname = some pdu ∧
    prev1 pdu = some ino.bmRecordname

/-- Some flush of the run dropped the last reference to `h` with a dirty block. -/
def FlushedIn (kb : Nat) (h : Bytes) : List FsEvent → Prop
  | [] => False
  | ev :: evs => FlushedIn kb h evs ∨ ∃ path fh ino, ev.callback = .flush path fh ∧
      (mounted kb evs).target path fh = some h ∧ (mounted kb evs).inodeTable h = some ino ∧
      ino.refCount = 1 ∧ 0 < ino.dirtyCount

/-- A flush callback served in `fs` asks for a `Modify` of the session `s`, and the backend is `b` when
it does: the dirty blocks are collected and the request is signed. -/
def AsksModify (P : Platform) (fs : Fs) (path : Bytes) (fh : Nat) (s : Session) (b : Backend) : Prop :=
  ∃ h ino fs₁ descs b₁, fs.target path fh = some h ∧ fs.Loads P h ino fs₁ ∧ ino.refCount = 1 ∧
    s = ⟨{ ino with refCount := 0 }, fs₁.be⟩ ∧
    RecordCache.collectDirty P s.ino (List.range s.ino.dcacheStats.length) s.be = .ok descs b₁ ∧
    descs ≠ [] ∧ fallible errSign b₁ = .ok () b

/-- What the staleness check of `Modify` refuses. -/
def StaleAt (s : Session) (b : Backend) : Prop :=
  ∃ current b', indexAt s.ino.hashname b = .ok current b' ∧ s.ino.inoRecordname ≠ current

/-- `Modify` up to and including its staleness check. -/
def checkRequest (P : Platform) (dcname : Bytes) (descs : List BufDesc) (inodeHash aesKey sig : Bytes) :
    BackendM Bytes := do
  Exec.failIf (!P.verify (P.hash256 (DCFSMidSim.modifyArgs dcname descs inodeHash aesKey)) sig) errVerify
  let current ← indexAt dcname
  Exec.failIf (inodeHash ≠ current) (-1)
  pure current

def commitRequest (P : Platform) (dcname : Bytes) (descs : List BufDesc) (aesKey current : Bytes) :
    BackendM Unit := do
  let b ← get
  Exec.failIf (b.index dcname).isNone errNotFound
  let (inode, blockmap) ← DCFSMidSim.readCurrent P dcname current aesKey
  let newDataBlocks ←
    DCFSMidSim.pushDataBlocks P dcname blockmap.hashToLatestDataBlock [] descs
  let newBlockmapHashname ← DCFSMidSim.pushBlockmap P dcname inode blockmap newDataBlocks
  let newInodeHashname ←
    DCFSMidSim.pushInode P dcname current inode newBlockmapHashname descs.length
  assignIndex dcname newInodeHashname

section Check

variable {P : Platform} {s : Session} {b : Backend} {descs : List BufDesc}

theorem modify_eq_checkRequest (dcname : Bytes) (descs : List BufDesc) (inodeHash aesKey sig : Bytes) :
    DCFSMidSim.modify P dcname descs inodeHash aesKey sig =
      checkRequest P dcname descs inodeHash aesKey sig >>= commitRequest P dcname descs aesKey := by
  simp only [DCFSMidSim.modify, checkRequest, commitRequest, bind_assoc, pure_bind]

/-- The request that a flush makes stops at the check with `-1`, or passes it, as `StaleAt` says. -/
theorem checkRequest_cases (hP : P.Lawful) (s : Session) (b : Backend) (descs : List BufDesc) :
    let request := checkRequest P s.ino.hashname descs s.ino.inoRecordname s.ino.aesKey
      (P.sign (P.hash256
        (DCFSMidSim.modifyArgs s.ino.hashname descs s.ino.inoRecordname s.ino.aesKey))) b
    (StaleAt s b ∧ ∃ b', request = .error (.err (-1)) b') ∨
      (¬ StaleAt s b ∧ ∃ b', request = .ok s.ino.inoRecordname b') := by
  intro request
  obtain ⟨current, b₁, hat⟩ : ∃ current b₁, indexAt s.ino.hashname b = .ok current b₁ := by
    unfold indexAt
    exact ⟨_, _, rfl⟩
  have hrequest : request = (Exec.failIf (s.ino.inoRecordname ≠ current) (-1) >>=
      fun _ => pure current : BackendM Bytes) b₁ := by
    unfold request checkRequest
    rw [hP.verify_sign]
    exact (bind_of_ok rfl).trans (bind_of_ok hat)
  by_cases heq : s.ino.inoRecordname = current
  · right
    refine ⟨?_, b₁, ?_⟩
    · rintro ⟨current', b', hat', hne⟩
      rw [hat] at hat'
      cases hat'
      exact hne heq
    · rw [hrequest, heq, decide_eq_false (not_not_intro rfl)]
      rfl
  · left
    refine ⟨⟨current, b₁, hat, heq⟩, b₁, ?_⟩
    rw [hrequest, decide_eq_true heq]
    rfl

/-- What the flush of a stale inode gets is the `-1` of the check. -/
theorem staleAt_iff (hP : P.Lawful) : StaleAt s b ↔ ∃ b',
    checkRequest P s.ino.hashname descs s.ino.inoRecordname s.ino.aesKey (P.sign (P.hash256
      (DCFSMidSim.modifyArgs s.ino.hashname descs s.ino.inoRecordname s.ino.aesKey))) b =
        .error (.err (-1)) b' := by
  rcases checkRequest_cases hP s b descs with ⟨hstale, herror⟩ | ⟨hfresh, b₁, hok⟩
  · exact ⟨fun _ => herror, fun _ => hstale⟩
  · refine ⟨fun hstale => absurd hstale hfresh, ?_⟩
    rintro ⟨b', herror⟩
    rw [hok] at herror
    cases herror

end Check

section Current

variable {P : Platform} {kb : Nat} {evs : List FsEvent} {b : Backend} {h : Bytes} {ino : Inode}
  {hist : List Commit}

theorem Snapshot.current (hsnap : Snapshot P b h ino hist) : ino.Current P b h := by
  refine ⟨hsnap.hashname, by rw [hsnap.inoRecordname]; exact hsnap.state.index, ?_⟩
  intro hne
  rw [hsnap.inoRecordname] at hne ⊢
  cases hist with
  | nil => exact absurd rfl hne
  | cons c cs =>
      have hlinked := hsnap.state.linked
      refine ⟨_, (hlinked.2.2 c.inode (by simp [Commit.drafts])).record, ?_⟩
      rw [hsnap.bmRecordname]
      simp [prev1, Draft.pdu, Draft.header, hlinked.2.1.inode.prev, blockmapName]

theorem Snapshot.names_nil (hP : P.Lawful) (hsnap : Snapshot P b h ino hist)
    (hindex : b.index h = some []) : ino.inoRecordname = [] ∧ ino.bmRecordname = [] := by
  have hhead := hsnap.state.index
  rw [hindex, Option.some.injEq] at hhead
  cases hist with
  | nil => exact ⟨hsnap.inoRecordname, hsnap.bmRecordname⟩
  | cons c cs => exact absurd hhead.symm (c.inode.name_ne_nil hP)

theorem length_dirtyDescs : (ino.dirtyDescs P).length = ino.dirtyCount := by
  rw [Inode.dirtyDescs, List.length_map, Inode.length_dirtyBlocks]

/-- An inode that `get_inode` loads has no reference; one that is flushed was in the table. -/
theorem Fs.Loads.cached_of_refCount {fs fs₁ : Fs} (hload : fs.Loads P h ino fs₁)
    (hcount : 0 < ino.refCount) : fs.inodeTable h = some ino ∧ fs.Looks fs₁ := by
  cases hload with
  | cached hlook hino => exact ⟨hino, hlook⟩
  | loaded m b root hroot hnone hread hsame hino hfs =>
      rw [hino] at hcount
      exact absurd hcount (by simp [Inode.load])

/-- What a callback can do to the entry of a file: nothing, empty it by making the file, or move it by
the flush that drops the last reference to a dirty inode. -/
theorem FsInv.index_cases (hP : P.Lawful) {fs fs' : Fs} {cb : Callback} {reply : Reply}
    (hi : FsInv P fs) (heffect : fs.Effect P cb reply fs')
    (hfree : P.CollisionFree fs'.be.hashed) (h : Bytes) :
    fs'.be.index h = fs.be.index h ∨ fs'.be.index h = some [] ∨ ∃ path fh ino, cb = .flush path fh ∧
      fs.target path fh = some h ∧ fs.inodeTable h = some ino ∧ ino.refCount = 1 ∧
      0 < ino.dirtyCount := by
  cases heffect with
  | idle hkeep _ _ => exact Or.inl (congrFun hkeep.be.index h)
  | refused root hroot e b hnew =>
      obtain ⟨hsame, -⟩ := wp_error (wp_createNew_sound hP hi.sound) hnew
      exact Or.inl (congrFun hsame h)
  | created root hroot hfresh h' key b hnew hfd =>
      obtain ⟨-, hupdate, -⟩ := wp_ok (wp_createNew_sound hP hi.sound) hnew
      have hentry := congrFun hupdate h
      rw [Function.update_apply] at hentry
      split at hentry
      · exact Or.inr (Or.inl hentry)
      · exact Or.inl hentry
  | opened htarget hload hfd => exact Or.inl (congrFun hload.be.index h)
  | used s hload hwrites _ _ => exact Or.inl (congrFun (hload.be.trans hwrites.be).index h)
  | unreffed htarget hload hcount => exact Or.inl (congrFun hload.be.index h)
  | @released path h' fh ino fs₁ s htarget hload hcount hflush =>
      have hi' := hi.loads hP hload
      obtain ⟨hist, hsnap⟩ := hi'.inodes _ _ hload.found
      obtain ⟨-, -, hcase⟩ := (hsnap.withRefCount 0).flushed hP hi'.sound hflush hfree
      have hbefore := congrFun hload.be.index h
      rcases hcase with ⟨hsame, -⟩ | ⟨c, hdescs, -, hupdate, hstate⟩
      · exact Or.inl ((congrFun hsame h).trans hbefore)
      · by_cases he : h = h'
        · have hlen : 0 < c.descs.length := List.length_pos_iff.mpr hstate.linked.2.1.descs_ne
          rw [hdescs, length_dirtyDescs] at hlen
          obtain ⟨hcached, -⟩ := hload.cached_of_refCount (by omega)
          rw [he]
          exact Or.inr (Or.inr ⟨path, fh, ino, rfl, htarget, hcached, hcount, hlen⟩)
        · left
          rw [hupdate, Function.update_of_ne he]
          exact hbefore

/-- The index names an inode record only after a flush. -/
theorem flushedIn_of_index (hP : P.Lawful) (hrun : IsMountRun P kb evs) (halive : Alive evs)
    (hfree : P.CollisionFree (mounted kb evs).be.hashed) {n : Bytes}
    (hindex : (mounted kb evs).be.index h = some n) (hne : n ≠ []) : FlushedIn kb h evs := by
  induction evs generalizing n with
  | nil => cases hindex
  | cons ev evs ih =>
      obtain ⟨reply, hok⟩ := halive ev (by simp)
      have heffect := hrun.effect hok
      have hfree' := hfree.of_subset heffect.remembers.hashed
      have hi := (hrun.1.inv hP hrun.2.1 hfree').withEnv ev.env
      change ev.after.be.index h = some n at hindex
      rcases hi.index_cases hP heffect hfree h with hsame | hempty | hflush
      · rw [hsame] at hindex
        exact Or.inl (ih hrun.1 hrun.2.1 hfree' hindex hne)
      · rw [hempty, Option.some.injEq] at hindex
        exact absurd hindex.symm hne
      · exact Or.inr hflush

/-- In every run of callbacks, whatever fails, every cached inode is current, and no flush is refused
as stale. -/
theorem cached_inodes_current (hP : P.Lawful) (hrun : IsMountRun P kb evs) (halive : Alive evs)
    (hfree : P.CollisionFree (mounted kb evs).be.hashed) :
    (∀ h ino, (mounted kb evs).inodeTable h = some ino →
      ino.Current P (mounted kb evs).be h ∧
        (¬ FlushedIn kb h evs → ino.inoRecordname = [] ∧ ino.bmRecordname = [])) ∧
    ∀ path fh e s b, AsksModify P ((mounted kb evs).withEnv e) path fh s b → ¬ StaleAt s b := by
  have hi := hrun.inv hP halive hfree
  constructor
  · intro h ino hino
    obtain ⟨hist, hsnap⟩ := hi.inodes h ino hino
    refine ⟨hsnap.current, fun hnever => ?_⟩
    apply hsnap.names_nil hP
    rw [hsnap.state.index, Option.some.injEq]
    by_contra hne
    exact hnever (flushedIn_of_index hP hrun halive hfree hsnap.state.index hne)
  · rintro path fh e s b ⟨h, ino, fs₁, descs, b₁, htarget, hload, hcount, hs, hcollect, hne, hsign⟩
    have hi' := (hi.withEnv e).loads hP hload
    obtain ⟨hist, hsnap⟩ := hi'.inodes _ _ hload.found
    have hcurrent := hsnap.current
    -- collecting and signing use up calls of the world only
    have hsame₁ := (wp_ok (wp_collectDirty s.ino _) hcollect).2.1
    have hsame₂ := wp_ok (wp_fallible errSign) hsign
    have hindex : b.index s.ino.hashname = some s.ino.inoRecordname := by
      rw [hsame₂.index, hsame₁.index, hs, hcurrent.hashname]
      exact hcurrent.inoRecordname
    rintro ⟨current, b', hat, hstale⟩
    apply hstale
    have hspec : wp (indexAt s.ino.hashname) (fun current _ => s.ino.inoRecordname = current)
        (fun _ _ => False) b := (indexAt_of_some hindex).mpr rfl
    have hcheck := wp_ok hspec hat
    exact hcheck

end Current

section Instances

open Reference

@[irreducible] def reopenedRun : List FsEvent :=
  replayMount platform 1 [
    (.write [47, 97] 12 (fun _ => 8) 1 1, {}),
    (.open [47, 97], {}),
    (.flush [47, 97] 11, { clock := [6, 7, 8] }),
    (.write [47, 97] 11 (fun _ => 7) 1 0, {}),
    (.create [47, 97], { clock := [5] })]

def inodeAt (fs : Fs) (h : Bytes) : Inode := (fs.inodeTable h).getD (.fresh h 16 blockmapCover [])

theorem inodeAt_of_isSome {fs : Fs} {h : Bytes} (hs : (fs.inodeTable h).isSome = true) :
    fs.inodeTable h = some (inodeAt fs h) := by
  obtain ⟨ino, hino⟩ := Option.isSome_iff_exists.mp hs
  rw [inodeAt, hino]
  rfl

/-- What the run leaves: the file is cached under the record of the first close, open once and dirty. -/
theorem reopenedRun_leaves : reopenedRun.all FsEvent.replied = true ∧
    ((mounted 1 reopenedRun).be.hashed.dedup.map platform.hash256).Nodup ∧
    (mounted 1 reopenedRun).target [47, 97] 12 = some (fileAt 5) ∧
    ((mounted 1 reopenedRun).inodeTable (fileAt 5)).isSome = true ∧
    (inodeAt (mounted 1 reopenedRun) (fileAt 5)).inoRecordname ≠ [] ∧
    (inodeAt (mounted 1 reopenedRun) (fileAt 5)).refCount = 1 ∧
    (inodeAt (mounted 1 reopenedRun) (fileAt 5)).dirtyCount = 1 := by decide +kernel

theorem reopenedRun_alive : Alive reopenedRun := alive_of_all reopenedRun_leaves.1

theorem isMountRun_reopenedRun : IsMountRun platform 1 reopenedRun := by
  have halive := reopenedRun_alive
  unfold reopenedRun at halive ⊢
  exact isMountRun_replay _ fun ev hev => halive ev (List.mem_of_mem_tail hev)

theorem collisionFree_reopenedRun :
    platform.CollisionFree (mounted 1 reopenedRun).be.hashed := .of_nodup reopenedRun_leaves.2.1

def lastSession : Session where
  ino := { inodeAt (mounted 1 reopenedRun) (fileAt 5) with refCount := 0 }
  be := ((mounted 1 reopenedRun).withEnv { clock := [9, 10, 11] }).be

theorem lastSession_collects : returns (RecordCache.collectDirty platform lastSession.ino
    (List.range lastSession.ino.dcacheStats.length)) lastSession.be = true := by decide +kernel

theorem asksModify_reopenedRun : ∃ b, AsksModify platform
    ((mounted 1 reopenedRun).withEnv { clock := [9, 10, 11] }) [47, 97] 12 lastSession b := by
  obtain ⟨-, -, htarget, hsome, -, hlast, hdirty⟩ := reopenedRun_leaves
  obtain ⟨descs, b₁, hcollect⟩ := exists_of_returns lastSession_collects
  obtain ⟨hdescs, -, hcalm⟩ := wp_ok (wp_collectDirty lastSession.ino _) hcollect
  have hne : descs ≠ [] := by
    have hlength := @length_dirtyDescs platform lastSession.ino
    rw [← List.length_pos_iff, hdescs]
    change 0 < (lastSession.ino.dirtyDescs platform).length
    rw [hlength]
    exact hdirty.symm ▸ Nat.one_pos
  have hquiet : lastSession.be.Calm := by
    intro f hf
    cases hf
  obtain ⟨_, b, hsign, -⟩ := exists_ok (wp_fallible_calm (hcalm hquiet) errSign)
  exact ⟨b, fileAt 5, _, _, descs, b₁, htarget, .cached ⟨_, rfl, rfl⟩ (inodeAt_of_isSome hsome), hlast,
    rfl, hcollect, hne, hsign⟩

/-- The inode of the reopened file names the record that the first close left, and its flush is not
refused. -/
theorem cached_inodes_current_reopenedRun :
    (∃ ino, (mounted 1 reopenedRun).inodeTable (fileAt 5) = some ino ∧ ino.inoRecordname ≠ [] ∧
      ino.Current platform (mounted 1 reopenedRun).be (fileAt 5)) ∧
    ∃ s b, AsksModify platform ((mounted 1 reopenedRun).withEnv { clock := [9, 10, 11] })
      [47, 97] 12 s b ∧ ¬ StaleAt s b := by
  obtain ⟨-, -, -, hsome, hnamed, -⟩ := reopenedRun_leaves
  obtain ⟨hcurrent, hfresh⟩ := cached_inodes_current lawful isMountRun_reopenedRun reopenedRun_alive
    collisionFree_reopenedRun
  have hino := inodeAt_of_isSome hsome
  obtain ⟨b, hasks⟩ := asksModify_reopenedRun
  exact ⟨⟨_, hino, hnamed, (hcurrent _ _ hino).1⟩, lastSession, b, hasks,
    hfresh _ _ _ _ _ hasks⟩

end Instances

end DcfsClient
