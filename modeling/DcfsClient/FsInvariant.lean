import DcfsClient.CallbackCases
import DcfsClient.FileMetaCases

/-!
# Every cached inode is a snapshot of the latest version

`FsInv` is the invariant of a mounted file system: the backend is sound, the index entry of every file
is the newest commit of a history, and every inode in the table was made from the current history of
its file. A flush moves the index without touching the inode object, so the invariant rests on
`dcfs_flush` releasing the inode whenever it flushed it.
-/

namespace DcfsClient

open Backend

def storedSize : List Commit → Nat
  | [] => 0
  | c :: _ => committedSize c.descs

def blockmapName (P : Platform) : List Commit → Bytes
  | [] => []
  | c :: _ => c.blockmap.name P

structure FileState (P : Platform) (b : Backend) (d : Bytes) (hist : List Commit) : Prop where
  index : b.index d = some (headName P hist)
  linked : Linked P d b hist
  keys : ∀ c ∈ hist, c.key.length = aesKeyLen

structure Snapshot (P : Platform) (b : Backend) (h : Bytes) (ino : Inode) (hist : List Commit) :
    Prop where
  state : FileState P b h hist
  hashname : ino.hashname = h
  inoRecordname : ino.inoRecordname = headName P hist
  bmRecordname : ino.bmRecordname = blockmapName P hist
  aesKey : ino.aesKey.length = aesKeyLen
  size : (∀ blk, ino.isDirty blk = false) → ino.size = storedSize hist

structure FsInv (P : Platform) (fs : Fs) : Prop where
  sound : fs.be.Sound P
  files : ∀ d n, fs.be.index d = some n → ∃ hist, FileState P fs.be d hist
  inodes : ∀ h ino, fs.inodeTable h = some ino → ∃ hist, Snapshot P fs.be h ino hist
  shape : ∀ h ino, fs.inodeTable h = some ino →
    ino.blockSize = fs.blockSizeInKb * 1024 ∧ ino.bmCover = blockmapCover

section Transfer

variable {P : Platform} {b b' : Backend} {d h : Bytes} {hist : List Commit} {ino ino' : Inode}
  {fs fs' : Fs}

theorem FileState.grows (hf : FileState P b d hist) (hg : b.Grows P b')
    (hindex : b'.index d = b.index d) : FileState P b' d hist :=
  ⟨by rw [hindex]; exact hf.index, hf.linked.grows hg, hf.keys⟩

theorem Snapshot.grows (hs : Snapshot P b h ino hist) (hg : b.Grows P b')
    (hindex : b'.index h = b.index h) : Snapshot P b' h ino hist :=
  ⟨hs.state.grows hg hindex, hs.hashname, hs.inoRecordname, hs.bmRecordname, hs.aesKey, hs.size⟩

theorem Snapshot.writes (hs : Snapshot P b h ino hist) (hw : Session.Writes ⟨ino, b⟩ ⟨ino', b'⟩) :
    Snapshot P b' h ino' hist := by
  have hgrown := hs.grows hw.be.grows (by rw [hw.be.index])
  refine ⟨hgrown.state, hw.file.hashname.trans hs.hashname,
    hw.file.inoRecordname.trans hs.inoRecordname, hw.file.bmRecordname.trans hs.bmRecordname,
    by rw [hw.file.aesKey]; exact hs.aesKey, fun hclean => ?_⟩
  have hbefore : ∀ blk, ino.isDirty blk = false := by
    intro blk
    rw [Bool.eq_false_iff]
    intro hd
    have hd' := hw.dirty blk hd
    rw [hclean blk] at hd'
    cases hd'
  rcases hw.size with hsize | ⟨blk, hd⟩
  · exact hsize.trans (hs.size hbefore)
  · rw [hclean blk] at hd
    cases hd

/-- The rule of the invariant: each entry of the index and each inode of the table is either as it
was or in order by itself. -/
theorem FsInv.step (hi : FsInv P fs) (hsound : fs'.be.Sound P) (hg : fs.be.Grows P fs'.be)
    (hkb : fs'.blockSizeInKb = fs.blockSizeInKb)
    (hfiles : ∀ d, fs'.be.index d = fs.be.index d ∨ ∃ hist, FileState P fs'.be d hist)
    (htable : ∀ h ino, fs'.inodeTable h = some ino →
      (fs'.be.index h = fs.be.index h ∧ fs.inodeTable h = some ino) ∨
        ((∃ hist, Snapshot P fs'.be h ino hist) ∧
          ino.blockSize = fs.blockSizeInKb * 1024 ∧ ino.bmCover = blockmapCover)) :
    FsInv P fs' := by
  refine ⟨hsound, ?_, ?_, ?_⟩
  · intro d n hn
    rcases hfiles d with hindex | hstate
    · rw [hindex] at hn
      obtain ⟨hist, hf⟩ := hi.files d n hn
      exact ⟨hist, hf.grows hg hindex⟩
    · exact hstate
  · intro h ino hino
    rcases htable h ino hino with ⟨hindex, hold⟩ | ⟨hsnap, -⟩
    · obtain ⟨hist, hsnap⟩ := hi.inodes h ino hold
      exact ⟨hist, hsnap.grows hg hindex⟩
    · exact hsnap
  · intro h ino hino
    rw [hkb]
    rcases htable h ino hino with ⟨-, hold⟩ | ⟨-, hshape⟩
    · exact hi.shape h ino hold
    · exact hshape

theorem FsInv.keeps (hi : FsInv P fs) (hk : fs.Keeps fs') : FsInv P fs' := by
  refine hi.step (hi.sound.same hk.be) hk.be.grows hk.blockSizeInKb ?_ ?_
  · intro d
    exact Or.inl (by rw [hk.be.index])
  · intro h ino hino
    rw [hk.inodeTable] at hino
    exact Or.inl ⟨by rw [hk.be.index], hino⟩

theorem FsInv.withEnv (hi : FsInv P fs) (e : Env) : FsInv P (fs.withEnv e) :=
  hi.keeps ⟨Same.withEnv fs.be e, rfl, rfl, rfl, rfl, rfl⟩

/-- One inode of the table was replaced and the backend did not change. -/
theorem FsInv.replace (hi : FsInv P fs) (hbe : fs.be.Same fs'.be)
    (hkb : fs'.blockSizeInKb = fs.blockSizeInKb)
    (htable : fs'.inodeTable = Function.update fs.inodeTable h (some ino))
    (hsnap : Snapshot P fs'.be h ino hist)
    (hshape : ino.blockSize = fs.blockSizeInKb * 1024 ∧ ino.bmCover = blockmapCover) :
    FsInv P fs' := by
  refine hi.step (hi.sound.same hbe) hbe.grows hkb ?_ ?_
  · intro d
    exact Or.inl (by rw [hbe.index])
  · intro h' ino' hino
    rw [htable] at hino
    by_cases he : h' = h
    · subst he
      rw [Function.update_self, Option.some.injEq] at hino
      subst hino
      exact Or.inr ⟨⟨hist, hsnap⟩, hshape⟩
    · rw [Function.update_of_ne he] at hino
      exact Or.inl ⟨by rw [hbe.index], hino⟩

/-- The entry of one file moved to a history in the store, and the table holds no inode of that file
but one made from this history. -/
theorem FsInv.move (hi : FsInv P fs) (hsound : fs'.be.Sound P) (hg : fs.be.Grows P fs'.be)
    (hkb : fs'.blockSizeInKb = fs.blockSizeInKb) {n : Bytes}
    (hindex : fs'.be.index = Function.update fs.be.index h (some n))
    (hstate : FileState P fs'.be h hist) {o : Option Inode}
    (htable : fs'.inodeTable = Function.update fs.inodeTable h o)
    (ho : ∀ ino, o = some ino → Snapshot P fs'.be h ino hist ∧
      ino.blockSize = fs.blockSizeInKb * 1024 ∧ ino.bmCover = blockmapCover) : FsInv P fs' := by
  have hother : ∀ d, d ≠ h → fs'.be.index d = fs.be.index d := by
    intro d hd
    rw [hindex, Function.update_of_ne hd]
  refine hi.step hsound hg hkb ?_ ?_
  · intro d
    by_cases he : d = h
    · rw [he]
      exact Or.inr ⟨hist, hstate⟩
    · exact Or.inl (hother d he)
  · intro h' ino' hino
    rw [htable] at hino
    by_cases he : h' = h
    · subst he
      rw [Function.update_self] at hino
      obtain ⟨hsnap, hshape⟩ := ho ino' hino
      exact Or.inr ⟨⟨hist, hsnap⟩, hshape⟩
    · rw [Function.update_of_ne he] at hino
      exact Or.inl ⟨hother h' he, hino⟩

end Transfer

/-! ## The callbacks keep the invariant -/

section Effects

variable {P : Platform} {fs fs' : Fs} {h : Bytes} {ino : Inode} {hist : List Commit}

/-- A file that the middleware does not know has no meta data. -/
theorem index_of_readFileMeta {b b' : Backend} {m : FileMeta}
    (hread : StorageBackend.readFileMeta P h b = .ok m b') : b.index h ≠ none := by
  intro hnone
  have hspec : Exec.wp (StorageBackend.readFileMeta P h) (fun _ _ => False) (fun _ _ => True) b := by
    simp only [StorageBackend.readFileMeta, DCFSMidSim.getInodeName, Exec.wp_bind, Exec.wp_failIf,
      Exec.wp_get]
    refine Exec.wp_mono (wp_fallible errSign) ?_ (fun _ _ _ => trivial)
    intro _ b₁ hs
    rw [hs.index, hnone]
    exact ⟨fun _ => trivial, fun _ => trivial⟩
  exact Exec.wp_ok hspec hread

theorem Commit.snapshot {b : Backend} {c : Commit} {cs : List Commit}
    (hf : FileState P b h (c :: cs)) (kb cover : Nat) :
    Snapshot P b h (.load h (c.fileMeta P).recordname (c.fileMeta P).blockmapHash kb cover
      (c.fileMeta P).isize (c.fileMeta P).aesKey) (c :: cs) :=
  ⟨hf, rfl, rfl, rfl, hf.keys c (by simp), fun _ => rfl⟩

/-- `get_inode` keeps the invariant. -/
theorem FsInv.loads (hP : P.Lawful) (hi : FsInv P fs) (hload : fs.Loads P h ino fs') :
    FsInv P fs' := by
  have htable := hload.inodeTable
  have hbe := hload.be
  have hkb := hload.rest.2.2
  cases hload with
  | cached hlook _ => exact hi.keeps hlook.keeps
  | loaded m b root hroot hnone hread hsame hino hfs =>
      have hindex := index_of_readFileMeta hread
      obtain ⟨n, hn⟩ := Option.ne_none_iff_exists'.mp hindex
      obtain ⟨hist, hf⟩ := hi.files h n hn
      have hspec := Exec.wp_ok (wp_readFileMeta hP hi.sound hf.index hf.linked) hread
      obtain ⟨-, -, c, cs, rfl, rfl⟩ := hspec
      have hf' := hf.grows (hbe.grows (P := P)) (by rw [hbe.index])
      have hsnap : Snapshot P fs'.be h ino (c :: cs) := by
        rw [hino]
        exact Commit.snapshot hf' _ _
      refine hi.replace hbe hkb htable hsnap ?_
      rw [hino]
      exact ⟨rfl, rfl⟩

/-- A fresh inode is a snapshot of the empty history. -/
theorem snapshot_fresh {b : Backend} {key : Bytes} (hf : FileState P b h [])
    (hkey : key.length = aesKeyLen) (kb : Nat) :
    Snapshot P b h (Inode.fresh h kb blockmapCover key).ref [] :=
  ⟨hf, rfl, rfl, rfl, hkey, fun _ => rfl⟩

theorem workingInode_key_length (hP : P.Lawful) {aesKey : Bytes} (hkey : aesKey.length = aesKeyLen)
    (hkeys : ∀ c ∈ hist, c.key.length = aesKeyLen) :
    (workingInode P aesKey hist).key.length = aesKeyLen := by
  cases hist with
  | nil =>
      simp only [workingInode, List.length_take, hkey]
      rfl
  | cons c cs => exact rewrapKey_length hP (hkeys c (by simp))

/-- What the flush of an up-to-date inode does: nothing to the index, or one more commit with the dirty
blocks. -/
theorem Snapshot.flushed (hP : P.Lawful) {b : Backend} {s : Session} (hb : b.Sound P)
    (hsnap : Snapshot P b h ino hist) (hflush : Flushed P ⟨ino, b⟩ s)
    (hfree : P.CollisionFree s.be.hashed) :
    s.be.Sound P ∧ b.Grows P s.be ∧
      ((s.be.index = b.index ∧ (ino.dirtyDescs P = [] ∨
          (∃ e, RecordCache.flushCache P ⟨ino, b⟩ = .error (.err e) s) ∧ (b.Calm → ino.inlen < 0))) ∨
        ∃ c : Commit, c.descs = ino.dirtyDescs P ∧ c.key = (workingInode P ino.aesKey hist).key ∧
          s.be.index = Function.update b.index h (some (c.inode.name P)) ∧
          FileState P s.be h (c :: hist)) := by
  have hspec := wp_flushCache (s := ⟨ino, b⟩) hP hb
    (by rw [hsnap.hashname]; exact hsnap.state.index) hsnap.inoRecordname
    (by rw [hsnap.hashname]; exact hsnap.state.linked)
  rcases hflush with hok | ⟨e, herr⟩
  · rcases Exec.wp_ok hspec hok with ⟨hnil, hsame⟩ | ⟨hne, c, hdescs, hkey, hindex, hafter⟩
    · exact ⟨hb.same hsame, hsame.grows, Or.inl ⟨hsame.index, Or.inl hnil⟩⟩
    · obtain ⟨hsound, hgrow, hlinked⟩ := hafter hfree
      dsimp only at hindex hlinked
      rw [hsnap.hashname] at hindex hlinked
      refine ⟨hsound, hgrow, Or.inr ⟨c, hdescs, hkey, hindex, ?_, hlinked, ?_⟩⟩
      · rw [hindex, Function.update_self]
        rfl
      · intro c' hc'
        rcases List.mem_cons.mp hc' with rfl | hc'
        · rw [hkey]
          exact workingInode_key_length hP hsnap.aesKey hsnap.state.keys
        · exact hsnap.state.keys c' hc'
  · obtain ⟨hrej, hcause⟩ := Exec.wp_error hspec herr
    obtain ⟨hsound, hgrow, hindex⟩ := hrej hfree
    exact ⟨hsound, hgrow, Or.inl ⟨hindex, Or.inr ⟨⟨e, herr⟩, hcause e rfl⟩⟩⟩

theorem Snapshot.withRefCount {b : Backend} (hsnap : Snapshot P b h ino hist) (n : Nat) :
    Snapshot P b h { ino with refCount := n } hist :=
  ⟨hsnap.state, hsnap.hashname, hsnap.inoRecordname, hsnap.bmRecordname, hsnap.aesKey, hsnap.size⟩

/-- Every callback that replies keeps the invariant. -/
theorem FsInv.effect (hP : P.Lawful) (hi : FsInv P fs) {cb : Callback} {reply : Reply}
    (he : fs.Effect P cb reply fs') (hfree : P.CollisionFree fs'.be.hashed) : FsInv P fs' := by
  cases he with
  | idle hkeep _ _ => exact hi.keeps hkeep
  | refused root hroot e b hnew =>
      obtain ⟨hindex, hafter⟩ := Exec.wp_error (wp_createNew_sound hP hi.sound) hnew
      obtain ⟨hsound, hgrow⟩ := hafter hfree
      refine hi.step hsound hgrow rfl ?_ ?_
      · intro d
        exact Or.inl (by rw [hindex])
      · intro h ino hino
        exact Or.inl ⟨by rw [hindex], hino⟩
  | created root hroot hfresh h key b hnew hfd =>
      obtain ⟨hout, hindex, hafter⟩ := Exec.wp_ok (wp_createNew_sound hP hi.sound) hnew
      obtain ⟨hsound, hgrow, hholds⟩ := hafter hfree
      rw [Prod.mk.injEq] at hout
      obtain ⟨hh, hkey⟩ := hout
      rw [← hh] at hindex hholds
      have hstate : FileState P b h [] :=
        ⟨by rw [hindex, Function.update_self]; rfl, ⟨_, hh.symm, hholds⟩, by simp⟩
      refine hi.move hsound hgrow rfl hindex hstate rfl ?_
      intro ino hino
      rw [Option.some.injEq] at hino
      subst hino
      exact ⟨snapshot_fresh hstate (by rw [hkey, Mem.length_bytesAt]) _, rfl, rfl⟩
  | opened htarget hload hfd =>
      have hi' := hi.loads hP hload
      obtain ⟨hist, hsnap⟩ := hi'.inodes _ _ hload.found
      have hshape := hi'.shape _ _ hload.found
      exact hi'.replace (Same.refl _) rfl rfl (hsnap.withRefCount _) hshape
  | used s hload hwrites _ _ =>
      have hi' := hi.loads hP hload
      obtain ⟨hist, hsnap⟩ := hi'.inodes _ _ hload.found
      obtain ⟨hbs, hcover⟩ := hi'.shape _ _ hload.found
      exact hi'.replace hwrites.be rfl rfl (hsnap.writes hwrites)
        ⟨hwrites.file.blockSize.trans hbs, hwrites.file.bmCover.trans hcover⟩
  | unreffed htarget hload hcount =>
      have hi' := hi.loads hP hload
      obtain ⟨hist, hsnap⟩ := hi'.inodes _ _ hload.found
      have hshape := hi'.shape _ _ hload.found
      exact hi'.replace (Same.refl _) rfl rfl (hsnap.withRefCount _) hshape
  | @released path h fh ino fs₁ s htarget hload hcount hflush =>
      have hi' := hi.loads hP hload
      obtain ⟨hist, hsnap⟩ := hi'.inodes _ _ hload.found
      obtain ⟨hsound, hgrow, hcase⟩ :=
        (hsnap.withRefCount 0).flushed hP hi'.sound hflush hfree
      rcases hcase with ⟨hindex, -⟩ | ⟨c, -, -, hindex, hstate⟩
      · refine hi'.step hsound hgrow rfl ?_ ?_
        · intro d
          exact Or.inl (by rw [hindex])
        · intro h' ino' hino
          refine Or.inl ⟨by rw [hindex], ?_⟩
          change Function.update fs₁.inodeTable h none h' = some ino' at hino
          by_cases heq : h' = h
          · rw [heq, Function.update_self] at hino
            cases hino
          · rwa [Function.update_of_ne heq] at hino
      · exact hi'.move hsound hgrow rfl hindex hstate rfl (fun ino hn => by cases hn)

end Effects

end DcfsClient
