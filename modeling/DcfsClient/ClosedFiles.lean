import DcfsClient.CachedInodes

/-!
# What a close leaves behind

A flush that drops the last reference sends the dirty blocks to the middleware and releases the inode.
`Unref` does not look at the result of the flush, so the inode is released and the kernel told that all
is well even if nothing was stored. What is stored when nothing fails is every dirty block; but the
size that the middleware records is the number of these blocks times its own block size, whatever the
size of the file was.
-/

namespace DcfsClient

open Backend Exec

/-- The event is a flush that replied `0` and dropped the last reference to the inode `ino` of `h`. -/
structure Closes (kb : Nat) (h : Bytes) (ino : Inode) (ev : FsEvent) (evs : List FsEvent) : Prop where
  callback : ∃ path fh, ev.callback = .flush path fh ∧ (mounted kb evs).target path fh = some h
  answer : ev.answer = .ok (.code 0)
  inode : (mounted kb evs).inodeTable h = some ino
  last : ino.refCount = 1

def FsEvent.Undisturbed (ev : FsEvent) : Prop := ∀ f ∈ ev.env.faults, f = .none

/-- The entry of `h` names an inode record, its blockmap names a data record, and that holds
`payload`. -/
def Recorded (P : Platform) (b : Backend) (h payload : Bytes) : Prop :=
  ∃ n inode bmName blockmap name data, b.index h = some n ∧ b.records P h n = some inode ∧
    prev1 inode = some bmName ∧ b.records P h bmName = some blockmap ∧
    name ∈ chunks hashLen blockmap.payloadInTransit ∧ b.records P h name = some data ∧
    data.payloadInTransit = payload

/-- Each block that was dirty in `ino` is recorded, or the inode is still there with its dirty
blocks. -/
def NothingDropped (P : Platform) (h : Bytes) (ino : Inode) (fs : Fs) : Prop :=
  (∀ blk, ino.isDirty blk = true → Recorded P fs.be h (ino.dirtyDesc P blk).buf) ∨
    ∃ ino', fs.inodeTable h = some ino' ∧ ∀ blk, ino.isDirty blk = true →
      ino'.isDirty blk = true ∧ ino'.dcacheBlocks[blk]? = ino.dcacheBlocks[blk]?

def FlushSucceeds (P : Platform) (kb : Nat) (ino : Inode) (ev : FsEvent) (evs : List FsEvent) : Prop :=
  ∃ s, RecordCache.flushCache P ⟨{ ino with refCount := 0 }, ((mounted kb evs).withEnv ev.env).be⟩ =
    .ok () s

/-- Without failures the next `get_inode` makes an inode, and whatever inode it makes has this size. -/
structure SizeKept (P : Platform) (h : Bytes) (size : Nat) (fs : Fs) : Prop where
  opens : ∀ e : Env, (∀ f ∈ e.faults, f = .none) → ∃ out fs',
    Fs.getInode P h (fs.withEnv e) = .ok out fs' ∧ ∃ ino, fs'.inodeTable h = some ino
  size : ∀ e out fs' ino, Fs.getInode P h (fs.withEnv e) = .ok out fs' → fs'.inodeTable h = some ino →
    ino.size = size

section Runs

variable {P : Platform} {kb : Nat} {evs older : List FsEvent} {ev : FsEvent} {h : Bytes} {ino : Inode}

/-- What a closing flush did. -/
theorem IsMountRun.closed (hrun : IsMountRun P kb (ev :: evs)) (hc : Closes kb h ino ev evs) :
    ∃ s, Flushed P ⟨{ ino with refCount := 0 }, ((mounted kb evs).withEnv ev.env).be⟩ s ∧
      ev.after.be = s.be ∧
      ev.after.inodeTable = Function.update (mounted kb evs).inodeTable h none := by
  have heffect := hrun.effect hc.answer
  obtain ⟨path, fh, hcb, htarget⟩ := hc.callback
  rw [hcb] at heffect
  generalize hreply : Reply.code 0 = reply at heffect
  generalize hafter : ev.after = after at heffect ⊢
  have hcached : ((mounted kb evs).withEnv ev.env).inodeTable h = some ino := hc.inode
  have htarget' : ((mounted kb evs).withEnv ev.env).target path fh = some h := htarget
  cases heffect with
  | idle hkeep _ hflush =>
      rw [(hflush path fh rfl).1] at hreply
      injection hreply with hcode
      cases hcode
  | used s hload hwrites _ hflush => cases hflush
  | unreffed ht hload hcount =>
      rw [htarget', Option.some.injEq] at ht
      subst ht
      have hino := (hload.of_cached hcached).1
      have hlast := hc.last
      rw [hino, hlast] at hcount
      exact absurd hcount (Nat.lt_irrefl 1)
  | released s ht hload hcount hflush =>
      rw [htarget', Option.some.injEq] at ht
      subst ht
      obtain ⟨hino, root, hroot, hlook⟩ := hload.of_cached hcached
      rw [hino, hlook] at hflush
      refine ⟨s, hflush, rfl, ?_⟩
      rw [hlook]
      rfl

/-- The blocks of the newest commit are recorded. -/
theorem FileState.recorded (hP : P.Lawful) {b : Backend} {c : Commit} {cs : List Commit}
    (hf : FileState P b h (c :: cs)) {desc : BufDesc} (hdesc : desc ∈ c.descs) :
    Recorded P b h desc.buf := by
  obtain ⟨-, hok, hholds⟩ := hf.linked
  have hpayloads := hok.data.payload
  have hmem : some desc.buf ∈ c.data.map Draft.payload := by
    rw [hpayloads]
    exact List.mem_map_of_mem hdesc
  obtain ⟨r, hr, hpayload⟩ := List.mem_map.mp hmem
  have hinode := (hholds c.inode (by simp [Commit.drafts])).record
  have hblockmap := (hholds c.blockmap (by simp [Commit.drafts])).record
  have hdata := (hholds r (by simp [Commit.drafts, hr])).record
  refine ⟨_, _, c.blockmap.name P, _, r.name P, _, hf.index, hinode, ?_, hblockmap, ?_, hdata, ?_⟩
  · simp [prev1, Draft.pdu, Draft.header, hok.inode.prev]
  · simp only [Draft.pdu, hok.blockmap.payload, Option.getD_some]
    rw [chunks_flatten (by decide) _ (length_of_mem_names hP c.data)]
    exact List.mem_append_right _ (List.mem_map_of_mem hr)
  · simp [Draft.pdu, hpayload]

/-- The state of the file after a closing flush. -/
theorem IsMountRun.closed_cases (hP : P.Lawful) (hrun : IsMountRun P kb (ev :: evs))
    (hfree : P.CollisionFree ev.after.be.hashed) (hc : Closes kb h ino ev evs) :
    ∃ hist, Snapshot P (mounted kb evs).be h ino hist ∧ ev.after.be.Sound P ∧
      ((ino.dirtyDescs P = [] ∧ FileState P ev.after.be h hist) ∨
        (¬ FlushSucceeds P kb ino ev evs ∧ (ev.Undisturbed → ino.inlen < 0)) ∨
        ∃ c : Commit, c.descs = ino.dirtyDescs P ∧ c.key = (workingInode P ino.aesKey hist).key ∧
          FileState P ev.after.be h (c :: hist)) := by
  obtain ⟨s, hflush, hbe, -⟩ := hrun.closed hc
  have heffect := hrun.effect hc.answer
  have hi := hrun.1.inv hP hrun.2.1 (hfree.of_subset heffect.remembers.hashed)
  obtain ⟨hist, hsnap⟩ := hi.inodes h ino hc.inode
  have hsame : (mounted kb evs).be.Same ((mounted kb evs).withEnv ev.env).be :=
    Same.withEnv (mounted kb evs).be ev.env
  have hsnap' := (hsnap.grows (hsame.grows (P := P)) (by rw [hsame.index])).withRefCount 0
  rw [hbe] at hfree ⊢
  obtain ⟨hsound, hgrow, hcase⟩ := hsnap'.flushed hP (hi.sound.same hsame) hflush hfree
  refine ⟨hist, hsnap, hsound, ?_⟩
  rcases hcase with ⟨hindex, hnil | ⟨⟨e, herr⟩, hcause⟩⟩ | ⟨c, hdescs, hkey, -, hstate⟩
  · exact Or.inl ⟨hnil, hsnap'.state.grows hgrow (by rw [hindex])⟩
  · refine Or.inr (Or.inl ⟨?_, hcause⟩)
    rintro ⟨s', hok⟩
    rw [hok] at herr
    cases herr
  · exact Or.inr (Or.inr ⟨c, hdescs, hkey, hstate⟩)

/-- In every run, a closing flush that meets no failure drops nothing. A block size that is negative as an
`int` is one. -/
theorem closed_nothing_dropped (hP : P.Lawful) (hrun : IsMountRun P kb evs) (halive : Alive evs)
    (hfree : P.CollisionFree (mounted kb evs).be.hashed) :
    ∀ ev older h ino, (ev :: older) <:+ evs → Closes kb h ino ev older →
      (ino.dirtyCount = 0 ∨ ev.Undisturbed ∧ 0 ≤ ino.inlen) → NothingDropped P h ino ev.after := by
  intro ev older h ino hsuf hc hcond
  have hrun' := hrun.suffix hsuf
  have hfree' : P.CollisionFree ev.after.be.hashed :=
    hfree.of_subset (hrun.remembers halive hsuf).hashed
  left
  intro blk hblk
  have hmem : ino.dirtyDesc P blk ∈ ino.dirtyDescs P :=
    List.mem_map_of_mem ((ino.mem_dirtyBlocks).mpr hblk)
  have hpos : 0 < ino.dirtyCount := by
    rw [← length_dirtyDescs (P := P)]
    exact List.length_pos_of_mem hmem
  obtain ⟨hist, -, -, hcase⟩ := hrun'.closed_cases hP hfree' hc
  rcases hcase with ⟨hnil, -⟩ | ⟨-, hfail⟩ | ⟨c, hdescs, -, hstate⟩
  · rw [hnil] at hmem
    cases hmem
  · rcases hcond with hzero | ⟨hquiet, hlen⟩
    · omega
    · exact absurd hlen (Int.not_le.mpr (hfail hquiet))
  · apply hstate.recorded hP
    rw [hdescs]
    exact hmem

/-- A file whose entry is empty has no commit. -/
theorem Snapshot.unwritten (hP : P.Lawful) {b : Backend} {hist : List Commit}
    (hsnap : Snapshot P b h ino hist) (hentry : b.index h = some []) : hist = [] := by
  cases hist with
  | nil => rfl
  | cons c cs =>
      have hname := hsnap.state.index
      rw [hentry, Option.some.injEq] at hname
      have hlength := c.inode.length_name hP
      change [] = c.inode.name P at hname
      rw [← hname] at hlength
      cases hlength

/-- The inode that is made from a file with this history, which is not empty. -/
theorem inode_of_getInode (hP : P.Lawful) {fs fs' : Fs} {hist : List Commit} (hb : fs.be.Sound P)
    (hf : FileState P fs.be h hist) (hnone : fs.inodeTable h = none) {out : Option Bytes}
    (hget : Fs.getInode P h fs = .ok out fs') (hino : fs'.inodeTable h = some ino) :
    hist ≠ [] ∧ ino.size = storedSize hist ∧ ino.blockSize = fs.blockSizeInKb * 1024 := by
  rcases wp_ok (wp_getInode h) hget with ⟨-, -, hkeep⟩ | ⟨-, ino', hload⟩
  · rw [hkeep.inodeTable, hnone] at hino
    cases hino
  · have hfound := hload.found
    rw [hino, Option.some.injEq] at hfound
    cases hload with
    | cached hlook hcached =>
        rw [hnone] at hcached
        cases hcached
    | loaded m b root hroot _ hread hsame hload hfs =>
        obtain ⟨-, -, c, cs, hhist, hm⟩ := wp_ok (wp_readFileMeta hP hb hf.index hf.linked) hread
        rw [hfound, hload, hm, hhist]
        exact ⟨List.cons_ne_nil c cs, rfl, rfl⟩

/-- Without failures `get_inode` returns the inode of a file that has been flushed. -/
theorem exists_getInode (hP : P.Lawful) {fs : Fs} {c : Commit} {cs : List Commit}
    (hb : fs.be.Sound P) (hcalm : fs.be.Calm) (hf : FileState P fs.be h (c :: cs)) :
    ∃ out fs', Fs.getInode P h fs = .ok out fs' ∧ ∃ ino, fs'.inodeTable h = some ino := by
  apply exists_ok
  simp only [Fs.getInode, wp_bind, wp_get]
  cases hino : fs.inodeTable h with
  | some ino => exact ⟨ino, hino⟩
  | none =>
      simp only [wp_bind, wp_attempt, wp_onStorage]
      apply wp_mono (wp_readFileMeta hP hb hf.index hf.linked)
      · intro m b _
        exact ⟨_, Function.update_self _ _ _⟩
      · rintro x b ⟨_, hcause⟩
        exact absurd hcalm (hcause c cs rfl (hf.keys c (by simp)))

/-- A file that is not in the table keeps its size if it has a commit, and this size is recorded. -/
theorem sizeKept_of_released (hP : P.Lawful) {fs : Fs} {hist : List Commit} (hb : fs.be.Sound P)
    (hf : FileState P fs.be h hist) (hnone : fs.inodeTable h = none) {size : Nat} :
    SizeKept P h size fs ↔ hist ≠ [] ∧ storedSize hist = size := by
  have henv : ∀ e, fs.be.Same (fs.withEnv e).be := Same.withEnv fs.be
  have hstate : ∀ e, FileState P (fs.withEnv e).be h hist := fun e =>
    hf.grows ((henv e).grows (P := P)) (by rw [(henv e).index])
  have hmade : ∀ e out fs' ino', Fs.getInode P h (fs.withEnv e) = .ok out fs' →
      fs'.inodeTable h = some ino' → hist ≠ [] ∧ ino'.size = storedSize hist := by
    intro e out fs' ino' hget hino
    obtain ⟨hne, hsize, -⟩ :=
      inode_of_getInode hP (hb.same (henv e)) (hstate e) hnone hget hino
    exact ⟨hne, hsize⟩
  constructor
  · intro hkept
    obtain ⟨out, fs', hget, ino', hino⟩ := hkept.opens {} (fun f hmem => by cases hmem)
    obtain ⟨hne, hsize⟩ := hmade {} out fs' ino' hget hino
    exact ⟨hne, hsize.symm.trans (hkept.size {} out fs' ino' hget hino)⟩
  · rintro ⟨hne, rfl⟩
    obtain ⟨c, cs, rfl⟩ := List.exists_cons_of_ne_nil hne
    refine ⟨?_, fun e out fs' ino' hget hino => (hmade e out fs' ino' hget hino).2⟩
    intro e hcalm
    exact exists_getInode hP (hb.same (henv e)) hcalm (hstate e)

/-- In every run, a successful closing flush keeps the size exactly if it has nothing to write and the
file was written before, or if the size happens to be that of the blocks it writes. -/
theorem sizeKept_iff (hP : P.Lawful) (hrun : IsMountRun P kb evs) (halive : Alive evs)
    (hfree : P.CollisionFree (mounted kb evs).be.hashed) :
    ∀ ev older h ino, (ev :: older) <:+ evs → Closes kb h ino ev older →
      FlushSucceeds P kb ino ev older →
      (SizeKept P h ino.size ev.after ↔
        (ino.dirtyCount = 0 ∧ (mounted kb older).be.index h ≠ some []) ∨
          (0 < ino.dirtyCount ∧ u64 (ino.dirtyCount * midBlockSize) = ino.size)) := by
  intro ev older h ino hsuf hc hok
  have hrun' := hrun.suffix hsuf
  have hfree' : P.CollisionFree ev.after.be.hashed :=
    hfree.of_subset (hrun.remembers halive hsuf).hashed
  have hreleased : ev.after.inodeTable h = none := by
    obtain ⟨s, -, -, htable⟩ := hrun'.closed hc
    rw [htable, Function.update_self]
  obtain ⟨hist, hsnap, hsound, hcase⟩ := hrun'.closed_cases hP hfree' hc
  have hwritten : (mounted kb older).be.index h ≠ some [] ↔ hist ≠ [] := by
    refine not_congr ⟨hsnap.unwritten hP, ?_⟩
    rintro rfl
    exact hsnap.state.index
  rcases hcase with ⟨hnil, hf⟩ | ⟨hfail, -⟩ | ⟨c, hdescs, -, hf⟩
  · have hzero : ino.dirtyCount = 0 := by
      rw [← length_dirtyDescs (P := P), hnil]
      rfl
    rw [sizeKept_of_released hP hsound hf hreleased, hwritten, hzero,
      hsnap.size (ino.dirtyCount_eq_zero_iff.mp hzero)]
    simp
  · exact absurd hok hfail
  · have hcount : c.descs.length = ino.dirtyCount := by rw [hdescs, length_dirtyDescs]
    have hpos : 0 < c.descs.length := List.length_pos_iff.mpr hf.linked.2.1.descs_ne
    have hstored : storedSize (c :: hist) = u64 (ino.dirtyCount * midBlockSize) := by
      have hmul : c.descs.length * defaultBlockSizeInKb * 1024 = ino.dirtyCount * midBlockSize := by
        unfold midBlockSize
        rw [hcount, Nat.mul_assoc]
      exact congrArg u64 hmul
    rw [hcount] at hpos
    rw [sizeKept_of_released hP hsound hf hreleased, hstored]
    simp [hpos, hpos.ne']

end Runs

/-! ## One file, closed twice -/

section Instances

open Reference

@[irreducible] def writtenRun : List FsEvent :=
  replayMount platform 16 [(.write [47, 97] 11 (fun _ => 7) 1 0, {}),
    (.create [47, 97], { clock := [5] })]

@[irreducible] def closing (faults : List Fault) : FsEvent :=
  .next platform 16 writtenRun (.flush [47, 97] 11) { clock := [6, 7, 8], faults := faults }

@[irreducible] def reopening : FsEvent :=
  .next platform 16 (closing [] :: writtenRun) (.open [47, 97]) {}

@[irreducible] def closingAgain : FsEvent :=
  .next platform 16 (reopening :: closing [] :: writtenRun) (.flush [47, 97] 12) {}

def FsEvent.repliesZero (ev : FsEvent) : Bool :=
  match ev.answer with
  | .ok (.code ret) => ret == 0
  | _ => false

theorem FsEvent.answer_of_repliesZero {ev : FsEvent} (h : ev.repliesZero = true) :
    ev.answer = .ok (.code 0) := by
  unfold FsEvent.repliesZero at h
  split at h
  · rename_i ret ha
    rw [ha, eq_of_beq h]
  · cases h

/-- What the run leaves of the file: it is open once, and its one byte is dirty. -/
theorem writtenRun_leaves : writtenRun.all FsEvent.replied = true ∧
    (mounted 16 writtenRun).target [47, 97] 11 = some (fileAt 5) ∧
    ((mounted 16 writtenRun).inodeTable (fileAt 5)).isSome = true ∧
    (inodeAt (mounted 16 writtenRun) (fileAt 5)).refCount = 1 ∧
    (inodeAt (mounted 16 writtenRun) (fileAt 5)).isDirty 0 = true ∧
    (inodeAt (mounted 16 writtenRun) (fileAt 5)).size = 1 ∧
    0 ≤ (inodeAt (mounted 16 writtenRun) (fileAt 5)).inlen := by decide +kernel

theorem isMountRun_writtenRun : IsMountRun platform 16 writtenRun ∧ Alive writtenRun := by
  have halive : Alive writtenRun := alive_of_all writtenRun_leaves.1
  refine ⟨?_, halive⟩
  unfold writtenRun at halive ⊢
  exact isMountRun_replay _ fun ev hev => halive ev (List.mem_of_mem_tail hev)

theorem isMountRun_closing (faults : List Fault) :
    IsMountRun platform 16 (closing faults :: writtenRun) := by
  obtain ⟨hrun, halive⟩ := isMountRun_writtenRun
  unfold closing
  exact hrun.next halive _ _

theorem closes_closing {faults : List Fault} (hzero : (closing faults).repliesZero = true) :
    Closes 16 (fileAt 5) (inodeAt (mounted 16 writtenRun) (fileAt 5)) (closing faults)
      writtenRun := by
  obtain ⟨-, htarget, hsome, hlast, -⟩ := writtenRun_leaves
  exact ⟨⟨[47, 97], 11, by unfold closing; rfl, htarget⟩, FsEvent.answer_of_repliesZero hzero,
    inodeAt_of_isSome hsome, hlast⟩

def nextSize (fs : Fs) (h : Bytes) : Option Nat :=
  match Fs.getInode platform h (fs.withEnv {}) with
  | .ok _ fs' => (fs'.inodeTable h).map Inode.size
  | .error _ _ => none

/-- The close without failures: the flush returns, and the file gets the size of its block. -/
theorem closing_leaves : (closing []).replied = true ∧ (closing []).repliesZero = true ∧
    (((closing []).after.be.hashed).dedup.map platform.hash256).Nodup ∧
    nextSize (closing []).after (fileAt 5) = some 16384 ∧
    returns (RecordCache.flushCache platform)
      ⟨{ inodeAt (mounted 16 writtenRun) (fileAt 5) with refCount := 0 },
        ((mounted 16 writtenRun).withEnv (closing []).env).be⟩ = true := by decide +kernel

theorem alive_closing : Alive (closing [] :: writtenRun) :=
  isMountRun_writtenRun.2.cons closing_leaves.1

theorem flushSucceeds_closing : FlushSucceeds platform 16
    (inodeAt (mounted 16 writtenRun) (fileAt 5)) (closing []) writtenRun := by
  obtain ⟨-, -, -, -, hreturns⟩ := closing_leaves
  obtain ⟨out, s, hok⟩ := exists_of_returns hreturns
  exact ⟨s, hok⟩

/-- A close without failures. -/
theorem closed_nothing_dropped_closing :
    (inodeAt (mounted 16 writtenRun) (fileAt 5)).isDirty 0 = true ∧
      NothingDropped platform (fileAt 5) (inodeAt (mounted 16 writtenRun) (fileAt 5))
        (closing []).after := by
  obtain ⟨-, -, -, -, hdirty, -, hlen⟩ := writtenRun_leaves
  obtain ⟨-, hzero, hnodup, -⟩ := closing_leaves
  have hfree : platform.CollisionFree (mounted 16 (closing [] :: writtenRun)).be.hashed :=
    .of_nodup hnodup
  have hquiet : (closing []).Undisturbed := by
    unfold closing
    intro f hf
    cases hf
  exact ⟨hdirty, closed_nothing_dropped lawful (isMountRun_closing []) alive_closing hfree
    _ _ _ _ (List.suffix_refl _) (closes_closing hzero) (Or.inr ⟨hquiet, hlen⟩)⟩

-- the reply does not tell whether the block was stored
example : [closing [], closing [.fail]].map FsEvent.repliesZero = [true, true] := by decide +kernel

theorem closing_fail_leaves : (closing [.fail]).repliesZero = true ∧
    (closing [.fail]).after.be.index (fileAt 5) = some [] ∧
    (closing [.fail]).after.be.store (fileAt 5) [] = none ∧
    ((closing [.fail]).after.inodeTable (fileAt 5)).isNone = true := by decide +kernel

/-- The encryption of the block fails, the flush replies `0`, and the block is nowhere. -/
theorem closed_nothing_dropped_encryptionFails :
    IsMountRun platform 16 (closing [.fail] :: writtenRun) ∧
      Closes 16 (fileAt 5) (inodeAt (mounted 16 writtenRun) (fileAt 5)) (closing [.fail])
        writtenRun ∧
      ¬ NothingDropped platform (fileAt 5) (inodeAt (mounted 16 writtenRun) (fileAt 5))
        (closing [.fail]).after := by
  obtain ⟨-, -, -, -, hdirty, -⟩ := writtenRun_leaves
  obtain ⟨hzero, hindex, hstore, htable⟩ := closing_fail_leaves
  refine ⟨isMountRun_closing [.fail], closes_closing hzero, ?_⟩
  intro hkept
  rcases hkept with hrecorded | ⟨ino', hino, -⟩
  · obtain ⟨n, inode, bmName, blockmap, name, data, hn, hrec, -⟩ := hrecorded 0 hdirty
    rw [hindex, Option.some.injEq] at hn
    rw [← hn, Backend.records, hstore] at hrec
    cases hrec
  · rw [hino] at htable
    cases htable

theorem SizeKept.nextSize {fs : Fs} {h : Bytes} {size n : Nat} (hkept : SizeKept platform h size fs)
    (hnext : nextSize fs h = some n) : n = size := by
  unfold DcfsClient.nextSize at hnext
  cases hget : Fs.getInode platform h (fs.withEnv {}) with
  | error x fs' =>
      rw [hget] at hnext
      cases hnext
  | ok out fs' =>
      rw [hget] at hnext
      obtain ⟨ino', hino, hsize⟩ := Option.map_eq_some_iff.mp hnext
      rw [← hsize]
      exact hkept.size {} out fs' ino' hget hino

/-- The file has one byte before the close and 16 KiB after it. -/
theorem sizeKept_closing : IsMountRun platform 16 (closing [] :: writtenRun) ∧
    Closes 16 (fileAt 5) (inodeAt (mounted 16 writtenRun) (fileAt 5)) (closing []) writtenRun ∧
    FlushSucceeds platform 16 (inodeAt (mounted 16 writtenRun) (fileAt 5)) (closing [])
      writtenRun ∧
    ¬ SizeKept platform (fileAt 5) (inodeAt (mounted 16 writtenRun) (fileAt 5)).size
      (closing []).after := by
  obtain ⟨-, -, -, -, -, hsize, -⟩ := writtenRun_leaves
  obtain ⟨-, hzero, -, hnext, -⟩ := closing_leaves
  refine ⟨isMountRun_closing [], closes_closing hzero, flushSucceeds_closing, ?_⟩
  intro hkept
  have heq := hkept.nextSize hnext
  rw [hsize] at heq
  cases heq

/-- The file is open again and clean. -/
theorem reopening_leaves : reopening.replied = true ∧
    reopening.after.target [47, 97] 12 = some (fileAt 5) ∧
    (reopening.after.inodeTable (fileAt 5)).isSome = true ∧
    (inodeAt reopening.after (fileAt 5)).refCount = 1 ∧
    (inodeAt reopening.after (fileAt 5)).dirtyCount = 0 ∧
    reopening.after.be.index (fileAt 5) ≠ some [] := by decide +kernel

theorem alive_reopening : Alive (reopening :: closing [] :: writtenRun) :=
  alive_closing.cons reopening_leaves.1

theorem isMountRun_reopening : IsMountRun platform 16 (reopening :: closing [] :: writtenRun) := by
  have hnext := (isMountRun_closing []).next alive_closing (.open [47, 97]) {}
  unfold reopening
  exact hnext

theorem closingAgain_leaves : closingAgain.replied = true ∧ closingAgain.repliesZero = true ∧
    (closingAgain.after.be.hashed.dedup.map platform.hash256).Nodup ∧
    returns (RecordCache.flushCache platform)
      ⟨{ inodeAt reopening.after (fileAt 5) with refCount := 0 },
        (reopening.after.withEnv closingAgain.env).be⟩ = true := by decide +kernel

/-- The second close has nothing to write and keeps the size. -/
theorem sizeKept_iff_closingAgain : SizeKept platform (fileAt 5)
    (inodeAt (mounted 16 (reopening :: closing [] :: writtenRun)) (fileAt 5)).size
      closingAgain.after := by
  obtain ⟨-, htarget, hsome, hlast, hclean, hwritten⟩ := reopening_leaves
  obtain ⟨hreplied, hzero, hnodup, hreturns⟩ := closingAgain_leaves
  have halive : Alive (closingAgain :: reopening :: closing [] :: writtenRun) :=
    alive_reopening.cons hreplied
  have hrun : IsMountRun platform 16 (closingAgain :: reopening :: closing [] :: writtenRun) := by
    have hnext := isMountRun_reopening.next alive_reopening (.flush [47, 97] 12) {}
    unfold closingAgain
    exact hnext
  have hfree : platform.CollisionFree
      (mounted 16 (closingAgain :: reopening :: closing [] :: writtenRun)).be.hashed :=
    .of_nodup hnodup
  have hcloses : Closes 16 (fileAt 5) (inodeAt reopening.after (fileAt 5)) closingAgain
      (reopening :: closing [] :: writtenRun) :=
    ⟨⟨[47, 97], 12, by unfold closingAgain; rfl, htarget⟩, FsEvent.answer_of_repliesZero hzero,
      inodeAt_of_isSome hsome, hlast⟩
  obtain ⟨out, s, hok⟩ := exists_of_returns hreturns
  exact (sizeKept_iff lawful hrun halive hfree _ _ _ _ (List.suffix_refl _) hcloses
    ⟨s, hok⟩).mpr (Or.inl ⟨hclean, hwritten⟩)

end Instances

end DcfsClient
