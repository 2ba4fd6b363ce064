import DcfsClient.AppendSession
import DcfsClient.ClosedFiles
import DcfsClient.StoredBlocks

/-!
# Create, append, close and reopen

A file that is made, appended to any number of times, closed and opened again reads back as the
concatenation of what was appended. `NewFile` is the state between the create and the close: the
session holds all the bytes and the middleware none. The close is the first commit of the file and
sends every block of the session in order, so entry `blk` of its blockmap is block `blk`; the inode
that the open loads has the size of these blocks, which is more than the file had, and its key.
-/

namespace DcfsClient

open Backend Exec

/-- The events are writes through the handle `fh`, newest first, each at the end of what was written
before, and `data` is all they wrote. -/
def Appends (fh : Nat) : List FsEvent → Bytes → Prop
  | [], data => data = []
  | ev :: evs, data => ∃ old path buf size, Appends fh evs old ∧ 0 < size ∧
      ev.callback = .write path fh buf size old.length ∧ data = old ++ Mem.bytesAt buf 0 size

structure NewFile (path : Bytes) (fh : Nat) (h data : Bytes) (fs : Fs) : Prop where
  name : fs.target path 0 = some h
  index : fs.be.index h = some []
  handle : 0 < fh ∧ fh < fdTableMax ∧ fs.fdTable fh = h
  inode : ∃ ino, fs.inodeTable h = some ino ∧ Appended 16384 data ino

section Session

variable {P : Platform} {fs fs' : Fs} {path h data : Bytes} {fh : Nat}

theorem NewFile.withEnv (hn : NewFile path fh h data fs) (e : Env) :
    NewFile path fh h data (fs.withEnv e) := ⟨hn.name, hn.index, hn.handle, hn.inode⟩

/-- The file after its creation. -/
theorem newFile_of_create (hP : P.Lawful) (hb : fs.be.Sound P) (hkb : fs.blockSizeInKb = 16)
    (he : fs.Effect P (.create path) (.handle fh) fs') (hh : fs'.target path 0 = some h) :
    NewFile path fh h [] fs' := by
  generalize hreply : Reply.handle fh = reply at he
  cases he with
  | idle _ hno _ =>
      rw [← hreply] at hno
      cases hno
  | refused root hroot e b hnew => cases hreply
  | used s _ _ hno _ =>
      rw [← hreply] at hno
      cases hno
  | created root hroot hfresh h' key b hnew hfd =>
      injection hreply with hfh
      rw [Fs.target_addent hroot hfresh rfl, Option.some.injEq] at hh
      subst hh
      obtain ⟨hout, hindex, -⟩ := wp_ok (wp_createNew_sound hP hb) hnew
      rw [Prod.mk.injEq] at hout
      refine ⟨Fs.target_addent hroot hfresh rfl, ?_, ⟨by omega, by omega, ?_⟩, _,
        Function.update_self _ _ _, ?_⟩
      · change b.index h' = some []
        rw [hindex, hout.1, Function.update_self]
      · rw [hfh]
        exact Function.update_self _ _ _
      · rw [hkb]
        exact appended_fresh h' 16 key

/-- A request through a handle whose inode is in the table. -/
theorem wp_resolve_handle {ino : Inode} {initial : FsM (Option Bytes)}
    {Q : Option Bytes → Fs → Prop} {E : Exit ErrT Abort → Fs → Prop} (hfh : 0 < fh)
    (hmax : fh < fdTableMax) (hino : fs.inodeTable (fs.fdTable fh) = some ino)
    (hQ : Q (some (fs.fdTable fh)) fs) : wp (Fs.resolve P path fh initial) Q E fs := by
  simp only [Fs.resolve, if_pos hfh, wp_bind, wp_check, wp_get, Fs.getInode, hino,
    decide_eq_true_eq, decide_eq_false_iff_not]
  exact ⟨fun _ => hQ, fun hbig => absurd hmax hbig⟩

/-- A write at the end of a new file appends. -/
theorem NewFile.write (hn : NewFile path fh h data fs) (path' : Bytes) (buf : Mem) {size : Nat}
    (hpos : 0 < size) (hsum : data.length + size < 2 ^ 64) :
    wp (Fs.dcfsWrite P path' fh buf size data.length)
      (fun _ fs' => NewFile path fh h (data ++ Mem.bytesAt buf 0 size) fs') (fun _ _ => False)
      fs := by
  obtain ⟨hfh, hmax, hentry⟩ := hn.handle
  obtain ⟨ino, hino, happ⟩ := hn.inode
  simp only [Fs.dcfsWrite, wp_bind]
  have hcached : fs.inodeTable (fs.fdTable fh) = some ino := by
    rw [hentry]
    exact hino
  apply wp_resolve_handle hfh hmax hcached
  rw [hentry]
  simp only [wp_bind, wp_attempt]
  rw [wp_onSession hino]
  have hspec := wp_and (wp_write_append (P := P) (s := ⟨ino, fs.be⟩) (by decide) happ buf hpos hsum)
    (write_writes buf data.length size ⟨ino, fs.be⟩)
  refine wp_mono hspec ?_ (fun _ _ hf => hf.1.elim)
  rintro _ s ⟨happ', hwrites⟩
  refine ⟨hn.name, ?_, hn.handle, s.ino, Function.update_self _ _ _, happ'⟩
  change s.be.index h = some []
  rw [hwrites.be.index]
  exact hn.index

end Session

/-! ## The run up to the close -/

section Runs

variable {P : Platform} {evs writes : List FsEvent} {create close reopen : FsEvent}
  {path h data : Bytes} {fh : Nat} {ino : Inode}

theorem NewFile.appends (hbase : NewFile path fh h [] create.after)
    (hrun : IsMountRun P 16 (writes ++ create :: evs)) (hwrites : Appends fh writes data)
    (hlength : data.length < 2 ^ 64) :
    NewFile path fh h data (mounted 16 (writes ++ create :: evs)) := by
  induction writes generalizing data with
  | nil =>
      rw [hwrites]
      exact hbase
  | cons ev writes ih =>
      rw [List.cons_append] at hrun ⊢
      obtain ⟨old, path', buf, size, hold, hpos, hcb, rfl⟩ := hwrites
      rw [List.length_append, Mem.length_bytesAt] at hlength
      have hbefore := ih hrun.1 hold (by omega)
      have hspec := (hbefore.withEnv ev.env).write (P := P) path' buf hpos hlength
      obtain ⟨reply, fs', hok, hafter⟩ := exists_ok hspec
      have hran : ev.callback.run P ((mounted 16 (writes ++ create :: evs)).withEnv ev.env) =
          .ok reply fs' := by
        rw [hcb]
        exact hok
      have hserved := hrun.2.2.trans (serve_ok_iff.mpr hran).symm
      change NewFile path fh h _ ev.after
      rw [(Prod.mk.inj hserved).2]
      exact hafter

/-- A flush leaves the directory alone. -/
theorem Fs.Effect.entries_flush {fs fs' : Fs} {reply : Reply}
    (he : fs.Effect P (.flush path fh) reply fs') : fs'.root.entries = fs.root.entries := by
  cases he with
  | idle hkeep _ _ => exact hkeep.entries
  | used s hload _ _ hflush => cases hflush
  | unreffed _ hload _ => exact hload.entries
  | released s _ hload _ _ => exact hload.entries

/-- The close of a new file with some data is its first commit. -/
theorem NewFile.closed (hP : P.Lawful) (hn : NewFile path fh h data (mounted 16 evs))
    (hpos : 0 < data.length) (hrun : IsMountRun P 16 (close :: evs))
    (hfree : P.CollisionFree close.after.be.hashed) (hclose : Closes 16 h ino close evs)
    (hflush : FlushSucceeds P 16 ino close evs) :
    ∃ c : Commit, Appended 16384 data ino ∧ c.key = ino.aesKey ∧
      c.descs = (List.range (data.length / 16384 + 1)).map (ino.dirtyDesc P) ∧
      close.after.be.Sound P ∧ FileState P close.after.be h [c] := by
  obtain ⟨ino', hino, happ⟩ := hn.inode
  rw [hclose.inode, Option.some.injEq] at hino
  subst hino
  have hdirty := happ.dirtyDescs (P := P) hpos
  obtain ⟨hist, hsnap, hsound, hcase⟩ := hrun.closed_cases hP hfree hclose
  have hhist : hist = [] := by
    have hindex := hsnap.state.index
    rw [hn.index, Option.some.injEq] at hindex
    cases hist with
    | nil => rfl
    | cons c cs => exact absurd hindex.symm (c.inode.name_ne_nil hP)
  rcases hcase with ⟨hnil, -⟩ | ⟨hfail, -⟩ | ⟨c, hdescs, hkey, hstate⟩
  · rw [hdirty, List.map_eq_nil_iff, List.range_eq_nil] at hnil
    omega
  · exact absurd hflush hfail
  · rw [hhist] at hkey hstate
    refine ⟨c, happ, ?_, hdescs.trans hdirty, hsound, hstate⟩
    rw [hkey]
    exact List.take_of_length_le (le_of_eq hsnap.aesKey)

end Runs

/-! ## The file after the open -/

section Reopen

variable {P : Platform} {fs fs' fs₁ : Fs} {path h data : Bytes} {fh : Nat} {ino : Inode} {c : Commit}
  {cs : List Commit} {b : Backend}

/-- The handle that an open returns belongs to the inode that `get_inode` gave. -/
theorem Fs.Effect.opened_loads (he : fs.Effect P (.open path) (.handle fh) fs')
    (htarget : fs.target path 0 = some h) :
    fs'.fdTable fh = h ∧ ∃ ino fs₁, fs.Loads P h ino fs₁ ∧ fs'.be = fs₁.be ∧
      fs'.inodeTable h = some ino.ref := by
  generalize hreply : Reply.handle fh = reply at he
  cases he with
  | idle _ hno _ =>
      rw [← hreply] at hno
      cases hno
  | used s _ _ hno _ =>
      rw [← hreply] at hno
      cases hno
  | @opened _ h' ino fs₁ htarget' hload hfd =>
      injection hreply with hfh
      rw [htarget, Option.some.injEq] at htarget'
      subst htarget'
      rw [hfh]
      exact ⟨Function.update_self _ _ _, ino, fs₁, hload, rfl, Function.update_self _ _ _⟩

def Commit.reopened (P : Platform) (h : Bytes) (c : Commit) : Inode :=
  (Inode.load h (c.inode.name P) (c.blockmap.name P) 16 blockmapCover (committedSize c.descs)
    c.key).ref

theorem Fs.Loads.reopened (hP : P.Lawful) (hb : fs.be.Sound P) (hf : FileState P fs.be h (c :: cs))
    (hnone : fs.inodeTable h = none) (hkb : fs.blockSizeInKb = 16)
    (hload : fs.Loads P h ino fs₁) : ino.ref = c.reopened P h := by
  cases hload with
  | cached hlook hcached =>
      rw [hnone] at hcached
      cases hcached
  | loaded m b root hroot _ hread hsame hino hfs =>
      obtain ⟨-, -, c', cs', hhist, hm⟩ := wp_ok (wp_readFileMeta hP hb hf.index hf.linked) hread
      injection hhist with hc
      rw [hino, hm, ← hc, hkb]
      rfl

theorem clean_reopened (h : Bytes) (c : Commit) (b : Backend) :
    Clean P (c.reopened P h) b ⟨c.reopened P h, b⟩ := by
  have hload := clean_load (P := P) h (c.inode.name P) (c.blockmap.name P) 16 blockmapCover
    (committedSize c.descs) c.key b
  exact ⟨Inode.SameFile.refl _, rfl, Same.refl b, hload.lengths, hload.cover, hload.bm,
    hload.blocks⟩

/-- A file whose only commit holds the blocks of a session reads back as what the session wrote. -/
theorem readsBack_first (hP : P.Lawful) (hb : b.Sound P) (hproper : ProperNames P b)
    (hf : FileState P b h [c]) (happ : Appended 16384 data ino) (hkey : c.key = ino.aesKey)
    (hdescs : c.descs = (List.range (data.length / 16384 + 1)).map (ino.dirtyDesc P))
    (hblocks : data.length / 16384 + 1 ≤ 512) :
    ReadsBack P data ⟨c.reopened P h, b⟩ := by
  have hcount : c.descs.length = data.length / 16384 + 1 := by
    rw [hdescs, List.length_map, List.length_range]
  have hcommitted : committedSize c.descs = (data.length / 16384 + 1) * 16384 := by
    rw [committedSize_eq (by omega), hcount]
    rfl
  let blocks : Nat → Mem := fun blk =>
    Mem.place (fun _ => P.junk) (Mem.bytesAt (ino.blockAt P blk) 0 16384)
  have hstore : ∀ blk, blk ≤ data.length / 16384 →
      (c.reopened P h).blockOnStore P b blk = some (blocks blk) := by
    intro blk hblk
    have hdesc : c.descs[blk]? = some (ino.dirtyDesc P blk) := by
      rw [hdescs, List.getElem?_map, List.getElem?_range (by omega)]
      rfl
    have hbuf : (ino.dirtyDesc P blk).buf =
        P.encrypt c.key (Mem.bytesAt (ino.blockAt P blk) 0 16384) := by
      have hsmall : ino.blockSize < 2 ^ 31 := by
        rw [happ.blockSize]
        decide
      rw [ino.dirtyDesc_buf P hsmall, happ.blockSize, hkey]
    have hfits : (ino.dirtyDesc P blk).buf.length ≤ 16384 + aesPadLen := by
      rw [hbuf, hP.encrypt_length _ _ (by rw [Mem.length_bytesAt]; decide) (by rw [Mem.length_bytesAt]),
        Mem.length_bytesAt]
    have hroom : c.descs.length ≤ blockmapCover := by
      rw [hcount]
      exact hblocks
    have hlinked : Linked P (c.reopened P h).hashname b [c] := hf.linked
    have haes : (c.reopened P h).aesKey = c.key := rfl
    rw [blockOnStore_first hP hb hproper hlinked rfl hroom hdesc hfits, hbuf, haes,
      hP.decrypt_encrypt _ _ (by rw [Mem.length_bytesAt]; decide)]
  have hbytes : ∀ pos byte, data[pos]? = some byte →
      blocks (pos / 16384) (pos % 16384) = byte := by
    intro pos byte hbyte
    have hlt : pos % 16384 < 16384 := Nat.mod_lt _ (by decide)
    have hcell := Mem.getElem?_bytesAt (ino.blockAt P (pos / 16384)) 0 16384 (pos % 16384)
    rw [if_pos hlt, Nat.zero_add] at hcell
    simp only [blocks, Mem.place, hcell, Option.getD_some]
    exact happ.blockAt hbyte
  have hlength : data.length ≤ committedSize c.descs := by
    rw [hcommitted]
    omega
  have hsmall : committedSize c.descs < 2 ^ 64 := by
    rw [hcommitted]
    omega
  exact readsBack_of_blocks (clean_reopened h c b) (Nat.zero_lt_succ 16383) hlength hsmall hstore
    hbytes

end Reopen

section RoundTrip

variable {P : Platform} {evs writes : List FsEvent} {create close reopen : FsEvent}
  {path h data : Bytes} {fh fh' : Nat} {ino : Inode}

theorem readsBack_nil (s : Session) : ReadsBack P [] s := by
  intro calls t c _ _ hpos hend
  rw [List.length_nil] at hend
  omega

/-- A file that was made, appended to, closed with success and opened again reads back as what was
appended to it. -/
theorem reads_back_after_reopen (hP : P.Lawful)
    (hrun : IsMountRun P 16 (reopen :: close :: (writes ++ create :: evs)))
    (hfree : P.CollisionFree reopen.after.be.hashed) (hproper : ProperNames P reopen.after.be)
    (hcreate : create.callback = .create path) (hhandle : create.answer = .ok (.handle fh))
    (hfile : create.after.target path 0 = some h) (hwrites : Appends fh writes data)
    (hblocks : data.length / 16384 + 1 ≤ 512)
    (hclose : Closes 16 h ino close (writes ++ create :: evs))
    (hflush : FlushSucceeds P 16 ino close (writes ++ create :: evs))
    (hopen : reopen.callback = .open path) (hreopen : reopen.answer = .ok (.handle fh')) :
    ∃ ino', reopen.after.fdTable fh' = h ∧ reopen.after.inodeTable h = some ino' ∧
      ReadsBack P data ⟨ino', reopen.after.be⟩ := by
  have hopened := hrun.effect hreopen
  rw [hopen] at hopened
  have hfree₁ : P.CollisionFree close.after.be.hashed :=
    hfree.of_subset hopened.remembers.hashed
  -- the session
  have hsuffix : (create :: evs) <:+ close :: (writes ++ create :: evs) :=
    (List.suffix_append writes _).trans (List.suffix_cons close _)
  have hrun₀ := hrun.1.suffix hsuffix
  have halive₀ := hrun.2.1.suffix hsuffix
  have hfree₀ : P.CollisionFree (mounted 16 evs).be.hashed :=
    hfree₁.of_subset (hrun.1.remembers hrun.2.1
      ((List.suffix_cons create evs).trans hsuffix)).hashed
  have hinv := hrun₀.1.inv hP halive₀.tail hfree₀
  have hcreated := hrun₀.effect hhandle
  rw [hcreate] at hcreated
  have hbase := newFile_of_create hP (hinv.withEnv create.env).sound
    (hrun₀.1.blockSizeInKb halive₀.tail) hcreated hfile
  have hnew := hbase.appends hrun.1.1 hwrites (by omega)
  -- the close keeps the name and forgets the inode
  have hclosed := hrun.1.effect hclose.answer
  obtain ⟨path', fh₁, hcb, -⟩ := hclose.callback
  rw [hcb] at hclosed
  have htarget : (close.after.withEnv reopen.env).target path 0 = some h := by
    have hname := hnew.name
    rw [Fs.target_zero] at hname ⊢
    change (close.after.root.entries.find? _).map _ = _
    rw [hclosed.entries_flush]
    exact hname
  have hnone : close.after.inodeTable h = none := by
    obtain ⟨s, -, -, htable⟩ := hrun.1.closed hclose
    rw [htable, Function.update_self]
  obtain ⟨hfd, ino', fs₁, hload, hbe, htable⟩ := hopened.opened_loads htarget
  refine ⟨ino'.ref, hfd, htable, ?_⟩
  rcases Nat.eq_zero_or_pos data.length with hzero | hpos
  · rw [List.length_eq_zero_iff.mp hzero]
    exact readsBack_nil _
  · obtain ⟨c, happ, hkey, hdescs, hsound, hstate⟩ :=
      hnew.closed hP hpos hrun.1 hfree₁ hclose hflush
    have henv : close.after.be.Same (close.after.withEnv reopen.env).be :=
      Same.withEnv close.after.be reopen.env
    have hstate₁ := hstate.grows (henv.grows (P := P)) (by rw [henv.index])
    have hsound₁ := hsound.same henv
    have hkb : (close.after.withEnv reopen.env).blockSizeInKb = 16 :=
      hrun.1.blockSizeInKb hrun.2.1
    have hsame : (close.after.withEnv reopen.env).be.Same reopen.after.be := by
      rw [hbe]
      exact hload.be
    rw [hload.reopened hP hsound₁ hstate₁ hnone hkb]
    exact readsBack_first hP (hsound₁.same hsame) hproper
      (hstate₁.grows (hsame.grows (P := P)) (by rw [hsame.index])) happ hkey hdescs hblocks

end RoundTrip

/-! ## Two chunks, across the end of a block -/

section Instances

open Reference

def FsEvent.repliesHandle (ev : FsEvent) (fh : Nat) : Bool :=
  match ev.answer with
  | .ok (.handle n) => n == fh
  | _ => false

theorem FsEvent.answer_of_repliesHandle {ev : FsEvent} {fh : Nat}
    (h : ev.repliesHandle fh = true) : ev.answer = .ok (.handle fh) := by
  unfold FsEvent.repliesHandle at h
  split at h
  · rename_i n ha
    rw [ha, eq_of_beq h]
  · cases h

@[irreducible] def creation : FsEvent := .next platform 16 [] (.create [47, 97]) { clock := [5] }

@[irreducible] def firstChunk : FsEvent :=
  .next platform 16 [creation] (.write [47, 97] 11 (fun _ => 7) 16383 0) {}

@[irreducible] def secondChunk : FsEvent :=
  .next platform 16 [firstChunk, creation]
    (.write [47, 97] 11 (fun i => UInt8.ofNat (8 + i)) 3 16383) {}

@[irreducible] def chunksClosing : FsEvent :=
  .next platform 16 [secondChunk, firstChunk, creation] (.flush [47, 97] 11) { clock := [6, 7, 8, 9] }

@[irreducible] def chunksReopening : FsEvent :=
  .next platform 16 [chunksClosing, secondChunk, firstChunk, creation] (.open [47, 97]) {}

theorem appends_chunks :
    Appends 11 [secondChunk, firstChunk] (List.replicate 16383 7 ++ [8, 9, 10]) := by
  have hfirst : Mem.bytesAt (fun _ => 7) 0 16383 = List.replicate 16383 7 := by
    apply List.ext_getElem?
    intro i
    rw [Mem.getElem?_bytesAt, List.getElem?_replicate]
  have hsecond : [8, 9, 10] = Mem.bytesAt (fun i => UInt8.ofNat (8 + i)) 0 3 := by decide
  refine ⟨List.replicate 16383 7, [47, 97], fun i => UInt8.ofNat (8 + i), 3, ?_, by decide, ?_,
    congrArg (List.replicate 16383 7 ++ ·) hsecond⟩
  · refine ⟨[], [47, 97], fun _ => 7, 16383, rfl, Nat.succ_pos 16382, ?_, ?_⟩
    · unfold firstChunk
      rfl
    · rw [List.nil_append, hfirst]
  · rw [List.length_replicate]
    unfold secondChunk
    rfl

theorem chunks_leaves : creation.repliesHandle 11 = true ∧
    creation.after.target [47, 97] 0 = some (fileAt 5) ∧
    [creation, firstChunk, secondChunk, chunksClosing].all FsEvent.replied = true ∧
    secondChunk.after.target [47, 97] 11 = some (fileAt 5) ∧
    (secondChunk.after.inodeTable (fileAt 5)).isSome = true ∧
    (inodeAt secondChunk.after (fileAt 5)).refCount = 1 ∧
    (inodeAt secondChunk.after (fileAt 5)).dirtyCount = 2 := by decide +kernel

theorem chunksClosing_leaves : chunksClosing.repliesZero = true ∧
    chunksReopening.repliesHandle 12 = true ∧
    (chunksReopening.after.be.hashed.dedup.map platform.hash256).Nodup ∧
    returns (RecordCache.flushCache platform)
      ⟨{ inodeAt secondChunk.after (fileAt 5) with refCount := 0 },
        (secondChunk.after.withEnv chunksClosing.env).be⟩ = true := by decide +kernel

theorem isMountRun_chunks : IsMountRun platform 16
    (chunksReopening :: chunksClosing :: ([secondChunk, firstChunk] ++ creation :: [])) := by
  obtain ⟨-, -, hreplied, -⟩ := chunks_leaves
  simp only [List.all_cons, List.all_nil, Bool.and_true, Bool.and_eq_true] at hreplied
  obtain ⟨hcreated, hfirst, hsecond, hclosed⟩ := hreplied
  have halive₁ : Alive [creation] := Alive.cons (fun _ hev => by cases hev) hcreated
  have halive₂ := halive₁.cons hfirst
  have halive₃ := halive₂.cons hsecond
  have halive₄ := halive₃.cons hclosed
  have hrun₁ : IsMountRun platform 16 [creation] := by
    have hstart : IsMountRun platform 16 [] := trivial
    unfold creation
    exact hstart.next (fun _ hev => by cases hev) _ _
  have hrun₂ : IsMountRun platform 16 [firstChunk, creation] := by
    unfold firstChunk
    exact hrun₁.next halive₁ _ _
  have hrun₃ : IsMountRun platform 16 [secondChunk, firstChunk, creation] := by
    unfold secondChunk
    exact hrun₂.next halive₂ _ _
  have hrun₄ : IsMountRun platform 16 [chunksClosing, secondChunk, firstChunk, creation] := by
    unfold chunksClosing
    exact hrun₃.next halive₃ _ _
  unfold chunksReopening
  exact hrun₄.next halive₄ _ _

/-- The first chunk leaves one byte of its block, and the second goes on in the next block. -/
theorem reads_back_after_reopen_chunks : ∃ ino', chunksReopening.after.fdTable 12 = fileAt 5 ∧
    chunksReopening.after.inodeTable (fileAt 5) = some ino' ∧
    ReadsBack platform (List.replicate 16383 7 ++ [8, 9, 10])
      ⟨ino', chunksReopening.after.be⟩ := by
  obtain ⟨hhandle, hfile, -, htarget, hsome, hlast, -⟩ := chunks_leaves
  obtain ⟨hzero, hreopened, hnodup, hreturns⟩ := chunksClosing_leaves
  have hreopen := FsEvent.answer_of_repliesHandle hreopened
  have hfree : platform.CollisionFree chunksReopening.after.be.hashed := .of_nodup hnodup
  have hrun := isMountRun_chunks
  have halive : Alive (chunksReopening :: chunksClosing ::
      ([secondChunk, firstChunk] ++ creation :: [])) := by
    intro ev hev
    rcases List.mem_cons.mp hev with rfl | hev
    · exact ⟨_, hreopen⟩
    · exact hrun.2.1 ev hev
  have hproper := properNames (hrun.inv lawful halive hfree).sound
  have hcloses : Closes 16 (fileAt 5) (inodeAt secondChunk.after (fileAt 5)) chunksClosing
      ([secondChunk, firstChunk] ++ creation :: []) :=
    ⟨⟨[47, 97], 11, by unfold chunksClosing; rfl, htarget⟩, FsEvent.answer_of_repliesZero hzero,
      inodeAt_of_isSome hsome, hlast⟩
  obtain ⟨_, s, hflush⟩ := exists_of_returns hreturns
  have hlength : (List.replicate 16383 (7 : UInt8) ++ [8, 9, 10]).length = 16386 := by
    rw [List.length_append, List.length_replicate]
    rfl
  exact reads_back_after_reopen lawful hrun hfree hproper (by unfold creation; rfl)
    (FsEvent.answer_of_repliesHandle hhandle) hfile appends_chunks (by rw [hlength]; decide) hcloses
    ⟨s, hflush⟩ (by unfold chunksReopening; rfl) hreopen

end Instances

end DcfsClient
