import DcfsClient.FileContents
import DcfsClient.SnapshotReads
import DcfsClient.PlainFs

/-!
# Open files as plain files

`InodeShows` relates an inode in the table to a plain file: whatever mixture of cached, changed and
stored blocks the session has, its content is the function `bytes`. Reads keep it, a write does to it
what `PlainFile.write` does to the file, and it survives whatever else is added to the store.

Nothing can fail here but the world: when all blocks of a session are readable and the world is calm,
filling the cache succeeds.
-/

namespace DcfsClient

open Backend

structure InodeShows (P : Platform) (ino₀ : Inode) (b : Backend) (ino : Inode) (f : PlainFile) :
    Prop where
  file : Inode.SameFile { ino₀ with refCount := f.refs } ino
  tidy : ino.Tidy
  size : ino.size = f.size
  unchanged : f.dirty = ∅ → f.size = ino₀.size
  bm : Session.bmNow P ⟨ino, b⟩ = ino.blockmapOf P b
  dirty : ∀ blk, ino.isDirty blk = true ↔ blk ∈ f.dirty
  clean : ∀ blk, blk ∉ f.dirty → Session.blockNow P ⟨ino, b⟩ blk = ino.blockOnStore P b blk
  content : ∀ pos, Session.content P ⟨ino, b⟩ pos = some (f.bytes pos)

section Views

variable {P : Platform} {ino₀ ino : Inode} {b b' : Backend} {f : PlainFile} {hist : List Commit}

theorem Inode.SameFile.blockOnStore_eq {ino ino' : Inode} (h : ino.SameFile ino') (hs : b.Same b')
    (blk : Nat) : ino'.blockOnStore P b' blk = ino.blockOnStore P b blk := by
  unfold Inode.blockOnStore
  rw [h.blockmapOf_eq hs]
  cases ino.blockmapOf P b with
  | none => rfl
  | some bm => exact h.blockIn_eq hs bm blk

theorem InodeShows.blockNow_ne_none (h : InodeShows P ino₀ b ino f) (hbs : 0 < ino.blockSize)
    (blk : Nat) : Session.blockNow P ⟨ino, b⟩ blk ≠ none := by
  intro hnone
  have hbyte := h.content (blk * ino.blockSize)
  unfold Session.content at hbyte
  dsimp only at hbyte
  rw [Nat.mul_div_cancel blk hbs, hnone] at hbyte
  cases hbyte

/-- Filling the cache cannot be seen. -/
theorem InodeShows.filled {s' : Session} (h : InodeShows P ino₀ b ino f)
    (hfilled : Session.Filled P ⟨ino, b⟩ s') : InodeShows P ino₀ s'.be s'.ino f := by
  refine ⟨h.file.trans hfilled.file, hfilled.tidy h.tidy, hfilled.size.trans h.size, h.unchanged, ?_,
    ?_, ?_, ?_⟩
  · rw [hfilled.file.blockmapOf_eq hfilled.be]
    exact hfilled.bmNow.trans h.bm
  · intro blk
    rw [hfilled.dirty]
    exact h.dirty blk
  · intro blk hblk
    rw [hfilled.file.blockOnStore_eq hfilled.be]
    exact (hfilled.blockNow blk).trans (h.clean blk hblk)
  · intro pos
    exact (hfilled.content pos).trans (h.content pos)

theorem Session.filled_same (ino : Inode) (hs : b.Same b') : Session.Filled P ⟨ino, b⟩ ⟨ino, b'⟩ := by
  have hfile := Inode.SameFile.refl ino
  have hbm : Session.bmNow P ⟨ino, b'⟩ = Session.bmNow P ⟨ino, b⟩ := bmNow_eq hfile hs rfl
  refine ⟨⟨hfile, rfl, fun _ => rfl, hs⟩, id, id, hbm, ?_, fun _ hc => hc, le_rfl⟩
  intro blk
  exact blockNow_eq hfile hs hbm rfl (fun _ => rfl)

theorem InodeShows.same (h : InodeShows P ino₀ b ino f) (hs : b.Same b') :
    InodeShows P ino₀ b' ino f := h.filled (Session.filled_same ino hs)

/-- A session does not notice what is added to the store. -/
theorem InodeShows.grows (hP : P.Lawful) (h : InodeShows P ino₀ b ino f) (hb : b.Sound P)
    (hb' : b'.Sound P) (hg : b.Grows P b') (hl : Linked P ino.hashname b hist)
    (hbm : ino.bmRecordname = blockmapName P hist) : InodeShows P ino₀ b' ino f := by
  have hstore := blockOnStore_grows hP hb hb' hg hl hbm
  have hmap := blockmapOf_grows hb hb' hg hl hbm
  have hmapNow : Session.bmNow P ⟨ino, b'⟩ = ino.blockmapOf P b' := by
    have hnow := h.bm
    unfold Session.bmNow at hnow ⊢
    dsimp only at hnow ⊢
    split
    · rename_i hsome
      rw [if_pos hsome] at hnow
      rw [hmap, hnow]
    · rfl
  have hblock : ∀ blk, Session.blockNow P ⟨ino, b'⟩ blk = Session.blockNow P ⟨ino, b⟩ blk := by
    intro blk
    have hon := hstore blk
    unfold Inode.blockOnStore at hon
    unfold Session.blockNow
    rw [hmapNow, h.bm]
    dsimp only
    split
    · rfl
    · exact hon
  refine ⟨h.file, h.tidy, h.size, h.unchanged, hmapNow, h.dirty, ?_, ?_⟩
  · intro blk hblk
    rw [hblock, hstore]
    exact h.clean blk hblk
  · intro pos
    have hbyte := h.content pos
    unfold Session.content at hbyte ⊢
    rw [hblock]
    exact hbyte

/-- The references are counted without a look at the content. -/
theorem InodeShows.withRefs (h : InodeShows P ino₀ b ino f) (n : Nat) :
    InodeShows P ino₀ b { ino with refCount := n } { f with refs := n } :=
  ⟨⟨h.file.1, h.file.2, h.file.3, h.file.4, h.file.5, h.file.6, rfl⟩,
    ⟨⟨h.tidy.lengths, h.tidy.alloc⟩, h.tidy.dirty, h.tidy.unloaded⟩, h.size, h.unchanged, h.bm, h.dirty,
    h.clean, h.content⟩

end Views

/-! ## Filling the cache on a calm day -/

section Calm

variable {P : Platform} {s : Session}

theorem readRecordData_calm {b : Backend} (hcalm : b.Calm) {d name : Bytes} {cap : Nat}
    (h : payloadOf P b d name cap ≠ none) :
    Exec.wp (StorageBackend.readRecordData P d name cap) (fun out b' => b.Same b' ∧ b'.Calm ∧
      payloadOf P b d name cap = some out) (fun _ _ => False) b :=
  Exec.wp_mono (wp_readRecordData d name cap) (fun _ _ hr => ⟨hr.1, hr.2.1 hcalm, hr.2.2⟩)
    (fun _ _ hr => hr.2 h hcalm)

theorem forM_calm {f : Nat → BackendM Unit} {b : Backend} (hcalm : b.Calm) (l : List Nat)
    (hf : ∀ blk ∈ l, ∀ b', b.Same b' → b'.Calm →
      Exec.wp (f blk) (fun _ b'' => b'.Same b'' ∧ b''.Calm) (fun _ _ => False) b') :
    Exec.wp (l.forM f) (fun _ b' => b.Same b' ∧ b'.Calm) (fun _ _ => False) b := by
  induction l generalizing b with
  | nil => exact ⟨Same.refl b, hcalm⟩
  | cons blk l ih =>
      have hstep := hf blk (by simp) b (Same.refl b) hcalm
      change Exec.wp (f blk >>= fun _ => l.forM f) _ _ b
      rw [Exec.wp_bind]
      refine Exec.wp_mono hstep ?_ (fun _ _ hno => hno)
      rintro _ b₁ ⟨hs, hcalm₁⟩
      refine Exec.wp_mono (ih hcalm₁ ?_) ?_ (fun _ _ hno => hno)
      · intro blk' hmem b' hs' hcalm'
        exact hf blk' (List.mem_cons_of_mem blk hmem) b' (hs.trans hs') hcalm'
      · rintro _ b₂ ⟨hs', hcalm₂⟩
        exact ⟨hs.trans hs', hcalm₂⟩

theorem bmNow_ne_none (htidy : s.ino.Tidy) (hblocks : ∀ blk, s.blockNow P blk ≠ none) :
    s.bmNow P ≠ none := by
  intro hnone
  have hmem : s.ino.bm = none := by
    unfold Session.bmNow at hnone
    split at hnone
    · cases hnone
    · rename_i hno
      rwa [Option.not_isSome_iff_eq_none] at hno
  have hlen : 0 < s.ino.bmRecordname.length := by
    by_contra hzero
    unfold Session.bmNow Inode.blockmapOf at hnone
    rw [hmem, if_neg hzero] at hnone
    cases hnone
  -- nothing is cached yet, and an uncached block needs the blockmap
  apply hblocks 0
  unfold Session.blockNow
  rw [htidy.unloaded hmem hlen 0, hnone]
  rfl

theorem loadBm_calm (htidy : s.ino.Tidy) (hcalm : s.be.Calm)
    (hblocks : ∀ blk, s.blockNow P blk ≠ none) :
    Exec.wp (RecordCache.loadBm P s.ino)
      (fun bm b' => s.be.Same b' ∧ b'.Calm ∧ s.bmNow P = some bm) (fun _ _ => False) s.be := by
  have hnow := bmNow_ne_none htidy hblocks
  unfold Session.bmNow Inode.blockmapOf at hnow
  unfold RecordCache.loadBm Session.bmNow Inode.blockmapOf
  by_cases hload : s.ino.bm.isNone ∧ 0 < s.ino.bmRecordname.length
  · have hmem : ¬ s.ino.bm.isSome = true := by simpa using hload.1
    rw [if_neg hmem, if_pos hload.2] at hnow
    rw [if_pos hload, if_neg hmem, if_pos hload.2]
    have hpay : payloadOf P s.be s.ino.hashname s.ino.bmRecordname (hashLen * s.ino.bmCover) ≠
        none := by
      intro hnone
      rw [hnone] at hnow
      exact hnow rfl
    rw [Exec.wp_bind]
    refine Exec.wp_mono (readRecordData_calm hcalm hpay) ?_ (fun _ _ hno => hno)
    rintro data b' ⟨hs, hcalm', hdata⟩
    refine ⟨hs, hcalm', ?_⟩
    rw [hdata]
    rfl
  · rw [if_neg hload]
    refine ⟨Same.refl s.be, hcalm, ?_⟩
    cases hmem : s.ino.bm with
    | some bm => rfl
    | none =>
        have hlen : ¬ 0 < s.ino.bmRecordname.length := by
          intro hlen
          exact hload ⟨by rw [hmem]; rfl, hlen⟩
        simp only [Option.isSome_none, Bool.false_eq_true, if_false, if_neg hlen]

theorem loadBlock_calm {b : Backend} {bm : Option Mem} (hs : s.be.Same b) (hcalm : b.Calm)
    (hbm : s.bmNow P = some bm) {blk : Nat} (hblock : s.blockNow P blk ≠ none) :
    Exec.wp (RecordCache.loadBlock P { s.ino with bm := bm } blk) (fun _ b' => b.Same b' ∧ b'.Calm)
      (fun _ _ => False) b := by
  have hcached : Inode.isCached { s.ino with bm := bm } blk = s.ino.isCached blk := rfl
  unfold RecordCache.loadBlock
  rw [hcached]
  split
  · exact ⟨Same.refl b, hcalm⟩
  · rename_i hun
    unfold Session.blockNow at hblock
    rw [if_neg hun, hbm] at hblock
    simp only [Option.bind_some, Inode.blockIn] at hblock
    cases hname : RecordCache.bmCheck { s.ino with bm := bm } blk with
    | none => exact ⟨Same.refl b, hcalm⟩
    | some recordname =>
        rw [hname] at hblock
        have hpay : payloadOf P b s.ino.hashname recordname (s.ino.blockSize + aesPadLen) ≠ none := by
          intro hnone
          rw [payloadOf_congr hs.store] at hnone
          simp only [hnone, Option.map_none] at hblock
          exact hblock rfl
        simp only [Exec.wp_bind, Exec.wp_pure]
        exact Exec.wp_mono (readRecordData_calm hcalm hpay) (fun _ _ hr => ⟨hr.1, hr.2.1⟩)
          (fun _ _ hno => hno)

/-- When every block of the session is readable and the world is calm, the cache can be filled. -/
theorem exists_fillDcache (htidy : s.ino.Tidy) (hcalm : s.be.Calm)
    (hblocks : ∀ blk, s.blockNow P blk ≠ none) (offset size : Nat) :
    ∃ t, RecordCache.fillDcache P offset size s = .ok () t := by
  have hloads : Exec.wp (RecordCache.loads P s.ino offset size) (fun _ _ => True) (fun _ _ => False)
      s.be := by
    simp only [RecordCache.loads, Exec.wp_bind]
    refine Exec.wp_mono (loadBm_calm htidy hcalm hblocks) ?_ (fun _ _ hno => hno)
    rintro bm b₁ ⟨hs, hcalm₁, hbm⟩
    refine Exec.wp_mono (forM_calm hcalm₁ _ ?_) (fun _ _ _ => trivial) (fun _ _ hno => hno)
    intro blk _ b₂ hs₂ hcalm₂
    exact loadBlock_calm (hs.trans hs₂) hcalm₂ hbm (hblocks blk)
  have hfill : Exec.wp (RecordCache.fillDcache P offset size) (fun _ _ => True) (fun _ _ => False) s := by
    refine Exec.wp_mono (wp_fillDcache_filled htidy.toAllocated offset size) (fun _ _ _ => trivial) ?_
    rintro x t ⟨-, -, -, herr⟩
    exact Exec.wp_error hloads herr
  obtain ⟨_, t, ht, -⟩ := Exec.exists_ok hfill
  exact ⟨t, ht⟩

end Calm

/-! ## Reads and writes -/

section ReadWrite

variable {P : Platform} {ino₀ ino : Inode} {b : Backend} {f : PlainFile}

/-- Copying out of the cache returns, or the process dies. -/
theorem wp_readPieces_aborts (s : Session) (buf : Mem) (cur : Nat) (ps : List Piece) :
    Exec.wp (RecordCache.readPieces buf cur ps) (fun _ _ => True) (fun x _ => ∃ k, x = .abort k) s := by
  induction ps generalizing buf cur with
  | nil => trivial
  | cons p ps ih =>
      simp only [RecordCache.readPieces, RecordCache.blockOf, Exec.wp_bind, Exec.wp_get,
        Exec.wp_orAbort, Exec.wp_check, Exec.wp_pure]
      exact ⟨fun m _ => ⟨fun _ => ih _ _, fun _ => ⟨_, rfl⟩⟩, fun _ => ⟨_, rfl⟩⟩

/-- A read within the file delivers its bytes. -/
theorem InodeShows.wp_read (h : InodeShows P ino₀ b ino f) (hcalm : b.Calm) (hbs : 0 < ino.blockSize)
    (buf : Mem) {offset size : Nat} (hoff : offset < f.size) (hsum : offset + size < 2 ^ 64) :
    Exec.wp (Inode.read P buf offset size)
      (fun out s' => InodeShows P ino₀ s'.be s'.ino f ∧ b.Same s'.be ∧ ino.SameFile s'.ino ∧ 0 < size ∧
        ∀ i, i < min size (f.size - offset) → out.1 i = f.bytes (offset + i))
      (fun x _ => ∃ k, x = .abort k) ⟨ino, b⟩ := by
  have hoff' : offset < ino.size := by
    rw [h.size]
    exact hoff
  have hsafe : Exec.wp (Inode.read P buf offset size) (fun _ _ => True)
      (fun x _ => ∃ k, x = .abort k) ⟨ino, b⟩ := by
    simp only [Inode.read, RecordCache.read, Exec.wp_bind, Exec.wp_get, Exec.wp_ite, Exec.wp_pure,
      Exec.wp_check]
    refine ⟨fun _ => trivial, fun _ => ⟨fun _ => ?_, fun _ => ⟨_, rfl⟩⟩⟩
    obtain ⟨t, ht⟩ := exists_fillDcache (s := ⟨ino, b⟩) h.tidy hcalm (h.blockNow_ne_none hbs) offset
      (if ino.size < u64 (offset + size) then ino.size - offset else size)
    rw [Exec.wp_of_ok ht]
    exact wp_readPieces_aborts t buf 0 _
  refine Exec.wp_mono (Exec.wp_and (Exec.wp_run _ _) hsafe) ?_ (fun _ _ hx => hx.2)
  rintro ⟨out, readSize⟩ s' ⟨hrun, -⟩
  obtain ⟨-, hread⟩ := inode_read_eq_ok (s := ⟨ino, b⟩) hoff' hsum hrun
  have hpos := (read_eq_ok hread).1
  obtain ⟨hfilled, hbytes⟩ := read_content (s := ⟨ino, b⟩) h.tidy.toAllocated hbs (by omega) hread
  refine ⟨h.filled hfilled, hfilled.be, hfilled.file, by omega, ?_⟩
  intro i hi
  have hsize : Session.ino ⟨ino, b⟩ = ino := rfl
  rw [hsize, h.size] at hbytes
  have hbyte := hbytes i hi
  rw [h.content, Option.some.injEq] at hbyte
  exact hbyte.symm

/-- The pieces of a write lie in the blocks that `PlainFile.write` makes dirty. -/
theorem mem_dirty_write {buf : Mem} {offset size blk : Nat} (bs : Nat)
    (hsum : min offset f.size + size < 2 ^ 64) :
    blk ∈ (f.write bs buf size offset).dirty ↔
      blk ∈ f.dirty ∨ ∃ p ∈ copyPieces bs (min offset f.size) size, p.block = blk := by
  rw [exists_piece_iff, u64_of_lt hsum]
  simp only [PlainFile.write, Finset.mem_union, Finset.mem_Icc]
  have hle : min offset f.size / bs ≤ (min offset f.size + size) / bs :=
    Nat.div_le_div_right (Nat.le_add_right _ _)
  constructor
  · rintro (hold | ⟨hst, hed⟩)
    · exact Or.inl hold
    · right
      omega
  · rintro (hold | hblk)
    · exact Or.inl hold
    · right
      omega

theorem content_resize (s : Session) (n pos : Nat) :
    Session.content P ⟨{ s.ino with size := n }, s.be⟩ pos = s.content P pos := rfl

/-- A write does to the content what `PlainFile.write` does. -/
theorem InodeShows.wp_write (h : InodeShows P ino₀ b ino f) (hcalm : b.Calm) (hbs : 0 < ino.blockSize)
    (buf : Mem) {offset size : Nat} (hsum : offset + size < 2 ^ 64) :
    Exec.wp (Inode.write P buf offset size)
      (fun _ s' => InodeShows P ino₀ s'.be s'.ino (f.write ino.blockSize buf size offset) ∧
        b.Same s'.be ∧ ino.SameFile s'.ino ∧ 0 < size)
      (fun x _ => ∃ k, x = .abort k) ⟨ino, b⟩ := by
  have hstart : min offset ino.size + size < 2 ^ 64 := by omega
  have hstart' : min offset f.size + size < 2 ^ 64 := by omega
  obtain ⟨t, hfill⟩ := exists_fillDcache (s := ⟨ino, b⟩) h.tidy hcalm (h.blockNow_ne_none hbs)
    (min offset ino.size) size
  obtain ⟨hfilled, -, -, -⟩ :=
    Exec.wp_ok (wp_fillDcache_filled (s := ⟨ino, b⟩) h.tidy.toAllocated _ size) hfill
  have hshown := h.filled hfilled
  have htidy := hfilled.tidy h.tidy
  have hcached := cached_of_piece (s := ⟨ino, b⟩) h.tidy.toAllocated hstart hfill
  have hsafe : Exec.wp (Inode.write P buf offset size) (fun _ _ => True)
      (fun x _ => ∃ k, x = .abort k) ⟨ino, b⟩ := by
    simp only [Inode.write, RecordCache.write, Exec.wp_bind, Exec.wp_get, Exec.wp_check,
      Exec.wp_attempt, start_eq_min]
    refine ⟨fun _ => ?_, fun _ => ⟨_, rfl⟩⟩
    rw [Exec.wp_of_ok hfill]
    refine Exec.wp_mono (wp_writePieces_wrote (P := P) htidy.lengths buf 0 _) ?_ (fun _ _ hx => ⟨_, hx.1⟩)
    intro _ u _
    simp only [Exec.wp_pure, wp_onInode]
  refine Exec.wp_mono (Exec.wp_and (Exec.wp_run _ _) hsafe) ?_ (fun _ _ hx => hx.2)
  rintro n s' ⟨hrun, -⟩
  obtain ⟨-, u, hwrite, rfl⟩ := inode_write_eq_ok (s := ⟨ino, b⟩) hstart hrun
  obtain ⟨hpos, t', hfill', hpieces⟩ := write_eq_ok hwrite
  rw [hfill] at hfill'
  cases hfill'
  obtain ⟨hwrote, -⟩ := Exec.wp_ok (wp_writePieces_wrote (P := P) htidy.lengths buf 0 _) hpieces
  have hsize : u.ino.size = f.size := hwrote.size.trans (hfilled.size.trans h.size)
  have hbe : b.Same u.be := by
    rw [hwrote.be]
    exact hfilled.be
  have hfile : ino.SameFile u.ino := hfilled.file.trans hwrote.file
  refine ⟨⟨h.file.trans ⟨hfile.1, hfile.2, hfile.3, hfile.4, hfile.5, hfile.6, hfile.7⟩, ?_, ?_, ?_, ?_,
    ?_, ?_, ?_⟩, hbe, ⟨hfile.1, hfile.2, hfile.3, hfile.4, hfile.5, hfile.6, hfile.7⟩, hpos⟩
  · exact (hwrote.tidy htidy hcached).resize _
  · change max u.ino.size _ = max f.size _
    rw [hsize, h.size]
  · intro hnone
    have hmem : min offset f.size / ino.blockSize ∈ (f.write ino.blockSize buf size offset).dirty :=
      (mem_dirty_write ino.blockSize hstart').mpr
        (Or.inr (exists_piece_iff.mpr (Or.inl rfl)))
    rw [hnone] at hmem
    cases hmem
  · have hnow := hwrote.bmNow_eq.trans hshown.bm
    have hsame : t.be.Same u.be := by
      rw [hwrote.be]
      exact Same.refl _
    rw [← hwrote.file.blockmapOf_eq hsame] at hnow
    exact hnow
  · intro blk
    have hflag := hwrote.dirty blk
    rw [hshown.dirty] at hflag
    rw [mem_dirty_write ino.blockSize hstart', ← h.size]
    exact hflag
  · intro blk hblk
    rw [mem_dirty_write ino.blockSize hstart', not_or, ← h.size] at hblk
    have hno : ∀ p ∈ copyPieces ino.blockSize (min offset ino.size) size, p.block ≠ blk := by
      intro p hp he
      exact hblk.2 ⟨p, hp, he⟩
    have hnow := (hwrote.blockNow_of_forall_ne hno).trans (hshown.clean blk hblk.1)
    have hsame : t.be.Same u.be := by
      rw [hwrote.be]
      exact Same.refl _
    rw [← hwrote.file.blockOnStore_eq hsame] at hnow
    exact hnow
  · intro pos
    rw [content_resize u]
    have hbyte := write_content (s := ⟨ino, b⟩) h.tidy.toAllocated hbs hstart hfill hwrote pos
    rw [span_of_not_wrap hbs hstart, h.content] at hbyte
    rw [hbyte]
    simp only [PlainFile.write, PlainFile.reach, ← h.size, apply_ite some]

end ReadWrite

/-! ## Inodes that have just been made -/

def Commit.loaded (P : Platform) (kb : Nat) (h : Bytes) (c : Commit) : Inode :=
  .load h (c.inode.name P) (c.blockmap.name P) kb blockmapCover (committedSize c.descs) c.key

section Made

variable {P : Platform} {ino₀ ino : Inode} {b b₀ : Backend} {f : PlainFile} {h : Bytes} {c : Commit}
  {cs : List Commit} {kb n : Nat}

/-- With nothing cached, the content is what the store has. -/
theorem inodeShows_load {inoName bmName aesKey : Bytes} {cover isize : Nat}
    (hino : ino₀ = .load h inoName bmName kb cover isize aesKey) (hrefs : f.refs = 0)
    (hdirty : f.dirty = ∅) (hsize : f.size = isize)
    (hbytes : ∀ pos, (ino₀.blockOnStore P b (pos / (kb * 1024))).map (fun m => m (pos % (kb * 1024))) =
      some (f.bytes pos)) : InodeShows P ino₀ b ino₀ f := by
  subst hino
  have huncached := isCached_load h inoName bmName kb cover isize aesKey
  have htidy := Inode.tidy_load h inoName bmName kb cover isize aesKey
  have hnow : ∀ blk, Session.blockNow P ⟨.load h inoName bmName kb cover isize aesKey, b⟩ blk =
      (Inode.load h inoName bmName kb cover isize aesKey).blockOnStore P b blk := by
    intro blk
    unfold Session.blockNow
    rw [huncached]
    rfl
  refine ⟨⟨rfl, rfl, rfl, rfl, rfl, rfl, hrefs.symm⟩, htidy, hsize.symm, fun _ => hsize, rfl, ?_,
    fun blk _ => hnow blk, ?_⟩
  · intro blk
    rw [hdirty]
    refine ⟨fun hd => ?_, fun hmem => by cases hmem⟩
    have hc := htidy.dirty blk hd
    rw [huncached] at hc
    cases hc
  · intro pos
    unfold Session.content
    rw [hnow]
    exact hbytes pos

theorem inodeShows_fresh (hkb : 0 < kb) (h key : Bytes) (b : Backend) :
    InodeShows P (.fresh h kb blockmapCover key) b (Inode.fresh h kb blockmapCover key).ref {} := by
  have hshow : InodeShows P (.fresh h kb blockmapCover key) b (.fresh h kb blockmapCover key)
      { refs := 0 } := by
    have hino : Inode.fresh h kb blockmapCover key = .load h [] [] kb blockmapCover 0 key := rfl
    refine inodeShows_load hino rfl rfl rfl ?_
    intro pos
    have hblock : (Inode.fresh h kb blockmapCover key).blockOnStore P b (pos / (kb * 1024)) =
        some (Mem.memset (fun _ => P.junk) 0 (kb * 1024)) := rfl
    rw [hblock, Option.map_some, Mem.memset, if_pos (Nat.mod_lt _ (by omega))]
  exact hshow.withRefs 1

/-- A session that has changed nothing leaves the inode that the next load makes. -/
theorem InodeShows.unchanged_load {inoName bmName aesKey : Bytes} {cover isize : Nat}
    (hshow : InodeShows P ino₀ b ino f) (hino : ino₀ = .load h inoName bmName kb cover isize aesKey)
    (hclean : f.dirty = ∅) : InodeShows P ino₀ b ino₀ { f with refs := 0 } := by
  have hsize : ino₀.size = isize := by rw [hino]; rfl
  have hbs : ino₀.blockSize = kb * 1024 := by rw [hino]; rfl
  refine inodeShows_load hino rfl hclean ((hshow.unchanged hclean).trans hsize) ?_
  intro pos
  have hblock : ino.blockOnStore P b (pos / (kb * 1024)) = ino₀.blockOnStore P b (pos / (kb * 1024)) :=
    hshow.file.blockOnStore_eq (Same.refl b) _
  have hbyte := hshow.content pos
  unfold Session.content at hbyte
  dsimp only at hbyte
  rw [hshow.file.blockSize] at hbyte
  dsimp only at hbyte
  rw [hbs, hshow.clean _ (by rw [hclean]; exact Finset.notMem_empty _), hblock] at hbyte
  exact hbyte

/-- Behind the entries of its blockmap a file is zero. -/
theorem blockOnStore_hole (hP : P.Lawful) (hb : b.Sound P) (hl : Linked P ino.hashname b (c :: cs))
    (hbm : ino.bmRecordname = c.blockmap.name P) (hroom : (blockNames P (c :: cs)).length ≤ ino.bmCover)
    {blk : Nat} (hblk : (blockNames P (c :: cs)).length ≤ blk) :
    ino.blockOnStore P b blk = some (Mem.memset (fun _ => P.junk) 0 ino.blockSize) := by
  have hentry := @bmCheck_blockmapMem P ino blk _ (length_of_mem_blockNames hP) hroom
  rw [List.getElem?_eq_none hblk, Option.filter_none] at hentry
  unfold blockmapMem at hentry
  rw [Inode.blockOnStore, blockmapOf_commit hP hb hl hbm hroom, Option.bind_some, Inode.blockIn, hentry]

/-- The first commit of a session has the content of the session. -/
theorem loaded_bytes (hP : P.Lawful) (hb : b.Sound P) (hproper : ProperNames P b)
    (hl : Linked P h b [c]) (hkb : 0 < kb) (hkb' : kb * 1024 < 2 ^ 31)
    (hshow : InodeShows P ino₀ b₀ ino f)
    (hbs : ino.blockSize = kb * 1024) (hdirty : f.dirty = Finset.range n)
    (hzero : ∀ pos, n * (kb * 1024) ≤ pos → f.bytes pos = 0)
    (hdescs : c.descs = (List.range n).map (ino.dirtyDesc P)) (hkey : c.key = ino.aesKey)
    (hroom : n ≤ blockmapCover) (pos : Nat) :
    ((c.loaded P kb h).blockOnStore P b (pos / (kb * 1024))).map (fun m => m (pos % (kb * 1024))) =
      some (f.bytes pos) := by
  have hpos : 0 < kb * 1024 := by omega
  have hlt : pos % (kb * 1024) < kb * 1024 := Nat.mod_lt _ hpos
  have hcount : c.descs.length = n := by rw [hdescs, List.length_map, List.length_range]
  have hlinked : Linked P (c.loaded P kb h).hashname b [c] := hl
  by_cases hblk : pos / (kb * 1024) < n
  · have hcached : ino.isCached (pos / (kb * 1024)) = true := by
      apply hshow.tidy.dirty
      rw [hshow.dirty, hdirty]
      exact Finset.mem_range.mpr hblk
    obtain ⟨m, hm⟩ := hshow.tidy.alloc _ hcached
    have hjoin : (ino.dcacheBlocks[pos / (kb * 1024)]?).join = some m := by
      rw [hm]
      rfl
    have hbyte := hshow.content pos
    unfold Session.content at hbyte
    dsimp only at hbyte
    rw [hbs, blockNow_of_cached (s := ⟨ino, b₀⟩) hcached hjoin, Option.map_some,
      Option.some.injEq] at hbyte
    have hdesc : c.descs[pos / (kb * 1024)]? = some (ino.dirtyDesc P (pos / (kb * 1024))) := by
      rw [hdescs, List.getElem?_map, List.getElem?_range hblk]
      rfl
    have hbuf : (ino.dirtyDesc P (pos / (kb * 1024))).buf =
        P.encrypt c.key (Mem.bytesAt m 0 (kb * 1024)) := by
      rw [ino.dirtyDesc_buf P (by rw [hbs]; exact hkb'), hbs, hkey, blockAt_eq_some hjoin]
    have hfits : (ino.dirtyDesc P (pos / (kb * 1024))).buf.length ≤ kb * 1024 + aesPadLen := by
      rw [hbuf, hP.encrypt_length _ _ (by rw [Mem.length_bytesAt]; exact Inode.add_aesPadLen_lt hkb')
        (by rw [Mem.length_bytesAt]; omega), Mem.length_bytesAt]
    have haes : (c.loaded P kb h).aesKey = c.key := rfl
    rw [blockOnStore_first hP hb hproper hlinked rfl (by rw [hcount]; exact hroom) hdesc hfits, hbuf,
      haes, hP.decrypt_encrypt _ _ (by rw [Mem.length_bytesAt]; exact Inode.add_aesPadLen_lt hkb'),
      Option.map_some, ← hbyte, Mem.place, Mem.getElem?_bytesAt, if_pos hlt,
      Nat.zero_add, Option.getD_some]
  · have hbehind : (blockNames P [c]).length ≤ pos / (kb * 1024) := by
      rw [hl.length_blockNames_first, hcount]
      omega
    have hcover : (blockNames P [c]).length ≤ (c.loaded P kb h).bmCover := by
      rw [hl.length_blockNames_first, hcount]
      exact hroom
    have hpast : n * (kb * 1024) ≤ pos :=
      (Nat.mul_le_mul_right _ (by omega)).trans (Nat.div_mul_le_self pos (kb * 1024))
    rw [blockOnStore_hole hP hb hlinked rfl hcover hbehind, hzero pos hpast, Option.map_some, Mem.memset]
    exact congrArg some (if_pos hlt)

end Made

end DcfsClient
