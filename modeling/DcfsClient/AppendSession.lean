import DcfsClient.CopyPieces
import DcfsClient.CacheWrites

/-!
# Appending to a new file

The cache of a file that was never flushed is all there is of it: there is no blockmap, so a fill makes
zeroed blocks and cannot fail. `Filled` describes such a cache by the contents of its blocks, and
`Appended data` says that the session wrote `data` from the start of the file on and nothing else. The
byte that a write copies past its request lies behind the end of the file, where the next append
overwrites it.
-/

namespace DcfsClient

open Backend Exec

structure Filled (ino : Inode) (n : Nat) (blocks : Nat → Mem) : Prop where
  lengths : ino.dcacheBlocks.length = ino.dcacheStats.length
  room : ino.dcacheStats.length = max n 1
  cached : ∀ blk, ino.isCached blk = decide (blk < n)
  blocks : ∀ blk, blk < n → ino.dcacheBlocks[blk]? = some (some (blocks blk))
  bmRecordname : ino.bmRecordname = []
  bm : ino.bm = none

section Fill

variable {P : Platform} {s : Session} {n : Nat} {blocks : Nat → Mem}

/-- A cached block is left alone. -/
theorem fillBlock_cached (h : Filled s.ino n blocks) {blk : Nat} (hlt : blk < n)
    {Q : Unit → Session → Prop} {E : Exit ErrT Abort → Session → Prop} (hQ : Q () s) :
    wp (RecordCache.fillBlock P blk) Q E s := by
  have hroom := h.room
  have hgrow : RecordCache.growTo s.ino blk = s.ino := by
    rw [RecordCache.growTo, if_neg (by omega)]
  have hcached : s.ino.isCached blk = true := by
    rw [h.cached]
    exact decide_eq_true hlt
  obtain ⟨stat, hstat, hc⟩ := isCached_iff.mp hcached
  simp only [RecordCache.fillBlock, wp_bind, wp_onInode, wp_get, wp_orAbort, hgrow, hstat]
  refine ⟨?_, fun hn => by cases hn⟩
  intro stat' he
  rw [Option.some.injEq] at he
  rw [← he, if_pos hc]
  exact hQ

structure Ready (ino : Inode) (n : Nat) (blocks : Nat → Mem) : Prop where
  stats : ino.dcacheStats.length = n + 1
  allocated : ino.dcacheBlocks.length = n + 1
  cached : ∀ blk, ino.isCached blk = decide (blk < n)
  blocks : ∀ blk, blk < n → ino.dcacheBlocks[blk]? = some (some (blocks blk))
  bmRecordname : ino.bmRecordname = []
  bm : ino.bm = none

theorem Filled.growTo {ino : Inode} (h : Filled ino n blocks) :
    Ready (RecordCache.growTo ino n) n blocks := by
  have hroom := h.room
  have hlengths := h.lengths
  have hcached : ∀ blk, (RecordCache.growTo ino n).isCached blk = decide (blk < n) := by
    intro blk
    rw [isCached_growTo, h.cached]
  unfold RecordCache.growTo at hcached ⊢
  by_cases hle : ino.dcacheStats.length ≤ n
  · rw [if_pos hle] at hcached ⊢
    refine ⟨?_, ?_, hcached, ?_, h.bmRecordname, h.bm⟩
    · simp only [List.length_append, List.length_singleton]
      omega
    · simp only [List.length_append, List.length_singleton]
      omega
    · intro blk hlt
      simp only
      rw [List.getElem?_append_left (by omega)]
      exact h.blocks blk hlt
  · rw [if_neg hle] at hcached ⊢
    exact ⟨by omega, by omega, hcached, h.blocks, h.bmRecordname, h.bm⟩

theorem Ready.setBlock {ino : Inode} (h : Ready ino n blocks) (m : Mem) :
    Ready (ino.setBlock n m) n blocks := by
  refine ⟨h.stats, ?_, h.cached, ?_, h.bmRecordname, h.bm⟩
  · simp only [Inode.setBlock, List.length_set]
    exact h.allocated
  · intro blk hlt
    simp only [Inode.setBlock]
    rw [List.getElem?_set_ne (by omega)]
    exact h.blocks blk hlt

theorem Ready.setCached {ino : Inode} (h : Ready ino n blocks) (m : Mem) (stat : CStat) :
    Filled ((ino.setBlock n m).setStat n { stat with cached := true }) (n + 1)
      (Function.update blocks n m) := by
  have hstats := h.stats
  have hallocated := h.allocated
  refine ⟨?_, ?_, ?_, ?_, h.bmRecordname, h.bm⟩
  · simp only [Inode.setStat, Inode.setBlock, List.length_set]
    omega
  · simp only [Inode.setStat, Inode.setBlock, List.length_set]
    omega
  · intro blk
    have hold := h.cached blk
    simp only [Inode.isCached, Inode.setStat, Inode.setBlock] at hold ⊢
    by_cases he : n = blk
    · subst he
      rw [List.getElem?_set_self (by omega)]
      simp
    · rw [List.getElem?_set_ne he, hold]
      simp only [decide_eq_decide]
      omega
  · intro blk hlt
    simp only [Inode.setStat, Inode.setBlock]
    by_cases he : n = blk
    · subst he
      rw [List.getElem?_set_self (by omega), Function.update_self]
    · rw [List.getElem?_set_ne he, Function.update_of_ne (Ne.symm he)]
      exact h.blocks blk (by omega)

/-- The next block is made of zeros. -/
theorem wp_fillBlock_next (h : Filled s.ino n blocks) :
    wp (RecordCache.fillBlock P n) (fun _ s' => ∃ m, Filled s'.ino (n + 1) (Function.update blocks n m))
      (fun _ _ => False) s := by
  have hready := h.growTo
  have hstats := hready.stats
  have hnot : (RecordCache.growTo s.ino n).isCached n = false := by
    rw [hready.cached]
    exact decide_eq_false (Nat.lt_irrefl n)
  have hnone : RecordCache.bmCheck (RecordCache.growTo s.ino n) n = none := by
    rw [RecordCache.bmCheck, hready.bm]
  simp only [RecordCache.fillBlock, wp_bind, wp_onInode, wp_get, wp_orAbort]
  constructor
  · intro stat hstat
    have huncached : stat.cached = false := by
      rw [Inode.isCached, hstat] at hnot
      exact hnot
    rw [huncached, if_neg Bool.false_ne_true]
    simp only [wp_bind, wp_onInode, hnone]
    exact ⟨_, (hready.setBlock _).setCached _ stat⟩
  · intro habsent
    rw [List.getElem?_eq_none_iff] at habsent
    omega

/-- A row of fills that starts at or before the end of the cache. -/
theorem wp_fillRow (h : Filled s.ino n blocks) (st k : Nat) (hst : st ≤ n) :
    wp ((List.range' st k).forM (RecordCache.fillBlock P))
      (fun _ s' => ∃ blocks', Filled s'.ino (max n (st + k)) blocks' ∧
        ∀ blk, blk < n → blocks' blk = blocks blk) (fun _ _ => False) s := by
  induction k generalizing st n blocks s with
  | zero =>
      have hmax : max n (st + 0) = n := by omega
      rw [hmax]
      exact ⟨blocks, h, fun _ _ => rfl⟩
  | succ k ih =>
      rw [List.range'_succ, List.forM, wp_bind]
      by_cases hlt : st < n
      · apply fillBlock_cached h hlt
        have hrest := ih h (st + 1) hlt
        have hsum : st + 1 + k = st + (k + 1) := by omega
        rw [hsum] at hrest
        exact hrest
      · have heq : st = n := by omega
        subst heq
        refine wp_mono (wp_fillBlock_next h) ?_ (fun _ _ hf => hf)
        rintro _ t ⟨m, ht⟩
        refine wp_mono (ih ht (st + 1) le_rfl) ?_ (fun _ _ hf => hf)
        rintro _ u ⟨blocks', hu, hold⟩
        have hmax : max (st + 1) (st + 1 + k) = max st (st + (k + 1)) := by omega
        rw [hmax] at hu
        refine ⟨blocks', hu, ?_⟩
        intro blk hblk
        rw [hold blk (by omega), Function.update_of_ne (by omega)]

/-- A fill of a range that starts in the cache or right behind it. -/
theorem wp_fillDcache_fresh (h : Filled s.ino n blocks) {offset size : Nat}
    (hst : min (offset / s.ino.blockSize) s.ino.dcacheStats.length ≤ n)
    (hsum : offset + size < 2 ^ 64)
    (hle : offset / s.ino.blockSize ≤ s.ino.dcacheStats.length) :
    wp (RecordCache.fillDcache P offset size)
      (fun _ s' => ∃ blocks', Filled s'.ino (max n ((offset + size) / s.ino.blockSize + 1)) blocks' ∧
        ∀ blk, blk < n → blocks' blk = blocks blk) (fun _ _ => False) s := by
  have hskip : ¬ (s.ino.bm.isNone ∧ 0 < s.ino.bmRecordname.length) := by
    rw [h.bmRecordname]
    simp
  simp only [RecordCache.fillDcache, RecordCache.fillBmcache, wp_bind, wp_get, if_neg hskip, wp_pure,
    u64_of_lt hsum]
  have hblocks : offset / s.ino.blockSize ≤ (offset + size) / s.ino.blockSize :=
    Nat.div_le_div_right (by omega)
  have hrow := wp_fillRow (P := P) h (min (offset / s.ino.blockSize) s.ino.dcacheStats.length)
    ((offset + size) / s.ino.blockSize + 1 -
      min (offset / s.ino.blockSize) s.ino.dcacheStats.length) hst
  have hend : min (offset / s.ino.blockSize) s.ino.dcacheStats.length +
      ((offset + size) / s.ino.blockSize + 1 -
        min (offset / s.ino.blockSize) s.ino.dcacheStats.length) =
      (offset + size) / s.ino.blockSize + 1 := by omega
  rw [hend] at hrow
  exact hrow

end Fill

/-! ## Writing into a filled cache -/

section Write

variable {P : Platform} {s : Session} {n : Nat} {blocks : Nat → Mem}

theorem Filled.writeBlock {ino : Inode} (h : Filled ino n blocks) {blk : Nat} (hlt : blk < n)
    {stat : CStat} (hstat : ino.dcacheStats[blk]? = some stat) (m : Mem) :
    Filled ((ino.setBlock blk m).setStat blk { stat with dirty := true }) n
      (Function.update blocks blk m) := by
  have hroom := h.room
  have hlengths := h.lengths
  refine ⟨?_, ?_, ?_, ?_, h.bmRecordname, h.bm⟩
  · simp only [Inode.setStat, Inode.setBlock, List.length_set]
    exact hlengths
  · simp only [Inode.setStat, Inode.setBlock, List.length_set]
    exact hroom
  · intro blk'
    rw [← h.cached blk']
    simp only [Inode.isCached, Inode.setStat, Inode.setBlock]
    by_cases he : blk = blk'
    · subst he
      rw [List.getElem?_set_self (by omega), hstat]
      rfl
    · rw [List.getElem?_set_ne he]
  · intro blk' hlt'
    simp only [Inode.setStat, Inode.setBlock]
    by_cases he : blk = blk'
    · subst he
      rw [List.getElem?_set_self (by omega), Function.update_self]
    · rw [List.getElem?_set_ne he, Function.update_of_ne (Ne.symm he)]
      exact h.blocks blk' hlt'

theorem wp_writePieces_filled (h : Filled s.ino n blocks) (buf : Mem) (cur : Nat) (ps : List Piece)
    (hps : ∀ p ∈ ps, p.block < n ∧ p.off + p.len ≤ s.ino.blockSize) :
    wp (RecordCache.writePieces buf cur ps)
      (fun _ s' => Filled s'.ino n (copyIn buf blocks cur ps) ∧ s'.ino.size = s.ino.size ∧
        ∀ p ∈ ps, s'.ino.isDirty p.block = true) (fun _ _ => False) s := by
  induction ps generalizing s blocks cur with
  | nil => exact ⟨h, rfl, by simp⟩
  | cons p ps ih =>
      obtain ⟨hlt, hfits⟩ := hps p (by simp)
      have hroom := h.room
      have hblock := h.blocks p.block hlt
      have hin : p.block < s.ino.dcacheStats.length := by omega
      simp only [RecordCache.writePieces, RecordCache.blockOf, wp_bind, wp_get, hblock,
        Option.join_some, wp_orAbort, wp_check, wp_pure, wp_onInode, decide_eq_true_eq,
        decide_eq_false_iff_not]
      refine ⟨?_, fun hn => by cases hn⟩
      intro m hm
      rw [Option.some.injEq] at hm
      subst hm
      refine ⟨fun _ => ⟨?_, ?_⟩, fun hbig => hbig (by omega)⟩
      · intro stat hstat
        have hwrite := writePiece_writes (s := s) p.block
          (Mem.memcpy (blocks p.block) p.off buf cur p.len) hstat
        have hnext := h.writeBlock hlt hstat (Mem.memcpy (blocks p.block) p.off buf cur p.len)
        have hrest : ∀ q ∈ ps, q.block < n ∧ q.off + q.len ≤ s.ino.blockSize :=
          fun q hq => hps q (by simp [hq])
        refine wp_mono (wp_and (ih hnext (cur + p.len) hrest)
          (writePieces_writes buf (cur + p.len) ps _)) ?_ (fun _ _ hf => hf.1)
        rintro _ t ⟨⟨hfilled, hsize, hdirty⟩, hmoves⟩
        refine ⟨hfilled, hsize, ?_⟩
        intro q hq
        rcases List.mem_cons.mp hq with rfl | hq
        · exact hmoves.dirty _ hwrite.2
        · exact hdirty q hq
      · intro habsent
        rw [List.getElem?_eq_none_iff] at habsent
        omega

end Write

/-! ## Appends -/

/-- The number of blocks of a file of `len` bytes in the cache of its first session. -/
def blockCount (bs len : Nat) : Nat := if len = 0 then 0 else len / bs + 1

/-- The session wrote `data` from the start of the file on. -/
structure Appended (bs : Nat) (data : Bytes) (ino : Inode) : Prop where
  blockSize : ino.blockSize = bs
  size : ino.size = data.length
  filled : ∃ blocks, Filled ino (blockCount bs data.length) blocks ∧
    ∀ pos byte, data[pos]? = some byte → blocks (pos / bs) (pos % bs) = byte
  dirty : ∀ blk, blk < blockCount bs data.length → ino.isDirty blk = true

section Append

variable {P : Platform} {s : Session} {bs : Nat} {data : Bytes}

theorem appended_fresh (h : Bytes) (kb : Nat) (key : Bytes) :
    Appended (kb * 1024) [] (Inode.fresh h kb blockmapCover key).ref := by
  refine ⟨rfl, rfl, ⟨fun _ => fun _ => 0, ?_, ?_⟩, ?_⟩
  · refine ⟨?_, ?_, ?_, ?_, rfl, rfl⟩
    · simp [Inode.fresh, Inode.load, Inode.ref]
    · simp [Inode.fresh, Inode.load, Inode.ref, blockCount]
    · intro blk
      simp only [Inode.isCached, Inode.fresh, Inode.load, Inode.ref, List.getElem?_replicate]
      split <;> simp [blockCount]
    · intro blk hlt
      exact absurd hlt (Nat.not_lt_zero blk)
  · intro pos byte hbyte
    cases hbyte
  · intro blk hlt
    exact absurd hlt (Nat.not_lt_zero blk)

theorem blockCount_pos (bs : Nat) {len : Nat} (h : 0 < len) : blockCount bs len = len / bs + 1 :=
  if_neg (by omega)

theorem blockCount_le (bs len size : Nat) : blockCount bs len ≤ (len + size) / bs + 1 := by
  have hdiv : len / bs ≤ (len + size) / bs := Nat.div_le_div_right (by omega)
  unfold blockCount
  split
  · exact Nat.zero_le _
  · exact Nat.succ_le_succ hdiv

theorem Appended.start (h : Appended bs data s.ino) : data.length / s.ino.blockSize ≤
    s.ino.dcacheStats.length ∧ min (data.length / s.ino.blockSize) s.ino.dcacheStats.length ≤
      blockCount bs data.length := by
  obtain ⟨blocks, hfilled, -⟩ := h.filled
  have hroom := hfilled.room
  rw [h.blockSize]
  unfold blockCount at hroom ⊢
  split at hroom
  · rename_i hzero
    rw [if_pos hzero, hzero, Nat.zero_div]
    omega
  · rename_i hpos
    rw [if_neg hpos]
    omega

/-- The blocks after an append hold one chunk more. -/
theorem copyIn_append (hbs : 0 < bs) (buf : Mem) {size : Nat} (hsum : data.length + size < 2 ^ 64)
    {blocks : Nat → Mem}
    (hbytes : ∀ pos byte, data[pos]? = some byte → blocks (pos / bs) (pos % bs) = byte)
    {pos : Nat} {byte : UInt8} (hbyte : (data ++ Mem.bytesAt buf 0 size)[pos]? = some byte) :
    copyIn buf blocks 0 (copyPieces bs data.length size) (pos / bs) (pos % bs) = byte := by
  obtain ⟨htiles, hspan⟩ := tiles_copyPieces hbs hsum
  have hlt : pos < data.length + size := by
    have hin := (List.getElem?_eq_some_iff.mp hbyte).1
    simpa using hin
  have hsplit : pos / bs * bs + pos % bs = pos := Nat.div_add_mod' pos bs
  rw [copyIn_tiles htiles buf blocks 0 (pos / bs) (pos % bs) (Nat.mod_lt pos hbs), hsplit]
  by_cases hnew : data.length ≤ pos
  · rw [if_pos (by omega)]
    rw [List.getElem?_append_right hnew, Mem.getElem?_bytesAt, if_pos (by omega),
      Option.some.injEq] at hbyte
    exact hbyte
  · rw [if_neg (by omega)]
    rw [List.getElem?_append_left (by omega)] at hbyte
    exact hbytes pos byte hbyte

/-- A block of the longer file that the session did not have yet is touched by the append. -/
theorem exists_piece_append {size blk : Nat} (hpos : 0 < size)
    (hsum : data.length + size < 2 ^ 64) (hnew : ¬ blk < blockCount bs data.length)
    (hblk : blk < blockCount bs (data.length + size)) :
    ∃ p ∈ copyPieces bs data.length size, p.block = blk := by
  have hfirst : data.length / bs ≤ blk := by
    unfold blockCount at hnew
    split at hnew
    · rename_i hzero
      rw [hzero, Nat.zero_div]
      exact Nat.zero_le blk
    · omega
  rw [blockCount_pos bs (by omega)] at hblk
  exact exists_piece hsum hfirst (Nat.lt_succ_iff.mp hblk)

/-- The cache after an append. -/
theorem wp_recordCacheWrite_append (hbs : 0 < bs) (h : Appended bs data s.ino) (buf : Mem)
    {size : Nat} (hpos : 0 < size) (hsum : data.length + size < 2 ^ 64) :
    wp (RecordCache.write P buf data.length size)
      (fun _ s' => s'.ino.size = data.length ∧
        (∃ blocks, Filled s'.ino (blockCount bs (data.length + size)) blocks ∧
          ∀ pos byte, (data ++ Mem.bytesAt buf 0 size)[pos]? = some byte →
            blocks (pos / bs) (pos % bs) = byte) ∧
        ∀ blk, blk < blockCount bs (data.length + size) → s'.ino.isDirty blk = true)
      (fun _ _ => False) s := by
  obtain ⟨blocks, hfilled, hbytes⟩ := h.filled
  obtain ⟨hle, hst⟩ := h.start
  have hcount := blockCount_pos bs (show 0 < data.length + size by omega)
  have hmax : max (blockCount bs data.length) ((data.length + size) / s.ino.blockSize + 1) =
      blockCount bs (data.length + size) := by
    have hmono := blockCount_le bs data.length size
    rw [hcount, h.blockSize]
    omega
  simp only [RecordCache.write, wp_bind, wp_check, wp_get, wp_attempt, decide_eq_true_eq,
    decide_eq_false_iff_not]
  refine ⟨fun _ => ?_, fun hzero => hzero hpos⟩
  have hfill := wp_and (wp_fillDcache_fresh (P := P) hfilled hst hsum hle)
    (fillDcache_fills P data.length size s)
  refine wp_mono hfill ?_ (fun _ _ hf => hf.1.elim)
  rintro _ t ⟨⟨blocks₁, hfilled₁, hold₁⟩, hfills⟩
  rw [hmax] at hfilled₁
  have hbytes₁ : ∀ pos byte, data[pos]? = some byte → blocks₁ (pos / bs) (pos % bs) = byte := by
    intro pos byte hbyte
    have hin := (List.getElem?_eq_some_iff.mp hbyte).1
    have hdiv : pos / bs ≤ data.length / bs := Nat.div_le_div_right (by omega)
    have hblk : pos / bs < blockCount bs data.length := by
      rw [blockCount_pos bs (by omega)]
      exact Nat.lt_succ_of_le hdiv
    rw [hold₁ _ hblk]
    exact hbytes pos byte hbyte
  have hpieces : ∀ p ∈ copyPieces bs data.length size,
      p.block < blockCount bs (data.length + size) ∧ p.off + p.len ≤ t.ino.blockSize := by
    intro p hp
    have hblock := (block_of_mem_copyPieces hsum hp).2
    rw [u64_of_lt hsum] at hblock
    rw [hcount, hfills.file.blockSize, h.blockSize]
    exact ⟨by omega, (tiles_copyPieces hbs hsum).1.fits p hp⟩
  rw [h.blockSize]
  have hwrite := wp_and (wp_writePieces_filled hfilled₁ buf 0 _ hpieces)
    (writePieces_writes buf 0 (copyPieces bs data.length size) t)
  refine wp_mono hwrite ?_ (fun _ _ hf => hf.1)
  rintro _ u ⟨⟨hfilled₂, hsize₂, hdirty₂⟩, hmoves⟩
  refine ⟨hsize₂.trans (hfills.size.trans h.size), ⟨_, hfilled₂, ?_⟩, ?_⟩
  · intro pos byte hbyte
    exact copyIn_append hbs buf hsum hbytes₁ hbyte
  · intro blk hblk
    by_cases hbefore : blk < blockCount bs data.length
    · apply hmoves.dirty
      rw [hfills.dirty]
      exact h.dirty blk hbefore
    · obtain ⟨p, hp, heq⟩ := exists_piece_append hpos hsum hbefore hblk
      rw [← heq]
      exact hdirty₂ p hp

/-- An append leaves a session that wrote one chunk more. -/
theorem wp_write_append (hbs : 0 < bs) (h : Appended bs data s.ino) (buf : Mem) {size : Nat}
    (hpos : 0 < size) (hsum : data.length + size < 2 ^ 64) :
    wp (Inode.write P buf data.length size)
      (fun _ s' => Appended bs (data ++ Mem.bytesAt buf 0 size) s'.ino) (fun _ _ => False) s := by
  have hoffset : (if s.ino.size ≤ data.length then s.ino.size else data.length) = data.length := by
    rw [h.size, if_pos le_rfl]
  simp only [Inode.write, wp_bind, wp_get, wp_onInode, wp_pure, hoffset, u64_of_lt hsum]
  refine wp_mono (wp_and (wp_recordCacheWrite_append hbs h buf hpos hsum)
    (wp_recordCacheWrite buf data.length size)) ?_ (fun _ _ hf => hf.1)
  rintro _ t ⟨⟨hsize, ⟨blocks, hfilled, hbytes⟩, hdirty⟩, hwrites, _⟩
  have hlength : (data ++ Mem.bytesAt buf 0 size).length = data.length + size := by simp
  rw [hsize, if_pos (by omega)]
  refine ⟨hwrites.file.blockSize.trans h.blockSize, hlength.symm, ⟨blocks, ?_, hbytes⟩, ?_⟩
  · rw [hlength]
    exact ⟨hfilled.lengths, hfilled.room, hfilled.cached, hfilled.blocks, hfilled.bmRecordname,
      hfilled.bm⟩
  · rw [hlength]
    exact hdirty

/-- A flush sends all blocks of the session. -/
theorem Appended.dirtyDescs {ino : Inode} (h : Appended bs data ino) (hpos : 0 < data.length) :
    ino.dirtyDescs P = (List.range (data.length / bs + 1)).map (ino.dirtyDesc P) := by
  obtain ⟨blocks, hfilled, -⟩ := h.filled
  have hcount := blockCount_pos bs hpos
  have hroom : ino.dcacheStats.length = data.length / bs + 1 := by
    rw [hfilled.room, hcount]
    exact Nat.max_eq_left (Nat.succ_le_succ (Nat.zero_le _))
  have hall : ino.dirtyBlocks = List.range (data.length / bs + 1) := by
    rw [Inode.dirtyBlocks, hroom, List.filter_eq_self]
    intro blk hblk
    apply h.dirty
    rw [hcount]
    exact List.mem_range.mp hblk
  rw [Inode.dirtyDescs, hall]

theorem Appended.allocated {ino : Inode} (h : Appended bs data ino) (hpos : 0 < data.length)
    {blk : Nat} (hdirty : ino.isDirty blk = true) : (ino.dcacheBlocks[blk]?).join ≠ none := by
  obtain ⟨blocks, hfilled, -⟩ := h.filled
  have hone : 1 ≤ blockCount bs data.length := by
    rw [blockCount_pos bs hpos]
    exact Nat.succ_le_succ (Nat.zero_le _)
  have hroom := hfilled.room
  have hlt : blk < ino.dcacheStats.length := by
    by_contra hge
    rw [Inode.isDirty, List.getElem?_eq_none (by omega)] at hdirty
    cases hdirty
  rw [hfilled.blocks blk (by omega), Option.join_some]
  exact Option.some_ne_none _

theorem Appended.blockAt {ino : Inode} (h : Appended bs data ino) {pos : Nat} {byte : UInt8}
    (hbyte : data[pos]? = some byte) : ino.blockAt P (pos / bs) (pos % bs) = byte := by
  obtain ⟨blocks, hfilled, hbytes⟩ := h.filled
  have hin := (List.getElem?_eq_some_iff.mp hbyte).1
  have hdiv : pos / bs ≤ data.length / bs := Nat.div_le_div_right (by omega)
  have hblock := hfilled.blocks (pos / bs) (by rw [blockCount_pos bs (by omega)]; omega)
  have hat : ino.blockAt P (pos / bs) = blocks (pos / bs) := by
    rw [Inode.blockAt, hblock]
    rfl
  rw [hat]
  exact hbytes pos byte hbyte

end Append

end DcfsClient
