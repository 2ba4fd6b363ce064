import DcfsClient.CacheContents
import DcfsClient.Reference

/-!
# Reading and writing the content of a file

What `RecordCache::Read` and `Write` and their wrappers in `Inode` do to the logical content. Both
copy the pieces of the request. The pieces of a request that crosses into another block are one byte
longer than the request, so such a write replaces the byte behind its range by whatever lies behind
the caller's buffer, and such a read writes one byte behind the caller's buffer. A read is not hurt
by this within its range, and neither is reading back what was written.

`Inode::Write` moves a write that starts beyond the end of the file to its end. `Session.Addressable`
is what the copy relies on: after `fillDcache` its blocks are in the vectors and loaded.
-/

namespace DcfsClient

open Backend

section Inversion

variable {P : Platform} {s u : Session} {buf : Mem} {offset size : Nat}

/-- A write that returns has filled the cache and copied its pieces. -/
theorem write_eq_ok (h : RecordCache.write P buf offset size s = .ok () u) :
    0 < size ∧ ∃ t, RecordCache.fillDcache P offset size s = .ok () t ∧
      RecordCache.writePieces buf 0 (copyPieces s.ino.blockSize offset size) t = .ok () u := by
  unfold RecordCache.write at h
  obtain ⟨_, s₀, hcheck, h⟩ := Exec.bind_eq_ok h
  obtain ⟨hsize, rfl⟩ := Exec.check_eq_ok hcheck
  obtain ⟨_, _, hget, h⟩ := Exec.bind_eq_ok h
  cases hget
  obtain ⟨ret, t, hret, h⟩ := Exec.bind_eq_ok h
  obtain ⟨_, u', hpieces, h⟩ := Exec.bind_eq_ok h
  -- the result of the fill is returned only now
  rcases Exec.attempt_eq_ok hret with ⟨a, rfl, hfill⟩ | ⟨e, rfl, -⟩
  · cases h
    exact ⟨of_decide_eq_true hsize, t, hfill, hpieces⟩
  · cases h

/-- A read that returns has filled the cache and copied its pieces. -/
theorem read_eq_ok {out : Mem} (h : RecordCache.read P buf offset size s = .ok out u) :
    0 < size ∧ ∃ t, RecordCache.fillDcache P offset size s = .ok () t ∧
      RecordCache.readPieces buf 0 (copyPieces s.ino.blockSize offset size) t = .ok out u := by
  unfold RecordCache.read at h
  obtain ⟨_, s₀, hcheck, h⟩ := Exec.bind_eq_ok h
  obtain ⟨hsize, rfl⟩ := Exec.check_eq_ok hcheck
  obtain ⟨_, _, hget, h⟩ := Exec.bind_eq_ok h
  cases hget
  obtain ⟨_, t, hfill, hpieces⟩ := Exec.bind_eq_ok h
  exact ⟨of_decide_eq_true hsize, t, hfill, hpieces⟩

end Inversion

/-! ## Writing -/

/-- The write returns, the bytes of its range are those of the buffer, and all other bytes of the file
are what they were. -/
def Replaces (P : Platform) (s : Session) (buf : Mem) (offset size : Nat) : Prop :=
  ∃ u, RecordCache.write P buf offset size s = .ok () u ∧ ∀ pos, u.content P pos =
    if offset ≤ pos ∧ pos < offset + size then some (buf (pos - offset)) else s.content P pos

section Write

variable {P : Platform} {s t : Session} {offset size : Nat}

/-- The pieces of a request that does not wrap lie in blocks that the fill has cached. -/
theorem cached_of_piece (halloc : s.ino.Allocated) (hsum : offset + size < 2 ^ 64)
    (hfill : RecordCache.fillDcache P offset size s = .ok () t) :
    ∀ p ∈ copyPieces s.ino.blockSize offset size, t.ino.isCached p.block = true := by
  obtain ⟨-, hcached, -, -⟩ := Exec.wp_ok (wp_fillDcache_filled halloc offset size) hfill
  intro p hp
  obtain ⟨hst, hed⟩ := block_of_mem_copyPieces hsum hp
  exact (hcached p.block).mpr (Or.inr ⟨(Nat.min_le_left _ _).trans hst, hed⟩)

/-- The content after a write: one byte too many is replaced if the request crosses into another
block. -/
theorem write_content (halloc : s.ino.Allocated) (hbs : 0 < s.ino.blockSize)
    (hsum : offset + size < 2 ^ 64) (hfill : RecordCache.fillDcache P offset size s = .ok () t)
    {u : Session} {buf : Mem}
    (hwrote : t.Wrote P buf 0 (copyPieces s.ino.blockSize offset size) u) (pos : Nat) :
    u.content P pos =
      if offset ≤ pos ∧ pos < offset + span (copyPieces s.ino.blockSize offset size) then
        some (buf (pos - offset)) else s.content P pos := by
  obtain ⟨hfilled, -, -, -⟩ := Exec.wp_ok (wp_fillDcache_filled halloc offset size) hfill
  have hbs' : 0 < t.ino.blockSize := by
    rw [hfilled.file.blockSize]
    exact hbs
  have htiles : Tiles t.ino.blockSize offset (copyPieces s.ino.blockSize offset size) := by
    rw [hfilled.file.blockSize]
    exact (tiles_copyPieces hbs hsum).1
  rw [hwrote.content_tiles (hfilled.allocated halloc) (cached_of_piece halloc hsum hfill) hbs' htiles,
    hfilled.content, Nat.zero_add]

/-- With the cache filled, a write returns. -/
theorem write_returns (halloc : s.ino.Allocated) (hbs : 0 < s.ino.blockSize) (hsize : 0 < size)
    (hsum : offset + size < 2 ^ 64) (hfill : RecordCache.fillDcache P offset size s = .ok () t)
    (buf : Mem) : ∃ u, RecordCache.write P buf offset size s = .ok () u ∧
      t.Wrote P buf 0 (copyPieces s.ino.blockSize offset size) u := by
  obtain ⟨hfilled, -, -, -⟩ := Exec.wp_ok (wp_fillDcache_filled halloc offset size) hfill
  have halloc' := hfilled.allocated halloc
  have hcached := cached_of_piece halloc hsum hfill
  have hpieces : ∀ p ∈ copyPieces s.ino.blockSize offset size,
      (t.ino.dcacheBlocks[p.block]?).join ≠ none ∧ p.off + p.len ≤ t.ino.blockSize + aesPadLen := by
    intro p hp
    obtain ⟨m, hm⟩ := halloc'.alloc p.block (hcached p hp)
    have hfits := (tiles_copyPieces hbs hsum).1.fits p hp
    rw [hm, hfilled.file.blockSize]
    exact ⟨by simp, by omega⟩
  have hwp : Exec.wp (RecordCache.write P buf offset size)
      (fun _ u => t.Wrote P buf 0 (copyPieces s.ino.blockSize offset size) u)
      (fun _ _ => False) s := by
    simp only [RecordCache.write, Exec.wp_bind, Exec.wp_check, Exec.wp_get, Exec.wp_attempt,
      decide_eq_true_eq, decide_eq_false_iff_not, Exec.wp_of_ok hfill, Exec.wp_pure]
    refine ⟨fun _ => ?_, fun hnot => hnot hsize⟩
    apply Exec.wp_mono (wp_writePieces_wrote halloc'.lengths buf 0 _)
    · intro _ u hu
      exact hu.1
    · intro x u hu
      exact hu.2 hpieces
  obtain ⟨_, u, hu, hwrote⟩ := Exec.exists_ok hwp
  exact ⟨u, hu, hwrote⟩

/-- A write that crosses into another block replaces the byte behind its range, too. -/
theorem not_replaces_of_crossing (halloc : s.ino.Allocated) (hbs : 0 < s.ino.blockSize) {data : Bytes}
    (hsize : 0 < data.length) (hsum : offset + data.length < 2 ^ 64)
    (hfill : RecordCache.fillDcache P offset data.length s = .ok () t)
    (hne : offset / s.ino.blockSize ≠ (offset + data.length) / s.ino.blockSize) :
    ∃ behind, ¬ Replaces P s (Mem.place behind data) offset data.length := by
  obtain ⟨hfilled, hcached, -, -⟩ := Exec.wp_ok (wp_fillDcache_filled halloc offset data.length) hfill
  -- the block of the byte behind the range is cached, so that byte has a value
  have hin : t.ino.isCached ((offset + data.length) / s.ino.blockSize) = true :=
    (hcached _).mpr (Or.inr ⟨(Nat.min_le_left _ _).trans (Nat.div_le_div_right (by omega)),
      by rw [u64_of_lt hsum]⟩)
  obtain ⟨m, hm⟩ := (hfilled.allocated halloc).alloc _ hin
  have hold : s.content P (offset + data.length) =
      some (m ((offset + data.length) % s.ino.blockSize)) := by
    unfold Session.content
    rw [← hfilled.blockNow, blockNow_of_cached hin (by rw [hm]; rfl)]
    rfl
  generalize m ((offset + data.length) % s.ino.blockSize) = old at hold
  refine ⟨fun _ => old + 1, ?_⟩
  rintro ⟨u, hu, hcontent⟩
  obtain ⟨u', hu', hwrote⟩ := write_returns halloc hbs hsize hsum hfill
    (Mem.place (fun _ => old + 1) data)
  rw [hu] at hu'
  cases hu'
  have hnew := write_content halloc hbs hsum hfill hwrote (offset + data.length)
  rw [hcontent, if_neg (by omega), hold, span_of_not_wrap hbs hsum, if_neg hne, if_pos (by omega),
    Nat.add_sub_cancel_left, Option.some.injEq] at hnew
  have hbehind : Mem.place (fun _ => old + 1) data data.length = old + 1 := by simp [Mem.place]
  rw [hbehind] at hnew
  exact absurd hnew (by simp)

/-- When the cache can be filled, a write of a buffer replaces its range and nothing else, whatever
lies behind the buffer, exactly if the byte behind the range is in the block where it starts. -/
theorem write_replaces_iff (P : Platform) (s : Session) (halloc : s.ino.Allocated)
    (hbs : 0 < s.ino.blockSize) (data : Bytes) (offset : Nat) (hsize : 0 < data.length)
    (hsum : offset + data.length < 2 ^ 64)
    (hfill : ∃ t, RecordCache.fillDcache P offset data.length s = .ok () t) :
    (∀ behind, Replaces P s (Mem.place behind data) offset data.length) ↔
      offset / s.ino.blockSize = (offset + data.length) / s.ino.blockSize := by
  obtain ⟨t, hfill⟩ := hfill
  constructor
  · intro h
    by_contra hne
    obtain ⟨behind, hnot⟩ := not_replaces_of_crossing halloc hbs hsize hsum hfill hne
    exact hnot (h behind)
  · intro heq behind
    obtain ⟨u, hu, hwrote⟩ := write_returns halloc hbs hsize hsum hfill (Mem.place behind data)
    refine ⟨u, hu, ?_⟩
    intro pos
    rw [write_content halloc hbs hsum hfill hwrote, span_of_not_wrap hbs hsum, if_pos heq]

/-- A file of 2000 zeros with blocks of one kilobyte, just opened. -/
def zerosFile : Session := ⟨Inode.load [] [] [] 1 blockmapCover 2000 Reference.zeroKey, {}⟩

theorem zerosFile_allocated : zerosFile.ino.Allocated :=
  (Inode.tidy_load [] [] [] 1 blockmapCover 2000 Reference.zeroKey).toAllocated

theorem write_replaces_iff_zerosFile :
    (∀ behind, Replaces Reference.platform zerosFile (Mem.place behind [1, 2, 3]) 1000 3) ↔
      1000 / 1024 = (1000 + 3) / 1024 := by
  have hfill := Exec.exists_of_returns (by decide :
    Exec.returns (RecordCache.fillDcache Reference.platform 1000 3) zerosFile = true)
  obtain ⟨_, t, ht⟩ := hfill
  exact write_replaces_iff Reference.platform zerosFile zerosFile_allocated (by decide) [1, 2, 3] 1000
    (by decide) (by decide) ⟨t, ht⟩

/-- Three bytes that end at the end of the first block. -/
theorem not_replaces_zerosFile : 1021 ≤ zerosFile.ino.size ∧
    (∃ t, RecordCache.fillDcache Reference.platform 1021 3 zerosFile = .ok () t) ∧
      ∃ behind, ¬ Replaces Reference.platform zerosFile (Mem.place behind [1, 2, 3]) 1021 3 := by
  have hfill := Exec.exists_of_returns (by decide :
    Exec.returns (RecordCache.fillDcache Reference.platform 1021 3) zerosFile = true)
  obtain ⟨_, t, ht⟩ := hfill
  exact ⟨by decide, ⟨t, ht⟩, not_replaces_of_crossing zerosFile_allocated (by decide) (by decide)
    (by decide) ht (by decide)⟩

end Write

/-! ## What the copy relies on -/

/-- The request can be copied: its blocks are in the vectors and loaded. What was cached before is as it
was, and no dirty flag has changed. -/
structure Session.Addressable (s : Session) (offset size : Nat) (t : Session) : Prop where
  lengths : t.ino.dcacheBlocks.length = t.ino.dcacheStats.length
  covers : (offset + size) / s.ino.blockSize < t.ino.dcacheStats.length
  loaded : ∀ blk, min (offset / s.ino.blockSize) s.ino.dcacheStats.length ≤ blk →
    blk ≤ (offset + size) / s.ino.blockSize →
    t.ino.isCached blk = true ∧ ∃ m, t.ino.dcacheBlocks[blk]? = some (some m)
  kept : ∀ blk, s.ino.isCached blk = true → t.ino.dcacheBlocks[blk]? = s.ino.dcacheBlocks[blk]? ∧
    t.ino.dcacheStats[blk]? = s.ino.dcacheStats[blk]?
  dirty : ∀ blk, t.ino.isDirty blk = s.ino.isDirty blk
  pieces : ∀ p ∈ copyPieces s.ino.blockSize offset size, p.block < t.ino.dcacheStats.length ∧
    t.ino.isCached p.block = true ∧ ∃ m, t.ino.dcacheBlocks[p.block]? = some (some m)

section Addressable

variable {P : Platform} {s t : Session}

/-- A block that was cached before the fill is the same block with the same flags. -/
theorem Session.Filled.kept (hfilled : s.Filled P t) (halloc : s.ino.Allocated) {blk : Nat}
    (hc : s.ino.isCached blk = true) : t.ino.dcacheBlocks[blk]? = s.ino.dcacheBlocks[blk]? ∧
      t.ino.dcacheStats[blk]? = s.ino.dcacheStats[blk]? := by
  have hc' := hfilled.cached blk hc
  obtain ⟨m, hm⟩ := halloc.alloc blk hc
  obtain ⟨m', hm'⟩ := (hfilled.allocated halloc).alloc blk hc'
  obtain ⟨stat, hstat, hcached⟩ := isCached_iff.mp hc
  obtain ⟨stat', hstat', hcached'⟩ := isCached_iff.mp hc'
  constructor
  · have hnow := hfilled.blockNow blk
    rw [blockNow_of_cached hc (by rw [hm]; rfl), blockNow_of_cached hc' (by rw [hm']; rfl)] at hnow
    rw [hm, hm', hnow]
  · have hdirty := hfilled.dirty blk
    unfold Inode.isDirty at hdirty
    rw [hstat, hstat', Option.any_some, Option.any_some] at hdirty
    rw [hstat, hstat']
    cases stat
    cases stat'
    simp_all

/-- However far behind the vectors the request lies, a fill that returns has made it addressable. -/
theorem fillDcache_addressable (P : Platform) (s t : Session) (halloc : s.ino.Allocated)
    (offset size : Nat) (hsum : offset + size < 2 ^ 64)
    (hfill : RecordCache.fillDcache P offset size s = .ok () t) : s.Addressable offset size t := by
  obtain ⟨hfilled, hcached, -, -⟩ := Exec.wp_ok (wp_fillDcache_filled halloc offset size) hfill
  have halloc' := hfilled.allocated halloc
  have hloaded : ∀ blk, min (offset / s.ino.blockSize) s.ino.dcacheStats.length ≤ blk →
      blk ≤ (offset + size) / s.ino.blockSize → t.ino.isCached blk = true := by
    intro blk hst hed
    rw [← u64_of_lt hsum] at hed
    exact (hcached blk).mpr (Or.inr ⟨hst, hed⟩)
  have hst : min (offset / s.ino.blockSize) s.ino.dcacheStats.length ≤
      (offset + size) / s.ino.blockSize :=
    (Nat.min_le_left _ _).trans (Nat.div_le_div_right (Nat.le_add_right offset size))
  refine ⟨halloc'.lengths, lt_of_isCached (hloaded _ hst le_rfl), ?_, ?_, hfilled.dirty, ?_⟩
  · intro blk hst hed
    have hc := hloaded blk hst hed
    exact ⟨hc, halloc'.alloc blk hc⟩
  · intro blk hc
    exact hfilled.kept halloc hc
  · intro p hp
    have hc := cached_of_piece halloc hsum hfill p hp
    exact ⟨lt_of_isCached hc, hc, halloc'.alloc p.block hc⟩

/-- Ten bytes three blocks behind the vectors of the file. -/
theorem fillDcache_addressable_zerosFile : zerosFile.ino.dcacheStats.length = 2 ∧
    ∃ t, RecordCache.fillDcache Reference.platform 5115 10 zerosFile = .ok () t ∧
      zerosFile.Addressable 5115 10 t := by
  have hfill := Exec.exists_of_returns (by decide :
    Exec.returns (RecordCache.fillDcache Reference.platform 5115 10) zerosFile = true)
  obtain ⟨_, t, ht⟩ := hfill
  exact ⟨by decide, t, ht, fillDcache_addressable Reference.platform zerosFile t
    zerosFile_allocated 5115 10 (by decide) ht⟩

end Addressable

/-! ## Reading -/

section Read

variable {P : Platform} {s u : Session} {buf out : Mem} {offset size : Nat}

/-- A read fills the cache and returns the content of its range. -/
theorem read_content (halloc : s.ino.Allocated) (hbs : 0 < s.ino.blockSize)
    (hsum : offset + size < 2 ^ 64) (h : RecordCache.read P buf offset size s = .ok out u) :
    s.Filled P u ∧ ∀ i, i < size → s.content P (offset + i) = some (out i) := by
  obtain ⟨-, t, hfill, hpieces⟩ := read_eq_ok h
  obtain ⟨hfilled, -, -, -⟩ := Exec.wp_ok (wp_fillDcache_filled halloc offset size) hfill
  have hcached := cached_of_piece halloc hsum hfill
  have hat : ∀ blk, t.ino.isCached blk = true →
      t.ino.dcacheBlocks[blk]? = some (some (t.ino.blockAt P blk)) := by
    intro blk hc
    obtain ⟨m, hm⟩ := (hfilled.allocated halloc).alloc blk hc
    have hjoin : (t.ino.dcacheBlocks[blk]?).join = some m := by
      rw [hm]
      rfl
    rw [hm, blockAt_eq_some hjoin]
  have hcopy := Exec.wp_ok (wp_readPieces (t.ino.blockAt P) _ buf 0
    (fun p hp => hat p.block (hcached p hp))) hpieces
  obtain ⟨hout, rfl, -⟩ := hcopy
  refine ⟨hfilled, ?_⟩
  intro i hi
  obtain ⟨htiles, hspan⟩ := tiles_copyPieces hbs hsum
  have hlt : i < span (copyPieces s.ino.blockSize offset size) := by omega
  have hbyte := (copyOut_tiles htiles (u.ino.blockAt P) buf 0).1 i hlt
  rw [Nat.zero_add, ← hout] at hbyte
  obtain ⟨p, hp, hblk⟩ := htiles.exists_block (Nat.le_add_right offset i) (by omega)
  have hc : u.ino.isCached ((offset + i) / s.ino.blockSize) = true := by
    rw [← hblk]
    exact hcached p hp
  rw [hbyte, ← hfilled.content]
  unfold Session.content
  rw [hfilled.file.blockSize, blockNow_of_cached hc (by rw [hat _ hc]; rfl)]
  rfl

/-- `Inode::Read` on a range that starts within the file. -/
theorem inode_read_eq_ok {readSize : Option Nat} (hoff : offset < s.ino.size)
    (hsum : offset + size < 2 ^ 64) (h : Inode.read P buf offset size s = .ok (out, readSize) u) :
    readSize = some (min size (s.ino.size - offset)) ∧
      RecordCache.read P buf offset (min size (s.ino.size - offset)) s = .ok out u := by
  have hmin : (if s.ino.size < u64 (offset + size) then s.ino.size - offset else size) =
      min size (s.ino.size - offset) := by
    rw [u64_of_lt hsum]
    split <;> omega
  unfold Inode.read at h
  obtain ⟨_, _, hget, h⟩ := Exec.bind_eq_ok h
  cases hget
  rw [if_neg (not_le.mpr hoff), hmin] at h
  obtain ⟨out', t, hread, h⟩ := Exec.bind_eq_ok h
  cases h
  exact ⟨rfl, hread⟩

end Read

/-- Whatever is cached: a read that returns has read the content of the file, up to its end, and has
changed neither the content nor the dirty flags nor the size. -/
theorem inode_read_content (P : Platform) (s : Session) (halloc : s.ino.Allocated)
    (hbs : 0 < s.ino.blockSize) (buf : Mem) (offset size : Nat) (hoff : offset < s.ino.size)
    (hsum : offset + size < 2 ^ 64) (out : Mem) (readSize : Option Nat) (u : Session)
    (h : Inode.read P buf offset size s = .ok (out, readSize) u) :
    readSize = some (min size (s.ino.size - offset)) ∧
      (∀ i, i < min size (s.ino.size - offset) → s.content P (offset + i) = some (out i)) ∧
      (∀ pos, u.content P pos = s.content P pos) ∧
      (∀ blk, u.ino.isDirty blk = s.ino.isDirty blk) ∧ u.ino.size = s.ino.size := by
  obtain ⟨hsize, hread⟩ := inode_read_eq_ok hoff hsum h
  obtain ⟨hfilled, hbytes⟩ := read_content halloc hbs (by omega) hread
  exact ⟨hsize, hbytes, hfilled.content, hfilled.dirty, hfilled.size⟩

def changedFile : Session where
  ino := { zerosFile.ino with
    dcacheStats := [⟨true, true⟩, {}]
    dcacheBlocks := [some fun i => UInt8.ofNat i, none] }
  be := {}

theorem changedFile_allocated : changedFile.ino.Allocated := by
  refine ⟨rfl, ?_⟩
  intro blk hc
  have hlt := lt_of_isCached hc
  change blk < 2 at hlt
  interval_cases blk
  · exact ⟨_, rfl⟩
  · cases hc

/-- A read across the end of the changed block. -/
theorem inode_read_content_changedFile : ∃ out u,
    Inode.read Reference.platform (fun _ => 0) 1000 100 changedFile = .ok (out, some 100) u ∧
      ∀ i, i < 100 → changedFile.content Reference.platform (1000 + i) = some (out i) := by
  have hread := Exec.exists_of_returns (by decide : Exec.returns
    (Inode.read Reference.platform (fun _ => 0) 1000 100) changedFile = true)
  obtain ⟨⟨out, readSize⟩, u, hu⟩ := hread
  obtain ⟨hsize, hbytes, -⟩ := inode_read_content Reference.platform changedFile changedFile_allocated
    (by decide) (fun _ => 0) 1000 100 (by decide) (by decide) out readSize u hu
  have hmin : min 100 (changedFile.ino.size - 1000) = 100 := by decide
  rw [hsize, hmin] at hu
  rw [hmin] at hbytes
  exact ⟨out, u, hu, hbytes⟩

/-! ## Reading back -/

section ReadBack

variable {P : Platform} {s u : Session} {buf : Mem} {offset size n : Nat}

/-- Where `Inode::Write` starts. -/
theorem start_eq_min (size offset : Nat) :
    (if size ≤ offset then size else offset) = min offset size := by
  rw [min_comm, min_def]

theorem inode_write_eq_ok (hsum : min offset s.ino.size + size < 2 ^ 64)
    (h : Inode.write P buf offset size s = .ok n u) :
    n = size ∧ ∃ t, RecordCache.write P buf (min offset s.ino.size) size s = .ok () t ∧
      u = { t with ino := { t.ino with
        size := max t.ino.size (min offset s.ino.size + size) } } := by
  unfold Inode.write at h
  obtain ⟨_, _, hget, h⟩ := Exec.bind_eq_ok h
  cases hget
  dsimp only at h
  rw [start_eq_min, u64_of_lt hsum] at h
  obtain ⟨_, t, hwrite, h⟩ := Exec.bind_eq_ok h
  obtain ⟨_, u', hgrow, h⟩ := Exec.bind_eq_ok h
  cases hgrow
  cases h
  refine ⟨rfl, t, hwrite, ?_⟩
  dsimp only
  split
  · rename_i hlt
    rw [max_eq_right hlt.le]
  · rename_i hge
    rw [max_eq_left (not_lt.mp hge)]

/-- What a write of `Inode` leaves: the size covers its range, whose bytes are those of the buffer. -/
theorem inode_write_content (halloc : s.ino.Allocated) (hbs : 0 < s.ino.blockSize)
    (hsum : min offset s.ino.size + size < 2 ^ 64)
    (h : Inode.write P buf offset size s = .ok n u) :
    u.ino.Allocated ∧ u.ino.blockSize = s.ino.blockSize ∧
      u.ino.size = max s.ino.size (min offset s.ino.size + size) ∧
      ∀ i, i < size → u.content P (min offset s.ino.size + i) = some (buf i) := by
  obtain ⟨-, t, hrun, rfl⟩ := inode_write_eq_ok hsum h
  obtain ⟨-, t₀, hfill, hpieces⟩ := write_eq_ok hrun
  obtain ⟨hfilled, -, -, -⟩ := Exec.wp_ok (wp_fillDcache_filled halloc _ size) hfill
  have halloc₀ := hfilled.allocated halloc
  obtain ⟨hwrote, -⟩ := Exec.wp_ok (wp_writePieces_wrote (P := P) halloc₀.lengths buf 0 _) hpieces
  refine ⟨(hwrote.allocated halloc₀).resize _,
    hwrote.file.blockSize.trans hfilled.file.blockSize, ?_, ?_⟩
  · have hsame : t.ino.size = s.ino.size := hwrote.size.trans hfilled.size
    rw [← hsame]
  · intro i hi
    change t.content P (min offset s.ino.size + i) = some (buf i)
    have hspan := (tiles_copyPieces hbs hsum).2
    rw [write_content halloc hbs hsum hfill hwrote, if_pos (by omega), Nat.add_sub_cancel_left]

end ReadBack

/-- A write gives the file its size, and what it put into the file is read back from where it starts:
from its offset, or from the old end of the file if its offset lies beyond it. -/
theorem inode_write_read_back (P : Platform) (s : Session) (halloc : s.ino.Allocated)
    (hbs : 0 < s.ino.blockSize) (buf : Mem) (offset size : Nat)
    (hsum : min offset s.ino.size + size < 2 ^ 64) (n : Nat) (u : Session)
    (hwrite : Inode.write P buf offset size s = .ok n u) :
    u.ino.size = max s.ino.size (min offset s.ino.size + size) ∧
      ∀ (buf' out : Mem) (readSize : Option Nat) (v : Session),
        Inode.read P buf' (min offset s.ino.size) size u = .ok (out, readSize) v →
          readSize = some size ∧ ∀ i, i < size → out i = buf i := by
  obtain ⟨hallocu, hbsu, hsize, hcontent⟩ := inode_write_content halloc hbs hsum hwrite
  refine ⟨hsize, ?_⟩
  intro buf' out readSize v hread
  obtain ⟨-, t, hrun, -⟩ := inode_write_eq_ok hsum hwrite
  have hpos : 0 < size := (write_eq_ok hrun).1
  have hend : min offset s.ino.size + size ≤ u.ino.size := by
    rw [hsize]
    exact le_max_right _ _
  have hmin : min size (u.ino.size - min offset s.ino.size) = size := by omega
  obtain ⟨hreadSize, hbytes⟩ := inode_read_eq_ok (by omega) hsum hread
  rw [hmin] at hreadSize hbytes
  obtain ⟨-, hback⟩ := read_content hallocu (by rw [hbsu]; exact hbs) hsum hbytes
  refine ⟨hreadSize, ?_⟩
  intro i hi
  have hnow := hback i hi
  rw [hcontent i hi, Option.some.injEq] at hnow
  exact hnow.symm

/-- Three bytes across the end of the first block. -/
theorem inode_write_read_back_zerosFile : ∃ u out v,
    Inode.write Reference.platform (Mem.place (fun _ => 0) [1, 2, 3]) 1023 3 zerosFile = .ok 3 u ∧
      u.ino.size = 2000 ∧ Inode.read Reference.platform (fun _ => 0) 1023 3 u = .ok (out, some 3) v ∧
      ∀ i, i < 3 → out i = Mem.place (fun _ => 0) [1, 2, 3] i := by
  obtain ⟨u, ⟨out, readSize⟩, v, hwrite, hread⟩ : ∃ u r v,
      Inode.write Reference.platform (Mem.place (fun _ => 0) [1, 2, 3]) 1023 3 zerosFile = .ok 3 u ∧
      Inode.read Reference.platform (fun _ => 0) 1023 3 u = .ok r v := ⟨_, _, _, rfl, rfl⟩
  have hmin : min 1023 zerosFile.ino.size = 1023 := by decide
  obtain ⟨hgrown, hback⟩ := inode_write_read_back Reference.platform zerosFile zerosFile_allocated
    (by decide) _ 1023 3 (by decide) 3 u hwrite
  obtain ⟨hsize, hbytes⟩ := hback (fun _ => 0) out readSize v (by rw [hmin]; exact hread)
  rw [hsize] at hread
  exact ⟨u, out, v, hwrite, hgrown.trans (by decide), hread, hbytes⟩

/-- A byte that was written at offset 10 of an empty file. -/
theorem inode_write_beyond_end : ∃ u v,
    Inode.write Reference.platform (fun _ => 9) 10 1 ⟨Inode.fresh [] 1 blockmapCover [], {}⟩ =
      .ok 1 u ∧
    Inode.read Reference.platform (fun _ => 0) 10 1 u = .ok (fun _ => 0, none) v ∧
    u.ino.size = 1 := by
  refine ⟨_, _, rfl, rfl, rfl⟩

/-! ## The caller's buffer -/

/-- A request stays within the caller's buffer: as many bytes are copied as it asks for, a read leaves
the memory behind them alone, and what a write does does not depend on that memory. -/
structure WithinBuffer (blockSize offset size : Nat) : Prop where
  lengths : ((copyPieces blockSize offset size).map Piece.len).sum = size
  read : ∀ (P : Platform) (s : Session) (buf out : Mem) (u : Session), s.ino.blockSize = blockSize →
    RecordCache.read P buf offset size s = .ok out u → ∀ i, size ≤ i → out i = buf i
  write : ∀ (P : Platform) (s : Session) (buf buf' : Mem), s.ino.blockSize = blockSize →
    (∀ i, i < size → buf i = buf' i) →
      RecordCache.write P buf offset size s = RecordCache.write P buf' offset size s

theorem wp_readPieces_behind (s : Session) (buf : Mem) (cur : Nat) (ps : List Piece) :
    Exec.wp (RecordCache.readPieces buf cur ps)
      (fun out _ => ∀ i, cur + span ps ≤ i → out i = buf i) (fun _ _ => True) s := by
  induction ps generalizing buf cur with
  | nil =>
      intro i _
      rfl
  | cons p ps ih =>
      simp only [RecordCache.readPieces, RecordCache.blockOf, Exec.wp_bind, Exec.wp_get,
        Exec.wp_orAbort, Exec.wp_check, Exec.wp_pure, span_cons]
      refine ⟨fun m _ => ⟨fun _ => ?_, fun _ => trivial⟩, fun _ => trivial⟩
      apply Exec.wp_mono (ih (Mem.memcpy buf cur m p.off p.len) (cur + p.len))
      · intro out _ hout i hi
        rw [hout i (by omega), Mem.memcpy_outside (by omega)]
      · intro _ _ _
        trivial

theorem writePieces_congr {buf buf' : Mem} (cur : Nat) (ps : List Piece)
    (h : ∀ i, cur ≤ i → i < cur + span ps → buf i = buf' i) :
    RecordCache.writePieces buf cur ps = RecordCache.writePieces buf' cur ps := by
  induction ps generalizing cur with
  | nil => rfl
  | cons p ps ih =>
      rw [span_cons] at h
      have hcopy : ∀ m : Mem, Mem.memcpy m p.off buf cur p.len = Mem.memcpy m p.off buf' cur p.len := by
        intro m
        funext i
        unfold Mem.memcpy
        split
        · exact h _ (by omega) (by omega)
        · rfl
      have hrest := ih (cur + p.len) fun i h₁ h₂ => h i (by omega) (by omega)
      simp only [RecordCache.writePieces, hcopy, hrest]

/-- A request that crosses into another block asks for fewer bytes than it copies, also if its end
wraps around: the block size is even. -/
theorem span_ne_of_crossing {kb offset size : Nat} (hkb : 0 < kb) (hoff : offset < 2 ^ 64)
    (hsize : size < 2 ^ 64)
    (hne : offset / (kb * 1024) ≠ u64 (offset + size) / (kb * 1024)) :
    span (copyPieces (kb * 1024) offset size) ≠ size := by
  have hbs : 0 < kb * 1024 := by omega
  by_cases hsum : offset + size < 2 ^ 64
  · rw [u64_of_lt hsum] at hne
    rw [span_of_not_wrap hbs hsum, if_neg hne]
    omega
  · rw [span_copyPieces, if_neg hne]
    have hwrap : u64 (offset + size) = offset + size - 2 ^ 64 := by
      unfold u64
      omega
    have hst := Nat.div_add_mod offset (kb * 1024)
    have hed := Nat.div_add_mod (u64 (offset + size)) (kb * 1024)
    have hstlt := Nat.mod_lt offset hbs
    have hle : u64 (offset + size) / (kb * 1024) ≤ offset / (kb * 1024) :=
      Nat.div_le_div_right (by omega)
    rw [hwrap] at hed hne hle ⊢
    generalize offset / (kb * 1024) = st at *
    generalize (offset + size - 2 ^ 64) / (kb * 1024) = ed at *
    have hzero : ed - (st + 1) = 0 := by omega
    have heven : ∀ k, kb * 1024 * k = 2 * (kb * 512 * k) := by
      intro k
      ring
    have hst' := heven st
    have hed' := heven ed
    intro hspan
    rw [hzero, Nat.zero_mul] at hspan
    omega

/-- Exactly the requests that end in the block where they start stay within the caller's buffer. -/
theorem within_buffer_iff (kb : Nat) (hkb : 0 < kb) (offset size : Nat) (hoff : offset < 2 ^ 64)
    (hsize : size < 2 ^ 64) :
    WithinBuffer (kb * 1024) offset size ↔
      offset / (kb * 1024) = u64 (offset + size) / (kb * 1024) := by
  constructor
  · intro h
    by_contra hne
    exact span_ne_of_crossing hkb hoff hsize hne h.lengths
  · intro heq
    have hspan : span (copyPieces (kb * 1024) offset size) = size := by
      rw [span_copyPieces, if_pos heq]
    refine ⟨hspan, ?_, ?_⟩
    · intro P s buf out u hbs h i hi
      obtain ⟨-, t, -, hpieces⟩ := read_eq_ok h
      have hbehind := Exec.wp_ok (wp_readPieces_behind t buf 0 _) hpieces
      rw [hbs, Nat.zero_add, hspan] at hbehind
      exact hbehind i hi
    · intro P s buf buf' hbs h
      have hcongr : RecordCache.writePieces buf 0 (copyPieces (kb * 1024) offset size) =
          RecordCache.writePieces buf' 0 (copyPieces (kb * 1024) offset size) := by
        apply writePieces_congr
        intro i _ hi
        rw [hspan] at hi
        exact h i (by omega)
      unfold RecordCache.write
      cases decide (0 < size) with
      | false => rfl
      | true =>
          change (Exec.attempt (RecordCache.fillDcache P offset size) >>= _) s =
            (Exec.attempt (RecordCache.fillDcache P offset size) >>= _) s
          rw [hbs, hcongr]

theorem within_buffer_iff_four :
    WithinBuffer (16 * 1024) 100 4 ↔ 100 / (16 * 1024) = u64 (100 + 4) / (16 * 1024) :=
  within_buffer_iff 16 (by decide) 100 4 (by decide) (by decide)

/-- The last byte of the first block is read together with the byte behind it. -/
theorem not_within_buffer_last : ¬ WithinBuffer (1 * 1024) 1023 1 ∧ ∃ out u,
    RecordCache.read Reference.platform (fun _ => 7) 1023 1 zerosFile = .ok out u ∧ out 1 ≠ 7 := by
  refine ⟨?_, _, _, rfl, by decide⟩
  intro h
  exact absurd h.lengths (by decide)

end DcfsClient
