import DcfsClient.ClosedFiles
import DcfsClient.Placement

/-!
# The block unit of client and middleware

The block size of the cache is an option of the mount; the middleware computes the size of a file with
blocks of `defaultBlockSizeInKb`, whatever the option says. After the first flush of a file the two agree
about where its last block is only as far as `blocks_inside_iff` says: with blocks of at most the default
size always, with larger ones as long as there are few of them.
-/

namespace DcfsClient

open Backend Exec

structure FirstBlocks (h : Bytes) (ino : Inode) (n : Nat) (fs : Fs) : Prop where
  entry : fs.be.index h = some []
  dirty : ∀ blk, ino.isDirty blk = decide (blk < n)

/-- Each of the first `n` blocks of the file can be reached by a read that stays inside the file. -/
structure BlocksInside (n : Nat) (ino : Inode) : Prop where
  last : (n - 1) * ino.blockSize < ino.size
  reached : ∀ blk < n, ∃ offset size, 0 < size ∧ offset + size ≤ ino.size ∧
    offset / ino.blockSize = blk

/-- The file can be opened again, and whatever inode the next `get_inode` makes has its first `n` blocks
inside. -/
def ReopensInside (P : Platform) (h : Bytes) (n : Nat) (fs : Fs) : Prop :=
  (∃ out fs', Fs.getInode P h (fs.withEnv {}) = .ok out fs' ∧ ∃ ino, fs'.inodeTable h = some ino) ∧
    ∀ e out fs' ino, Fs.getInode P h (fs.withEnv e) = .ok out fs' → fs'.inodeTable h = some ino →
      BlocksInside n ino

section Unit

variable {P : Platform} {kb n : Nat} {older : List FsEvent} {ev : FsEvent} {h : Bytes} {ino : Inode}

theorem blocksInside_iff (hn : 0 < n) (hbs : 0 < ino.blockSize) :
    BlocksInside n ino ↔ (n - 1) * ino.blockSize < ino.size := by
  constructor
  · exact BlocksInside.last
  · intro hlast
    refine ⟨hlast, ?_⟩
    intro blk hblk
    have hle : blk * ino.blockSize ≤ (n - 1) * ino.blockSize := Nat.mul_le_mul_right _ (by omega)
    exact ⟨blk * ino.blockSize, 1, Nat.one_pos, by omega, Nat.mul_div_cancel blk hbs⟩

/-- The last of `n` blocks of `kb` KiB lies in a file of `n` blocks of the default size. -/
theorem last_block_lt_iff (n kb : Nat) :
    (n - 1) * (kb * 1024) < n * midBlockSize ↔ (n - 1) * kb < defaultBlockSizeInKb * n := by
  have hmid : n * midBlockSize = defaultBlockSizeInKb * n * 1024 := by
    unfold midBlockSize
    rw [← Nat.mul_assoc, Nat.mul_comm n]
  rw [hmid, ← Nat.mul_assoc]
  exact Nat.mul_lt_mul_right (by decide)

/-- The first commit of a file, with one block for each that was dirty. -/
theorem IsMountRun.first_commit (hP : P.Lawful) (hrun : IsMountRun P kb (ev :: older))
    (hfree : P.CollisionFree ev.after.be.hashed) (hc : Closes kb h ino ev older)
    (hok : FlushSucceeds P kb ino ev older) (hfirst : FirstBlocks h ino n (mounted kb older))
    (hn : 0 < n) :
    ev.after.be.Sound P ∧ ∃ c : Commit, c.descs.length = n ∧ FileState P ev.after.be h [c] := by
  obtain ⟨hist, hsnap, hsound, hcase⟩ := hrun.closed_cases hP hfree hc
  have hnil := hsnap.unwritten hP hfirst.entry
  have hblocks := ino.dirtyDescs_of_first P hfirst.dirty
  refine ⟨hsound, ?_⟩
  rcases hcase with ⟨hclean, -⟩ | ⟨hfail, -⟩ | ⟨c, hdescs, -, hf⟩
  · rw [hblocks, List.map_eq_nil_iff, List.range_eq_nil] at hclean
    omega
  · exact absurd hok hfail
  · refine ⟨c, ?_, ?_⟩
    · rw [hdescs, hblocks, List.length_map, List.length_range]
    · rw [hnil] at hf
      exact hf

/-- The file after its first flush: it can be opened, and its size is counted in blocks of the
middleware. -/
theorem IsMountRun.reopened (hP : P.Lawful) (hrun : IsMountRun P kb (ev :: older))
    (hfree : P.CollisionFree ev.after.be.hashed) (hc : Closes kb h ino ev older)
    (hok : FlushSucceeds P kb ino ev older) (hfirst : FirstBlocks h ino n (mounted kb older))
    (hn : 0 < n) (hcover : n ≤ blockmapCover) :
    (∃ out fs', Fs.getInode P h (ev.after.withEnv {}) = .ok out fs' ∧
        ∃ ino', fs'.inodeTable h = some ino') ∧
      ∀ e out fs' ino', Fs.getInode P h (ev.after.withEnv e) = .ok out fs' →
        fs'.inodeTable h = some ino' →
          ino'.size = n * midBlockSize ∧ ino'.blockSize = kb * 1024 := by
  obtain ⟨hsound, c, hcount, hf⟩ := hrun.first_commit hP hfree hc hok hfirst hn
  obtain ⟨s, -, -, htable⟩ := hrun.closed hc
  have hreleased : ev.after.inodeTable h = none := by
    rw [htable, Function.update_self]
  have hunit : ev.after.blockSizeInKb = kb :=
    (hrun.effect hc.answer).blockSizeInKb.trans (hrun.1.blockSizeInKb hrun.2.1)
  have henv : ∀ e, ev.after.be.Same (ev.after.withEnv e).be := Same.withEnv ev.after.be
  have hstate : ∀ e, FileState P (ev.after.withEnv e).be h [c] := fun e =>
    hf.grows ((henv e).grows (P := P)) (by rw [(henv e).index])
  constructor
  · exact exists_getInode hP (hsound.same (henv {})) (fun f hmem => by cases hmem) (hstate {})
  · intro e out fs' ino' hget hino
    obtain ⟨-, hsize, hbs⟩ :=
      inode_of_getInode hP (hsound.same (henv e)) (hstate e) hreleased hget hino
    have hstored : storedSize [c] = n * midBlockSize := by
      have hcover' : blockmapCover = 512 := rfl
      rw [← hcount]
      exact committedSize_eq (by omega)
    rw [hsize, hstored, hbs]
    exact ⟨rfl, congrArg (· * 1024) hunit⟩

/-- In every run, the blocks of the first flush of a file lie inside the file that is opened again exactly
if the last of them starts before the end that the middleware counts. -/
theorem blocks_inside_iff (hP : P.Lawful) (hkb : 0 < kb) (hrun : IsMountRun P kb (ev :: older))
    (hfree : P.CollisionFree ev.after.be.hashed) (hc : Closes kb h ino ev older)
    (hok : FlushSucceeds P kb ino ev older) (hfirst : FirstBlocks h ino n (mounted kb older))
    (hn : 0 < n) (hcover : n ≤ blockmapCover) :
    ReopensInside P h n ev.after ↔ (n - 1) * kb < defaultBlockSizeInKb * n := by
  obtain ⟨hopens, hinode⟩ := hrun.reopened hP hfree hc hok hfirst hn hcover
  have hinside : ∀ e out fs' ino', Fs.getInode P h (ev.after.withEnv e) = .ok out fs' →
      fs'.inodeTable h = some ino' →
      (BlocksInside n ino' ↔ (n - 1) * kb < defaultBlockSizeInKb * n) := by
    intro e out fs' ino' hget hino
    obtain ⟨hsize, hbs⟩ := hinode e out fs' ino' hget hino
    rw [blocksInside_iff hn (by omega), hsize, hbs, last_block_lt_iff]
  constructor
  · rintro ⟨-, hall⟩
    obtain ⟨out, fs', hget, ino', hino⟩ := hopens
    exact (hinside {} out fs' ino' hget hino).mp (hall {} out fs' ino' hget hino)
  · intro hlast
    refine ⟨hopens, ?_⟩
    intro e out fs' ino' hget hino
    exact (hinside e out fs' ino' hget hino).mpr hlast

end Unit

/-! ## Two blocks of 31 KiB and of 32 KiB -/

section Instances

open Reference

/-- A file is made and a whole block is written to it; the write reaches the block behind it. -/
@[irreducible] def blockRun (kb : Nat) : List FsEvent :=
  replayMount platform kb [(.write [47, 97] 11 (fun _ => 7) (kb * 1024) 0, {}),
    (.create [47, 97], { clock := [5] })]

@[irreducible] def blockClosing (kb : Nat) : FsEvent :=
  .next platform kb (blockRun kb) (.flush [47, 97] 11) { clock := [6, 7, 8, 9] }

def blockInode (kb : Nat) : Inode := inodeAt (mounted kb (blockRun kb)) (fileAt 5)

theorem blockRun_leaves : ∀ kb ∈ [31, 32], (blockRun kb).all FsEvent.replied = true ∧
    (mounted kb (blockRun kb)).target [47, 97] 11 = some (fileAt 5) ∧
    ((mounted kb (blockRun kb)).inodeTable (fileAt 5)).isSome = true ∧
    (blockInode kb).refCount = 1 ∧ (blockInode kb).dcacheStats.map CStat.dirty = [true, true] ∧
    (mounted kb (blockRun kb)).be.index (fileAt 5) = some [] := by decide +kernel

theorem blockClosing_leaves : ∀ kb ∈ [31, 32], (blockClosing kb).repliesZero = true ∧
    (((blockClosing kb).after.be.hashed).dedup.map platform.hash256).Nodup ∧
    returns (RecordCache.flushCache platform)
      ⟨{ blockInode kb with refCount := 0 },
        ((mounted kb (blockRun kb)).withEnv (blockClosing kb).env).be⟩ = true := by decide +kernel

theorem isDirty_of_map {ino : Inode} {n : Nat}
    (h : ino.dcacheStats.map CStat.dirty = List.replicate n true) (blk : Nat) :
    ino.isDirty blk = decide (blk < n) := by
  have hget := congrArg (fun l => l[blk]?) h
  simp only [List.getElem?_map, List.getElem?_replicate] at hget
  unfold Inode.isDirty
  cases hstat : ino.dcacheStats[blk]? with
  | none =>
      rw [hstat] at hget
      split at hget
      · cases hget
      next hge =>
        rw [decide_eq_false hge]
        rfl
  | some stat =>
      rw [hstat, Option.map_some] at hget
      split at hget
      next hlt => rw [decide_eq_true hlt, Option.any_some, Option.some.inj hget]
      · cases hget

structure FlushesTwo (kb : Nat) : Prop where
  run : IsMountRun platform kb (blockClosing kb :: blockRun kb)
  free : platform.CollisionFree (blockClosing kb).after.be.hashed
  closes : Closes kb (fileAt 5) (blockInode kb) (blockClosing kb) (blockRun kb)
  succeeds : FlushSucceeds platform kb (blockInode kb) (blockClosing kb) (blockRun kb)
  first : FirstBlocks (fileAt 5) (blockInode kb) 2 (mounted kb (blockRun kb))

theorem flushesTwo {kb : Nat} (hkb : kb ∈ [31, 32]) : FlushesTwo kb := by
  obtain ⟨hall, htarget, hsome, hlast, hdirty, hentry⟩ := blockRun_leaves kb hkb
  obtain ⟨hzero, hnodup, hreturns⟩ := blockClosing_leaves kb hkb
  have halive : Alive (blockRun kb) := alive_of_all hall
  have hrun : IsMountRun platform kb (blockRun kb) := by
    unfold blockRun at halive ⊢
    exact isMountRun_replay _ fun ev hev => halive ev (List.mem_of_mem_tail hev)
  obtain ⟨out, s, hok⟩ := exists_of_returns hreturns
  refine ⟨?_, .of_nodup hnodup, ?_, ⟨s, hok⟩, ⟨hentry, isDirty_of_map hdirty⟩⟩
  · unfold blockClosing
    exact hrun.next halive _ _
  · exact ⟨⟨[47, 97], 11, by unfold blockClosing; rfl, htarget⟩,
      FsEvent.answer_of_repliesZero hzero, inodeAt_of_isSome hsome, hlast⟩

/-- Two blocks of 31 KiB lie inside the 32 KiB of the middleware. -/
theorem blocks_inside_iff_narrow : FlushesTwo 31 ∧
    ReopensInside platform (fileAt 5) 2 (blockClosing 31).after := by
  have hf : FlushesTwo 31 := flushesTwo (by decide)
  exact ⟨hf, (blocks_inside_iff lawful (by decide) hf.run hf.free hf.closes hf.succeeds hf.first
    (by decide) (by decide)).mpr (by decide)⟩

/-- The second block of 32 KiB lies behind them. -/
theorem not_reopensInside_wide : FlushesTwo 32 ∧
    ¬ ReopensInside platform (fileAt 5) 2 (blockClosing 32).after := by
  have hf : FlushesTwo 32 := flushesTwo (by decide)
  refine ⟨hf, ?_⟩
  rintro ⟨-, hall⟩
  obtain ⟨⟨out, fs', hget, ino', hino⟩, hinode⟩ := hf.run.reopened lawful hf.free hf.closes
    hf.succeeds hf.first (by decide) (by decide)
  obtain ⟨hsize, hbs⟩ := hinode {} out fs' ino' hget hino
  have hlast := (hall {} out fs' ino' hget hino).last
  rw [hsize, hbs] at hlast
  exact absurd hlast (by decide)

end Instances

end DcfsClient
