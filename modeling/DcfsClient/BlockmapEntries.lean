import DcfsClient.CacheContents
import DcfsClient.Reference

/-!
# Entries of the blockmap

The payload of a blockmap record is a row of 32-byte names, and a block without a record has a name of
zeros there. `bmCheck` looks for the zeros with `strcmp`, which stops at the first zero byte: a name
that begins with a zero byte counts as no entry, and `fillDcache` fills its block with zeros.
-/

namespace DcfsClient

open Backend

def entryAt (payload : Bytes) (idx : Nat) : Bytes :=
  Mem.bytesAt (Mem.place (fun _ => 0) payload) (idx * hashLen) hashLen

def noEntry : Bytes := List.replicate hashLen 0

/-- The entry of block `idx` is taken for what it is: `bmCheck` finds no name exactly if the entry is
all zeros, and else the entry. A block with a name is loaded from the record of this name, and only
a block without one is filled with zeros. -/
structure EntryHonoured (P : Platform) (s : Session) (idx : Nat) (entry : Bytes) : Prop where
  hole : RecordCache.bmCheck s.ino idx = none ↔ entry = noEntry
  name : ∀ recordname, RecordCache.bmCheck s.ino idx = some recordname → recordname = entry
  fill : ∀ u, s.ino.isCached idx = false → idx ≤ s.ino.dcacheStats.length →
    RecordCache.fillBlock P idx s = .ok () u →
      ∃ m, u.ino.dcacheBlocks[idx]? = some (some m) ∧
        (entry = noEntry → m = Mem.memset (fun _ => P.junk) 0 s.ino.blockSize) ∧
        (entry ≠ noEntry → ∃ data,
          payloadOf P s.be s.ino.hashname entry (s.ino.blockSize + aesPadLen) = some data ∧
          m = Mem.place (fun _ => P.junk) (P.decrypt s.ino.aesKey data))

section Entries

variable {P : Platform} {s : Session} {payload : Bytes} {idx : Nat}

theorem length_entryAt (payload : Bytes) (idx : Nat) : (entryAt payload idx).length = hashLen :=
  Mem.length_bytesAt _ _ _

/-- Where `bmCheck` looks, the loaded blockmap has the bytes of the entry. -/
theorem bytesAt_blockmap {cover : Nat} (hidx : idx < cover) :
    Mem.bytesAt ((Mem.memset (fun _ => P.junk) 0 (hashLen * cover)).place payload) (idx * hashLen)
      hashLen = entryAt payload idx := by
  apply List.ext_getElem?
  intro i
  unfold entryAt
  rw [Mem.getElem?_bytesAt, Mem.getElem?_bytesAt]
  split
  · rename_i hi
    have hlt : idx * hashLen + i < hashLen * cover := by
      have hmul : (idx + 1) * hashLen ≤ cover * hashLen := Nat.mul_le_mul_right hashLen hidx
      rw [Nat.succ_mul, Nat.mul_comm cover] at hmul
      omega
    simp only [Mem.place, Mem.memset, if_pos hlt]
  · rfl

/-- What `bmCheck` returns below the cover. -/
theorem bmCheck_entryAt
    (hbm : s.ino.bm = some ((Mem.memset (fun _ => P.junk) 0 (hashLen * s.ino.bmCover)).place payload))
    (hidx : idx < s.ino.bmCover) : RecordCache.bmCheck s.ino idx =
      if (entryAt payload idx).head? = some 0 then none else some (entryAt payload idx) := by
  unfold RecordCache.bmCheck
  rw [hbm]
  simp only [if_neg (not_le.mpr hidx), bytesAt_blockmap hidx]
  by_cases hzero : (entryAt payload idx).head? = some 0
  · rw [if_pos hzero, if_pos ((strcmpEq_zeros_iff (length_entryAt payload idx)).mpr hzero)]
  · rw [if_neg hzero, if_neg]
    rw [strcmpEq_zeros_iff (length_entryAt payload idx)]
    exact hzero

/-- A block that was not cached gets what the blockmap says. -/
theorem fillBlock_loads {u : Session} (hready : s.Ready P) (halloc : s.ino.Allocated)
    (hun : s.ino.isCached idx = false) (hle : idx ≤ s.ino.dcacheStats.length)
    (hfill : RecordCache.fillBlock P idx s = .ok () u) :
    ∃ m, u.ino.dcacheBlocks[idx]? = some (some m) ∧
      s.ino.blockIn P s.be s.ino.bm idx = some m := by
  obtain ⟨hat, hcached, -⟩ := Exec.wp_ok (wp_fillBlock_filled hready halloc.lengths hle) hfill
  obtain ⟨m, hm⟩ := (hat.allocated halloc).alloc idx hcached
  refine ⟨m, hm, ?_⟩
  rw [← hready.blockNow_of_uncached hun, ← hat.blockNow idx]
  exact blockNow_of_cached hcached (by rw [hm]; rfl)

end Entries

/-- Whatever the payload of the blockmap: the entry of a block below the cover is taken for what it is
exactly if it does not begin with a zero byte or is all zeros. -/
theorem entry_honoured_iff (P : Platform) (s : Session) (halloc : s.ino.Allocated) (payload : Bytes)
    (hbm : s.ino.bm = some ((Mem.memset (fun _ => P.junk) 0 (hashLen * s.ino.bmCover)).place payload))
    (idx : Nat) (hidx : idx < s.ino.bmCover) :
    EntryHonoured P s idx (entryAt payload idx) ↔
      (entryAt payload idx).head? ≠ some 0 ∨ entryAt payload idx = noEntry := by
  constructor
  · intro h
    by_contra hnot
    rw [not_or, not_not] at hnot
    apply hnot.2
    apply h.hole.mp
    rw [bmCheck_entryAt hbm hidx, if_pos hnot.1]
  · intro hentry
    have hcheck := bmCheck_entryAt hbm hidx
    have hiff : (entryAt payload idx).head? = some 0 ↔ entryAt payload idx = noEntry := by
      constructor
      · intro hzero
        exact hentry.resolve_left (not_not.mpr hzero)
      · intro he
        rw [he]
        rfl
    simp only [hiff] at hcheck
    refine ⟨?_, ?_, ?_⟩
    · rw [hcheck]
      split <;> simp_all
    · intro recordname hname
      rw [hcheck] at hname
      split at hname
      · cases hname
      · rw [Option.some.injEq] at hname
        exact hname.symm
    · intro u hun hle hfill
      have hready : s.Ready P := by
        unfold Session.Ready Session.bmNow
        rw [hbm]
        rfl
      obtain ⟨m, hm, hnow⟩ := fillBlock_loads hready halloc hun hle hfill
      have hsame : RecordCache.bmCheck { s.ino with bm := s.ino.bm } idx =
          RecordCache.bmCheck s.ino idx := rfl
      rw [Inode.blockIn, hsame, hcheck] at hnow
      refine ⟨m, hm, ?_, ?_⟩
      · intro he
        rw [if_pos he] at hnow
        exact (Option.some.inj hnow).symm
      · intro hne
        rw [if_neg hne] at hnow
        obtain ⟨data, hdata, hplace⟩ := Option.map_eq_some_iff.mp hnow
        exact ⟨data, hdata, hplace.symm⟩

def oneEntryFile (entry : Bytes) : Session where
  ino := { Inode.load [] [] [9] 1 blockmapCover 2000 Reference.zeroKey with
    bm := some ((Mem.memset (fun _ => Reference.platform.junk) 0 (hashLen * blockmapCover)).place entry) }
  be := {}

theorem oneEntryFile_allocated (entry : Bytes) : (oneEntryFile entry).ino.Allocated :=
  ⟨(Inode.tidy_load [] [] [9] 1 blockmapCover 2000 Reference.zeroKey).lengths,
    (Inode.tidy_load [] [] [9] 1 blockmapCover 2000 Reference.zeroKey).alloc⟩

theorem entry_honoured_one : EntryHonoured Reference.platform (oneEntryFile (1 :: List.replicate 31 0))
    0 (entryAt (1 :: List.replicate 31 0) 0) :=
  (entry_honoured_iff Reference.platform (oneEntryFile (1 :: List.replicate 31 0))
    (oneEntryFile_allocated _) (1 :: List.replicate 31 0) rfl 0 (by decide)).mpr (Or.inl (by decide))

/-- A name that begins with a zero byte. -/
theorem not_entryHonoured_zero : entryAt (0 :: List.replicate 31 1) 0 ≠ noEntry ∧
    RecordCache.bmCheck (oneEntryFile (0 :: List.replicate 31 1)).ino 0 = none ∧
    ¬ EntryHonoured Reference.platform (oneEntryFile (0 :: List.replicate 31 1)) 0
      (entryAt (0 :: List.replicate 31 1) 0) := by
  have hne : entryAt (0 :: List.replicate 31 1) 0 ≠ noEntry := by decide
  have hnone : RecordCache.bmCheck (oneEntryFile (0 :: List.replicate 31 1)).ino 0 = none := by decide
  exact ⟨hne, hnone, fun h => hne (h.hole.mp hnone)⟩

end DcfsClient
