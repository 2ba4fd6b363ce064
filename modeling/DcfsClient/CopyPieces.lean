import DcfsClient.CacheReads

/-!
# Copying between a buffer and blocks

Blocks of `bs` bytes hold a file: byte `pos` is byte `pos % bs` of block `pos / bs`. A list of pieces
that `Tiles` the file from some position on is one run of bytes, whatever blocks it is cut into, so
copying it out of blocks or into them can be described by positions in the file alone.

The pieces of a request are such a run. It is as long as the request, or one byte longer.
-/

namespace DcfsClient

/-- The pieces lie one behind the other in the file, from position `a` on, and none leaves its
block. -/
def Tiles (bs : Nat) : Nat → List Piece → Prop
  | _, [] => True
  | a, p :: ps => p.block * bs + p.off = a ∧ p.off + p.len ≤ bs ∧ Tiles bs (a + p.len) ps

def span (ps : List Piece) : Nat := (ps.map Piece.len).sum

def copyIn (buf : Mem) : (Nat → Mem) → Nat → List Piece → Nat → Mem
  | blocks, _, [] => blocks
  | blocks, cur, p :: ps => copyIn buf
      (Function.update blocks p.block (Mem.memcpy (blocks p.block) p.off buf cur p.len))
      (cur + p.len) ps

section Tiles

variable {bs : Nat} {ps : List Piece} {a : Nat}

@[simp] theorem span_nil : span [] = 0 := rfl

@[simp] theorem span_cons (p : Piece) (ps : List Piece) : span (p :: ps) = p.len + span ps := by
  simp [span]

theorem Tiles.fits (h : Tiles bs a ps) : ∀ p ∈ ps, p.off + p.len ≤ bs := by
  induction ps generalizing a with
  | nil => simp
  | cons q ps ih =>
      intro p hp
      rcases List.mem_cons.mp hp with rfl | hp
      · exact h.2.1
      · exact ih h.2.2 p hp

/-- Byte `i` of a piece, as a position in the file. -/
theorem div_mod_of_piece {p : Piece} (hp : p.block * bs + p.off = a) {i : Nat}
    (hi : p.off + i < bs) : (a + i) / bs = p.block ∧ (a + i) % bs = p.off + i := by
  have hpos : 0 < bs := by omega
  have hsum : a + i = p.off + i + p.block * bs := by omega
  rw [hsum]
  constructor
  · rw [Nat.add_mul_div_right _ _ hpos, Nat.div_eq_of_lt hi, Nat.zero_add]
  · rw [Nat.add_mul_mod_self_right, Nat.mod_eq_of_lt hi]

/-- The pieces have a block for every position of the run. -/
theorem Tiles.exists_block (h : Tiles bs a ps) {pos : Nat} (hst : a ≤ pos)
    (hed : pos < a + span ps) : ∃ p ∈ ps, p.block = pos / bs := by
  induction ps generalizing a with
  | nil =>
      rw [span_nil] at hed
      omega
  | cons p ps ih =>
      obtain ⟨hp, hfits, hrest⟩ := h
      rw [span_cons] at hed
      by_cases hin : pos < a + p.len
      · refine ⟨p, by simp, ?_⟩
        have hdiv := (div_mod_of_piece hp (i := pos - a) (by omega)).1
        rw [← hdiv, Nat.add_sub_cancel' hst]
      · obtain ⟨q, hq, hblk⟩ := ih hrest (by omega) (by omega)
        exact ⟨q, by simp [hq], hblk⟩

/-- What is copied out of the blocks. -/
theorem copyOut_tiles (h : Tiles bs a ps) (blocks : Nat → Mem) (buf : Mem) (c : Nat) :
    (∀ i, i < span ps → copyOut blocks buf c ps (c + i) = blocks ((a + i) / bs) ((a + i) % bs)) ∧
      ∀ j, j < c → copyOut blocks buf c ps j = buf j := by
  induction ps generalizing a buf c with
  | nil =>
      constructor
      · intro i hi
        simp at hi
      · intro j _
        rfl
  | cons p ps ih =>
      obtain ⟨hp, hfits, hrest⟩ := h
      obtain ⟨hbytes, hbefore⟩ :=
        ih hrest (Mem.memcpy buf c (blocks p.block) p.off p.len) (c + p.len)
      simp only [copyOut]
      constructor
      · intro i hi
        rw [span_cons] at hi
        by_cases hin : i < p.len
        · rw [hbefore (c + i) (by omega), Mem.memcpy_inside (by omega) (by omega)]
          obtain ⟨hdiv, hmod⟩ := div_mod_of_piece hp (i := i) (by omega)
          rw [hdiv, hmod, Nat.add_sub_cancel_left]
        · have hshift := hbytes (i - p.len) (by omega)
          have hleft : c + p.len + (i - p.len) = c + i := by omega
          have hright : a + p.len + (i - p.len) = a + i := by omega
          rw [hleft, hright] at hshift
          exact hshift
      · intro j hj
        rw [hbefore j (by omega), Mem.memcpy_outside (by omega)]

/-- What is copied into the blocks. -/
theorem copyIn_tiles (h : Tiles bs a ps) (buf : Mem) (blocks : Nat → Mem) (c blk j : Nat)
    (hj : j < bs) :
    copyIn buf blocks c ps blk j =
      if a ≤ blk * bs + j ∧ blk * bs + j < a + span ps then buf (c + (blk * bs + j - a))
      else blocks blk j := by
  induction ps generalizing a blocks c with
  | nil =>
      rw [span_nil, if_neg (by omega)]
      rfl
  | cons p ps ih =>
      obtain ⟨hp, hfits, hrest⟩ := h
      rw [copyIn, ih hrest, span_cons]
      by_cases hlater : a + p.len ≤ blk * bs + j ∧ blk * bs + j < a + p.len + span ps
      · have hpos : c + p.len + (blk * bs + j - (a + p.len)) = c + (blk * bs + j - a) := by omega
        rw [if_pos hlater, if_pos (by omega), hpos]
      · rw [if_neg hlater]
        by_cases he : blk = p.block
        · subst he
          rw [Function.update_self]
          by_cases hin : p.off ≤ j ∧ j < p.off + p.len
          · have hpos : c + (j - p.off) = c + (p.block * bs + j - a) := by omega
            rw [Mem.memcpy_inside hin.1 hin.2, if_pos (by omega), hpos]
          · rw [Mem.memcpy_outside (by omega), if_neg (by omega)]
        · -- the piece lies in another block
          rw [Function.update_of_ne he, if_neg]
          rcases Nat.lt_or_gt_of_ne he with hlt | hgt
          · have hmul : (blk + 1) * bs ≤ p.block * bs := Nat.mul_le_mul_right bs hlt
            rw [Nat.succ_mul] at hmul
            omega
          · have hmul : (p.block + 1) * bs ≤ blk * bs := Nat.mul_le_mul_right bs hgt
            rw [Nat.succ_mul] at hmul
            omega

/-- A block without a piece is not touched. -/
theorem copyIn_of_forall_ne (buf : Mem) (blocks : Nat → Mem) (c : Nat) {blk : Nat}
    (h : ∀ p ∈ ps, p.block ≠ blk) : copyIn buf blocks c ps blk = blocks blk := by
  induction ps generalizing blocks c with
  | nil => rfl
  | cons p ps ih =>
      rw [copyIn, ih _ _ fun q hq => h q (by simp [hq]), Function.update_of_ne (h p (by simp)).symm]

end Tiles

section Request

variable {bs : Nat}

/-- A row of whole blocks. -/
theorem tiles_row (b n : Nat) (ps : List Piece) (h : Tiles bs ((b + n) * bs) ps) :
    Tiles bs (b * bs) ((List.range' b n).map (⟨·, 0, bs⟩) ++ ps) := by
  induction n generalizing b with
  | zero => simpa using h
  | succ n ih =>
      rw [List.range'_succ, List.map_cons, List.cons_append]
      refine ⟨Nat.add_zero _, (Nat.zero_add bs).le, ?_⟩
      have hrow := ih (b + 1) (by rwa [Nat.add_right_comm, Nat.add_assoc])
      rwa [Nat.succ_mul] at hrow

theorem span_row (b n : Nat) (ps : List Piece) :
    span ((List.range' b n).map (⟨·, 0, bs⟩) ++ ps) = n * bs + span ps := by
  simp [span, Function.comp_def]

/-- The pieces of a request that does not wrap. -/
theorem tiles_copyPieces (hbs : 0 < bs) {offset size : Nat} (hsum : offset + size < 2 ^ 64) :
    Tiles bs offset (copyPieces bs offset size) ∧
      (span (copyPieces bs offset size) = size ∨ span (copyPieces bs offset size) = size + 1) := by
  have hst := Nat.div_add_mod offset bs
  have hed := Nat.div_add_mod (offset + size) bs
  have hstlt := Nat.mod_lt offset hbs
  have hedlt := Nat.mod_lt (offset + size) hbs
  rw [Nat.mul_comm] at hst hed
  unfold copyPieces
  simp only [u64_of_lt hsum]
  generalize hsb : offset / bs = st at hst
  generalize heb : (offset + size) / bs = ed at hed
  generalize offset % bs = so at hst hstlt
  generalize (offset + size) % bs = eo at hed hedlt
  have hle : st ≤ ed := by
    rw [← hsb, ← heb]
    exact Nat.div_le_div_right (by omega)
  split
  · rename_i heq
    subst heq
    refine ⟨⟨hst, by dsimp only; omega, trivial⟩, Or.inl (by simp)⟩
  · rename_i hne
    split
    · rename_i hnext
      have hmul : ed * bs = st * bs + bs := by rw [← hnext, Nat.succ_mul]
      refine ⟨⟨hst, by dsimp only; omega, by dsimp only; omega, by dsimp only; omega, trivial⟩,
        Or.inr ?_⟩
      simp only [span_cons, span_nil]
      omega
    · rename_i hfar
      have hmul : ed * bs = st * bs + bs + (ed - (st + 1)) * bs := by
        have hsplit : ed = st + 1 + (ed - (st + 1)) := by omega
        rw [hsplit, Nat.add_mul, Nat.succ_mul, Nat.add_sub_cancel_left]
      have hlast : Tiles bs ((st + 1 + (ed - (st + 1))) * bs) [⟨ed, 0, eo + 1⟩] := by
        have hback : st + 1 + (ed - (st + 1)) = ed := by omega
        rw [hback]
        exact ⟨Nat.add_zero _, by dsimp only; omega, trivial⟩
      have hrow := tiles_row (st + 1) (ed - (st + 1)) _ hlast
      have hstart : offset + (bs - so) = (st + 1) * bs := by
        rw [Nat.succ_mul]
        omega
      refine ⟨⟨hst, by dsimp only; omega, by rw [hstart]; exact hrow⟩, Or.inr ?_⟩
      rw [span_cons, span_row, span_cons, span_nil]
      dsimp only
      omega

/-- The number of bytes that a request copies, also one whose end wraps around. -/
theorem span_copyPieces (bs offset size : Nat) :
    span (copyPieces bs offset size) =
      if offset / bs = u64 (offset + size) / bs then size
      else bs - offset % bs +
        ((u64 (offset + size) / bs - (offset / bs + 1)) * bs + (u64 (offset + size) % bs + 1)) := by
  unfold copyPieces
  dsimp only
  split
  · simp
  · split
    · rename_i hnext
      simp [← hnext]
    · rw [span_cons, span_row, span_cons, span_nil, Nat.add_zero]

/-- A request that does not wrap copies one byte more than it asks for, unless it and the byte behind
it lie in one block. -/
theorem span_of_not_wrap (hbs : 0 < bs) {offset size : Nat} (hsum : offset + size < 2 ^ 64) :
    span (copyPieces bs offset size) =
      if offset / bs = (offset + size) / bs then size else size + 1 := by
  rw [span_copyPieces, u64_of_lt hsum]
  split
  · rfl
  · rename_i hne
    have hst := Nat.div_add_mod offset bs
    have hed := Nat.div_add_mod (offset + size) bs
    have hstlt := Nat.mod_lt offset hbs
    have hle : offset / bs ≤ (offset + size) / bs := Nat.div_le_div_right (by omega)
    rw [Nat.mul_comm] at hst hed
    generalize offset / bs = st at *
    generalize (offset + size) / bs = ed at *
    have hmul : ed * bs = st * bs + bs + (ed - (st + 1)) * bs := by
      have hsplit : ed = st + 1 + (ed - (st + 1)) := by omega
      rw [hsplit, Nat.add_mul, Nat.succ_mul, Nat.add_sub_cancel_left]
    omega

/-- Each block of a request has a piece. -/
theorem exists_piece {offset size blk : Nat} (hsum : offset + size < 2 ^ 64)
    (hst : offset / bs ≤ blk) (hed : blk ≤ (offset + size) / bs) :
    ∃ p ∈ copyPieces bs offset size, p.block = blk := by
  rw [exists_piece_iff, u64_of_lt hsum]
  rcases hst.eq_or_lt with hfirst | hst
  · exact .inl hfirst.symm
  · rcases hed.eq_or_lt with hlast | hed
    · exact .inr (.inl hlast)
    · exact .inr (.inr ⟨hst, hed⟩)

end Request

end DcfsClient
