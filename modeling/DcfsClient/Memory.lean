import Mathlib.Tactic

/-!
# Byte strings and raw memory

`Bytes` is a value with a length: a string, a payload, a name. `Mem` is what a pointer gives: a byte
at every index, without a length, so that reading past what somebody meant to hand over yields
whatever happens to be there. `memcpy` and `place` are the two ways of writing memory; both are
described completely by what they do at one index.

The last two sections are the codecs of fixed-width fields: cutting a string into pieces of equal
length, and little-endian numbers.
-/

namespace DcfsClient

abbrev Bytes := List UInt8

abbrev Mem := Nat → UInt8

namespace Mem

def bytesAt (m : Mem) (off : Nat) : Nat → Bytes
  | 0 => []
  | n + 1 => m off :: bytesAt m (off + 1) n

def memcpy (dst : Mem) (off : Nat) (src : Mem) (soff len : Nat) : Mem := fun i =>
  if off ≤ i ∧ i < off + len then src (soff + (i - off)) else dst i

def place (dst : Mem) (b : Bytes) : Mem := fun i => b[i]?.getD (dst i)

def memset (dst : Mem) (c : UInt8) (len : Nat) : Mem := fun i => if i < len then c else dst i

@[simp] theorem length_bytesAt (m : Mem) (off n : Nat) : (bytesAt m off n).length = n := by
  induction n generalizing off with
  | zero => rfl
  | succ n ih => simp [bytesAt, ih]

theorem getElem?_bytesAt (m : Mem) (off n i : Nat) :
    (bytesAt m off n)[i]? = if i < n then some (m (off + i)) else none := by
  induction n generalizing off i with
  | zero => simp [bytesAt]
  | succ n ih =>
      cases i with
      | zero => simp [bytesAt]
      | succ i =>
          have he : off + 1 + i = off + (i + 1) := by omega
          simp [bytesAt, ih, he]

theorem memcpy_inside {dst src : Mem} {off soff len i : Nat} (h : off ≤ i) (h' : i < off + len) :
    memcpy dst off src soff len i = src (soff + (i - off)) := if_pos ⟨h, h'⟩

theorem memcpy_outside {dst src : Mem} {off soff len i : Nat} (h : i < off ∨ off + len ≤ i) :
    memcpy dst off src soff len i = dst i := if_neg (by omega)

end Mem

/-! ## Pieces of equal length -/

/-- Cut into pieces of `n`; the fuel is the number of cuts allowed. -/
def chunksAux {α : Type} (n : Nat) : Nat → List α → List (List α)
  | 0, _ => []
  | _ + 1, [] => []
  | fuel + 1, a :: l => (a :: l).take n :: chunksAux n fuel ((a :: l).drop n)

def chunks {α : Type} (n : Nat) (l : List α) : List (List α) := chunksAux n l.length l

theorem chunksAux_flatten {α : Type} {n : Nat} (hn : 0 < n) (ls : List (List α))
    (hls : ∀ l ∈ ls, l.length = n) (fuel : Nat) (hf : ls.length ≤ fuel) :
    chunksAux n fuel ls.flatten = ls := by
  induction ls generalizing fuel with
  | nil => cases fuel <;> rfl
  | cons l ls ih =>
      have hl : l.length = n := hls l (by simp)
      cases fuel with
      | zero => simp at hf
      | succ fuel =>
          cases l with
          | nil => simp at hl; omega
          | cons a l =>
              have htake : ((a :: l) ++ ls.flatten).take n = a :: l := by
                rw [← hl]; exact List.take_left' rfl
              have hdrop : ((a :: l) ++ ls.flatten).drop n = ls.flatten := by
                rw [← hl]; exact List.drop_left' rfl
              have hrest := ih (fun l' h' => hls l' (by simp [h'])) fuel (by simpa using hf)
              simp only [List.cons_append] at htake hdrop
              simp only [List.flatten_cons, List.cons_append, chunksAux, htake, hdrop, hrest]

theorem length_flatten_of_forall {α : Type} {n : Nat} (ls : List (List α))
    (hls : ∀ l ∈ ls, l.length = n) : ls.flatten.length = ls.length * n := by
  induction ls with
  | nil => simp
  | cons l ls ih =>
      have hl : l.length = n := hls l (by simp)
      have hrest := ih (fun l' h' => hls l' (by simp [h']))
      simp only [List.flatten_cons, List.length_append, hl, hrest, List.length_cons, Nat.succ_mul]
      omega

/-- Pieces of one length are recovered from their concatenation. -/
theorem chunks_flatten {α : Type} {n : Nat} (hn : 0 < n) (ls : List (List α))
    (hls : ∀ l ∈ ls, l.length = n) : chunks n ls.flatten = ls := by
  apply chunksAux_flatten hn ls hls
  rw [length_flatten_of_forall ls hls]
  exact Nat.le_mul_of_pos_right _ hn

/-- A string whose length is a multiple of `n` consists of such pieces. -/
theorem exists_flatten_eq {α : Type} {n : Nat} (k : Nat) (l : List α) (h : l.length = k * n) :
    ∃ ls : List (List α), ls.flatten = l ∧ ∀ p ∈ ls, p.length = n := by
  induction k generalizing l with
  | zero =>
      rw [Nat.zero_mul] at h
      exact ⟨[], (List.length_eq_zero_iff.mp h).symm, by simp⟩
  | succ k ih =>
      rw [Nat.succ_mul] at h
      obtain ⟨ls, hls, hlen⟩ := ih (l.drop n) (by rw [List.length_drop]; omega)
      refine ⟨l.take n :: ls, by rw [List.flatten_cons, hls, List.take_append_drop], ?_⟩
      simp only [List.forall_mem_cons]
      exact ⟨by rw [List.length_take]; omega, hlen⟩

/-- Byte `j` of piece `k`. -/
theorem getElem?_flatten_of_forall {α : Type} {n : Nat} (ls : List (List α))
    (hls : ∀ l ∈ ls, l.length = n) (k j : Nat) (hj : j < n) :
    ls.flatten[k * n + j]? = ls[k]?.bind (fun l => l[j]?) := by
  induction ls generalizing k with
  | nil => simp
  | cons l ls ih =>
      have hl : l.length = n := hls l (by simp)
      cases k with
      | zero =>
          rw [List.flatten_cons, Nat.zero_mul, Nat.zero_add, List.getElem?_append_left (by omega)]
          simp
      | succ k =>
          have he : (k + 1) * n + j - l.length = k * n + j := by rw [Nat.succ_mul]; omega
          have hge : l.length ≤ (k + 1) * n + j := by rw [Nat.succ_mul]; omega
          rw [List.flatten_cons, List.getElem?_append_right hge, he,
            ih (fun l' h' => hls l' (by simp [h'])) k]
          simp

/-! ## Little-endian numbers -/

def leBytes : Nat → Nat → Bytes
  | 0, _ => []
  | w + 1, n => UInt8.ofNat n :: leBytes w (n / 256)

def ofLe : Bytes → Nat
  | [] => 0
  | b :: bs => b.toNat + 256 * ofLe bs

@[simp] theorem length_leBytes (w n : Nat) : (leBytes w n).length = w := by
  induction w generalizing n with
  | zero => rfl
  | succ w ih => simp [leBytes, ih]

theorem ofLe_leBytes (w n : Nat) : ofLe (leBytes w n) = n % 256 ^ w := by
  induction w generalizing n with
  | zero => simp [leBytes, ofLe, Nat.mod_one]
  | succ w ih =>
      rw [leBytes, ofLe, ih, pow_succ', Nat.mod_mul]
      simp

end DcfsClient
