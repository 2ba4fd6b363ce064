import DcfsClient.Memory

/-!
# Strings and numbers of C and C++

A position in a `std::string` is a `size_t`, and `find` answers with the largest of them when there is
nothing to be found. Code that keeps positions in an `int` converts both ways: `toInt` cuts to 32 bits
and `toSize` extends to 64, so that only positions below `2 ^ 31` come back as they went in. The answer
for nothing becomes `-1` and comes back, too.

`strtol` and `stoi` read a number behind white space and a sign up to the first character that is not a
digit. `digitText` is the other direction.
-/

namespace DcfsClient

namespace CString

inductive StdException where
  | outOfRange
  | invalidArgument
  deriving DecidableEq

def npos : Nat := 2 ^ 64 - 1

def maxInt : Int := 2 ^ 31 - 1

def minInt : Int := -2 ^ 31

def toInt (n : Int) : Int := n.bmod (2 ^ 32)

def toSize (n : Int) : Nat := (n % 2 ^ 64).toNat

/-- What `s.c_str()` shows to a function that looks for the end itself. -/
def cStr (s : Bytes) : Bytes := s.takeWhile (· ≠ 0)

/-- `s.find(c, pos)` for a single character. -/
def find (s : Bytes) (c : UInt8) (pos : Nat) : Nat :=
  match (s.drop pos).findIdx? (· == c) with
  | some i => pos + i
  | none => npos

def substr (s : Bytes) (pos n : Nat) : Except StdException Bytes :=
  if s.length < pos then .error .outOfRange else .ok ((s.drop pos).take n)

/-! ## Numbers -/

def digitText (base n : Nat) : Bytes := (Nat.toDigits base n).map fun c => UInt8.ofNat c.toNat

def isSpace (c : UInt8) : Bool := c = 32 ∨ 9 ≤ c ∧ c ≤ 13

def digitValue (base : Nat) (c : UInt8) : Option Nat :=
  let n := c.toNat
  let d := if 48 ≤ n ∧ n ≤ 57 then n - 48
    else if 97 ≤ n ∧ n ≤ 122 then n - 87
    else if 65 ≤ n ∧ n ≤ 90 then n - 55
    else base
  if d < base then some d else none

def scanDigits (base : Nat) : Nat → Bytes → Nat
  | acc, [] => acc
  | acc, c :: rest =>
    match digitValue base c with
    | some d => scanDigits base (base * acc + d) rest
    | none => acc

/-- A hexadecimal number may begin with `0x`, if a digit follows. -/
def dropRadix (base : Nat) (s : Bytes) : Bytes :=
  match s with
  | z :: x :: c :: rest =>
    if base = 16 ∧ z = 48 ∧ (x = 120 ∨ x = 88) ∧ (digitValue 16 c).isSome then c :: rest else s
  | _ => s

def scanInt (base : Nat) (s : Bytes) : Option Int :=
  let t := s.dropWhile isSpace
  let u := if t.head? = some 45 ∨ t.head? = some 43 then t.tail else t
  let digits := dropRadix base u
  match digits.head?.bind (digitValue base) with
  | some _ =>
    let n : Int := scanDigits base 0 digits
    some (if t.head? = some 45 then -n else n)
  | none => none

/-- `strtol(s.c_str(), NULL, base)`, where `long` has 64 bits. -/
def strtol (base : Nat) (s : Bytes) : Int :=
  max (-2 ^ 63) (min (2 ^ 63 - 1) ((scanInt base s).getD 0))

def stoi (s : Bytes) : Except StdException Int :=
  match scanInt 10 s with
  | none => .error .invalidArgument
  | some n => if minInt ≤ n ∧ n ≤ maxInt then .ok n else .error .outOfRange

/-! ## Conversions -/

section Conversions

theorem toInt_of_small {n : Int} (h : minInt ≤ n) (h' : n ≤ maxInt) : toInt n = n := by
  unfold minInt at h
  unfold maxInt at h'
  exact Int.bmod_eq_of_le (by omega) (by omega)

theorem toInt_npos : toInt npos = -1 := by decide

theorem toInt_range (n : Int) : minInt ≤ toInt n ∧ toInt n ≤ maxInt := by
  have hle := Int.le_bmod (x := n) (m := 2 ^ 32) (by decide)
  have hlt := Int.bmod_lt (x := n) (m := 2 ^ 32) (by decide)
  unfold minInt maxInt toInt
  omega

/-- A position that does not stay what it was in an `int` moves down by a multiple of `2 ^ 32`. -/
theorem toInt_add_le {n : Nat} (h : maxInt < n) : toInt n + 2 ^ 32 ≤ n := by
  have hrange := toInt_range n
  have hadd := Int.bmod_add_bdiv n (2 ^ 32)
  unfold minInt maxInt at *
  unfold toInt at *
  omega

theorem toSize_of_nonneg {n : Int} (h : 0 ≤ n) (h' : n ≤ maxInt) : toSize n = n.toNat := by
  unfold maxInt at h'
  unfold toSize
  omega

/-- Positions below `2 ^ 31` are converted without loss. -/
theorem toInt_natCast {n : Nat} (h : n < 2 ^ 31) : toInt n = n :=
  toInt_of_small (by unfold minInt; omega) (by unfold maxInt; omega)

theorem toSize_natCast {n : Nat} (h : n < 2 ^ 31) : toSize n = n := by
  rw [toSize_of_nonneg (by omega) (by unfold maxInt; omega)]
  omega

/-- The position behind one that is small enough. -/
theorem toInt_toSize_succ {n : Nat} (h : n + 1 < 2 ^ 31) :
    toInt (toSize ((n : Int) + 1)) = (n + 1 : Nat) := by
  have hsize : toSize ((n : Int) + 1) = n + 1 := toSize_natCast (n := n + 1) h
  rw [hsize, toInt_natCast h]

theorem toSize_ne_npos {n : Nat} (h : n < 2 ^ 31) : toSize n ≠ npos := by
  rw [toSize_natCast h]
  unfold npos
  omega

/-- A negative position lies behind every string. -/
theorem toSize_of_neg {n : Int} (h : minInt ≤ n) (h' : n < 0) : 2 ^ 63 ≤ toSize n := by
  unfold minInt at h
  unfold toSize
  omega

theorem toSize_eq_npos {n : Int} (h : minInt ≤ n) (h' : n ≤ maxInt) : toSize n = npos ↔ n = -1 := by
  unfold minInt at h
  unfold maxInt at h'
  unfold toSize npos
  omega

end Conversions

/-! ## Searching and cutting -/

section Search

variable {s a b : Bytes} {c : UInt8} {pos n : Nat}

/-- Nothing is found, or the first occurrence behind the start is. -/
theorem find_cases (s : Bytes) (c : UInt8) (pos : Nat) :
    (c ∉ s.drop pos ∧ find s c pos = npos) ∨
      ∃ a b, s.drop pos = a ++ c :: b ∧ c ∉ a ∧ find s c pos = pos + a.length := by
  unfold find
  cases h : (s.drop pos).findIdx? (· == c) with
  | none =>
      refine .inl ⟨?_, rfl⟩
      intro hmem
      have hfalse := List.findIdx?_eq_none_iff.mp h c hmem
      simp at hfalse
  | some i =>
      obtain ⟨hlt, hhere, hbefore⟩ := List.findIdx?_eq_some_iff_getElem.mp h
      refine .inr ⟨(s.drop pos).take i, (s.drop pos).drop (i + 1), ?_, ?_, ?_⟩
      · rw [beq_iff_eq] at hhere
        conv_lhs => rw [← List.take_append_drop i (s.drop pos), List.drop_eq_getElem_cons hlt, hhere]
      · intro hmem
        obtain ⟨j, hj, hc⟩ := List.mem_take_iff_getElem.mp hmem
        have hfalse := hbefore j (by omega)
        rw [hc] at hfalse
        simp at hfalse
      · rw [List.length_take, Nat.min_eq_left hlt.le]

theorem find_of_notMem (h : c ∉ s.drop pos) : find s c pos = npos := by
  rcases find_cases s c pos with ⟨-, hfind⟩ | ⟨a, b, hs, -, -⟩
  · exact hfind
  · exact absurd (by rw [hs]; simp) h

theorem find_of_split (h : s.drop pos = a ++ c :: b) (hc : c ∉ a) : find s c pos = pos + a.length := by
  have hidx : (s.drop pos).findIdx? (· == c) = some a.length := by
    have hnone : a.findIdx? (· == c) = none := by
      rw [List.findIdx?_eq_none_iff]
      intro x hx
      rw [beq_eq_false_iff_ne]
      rintro rfl
      exact hc hx
    rw [h, List.findIdx?_append, hnone]
    simp [List.findIdx?_cons]
  unfold find
  rw [hidx]

/-- Where there is an occurrence, the first one is found, with no other between it and the start. -/
theorem find_le {k : Nat} (hk : s[k]? = some c) (h : pos ≤ k) :
    ∃ j, find s c pos = j ∧ j ≤ k ∧ s[j]? = some c ∧ (s.drop pos).count c = (s.drop j).count c := by
  have hdrop : (s.drop pos)[k - pos]? = some c := by
    rw [List.getElem?_drop, Nat.add_sub_cancel' h, hk]
  rcases find_cases s c pos with ⟨hnone, -⟩ | ⟨a, b, hs, ha, hfind⟩
  · exact absurd (List.mem_of_getElem? hdrop) hnone
  · refine ⟨pos + a.length, hfind, ?_, ?_, ?_⟩
    · by_contra hlt
      rw [hs, List.getElem?_append_left (by omega)] at hdrop
      exact ha (List.mem_of_getElem? hdrop)
    · rw [← List.getElem?_drop, hs, List.getElem?_append_right le_rfl]
      simp
    · rw [← List.drop_drop, hs, List.count_append, List.count_eq_zero_of_not_mem ha,
        List.drop_left, Nat.zero_add]

theorem count_drop {k : Nat} (hk : s[k]? = some c) :
    (s.drop k).count c = (s.drop (k + 1)).count c + 1 := by
  obtain ⟨hlt, hc⟩ := List.getElem?_eq_some_iff.mp hk
  rw [List.drop_eq_getElem_cons hlt, hc, List.count_cons_self]

theorem substr_eq_ok {t : Bytes} (h : substr s pos n = .ok t) : pos ≤ s.length := by
  unfold substr at h
  split at h
  · cases h
  · omega

theorem substr_of_le (h : pos ≤ s.length) : substr s pos n = .ok ((s.drop pos).take n) :=
  if_neg (not_lt.mpr h)

/-- To the end of the string. -/
theorem substr_npos (h : pos ≤ s.length) (hlen : s.length < 2 ^ 63) :
    substr s pos npos = .ok (s.drop pos) := by
  rw [substr_of_le h, List.take_of_length_le]
  rw [List.length_drop]
  unfold npos
  omega

end Search

/-! ## Decimal numbers -/

section Decimal

theorem toNat_of_isDigit {c : Char} (h : c.isDigit = true) : 48 ≤ c.toNat ∧ c.toNat ≤ 57 :=
  Char.isDigit_iff_toNat.mp h

theorem digitValue_of_isDigit {c : Char} (h : c.isDigit = true) :
    digitValue 10 (UInt8.ofNat c.toNat) = some (c.toNat - 48) := by
  obtain ⟨hlo, hhi⟩ := toNat_of_isDigit h
  have hnat : (UInt8.ofNat c.toNat).toNat = c.toNat := by
    rw [UInt8.toNat_ofNat']
    omega
  unfold digitValue
  rw [hnat]
  simp only [hlo, hhi, and_self, if_true]
  exact if_pos (by omega)

/-- Reading digits is what the text of a number is defined for. -/
theorem scanDigits_map {l : List Char} (h : ∀ c ∈ l, c.isDigit = true) (acc : Nat) :
    scanDigits 10 acc (l.map fun c => UInt8.ofNat c.toNat) = Nat.ofDigitChars 10 l acc := by
  induction l generalizing acc with
  | nil => simp [scanDigits]
  | cons c l ih =>
      simp only [List.forall_mem_cons] at h
      rw [List.map_cons, scanDigits, digitValue_of_isDigit h.1, Nat.ofDigitChars_cons]
      exact ih h.2 _

/-- A digit is neither white space nor a sign. -/
theorem isSpace_of_isDigit {c : Char} (h : c.isDigit = true) :
    isSpace (UInt8.ofNat c.toNat) = false ∧ UInt8.ofNat c.toNat ≠ 45 ∧ UInt8.ofNat c.toNat ≠ 43 := by
  obtain ⟨hlo, hhi⟩ := toNat_of_isDigit h
  generalize c.toNat = n at hlo hhi
  interval_cases n <;> decide

theorem dropRadix_ten (s : Bytes) : dropRadix 10 s = s := by
  unfold dropRadix
  split
  · exact if_neg (by simp)
  · rfl

theorem scanInt_digitText (n : Nat) : scanInt 10 (digitText 10 n) = some (n : Int) := by
  have hdigits : ∀ c ∈ Nat.toDigits 10 n, c.isDigit = true := fun c hc =>
    Nat.isDigit_of_mem_toDigits (by decide) (by decide) hc
  have hvalue : scanDigits 10 0 (digitText 10 n) = n := by
    rw [digitText, scanDigits_map hdigits, Nat.ofDigitChars_ten_toDigits]
  obtain ⟨c, l, hcl⟩ := List.exists_cons_of_ne_nil (Nat.toDigits_ne_nil (n := n) (b := 10))
  have hc := hdigits c (by rw [hcl]; simp)
  obtain ⟨hspace, hminus, hplus⟩ := isSpace_of_isDigit hc
  -- the text begins with its digits
  have htext : digitText 10 n = UInt8.ofNat c.toNat :: l.map fun c => UInt8.ofNat c.toNat := by
    rw [digitText, hcl]
    rfl
  unfold scanInt
  rw [htext] at hvalue ⊢
  rw [List.dropWhile_cons_of_neg (by simp [hspace])]
  simp only [List.head?_cons, Option.some.injEq, hminus, hplus, or_self, if_false, dropRadix_ten,
    Option.bind_some, digitValue_of_isDigit hc, hvalue]

theorem stoi_digitText {n : Nat} (h : n ≤ maxInt) : stoi (digitText 10 n) = .ok (n : Int) := by
  unfold stoi
  rw [scanInt_digitText]
  refine if_pos ⟨?_, h⟩
  unfold minInt
  omega

/-- Only digits. -/
theorem notMem_digitText {c : UInt8} (h : c < 48 ∨ 57 < c) (n : Nat) : c ∉ digitText 10 n := by
  intro hmem
  obtain ⟨d, hd, rfl⟩ := List.mem_map.mp hmem
  obtain ⟨hlo, hhi⟩ := toNat_of_isDigit (Nat.isDigit_of_mem_toDigits (by decide) (by decide) hd)
  generalize d.toNat = m at hlo hhi h
  interval_cases m <;> revert h <;> decide

end Decimal

end CString

end DcfsClient
