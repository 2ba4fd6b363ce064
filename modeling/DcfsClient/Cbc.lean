import DcfsClient.Memory

/-!
# Cipher block chaining and padding

Chaining over any type of blocks, with any operation `mix` that undoes itself and any permutation of the
blocks. Both directions are maps of lists of blocks and inverse to each other, and what comes out up to
a block is determined by what goes in up to that block, and determines it.

`pad` fills a string up to a multiple of `n` with bytes that say how many they are. `unpad` accepts
exactly the padded strings.
-/

namespace DcfsClient

namespace Cbc

variable {α : Type} {mix : α → α → α} {E D : α → α} {ps qs : List α}

def encrypt (mix : α → α → α) (E : α → α) : α → List α → List α
  | _, [] => []
  | iv, p :: ps => E (mix p iv) :: encrypt mix E (E (mix p iv)) ps

def decrypt (mix : α → α → α) (D : α → α) : α → List α → List α
  | _, [] => []
  | iv, c :: cs => mix (D c) iv :: decrypt mix D c cs

@[simp] theorem length_encrypt (iv : α) : (encrypt mix E iv ps).length = ps.length := by
  induction ps generalizing iv with
  | nil => rfl
  | cons p ps ih => simp [encrypt, ih]

theorem take_encrypt (iv : α) (k : Nat) :
    (encrypt mix E iv ps).take k = encrypt mix E iv (ps.take k) := by
  induction ps generalizing iv k with
  | nil => simp [encrypt]
  | cons p ps ih =>
      cases k with
      | zero => rfl
      | succ k => simp [encrypt, ih]

theorem decrypt_encrypt (hmix : ∀ a b, mix (mix a b) b = a) (hE : Function.LeftInverse D E)
    (iv : α) : decrypt mix D iv (encrypt mix E iv ps) = ps := by
  induction ps generalizing iv with
  | nil => rfl
  | cons p ps ih => simp [encrypt, decrypt, ih, hE (mix p iv), hmix]

theorem encrypt_decrypt (hmix : ∀ a b, mix (mix a b) b = a) (hE : Function.RightInverse D E)
    (iv : α) : encrypt mix E iv (decrypt mix D iv ps) = ps := by
  induction ps generalizing iv with
  | nil => rfl
  | cons c cs ih => simp [encrypt, decrypt, ih, hE c, hmix]

theorem encrypt_injective (hmix : ∀ a b, mix (mix a b) b = a) (hE : Function.LeftInverse D E)
    (iv : α) : Function.Injective (encrypt mix E iv) := by
  intro ps qs h
  have hdec := congrArg (decrypt mix D iv) h
  rwa [decrypt_encrypt hmix hE, decrypt_encrypt hmix hE] at hdec

/-- Two texts agree on their first blocks exactly if their encryptions do. -/
theorem take_encrypt_eq_iff (hmix : ∀ a b, mix (mix a b) b = a) (hE : Function.LeftInverse D E)
    (iv : α) (k : Nat) :
    (encrypt mix E iv ps).take k = (encrypt mix E iv qs).take k ↔ ps.take k = qs.take k := by
  rw [take_encrypt, take_encrypt]
  exact (encrypt_injective hmix hE iv).eq_iff

end Cbc

namespace Padding

variable {n : Nat} {b m : List UInt8}

def padLen (n : Nat) (m : List UInt8) : Nat := n - m.length % n

def pad (n : Nat) (m : List UInt8) : List UInt8 :=
  m ++ List.replicate (padLen n m) (UInt8.ofNat (padLen n m))

def unpad (n : Nat) (b : List UInt8) : Option (List UInt8) :=
  b.getLast?.bind fun x =>
    let k := x.toNat
    if 0 < k ∧ k ≤ n ∧ k ≤ b.length ∧ b.drop (b.length - k) = List.replicate k x then
      some (b.take (b.length - k))
    else none

theorem padLen_pos (hn : 0 < n) : 0 < padLen n m := Nat.sub_pos_of_lt (Nat.mod_lt _ hn)

theorem padLen_le : padLen n m ≤ n := Nat.sub_le _ _

theorem length_pad : (pad n m).length = m.length + padLen n m := by simp [pad]

theorem length_pad_mod (hn : 0 < n) : (pad n m).length % n = 0 := by
  have hlt := Nat.mod_lt m.length hn
  have hsplit := Nat.div_add_mod m.length n
  have hlen : (pad n m).length = n * (m.length / n + 1) := by
    rw [length_pad, padLen, Nat.mul_succ]
    omega
  rw [hlen, Nat.mul_mod_right]

theorem unpad_pad (hn : 0 < n) (hn' : n < 256) : unpad n (pad n m) = some m := by
  have hpos := padLen_pos (m := m) hn
  have hle := padLen_le (n := n) (m := m)
  have hbyte : (UInt8.ofNat (padLen n m)).toNat = padLen n m :=
    UInt8.toNat_ofNat_of_lt' (by simp only [UInt8.size]; omega)
  have hlast : (pad n m).getLast? = some (UInt8.ofNat (padLen n m)) := by
    rw [pad, List.getLast?_append, List.getLast?_replicate, if_neg (by omega)]
    rfl
  have hcut : (pad n m).length - padLen n m = m.length := by rw [length_pad, Nat.add_sub_cancel]
  have hrest : (pad n m).drop m.length = List.replicate (padLen n m) (UInt8.ofNat (padLen n m)) :=
    List.drop_left
  have hfront : (pad n m).take m.length = m := List.take_left
  simp only [unpad, hlast, Option.bind_some, hbyte, hcut, hrest, hfront, and_true]
  rw [if_pos]
  exact ⟨hpos, hle, by rw [length_pad]; omega⟩

/-- Behind a padding of `k` bytes there is room for exactly `k` bytes. -/
theorem padLen_of_length {q k : Nat} (hk : 0 < k) (hkn : k ≤ n) (hm : m.length + k = n * q) :
    padLen n m = k := by
  have hq : 0 < q := Nat.pos_of_ne_zero fun h => by simp [h] at hm; omega
  obtain ⟨q, rfl⟩ := Nat.exists_eq_succ_of_ne_zero hq.ne'
  rw [Nat.mul_succ] at hm
  have hlen : m.length = n * q + (n - k) := by omega
  rw [padLen, hlen, Nat.mul_add_mod, Nat.mod_eq_of_lt (by omega)]
  omega

theorem pad_of_unpad (hb : b.length % n = 0) (h : unpad n b = some m) : pad n m = b := by
  obtain ⟨x, -, h⟩ := Option.bind_eq_some_iff.mp h
  simp only [Option.ite_none_right_eq_some, Option.some.injEq] at h
  obtain ⟨⟨hpos, hle, hlen, hrest⟩, rfl⟩ := h
  obtain ⟨q, hq⟩ := Nat.dvd_of_mod_eq_zero hb
  have hcut : (b.take (b.length - x.toNat)).length + x.toNat = n * q := by
    rw [List.length_take, ← hq]
    omega
  rw [pad, padLen_of_length hpos hle hcut, UInt8.ofNat_toNat, ← hrest, List.take_append_drop]

/-- What is accepted is what was padded. -/
theorem unpad_eq_some_iff (hn : 0 < n) (hn' : n < 256) (hb : b.length % n = 0) :
    unpad n b = some m ↔ pad n m = b := by
  constructor
  · exact pad_of_unpad hb
  · rintro rfl
    exact unpad_pad hn hn'

end Padding

end DcfsClient
