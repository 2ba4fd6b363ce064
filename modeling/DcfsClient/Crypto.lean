import DcfsClient.Capsule
import DcfsClient.Cbc

/-!
# Symmetric encryption: `encrypt_symmetric` and `decrypt_symmetric` of `crypto.cpp`

Both functions run one context of OpenSSL's EVP interface: initialize it for AES-128 in CBC mode, pass the
whole input to one `EVP_CipherUpdate`, and put what `EVP_CipherFinal_ex` adds right behind. `Evp` is that
interface, and `Evp.Lawful` is what its manual says about one update and the final call. The block cipher
is any family of permutations.

The client passes no initialization vector, which is one of zeros, and a file has one key. What the
ciphertexts of two blocks then have in common is `same_start_iff`.
-/

namespace DcfsClient

abbrev AesBlock := Vector UInt8 16

namespace AesBlock

def mix (a b : AesBlock) : AesBlock := Vector.zipWith (· ^^^ ·) a b

def ofBytes (b : Bytes) : AesBlock := Vector.ofFn fun i => b.getD i 0

def split (b : Bytes) : List AesBlock := (chunks 16 b).map ofBytes

def join (l : List AesBlock) : Bytes := (l.map Vector.toList).flatten

theorem mix_mix (a b : AesBlock) : mix (mix a b) b = a := by
  ext i hi
  simp only [mix, Vector.getElem_zipWith]
  rw [UInt8.xor_assoc, UInt8.xor_self, UInt8.xor_zero]

theorem toList_ofBytes {b : Bytes} (h : b.length = 16) : (ofBytes b).toList = b := by
  apply List.ext_getElem
  · simp [h]
  · intro i hi hi'
    simp [ofBytes, List.getD_eq_getElem?_getD, hi']

theorem ofBytes_toList (v : AesBlock) : ofBytes v.toList = v := by
  ext i hi
  simp [ofBytes, List.getD_eq_getElem?_getD]

theorem length_join (l : List AesBlock) : (join l).length = 16 * l.length := by
  have hall : ∀ p ∈ l.map Vector.toList, p.length = 16 := by simp
  rw [join, length_flatten_of_forall _ hall, List.length_map, Nat.mul_comm]

theorem split_join (l : List AesBlock) : split (join l) = l := by
  rw [split, join, chunks_flatten (by decide) _ (by simp), List.map_map]
  exact (List.map_congr_left fun v _ => ofBytes_toList v).trans (List.map_id l)

theorem join_split {b : Bytes} (h : b.length % 16 = 0) : join (split b) = b := by
  obtain ⟨k, hk⟩ := Nat.dvd_of_mod_eq_zero h
  obtain ⟨ls, rfl, hls⟩ := exists_flatten_eq k b (by rw [hk, Nat.mul_comm])
  rw [join, split, chunks_flatten (by decide) ls hls, List.map_map]
  congr 1
  exact (List.map_congr_left fun p hp => toList_ofBytes (hls p hp)).trans (List.map_id ls)

theorem length_split {b : Bytes} (h : b.length % 16 = 0) : 16 * (split b).length = b.length := by
  rw [← length_join, join_split h]

/-- The first blocks of a string are its first bytes. -/
theorem take_join (l : List AesBlock) (k : Nat) : (join l).take (16 * k) = join (l.take k) := by
  induction l generalizing k with
  | nil => simp [join]
  | cons v l ih =>
      cases k with
      | zero => simp [join]
      | succ k =>
          have hv : v.toList.length = 16 := by simp
          have hjoin : join (v :: l) = v.toList ++ join l := rfl
          have hjoin' : join (v :: l.take k) = v.toList ++ join (l.take k) := rfl
          rw [hjoin, List.take_succ_cons, hjoin', ← ih, List.take_append, hv, Nat.mul_succ,
            Nat.add_sub_cancel, List.take_of_length_le (by rw [hv]; omega)]

theorem join_injective : Function.Injective join := by
  intro l l' h
  rw [← split_join l, h, split_join]

end AesBlock

/-! ## The interface of OpenSSL -/

/-- `init key iv enc`, without a vector for `NULL`, and whether `EVP_DecryptInit_ex` succeeds. An update
gives its output and the next context, and nothing when it fails, as the final call. -/
structure Evp where
  Ctx : Type
  init : Bytes → Option AesBlock → Bool → Ctx
  decryptInit : Bytes → Option AesBlock → Bool
  cipherUpdate : Ctx → Bytes → Option (Bytes × Ctx)
  cipherFinal : Ctx → Option Bytes

namespace Evp

def encryption (aes : Bytes → Equiv.Perm AesBlock) (key : Bytes) (iv : Option AesBlock) (m : Bytes) :
    Bytes :=
  AesBlock.join (Cbc.encrypt AesBlock.mix (aes key) (iv.getD (Vector.replicate 16 0))
    (AesBlock.split (Padding.pad 16 m)))

def decryption (aes : Bytes → Equiv.Perm AesBlock) (key : Bytes) (iv : Option AesBlock) (c : Bytes) :
    Option Bytes :=
  if c.length % 16 = 0 then
    Padding.unpad 16 (AesBlock.join (Cbc.decrypt AesBlock.mix (aes key).symm
      (iv.getD (Vector.replicate 16 0)) (AesBlock.split c)))
  else none

/-- The documented behaviour on strings with a length that is an `int`, with room for the padding. -/
structure Lawful (O : Evp) (aes : Bytes → Equiv.Perm AesBlock) : Prop where
  decryptInit_ok : ∀ key iv, O.decryptInit key iv = true
  encrypts : ∀ key iv m, m.length + 16 < 2 ^ 31 → ∃ out ctx last,
    O.cipherUpdate (O.init key iv true) m = some (out, ctx) ∧ O.cipherFinal ctx = some last ∧
    out ++ last = encryption aes key iv m
  decrypts : ∀ key iv c, c.length < 2 ^ 31 → ∃ out ctx,
    O.cipherUpdate (O.init key iv false) c = some (out, ctx) ∧
    (O.cipherFinal ctx).map (out ++ ·) = decryption aes key iv c

end Evp

/-! ## `crypto.cpp` -/

structure CipherResult where
  ret : Int
  outbuf : Mem
  outlen : Nat

namespace CipherResult

def text (r : CipherResult) : Bytes := r.outbuf.bytesAt 0 r.outlen

end CipherResult

def Mem.placeAt (dst : Mem) (off : Nat) (b : Bytes) : Mem := fun i =>
  if off ≤ i then b[i - off]?.getD (dst i) else dst i

def runCipher (O : Evp) (ctx : O.Ctx) (inbuf : Bytes) (outbuf : Mem) (outlen : Nat) : CipherResult :=
  match O.cipherUpdate ctx inbuf with
  | none => ⟨-1, outbuf, outlen⟩
  | some (out, ctx) =>
    let outbuf := outbuf.place out
    let outlen := out.length
    match O.cipherFinal ctx with
    | none => ⟨-1, outbuf, outlen⟩
    | some last => ⟨1, outbuf.placeAt outlen last, outlen + last.length⟩

def encryptSymmetric (O : Evp) (key : Bytes) (iv : Option AesBlock) (inbuf : Bytes) (outbuf : Mem)
    (outlen : Nat) : CipherResult :=
  runCipher O (O.init key iv true) inbuf outbuf outlen

def decryptSymmetric (O : Evp) (key : Bytes) (iv : Option AesBlock) (inbuf : Bytes) (outbuf : Mem)
    (outlen : Nat) : CipherResult :=
  if O.decryptInit key iv then runCipher O (O.init key iv false) inbuf outbuf outlen
  else ⟨-1, outbuf, outlen⟩

/-! ## What the padded chain gives -/

namespace Evp

variable {aes : Bytes → Equiv.Perm AesBlock} {key m m' c : Bytes} {iv : Option AesBlock}

theorem length_encryption : (encryption aes key iv m).length = m.length + Padding.padLen 16 m := by
  rw [encryption, AesBlock.length_join, Cbc.length_encrypt,
    AesBlock.length_split (Padding.length_pad_mod (by decide)), Padding.length_pad]

theorem encryption_injective (h : encryption aes key iv m = encryption aes key iv m') : m = m' := by
  have hblocks := Cbc.encrypt_injective AesBlock.mix_mix (aes key).leftInverse_symm _
    (AesBlock.join_injective h)
  have hpad := congrArg AesBlock.join hblocks
  rw [AesBlock.join_split (Padding.length_pad_mod (by decide)),
    AesBlock.join_split (Padding.length_pad_mod (by decide))] at hpad
  have hunpad := congrArg (Padding.unpad 16) hpad
  rw [Padding.unpad_pad (by decide) (by decide), Padding.unpad_pad (by decide) (by decide)] at hunpad
  exact Option.some.inj hunpad

/-- A string decrypts to `m` exactly if it is the encryption of `m`. -/
theorem decryption_eq_some_iff :
    decryption aes key iv c = some m ↔ encryption aes key iv m = c := by
  by_cases hc : c.length % 16 = 0
  · have hmod : (AesBlock.join (Cbc.decrypt AesBlock.mix (aes key).symm
        (iv.getD (Vector.replicate 16 0)) (AesBlock.split c))).length % 16 = 0 := by
      rw [AesBlock.length_join, Nat.mul_mod_right]
    rw [decryption, if_pos hc, Padding.unpad_eq_some_iff (by decide) (by decide) hmod]
    constructor
    · intro hpad
      rw [encryption, hpad, AesBlock.split_join,
        Cbc.encrypt_decrypt AesBlock.mix_mix (aes key).rightInverse_symm, AesBlock.join_split hc]
    · rintro rfl
      rw [encryption, AesBlock.split_join, Cbc.decrypt_encrypt AesBlock.mix_mix (aes key).leftInverse_symm,
        AesBlock.join_split (Padding.length_pad_mod (by decide))]
  · rw [decryption, if_neg hc]
    constructor
    · intro h
      cases h
    · rintro rfl
      refine absurd ?_ hc
      rw [length_encryption, ← Padding.length_pad]
      exact Padding.length_pad_mod (by decide)

/-- The first blocks of two texts are the same exactly if those of their encryptions are. -/
theorem take_encryption_eq_iff {k : Nat} (hm : 16 * k ≤ m.length) (hm' : 16 * k ≤ m'.length) :
    (encryption aes key iv m).take (16 * k) = (encryption aes key iv m').take (16 * k) ↔
      m.take (16 * k) = m'.take (16 * k) := by
  have hstart : ∀ {x : Bytes}, 16 * k ≤ x.length →
      AesBlock.join ((AesBlock.split (Padding.pad 16 x)).take k) = x.take (16 * k) := by
    intro x hx
    rw [← AesBlock.take_join, AesBlock.join_split (Padding.length_pad_mod (by decide)), Padding.pad,
      List.take_append_of_le_length hx]
  rw [encryption, encryption, AesBlock.take_join, AesBlock.take_join,
    AesBlock.join_injective.eq_iff, Cbc.take_encrypt_eq_iff AesBlock.mix_mix (aes key).leftInverse_symm,
    ← AesBlock.join_injective.eq_iff, hstart hm, hstart hm']

end Evp

/-! ## The calls -/

theorem bytesAt_placeAt (dst : Mem) (out last : Bytes) :
    ((dst.place out).placeAt out.length last).bytesAt 0 (out.length + last.length) = out ++ last := by
  apply List.ext_getElem?
  intro i
  rw [Mem.getElem?_bytesAt, Nat.zero_add]
  by_cases hi : i < out.length
  · rw [if_pos (by omega), List.getElem?_append_left hi]
    simp [Mem.placeAt, Mem.place, Nat.not_le.mpr hi, List.getElem?_eq_getElem hi]
  · rw [List.getElem?_append_right (Nat.not_lt.mp hi)]
    split
    next hlt =>
      have hlast : i - out.length < last.length := by omega
      simp [Mem.placeAt, Nat.not_lt.mp hi, List.getElem?_eq_getElem hlast]
    next hge => exact (List.getElem?_eq_none (by omega)).symm

section Calls

variable {O : Evp} {aes : Bytes → Equiv.Perm AesBlock} {m c : Bytes} (key : Bytes)
  (iv : Option AesBlock) (outbuf : Mem) (outlen : Nat)

theorem encryptSymmetric_spec (hO : O.Lawful aes) (hm : m.length + 16 < 2 ^ 31) :
    (encryptSymmetric O key iv m outbuf outlen).ret = 1 ∧
      (encryptSymmetric O key iv m outbuf outlen).text = Evp.encryption aes key iv m := by
  obtain ⟨out, ctx, last, hupdate, hfinal, htext⟩ := hO.encrypts key iv m hm
  simp only [encryptSymmetric, runCipher, hupdate, hfinal, CipherResult.text, true_and]
  rw [bytesAt_placeAt, htext]

/-- A decryption succeeds with the text behind the padding, and returns `-1` if there is none. -/
theorem decryptSymmetric_spec (hO : O.Lawful aes) (hc : c.length < 2 ^ 31) :
    (∃ m, Evp.decryption aes key iv c = some m ∧
        (decryptSymmetric O key iv c outbuf outlen).ret = 1 ∧
        (decryptSymmetric O key iv c outbuf outlen).text = m) ∨
      Evp.decryption aes key iv c = none ∧
        (decryptSymmetric O key iv c outbuf outlen).ret = -1 := by
  obtain ⟨out, ctx, hupdate, hfinal⟩ := hO.decrypts key iv c hc
  have hinit := hO.decryptInit_ok key iv
  cases hlast : O.cipherFinal ctx with
  | none =>
      rw [hlast] at hfinal
      exact .inr ⟨hfinal.symm, by simp [decryptSymmetric, hinit, runCipher, hupdate, hlast]⟩
  | some last =>
      rw [hlast] at hfinal
      refine .inl ⟨out ++ last, hfinal.symm, ?_, ?_⟩
      · simp [decryptSymmetric, hinit, runCipher, hupdate, hlast]
      · simp only [decryptSymmetric, hinit, if_true, runCipher, hupdate, hlast, CipherResult.text]
        exact bytesAt_placeAt outbuf out last

theorem length_encryptSymmetric (hO : O.Lawful aes) (hm : m.length + 16 < 2 ^ 31) :
    (encryptSymmetric O key iv m outbuf outlen).text.length = m.length + 16 - m.length % 16 := by
  have hlt := Nat.mod_lt m.length (show 0 < 16 by decide)
  rw [(encryptSymmetric_spec key iv outbuf outlen hO hm).2, Evp.length_encryption, Padding.padLen]
  omega

/-- Encryption succeeds with a whole number of blocks, one more than the text fills, and decryption with
the same key and vector succeeds with this text on what encryption gave and on nothing else. -/
theorem symmetric_round_trip (hO : O.Lawful aes) (hm : m.length + 16 < 2 ^ 31) :
    (encryptSymmetric O key iv m outbuf outlen).ret = 1 ∧
    (encryptSymmetric O key iv m outbuf outlen).text.length = m.length + 16 - m.length % 16 ∧
    ∀ c outbuf' outlen', c.length < 2 ^ 31 →
      ((decryptSymmetric O key iv c outbuf' outlen').ret = 1 ∧
          (decryptSymmetric O key iv c outbuf' outlen').text = m ↔
        c = (encryptSymmetric O key iv m outbuf outlen).text) := by
  obtain ⟨hret, htext⟩ := encryptSymmetric_spec key iv outbuf outlen hO hm
  refine ⟨hret, length_encryptSymmetric key iv outbuf outlen hO hm, ?_⟩
  intro c outbuf' outlen' hc
  rw [htext]
  rcases decryptSymmetric_spec key iv outbuf' outlen' hO hc with
    ⟨m', hdec, hret', htext'⟩ | ⟨hdec, hret'⟩
  · rw [htext']
    constructor
    · rintro ⟨-, rfl⟩
      exact (Evp.decryption_eq_some_iff.mp hdec).symm
    · rintro rfl
      have hdec' := Evp.decryption_eq_some_iff.mp hdec
      exact ⟨hret', Evp.encryption_injective hdec'⟩
  · constructor
    · rintro ⟨hret'', -⟩
      rw [hret'] at hret''
      cases hret''
    · rintro rfl
      rw [Evp.decryption_eq_some_iff.mpr rfl] at hdec
      cases hdec

/-- With one key and one vector, two texts agree on their first blocks exactly if what is stored for them
does. -/
theorem same_start_iff {m' : Bytes} {k : Nat} (hO : O.Lawful aes) (hm : m.length + 16 < 2 ^ 31)
    (hm' : m'.length + 16 < 2 ^ 31) (hk : 16 * k ≤ m.length) (hk' : 16 * k ≤ m'.length)
    (outbuf' : Mem) (outlen' : Nat) :
    (encryptSymmetric O key iv m outbuf outlen).text.take (16 * k) =
        (encryptSymmetric O key iv m' outbuf' outlen').text.take (16 * k) ↔
      m.take (16 * k) = m'.take (16 * k) := by
  rw [(encryptSymmetric_spec key iv outbuf outlen hO hm).2,
    (encryptSymmetric_spec key iv outbuf' outlen' hO hm').2]
  exact Evp.take_encryption_eq_iff hk hk'

end Calls

/-! ## The platform of the client -/

section Instance

variable {P : Platform} {O : Evp} {aes : Bytes → Equiv.Perm AesBlock} {key b : Bytes}

/-- The client passes no vector, and looks at the output buffer whatever the call returns. -/
def Platform.withCipher (P : Platform) (O : Evp) : Platform :=
  { P with
    encrypt := fun key b => (encryptSymmetric O key none b (fun _ => P.junk) 0).text
    decrypt := fun key c => (decryptSymmetric O key none c (fun _ => P.junk) 0).text }

theorem Platform.withCipher_decrypt_encrypt (hO : O.Lawful aes) (hb : b.length + 16 < 2 ^ 31) :
    (P.withCipher O).decrypt key ((P.withCipher O).encrypt key b) = b := by
  have hlen := length_encryptSymmetric key none (fun _ => P.junk) 0 hO hb
  have htext := (encryptSymmetric_spec key none (fun _ => P.junk) 0 hO hb).2
  simp only [Platform.withCipher]
  rcases decryptSymmetric_spec (c := (encryptSymmetric O key none b (fun _ => P.junk) 0).text)
    key none (fun _ => P.junk) 0 hO (by rw [hlen]; omega) with ⟨m, hdec, -, htext'⟩ | ⟨hdec, -⟩
  · rw [htext']
    exact Evp.encryption_injective ((Evp.decryption_eq_some_iff.mp hdec).trans htext)
  · rw [htext, Evp.decryption_eq_some_iff.mpr rfl] at hdec
    cases hdec

theorem Platform.withCipher_encrypt_length (hO : O.Lawful aes) (hb : b.length + 16 < 2 ^ 31)
    (hmod : b.length % 16 = 0) :
    ((P.withCipher O).encrypt key b).length = b.length + aesPadLen := by
  have hlen := length_encryptSymmetric key none (fun _ => P.junk) 0 hO hb
  rw [hmod, Nat.sub_zero] at hlen
  exact hlen

/-- What is assumed of the encryption holds of AES-128 in CBC mode, whatever is behind the rest of the
platform. -/
theorem Platform.Lawful.withCipher (hP : P.Lawful) (hO : O.Lawful aes) : (P.withCipher O).Lawful where
  hash_length := hP.hash_length
  header_injective := hP.header_injective
  parse_serialize := hP.parse_serialize
  parse_nil := hP.parse_nil
  decrypt_encrypt _ _ hb := P.withCipher_decrypt_encrypt hO hb
  encrypt_length _ _ hb hmod := P.withCipher_encrypt_length hO hb hmod
  verify_sign := hP.verify_sign
  header_fits := hP.header_fits

end Instance

/-! ## An interface to compute with -/

namespace Evp

variable (aes : Bytes → Equiv.Perm AesBlock)

structure WholeCtx where
  key : Bytes
  iv : Option AesBlock
  enc : Bool
  last : Option Bytes := none

/-- The update puts out the blocks that the padding is sure not to touch, the final call the rest. -/
def whole : Evp where
  Ctx := WholeCtx
  init key iv enc := { key := key, iv := iv, enc := enc }
  decryptInit _ _ := true
  cipherUpdate ctx b :=
    if ctx.enc then
      let cut := b.length / 16 * 16
      let c := encryption aes ctx.key ctx.iv b
      some (c.take cut, { ctx with last := some (c.drop cut) })
    else
      let cut := (b.length - 1) / 16 * 16
      let m := AesBlock.join (Cbc.decrypt AesBlock.mix (aes ctx.key).symm
        (ctx.iv.getD (Vector.replicate 16 0)) (AesBlock.split b))
      some (m.take cut, { ctx with last := (decryption aes ctx.key ctx.iv b).map (·.drop cut) })
  cipherFinal ctx := ctx.last

/-- What a decryption gives starts with all of its blocks but the last. -/
theorem take_of_decryption {key c m : Bytes} {iv : Option AesBlock}
    (h : decryption aes key iv c = some m) :
    (AesBlock.join (Cbc.decrypt AesBlock.mix (aes key).symm (iv.getD (Vector.replicate 16 0))
      (AesBlock.split c))).take ((c.length - 1) / 16 * 16) = m.take ((c.length - 1) / 16 * 16) := by
  obtain rfl := decryption_eq_some_iff.mp h
  have hpos := Padding.padLen_pos (n := 16) (m := m) (by decide)
  have hle := Padding.padLen_le (n := 16) (m := m)
  have hmod := Padding.length_pad_mod (n := 16) (m := m) (by decide)
  rw [Padding.length_pad] at hmod
  rw [length_encryption, encryption, AesBlock.split_join,
    Cbc.decrypt_encrypt AesBlock.mix_mix (aes key).leftInverse_symm,
    AesBlock.join_split (Padding.length_pad_mod (by decide)), Padding.pad,
    List.take_append_of_le_length (by omega)]

theorem whole_lawful : (whole aes).Lawful aes where
  decryptInit_ok _ _ := rfl
  encrypts key iv m _ := ⟨_, _, _, rfl, rfl, List.take_append_drop _ _⟩
  decrypts key iv c _ := by
    refine ⟨_, _, rfl, ?_⟩
    change ((decryption aes key iv c).map (·.drop ((c.length - 1) / 16 * 16))).map
      ((AesBlock.join (Cbc.decrypt AesBlock.mix (aes key).symm (iv.getD (Vector.replicate 16 0))
        (AesBlock.split c))).take ((c.length - 1) / 16 * 16) ++ ·) = decryption aes key iv c
    cases h : decryption aes key iv c with
    | none => rfl
    | some m =>
        simp only [Option.map_some, take_of_decryption aes h]
        rw [List.take_append_drop]

def toyAes (key : Bytes) : Equiv.Perm AesBlock where
  toFun v := AesBlock.mix v (AesBlock.ofBytes key)
  invFun v := AesBlock.mix v (AesBlock.ofBytes key)
  left_inv v := AesBlock.mix_mix v _
  right_inv v := AesBlock.mix_mix v _

end Evp

theorem symmetric_round_trip_hello :
    let O := Evp.whole Evp.toyAes
    let r := encryptSymmetric O [7] none [104, 101, 108, 108, 111] (fun _ => 0) 0
    r.ret = 1 ∧ r.text.length = 16 ∧
      (decryptSymmetric O [7] none r.text (fun _ => 0) 0).text = [104, 101, 108, 108, 111] := by
  have hround := symmetric_round_trip (m := [104, 101, 108, 108, 111]) [7] none (fun _ => 0) 0
    (Evp.whole_lawful Evp.toyAes) (by decide)
  obtain ⟨hret, hlen, hdec⟩ := hround
  refine ⟨hret, hlen, ?_⟩
  exact ((hdec _ (fun _ => 0) 0 (by rw [hlen]; decide)).mpr rfl).2

theorem same_start_iff_zeros :
    let O := Evp.whole Evp.toyAes
    (encryptSymmetric O [7] none (List.replicate 32 0) (fun _ => 0) 0).text.take (16 * 1) =
      (encryptSymmetric O [7] none (List.replicate 17 0) (fun _ => 0) 0).text.take (16 * 1) :=
  (same_start_iff [7] none (fun _ => 0) 0 (Evp.whole_lawful Evp.toyAes) (by decide) (by decide)
    (by decide) (by decide) (fun _ => 0) 0).mpr rfl

end DcfsClient
