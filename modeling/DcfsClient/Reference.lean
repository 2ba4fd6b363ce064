import DcfsClient.Capsule

/-!
# A platform to compute with

A toy instance of `Platform` that satisfies `Platform.Lawful`. Lengths are written in unary and a
field is its length followed by its bytes; the payload comes last and needs no length. The hash is a
polynomial in the first bytes of its argument behind a constant first byte, and encryption adds a
number to every byte and appends a block. None of this is secure or compact; it makes every function
of the model computable, and concrete runs can be evaluated.

`chainPlatform` is for runs that are too long to evaluate. Its hash of a header is the depth of the record
in the chains behind it, and its hash of anything else is made of a length and a first byte.
-/

namespace DcfsClient.Reference

def encNat : Nat → Bytes
  | 0 => [0]
  | n + 1 => 1 :: encNat n

def decNat : Bytes → Nat × Bytes
  | [] => (0, [])
  | b :: bs => if b = 0 then (0, bs) else let (n, rest) := decNat bs; (n + 1, rest)

def encBytes (b : Bytes) : Bytes := encNat b.length ++ b

def decBytes (l : Bytes) : Bytes × Bytes :=
  let (n, rest) := decNat l
  (rest.take n, rest.drop n)

def decMany : Nat → Bytes → List Bytes × Bytes
  | 0, l => ([], l)
  | n + 1, l =>
    let (b, rest) := decBytes l
    let (bs, rest) := decMany n rest
    (b :: bs, rest)

def encHeader (h : CapsuleHeader) : Bytes :=
  encNat h.sender ++ (encNat h.prevhash.length ++ (h.prevhash.flatMap encBytes ++
    (encBytes h.hash ++ (leBytes 8 h.timestamp.toNat ++ (encBytes h.msgtype ++
      encBytes h.replyaddr)))))

def decHeader (l : Bytes) : CapsuleHeader × Bytes :=
  let (sender, l) := decNat l
  let (count, l) := decNat l
  let (prevhash, l) := decMany count l
  let (hash, l) := decBytes l
  let timestamp := BitVec.ofNat 64 (ofLe (l.take 8))
  let (msgtype, l) := decBytes (l.drop 8)
  let (replyaddr, l) := decBytes l
  (⟨sender, prevhash, hash, timestamp, msgtype, replyaddr⟩, l)

def encPDU (p : CapsulePDU) : Bytes :=
  encHeader p.header ++ (encBytes p.headerHash ++ (encBytes p.signature ++ p.payloadInTransit))

def decPDU (l : Bytes) : CapsulePDU :=
  let (header, l) := decHeader l
  let (headerHash, l) := decBytes l
  let (signature, l) := decBytes l
  ⟨header, headerHash, signature, l⟩

def digest (b : Bytes) : Nat :=
  (b.take 256).foldl (fun acc x => acc * 257 + x.toNat + 1) 7

def platform : Platform where
  hash256 b := 1 :: leBytes 31 (digest b)
  serializeHeader := encHeader
  serialize := encPDU
  parse := decPDU
  encrypt k b := b.map (· + (k.headD 0 + 1)) ++ List.replicate aesPadLen 16
  decrypt k c := (c.take (c.length - aesPadLen)).map (· - (k.headD 0 + 1))
  sign b := b
  verify b sig := b == sig
  symmetricMiddlewareKey := List.replicate aesKeyLen 2
  replyaddr := []
  junk := 170

def depth (names : List Bytes) : Nat := (names.map fun name => ofLe name.tail + 1).foldr max 0

def chainHash (b : Bytes) : Bytes :=
  if b.head? = some 255 then 1 :: leBytes 31 (depth (decHeader b.tail).1.prevhash)
  else 2 :: leBytes 31 (b.length * 256 + (b.headD 0).toNat)

def chainPlatform : Platform where
  __ := platform
  hash256 := chainHash
  serializeHeader h := 255 :: encHeader h

def fileAt (t : BitVec 64) : Bytes := (Draft.mk .capsuleMeta [] none t).name platform

def zeroKey : Bytes := List.replicate aesKeyLen 0

/-! ## The codec -/

@[simp] theorem decNat_encNat (n : Nat) (rest : Bytes) : decNat (encNat n ++ rest) = (n, rest) := by
  induction n with
  | zero => simp [encNat, decNat]
  | succ n ih => simp [encNat, decNat, ih]

@[simp] theorem decBytes_encBytes (b rest : Bytes) : decBytes (encBytes b ++ rest) = (b, rest) := by
  simp [decBytes, encBytes, List.append_assoc]

@[simp] theorem decMany_flatMap (bs : List Bytes) (rest : Bytes) :
    decMany bs.length (bs.flatMap encBytes ++ rest) = (bs, rest) := by
  induction bs with
  | nil => simp [decMany]
  | cons b bs ih => simp [decMany, ih]

theorem decHeader_encHeader (h : CapsuleHeader) (rest : Bytes) :
    decHeader (encHeader h ++ rest) = (h, rest) := by
  have htake : ∀ l : Bytes, (leBytes 8 h.timestamp.toNat ++ l).take 8 =
      leBytes 8 h.timestamp.toNat := fun l => List.take_left' (length_leBytes 8 _)
  have hdrop : ∀ l : Bytes, (leBytes 8 h.timestamp.toNat ++ l).drop 8 = l :=
    fun l => List.drop_left' (length_leBytes 8 _)
  have htime : BitVec.ofNat 64 (h.timestamp.toNat % 256 ^ 8) = h.timestamp := by
    have hlt : h.timestamp.toNat < 256 ^ 8 := h.timestamp.isLt
    rw [Nat.mod_eq_of_lt hlt, BitVec.ofNat_toNat, BitVec.setWidth_eq]
  simp only [encHeader, decHeader, List.append_assoc, decNat_encNat, decMany_flatMap,
    decBytes_encBytes, htake, hdrop, ofLe_leBytes, htime]

theorem decPDU_encPDU (p : CapsulePDU) : decPDU (encPDU p) = p := by
  simp only [encPDU, decPDU, decHeader_encHeader, decBytes_encBytes]

theorem encHeader_injective : Function.Injective encHeader := by
  intro h h' he
  have hd := congrArg (fun l => (decHeader (l ++ [])).1) he
  simpa only [decHeader_encHeader] using hd

@[simp] theorem length_encNat (n : Nat) : (encNat n).length = n + 1 := by
  induction n with
  | zero => rfl
  | succ n ih => simp [encNat, ih]

@[simp] theorem length_encBytes (b : Bytes) : (encBytes b).length = 2 * b.length + 1 := by
  simp [encBytes]
  omega

theorem length_flatMap_encBytes (hs : List Bytes) (h : ∀ x ∈ hs, x.length = hashLen) :
    (hs.flatMap encBytes).length = 65 * hs.length := by
  induction hs with
  | nil => rfl
  | cons x hs ih =>
      have hx : x.length = 32 := h x (by simp)
      have hrest := ih (fun y hy => h y (by simp [hy]))
      simp only [List.flatMap_cons, List.length_append, length_encBytes, hx, hrest,
        List.length_cons]
      omega

theorem length_recordTypeToString (t : RecordType) : (recordTypeToString t).length ≤ 9 := by
  cases t <;> decide

/-! ## The platform keeps what the libraries promise -/

theorem hash256_length (b : Bytes) : (platform.hash256 b).length = hashLen := by
  simp [platform, hashLen]

/-- The room for headers, for any hash of the right length. -/
theorem header_fits {P : Platform} (hserialize : P.serialize = encPDU) (haddr : P.replyaddr = [])
    (hlength : ∀ b, (P.hash256 b).length = hashLen) (r : Draft) (hlen : r.prevhash.length ≤ 2)
    (hhash : ∀ h ∈ r.prevhash, h.length = hashLen) :
    (r.bytes P).length ≤ (r.payload.getD []).length + (recordHeaderSize + spareHashSpace) := by
  have hname : (r.name P).length = 32 := hlength _
  have hpay : (r.header P).hash.length ≤ 32 := by
    unfold Draft.header
    cases r.payload with
    | none => exact (by decide : zeroString.length ≤ 32)
    | some b => exact le_of_eq (hlength b)
  have htype := length_recordTypeToString r.type
  have hprev := length_flatMap_encBytes r.prevhash hhash
  have hbytes : (r.bytes P).length = (encHeader (r.header P)).length +
      (2 * 32 + 1 + (2 * 1 + 1 + (r.payload.getD []).length)) := by
    rw [Draft.bytes, hserialize]
    simp only [encPDU, List.length_append, length_encBytes]
    change _ + (2 * (r.name P).length + 1 + _) = _
    rw [hname]
    rfl
  have hheader : (encHeader (r.header P)).length = 1 + (r.prevhash.length + 1 +
      (65 * r.prevhash.length + (2 * (r.header P).hash.length + 1 +
        (8 + (2 * (recordTypeToString r.type).length + 1 + 1))))) := by
    simp only [encHeader, List.length_append, length_encNat, length_encBytes, length_leBytes]
    change 0 + 1 + (r.prevhash.length + 1 + ((r.prevhash.flatMap encBytes).length +
      (2 * (r.header P).hash.length + 1 +
        (8 + (2 * (recordTypeToString r.type).length + 1 + (2 * P.replyaddr.length + 1)))))) = _
    rw [hprev, haddr]
    rfl
  rw [hbytes, hheader]
  unfold recordHeaderSize spareHashSpace
  omega

theorem decrypt_encrypt (k b : Bytes) : platform.decrypt k (platform.encrypt k b) = b := by
  have hmap : ∀ c : UInt8, ((· - c) ∘ (· + c)) = (id : UInt8 → UInt8) := by
    intro c
    funext x
    simp
  simp [platform, hmap]

theorem lawful : platform.Lawful where
  hash_length := hash256_length
  header_injective := encHeader_injective
  parse_serialize := decPDU_encPDU
  parse_nil := rfl
  decrypt_encrypt k b _ := decrypt_encrypt k b
  encrypt_length k b _ _ := by simp [platform]
  verify_sign d := by simp [platform]
  header_fits := header_fits rfl rfl hash256_length

theorem chainHash_length (b : Bytes) : (chainHash b).length = hashLen := by
  unfold chainHash
  split <;> simp [hashLen]

theorem chain_lawful : chainPlatform.Lawful where
  hash_length := chainHash_length
  header_injective _ _ he := encHeader_injective (List.tail_eq_of_cons_eq he)
  parse_serialize := decPDU_encPDU
  parse_nil := rfl
  decrypt_encrypt := lawful.decrypt_encrypt
  encrypt_length := lawful.encrypt_length
  verify_sign := lawful.verify_sign
  header_fits := header_fits rfl rfl chainHash_length

def chainName (i : Nat) : Bytes := 1 :: leBytes 31 i

theorem name_chainPlatform (r : Draft) : r.name chainPlatform = chainName (depth r.prevhash) := by
  have hdec := decHeader_encHeader (r.header chainPlatform) []
  rw [List.append_nil] at hdec
  change chainHash (255 :: encHeader (r.header chainPlatform)) = _
  rw [chainHash, List.head?_cons, if_pos rfl, List.tail_cons, hdec]
  rfl

theorem ofLe_chainName {i : Nat} (h : i < 256 ^ 31) : ofLe (chainName i).tail = i := by
  rw [chainName, List.tail_cons, ofLe_leBytes]
  exact Nat.mod_eq_of_lt h

theorem chainName_injOn {i j : Nat} (hi : i < 256 ^ 31) (hj : j < 256 ^ 31)
    (h : chainName i = chainName j) : i = j := by
  rw [← ofLe_chainName hi, ← ofLe_chainName hj, h]

end DcfsClient.Reference
