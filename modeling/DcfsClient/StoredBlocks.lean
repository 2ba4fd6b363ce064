import DcfsClient.CopyPieces
import DcfsClient.FsInvariant
import DcfsClient.TransientFailures

/-!
# Reading a commit back

The blockmap of the newest commit lists the data records of the whole history, and block `blk` of the
file is read from entry `blk` of that list. The records and the blockmap fit the buffers of the client
as long as the list fits one blockmap. The one thing that can go wrong is the name of a record:
`bmCheck` compares names as C strings, so a name that starts with a zero byte counts as no entry.

`ReadsBack` says that every read of a file returns the bytes of `data`, whatever was read before.
-/

namespace DcfsClient

open Backend

def ProperNames (P : Platform) (b : Backend) : Prop :=
  ∀ d name p, b.records P d name = some p → name.head? ≠ some 0

/-- After any reads without failures, a read within `data` that meets no failure returns the bytes of
`data`. -/
def ReadsBack (P : Platform) (data : Bytes) (s₀ : Session) : Prop :=
  ∀ calls s (c : ReadCall), ReadsTo P ReadCall.Undisturbed s₀ calls s → c.Undisturbed s →
    0 < c.size → c.offset + c.size ≤ data.length → ∃ out s', c.run P s = .ok (out, some c.size) s' ∧
      Mem.bytesAt out 0 c.size = (data.drop c.offset).take c.size

theorem properNames_of_head {P : Platform} {b : Backend} (hb : b.Sound P)
    (hhead : ∀ x, (P.hash256 x).head? ≠ some 0) : ProperNames P b := by
  intro d name p hrec
  obtain ⟨r, -, hname, -⟩ := hb.named d name p hrec
  rw [← hname]
  exact hhead _

theorem Reference.properNames {b : Backend} (hb : b.Sound Reference.platform) :
    ProperNames Reference.platform b :=
  properNames_of_head hb fun _ hzero => absurd (Option.some.inj hzero) (by decide)

/-! ## The records of a commit -/

section Records

variable {P : Platform} {b : Backend} {d : Bytes} {c : Commit} {cs hist : List Commit} {r : Draft}

def Draft.FewHashes (r : Draft) : Prop :=
  r.prevhash.length ≤ 2 ∧ ∀ x ∈ r.prevhash, x.length = hashLen

theorem Backend.Holds.payloadOf (hP : P.Lawful) (hb : b.Sound P) (h : b.Holds P d r)
    (hfew : r.FewHashes) {cap : Nat} (hcap : (r.payload.getD []).length ≤ cap) :
    payloadOf P b d (r.name P) cap = some (r.payload.getD []) := by
  have hslot := hb.slot h
  have hfits := hP.header_fits r hfew.1 hfew.2
  have hparse : P.parse (r.bytes P) = r.pdu P := hP.parse_serialize (r.pdu P)
  simp only [DcfsClient.payloadOf, hslot, Slot.bytes, hparse]
  exact if_pos ⟨by omega, hcap⟩

theorem length_lastName (hP : P.Lawful) (hd : d.length = hashLen) (rs : List Draft) :
    (lastName P d rs).length = hashLen := by
  unfold lastName
  cases rs.getLast? with
  | none => exact hd
  | some r => exact r.length_name hP

theorem length_latestData (hP : P.Lawful) (hd : d.length = hashLen) :
    (latestData P d hist).length = hashLen := by
  cases hist with
  | nil => exact hd
  | cons c cs => exact length_lastName hP hd c.data

theorem length_latestBlockmap (hP : P.Lawful) (hd : d.length = hashLen) :
    (latestBlockmap P d hist).length = hashLen := by
  cases hist with
  | nil => exact hd
  | cons c cs => exact c.blockmap.length_name hP

theorem DataRun.fewHashes (hP : P.Lawful) {prev : Bytes} {descs : List BufDesc} {rs : List Draft}
    (h : DataRun P prev descs rs) (hprev : prev.length = hashLen) : ∀ r ∈ rs, r.FewHashes := by
  induction descs generalizing prev rs with
  | nil =>
      cases rs with
      | nil => simp
      | cons r rs => exact h.elim
  | cons desc descs ih =>
      cases rs with
      | nil => exact h.elim
      | cons r rs =>
          obtain ⟨-, hp, -, hrest⟩ := h
          intro r' hr'
          rcases List.mem_cons.mp hr' with rfl | hr'
          · unfold Draft.FewHashes
            rw [hp]
            simpa using hprev
          · exact ih hrest (r.length_name hP) r' hr'

theorem BlockmapOk.fewHashes (hP : P.Lawful) {rs : List Draft} (h : BlockmapOk P d cs rs r)
    (hd : d.length = hashLen) : r.FewHashes := by
  unfold Draft.FewHashes
  rw [h.prev]
  refine ⟨by simp, ?_⟩
  intro x hx
  simp only [List.mem_cons, List.not_mem_nil, or_false] at hx
  rcases hx with rfl | rfl
  · exact length_latestBlockmap hP hd
  · exact length_lastName hP hd rs

end Records

/-! ## The blockmap -/

section Blockmap

variable {P : Platform} {b : Backend} {c : Commit} {cs : List Commit} {ino : Inode}

theorem strcmpEq_zeros {name : Bytes} (hlen : name.length = hashLen) (hhead : name.head? ≠ some 0) :
    strcmpEq name (List.replicate hashLen 0) = false := by
  rw [← Bool.not_eq_true, strcmpEq_zeros_iff hlen]
  exact hhead

/-- Entry `k` of a list of names that was placed in memory. -/
theorem bytesAt_place_flatten (m : Mem) {names : List Bytes}
    (hnames : ∀ x ∈ names, x.length = hashLen) {k : Nat} {name : Bytes}
    (hk : names[k]? = some name) :
    Mem.bytesAt (m.place names.flatten) (k * hashLen) hashLen = name := by
  have hlen := hnames name (List.mem_of_getElem? hk)
  apply List.ext_getElem?
  intro i
  rw [Mem.getElem?_bytesAt]
  by_cases hi : i < hashLen
  · have hin : i < name.length := by omega
    rw [if_pos hi, Mem.place, getElem?_flatten_of_forall names hnames k i hi, hk, Option.bind_some,
      List.getElem?_eq_getElem hin, Option.getD_some]
  · rw [if_neg hi, List.getElem?_eq_none (by omega)]

/-- The blockmap of an inode that was made from the newest commit. -/
theorem blockmapOf_commit (hP : P.Lawful) (hb : b.Sound P)
    (hl : Linked P ino.hashname b (c :: cs)) (hbm : ino.bmRecordname = c.blockmap.name P)
    (hroom : (blockNames P (c :: cs)).length ≤ ino.bmCover) :
    ino.blockmapOf P b = some (some ((Mem.memset (fun _ => P.junk) 0
      (hashLen * ino.bmCover)).place (blockNames P (c :: cs)).flatten)) := by
  have hholds := hl.2.2 c.blockmap (by simp [Commit.drafts])
  have hok := hl.2.1.blockmap
  have hpayload : c.blockmap.payload.getD [] = (blockNames P (c :: cs)).flatten := by
    rw [hok.payload]
    rfl
  have hlength : (c.blockmap.payload.getD []).length ≤ hashLen * ino.bmCover := by
    rw [hpayload, length_flatten_of_forall _ (length_of_mem_blockNames hP), Nat.mul_comm]
    exact Nat.mul_le_mul_left hashLen hroom
  have hread := hholds.payloadOf hP hb (hok.fewHashes hP (hl.length_name hP)) hlength
  have hpos : 0 < ino.bmRecordname.length := by
    rw [hbm, c.blockmap.length_name hP]
    exact Nat.zero_lt_succ 31
  rw [Inode.blockmapOf, if_pos hpos, hbm, hread, hpayload]
  rfl

/-- Block `blk` is what the data record of entry `blk` decrypts to. -/
theorem blockOnStore_commit (hP : P.Lawful) (hb : b.Sound P) (hproper : ProperNames P b)
    (hl : Linked P ino.hashname b (c :: cs)) (hbm : ino.bmRecordname = c.blockmap.name P)
    (hroom : (blockNames P (c :: cs)).length ≤ ino.bmCover) {blk : Nat} {r : Draft}
    (hentry : (blockNames P (c :: cs))[blk]? = some (r.name P)) (hholds : b.Holds P ino.hashname r)
    (hfew : r.FewHashes) (hfits : (r.payload.getD []).length ≤ ino.blockSize + aesPadLen) :
    ino.blockOnStore P b blk =
      some (Mem.place (fun _ => P.junk) (P.decrypt ino.aesKey (r.payload.getD []))) := by
  have hlt : ¬ ino.bmCover ≤ blk := by
    have hin := (List.getElem?_eq_some_iff.mp hentry).1
    omega
  have hname := strcmpEq_zeros (r.length_name hP) (hproper _ _ _ hholds.record)
  have hbytes := bytesAt_place_flatten (Mem.memset (fun _ => P.junk) 0 (hashLen * ino.bmCover))
    (length_of_mem_blockNames hP) hentry
  rw [Inode.blockOnStore, blockmapOf_commit hP hb hl hbm hroom, Option.bind_some, Inode.blockIn]
  simp only [RecordCache.bmCheck, if_neg hlt, hbytes, hname, Bool.false_eq_true, if_false,
    hholds.payloadOf hP hb hfew hfits, Option.map_some]

/-- After the first commit, block `blk` is what desc `blk` decrypts to. -/
theorem blockOnStore_first (hP : P.Lawful) (hb : b.Sound P) (hproper : ProperNames P b)
    (hl : Linked P ino.hashname b [c]) (hbm : ino.bmRecordname = c.blockmap.name P)
    (hroom : c.descs.length ≤ ino.bmCover) {blk : Nat} {desc : BufDesc}
    (hdesc : c.descs[blk]? = some desc) (hfits : desc.buf.length ≤ ino.blockSize + aesPadLen) :
    ino.blockOnStore P b blk =
      some (Mem.place (fun _ => P.junk) (P.decrypt ino.aesKey desc.buf)) := by
  obtain ⟨r, hmem, hholds, hentry, hpayload⟩ := hl.exists_entry_first hdesc
  have hlength : (blockNames P [c]).length ≤ ino.bmCover := by
    rw [hl.length_blockNames_first]
    exact hroom
  have hfew := hl.2.1.data.fewHashes hP (length_latestData hP (hl.length_name hP)) r hmem
  have hgetD : r.payload.getD [] = desc.buf := by rw [hpayload, Option.getD_some]
  rw [blockOnStore_commit hP hb hproper hl hbm hlength hentry hholds hfew (by rw [hgetD]; exact hfits),
    hgetD]

end Blockmap

/-! ## Reads -/

section Reads

variable {P : Platform} {ino₀ : Inode} {b₀ : Backend} {s : Session}

/-- A read without failures returns the bytes of the blocks on the store. -/
theorem exists_read (h : Clean P ino₀ b₀ s) (hcalm : s.be.Calm) (hbs : 0 < ino₀.blockSize)
    {offset size : Nat} (hpos : 0 < size) (hend : offset + size ≤ ino₀.size)
    (hsize : ino₀.size < 2 ^ 64) {blocks : Nat → Mem}
    (hblocks : ∀ blk, blk ≤ (offset + size) / ino₀.blockSize →
      ino₀.blockOnStore P b₀ blk = some (blocks blk)) (buf : Mem) :
    ∃ out s', Inode.read P buf offset size s = .ok (out, some size) s' ∧
      ∀ i, i < size →
        out i = blocks ((offset + i) / ino₀.blockSize) ((offset + i) % ino₀.blockSize) := by
  have hsum : offset + size < 2 ^ 64 := by omega
  have hread : (if ino₀.size < u64 (offset + size) then ino₀.size - offset else size) = size := by
    rw [u64_of_lt hsum, if_neg (by omega)]
  obtain ⟨htiles, hspan⟩ := tiles_copyPieces hbs hsum
  have hreads : ∀ out, ReadsAs P b₀ ino₀ buf offset size out ↔
      out = (copyOut (fun blk => (ino₀.blockOnStore P b₀ blk).getD fun _ => P.junk) buf 0
        (copyPieces ino₀.blockSize offset size), some size) := by
    intro out
    simp only [ReadsAs, if_neg (show ¬ ino₀.size ≤ offset by omega), hread]
    constructor
    · intro hout
      exact hout.2.2.2
    · intro hout
      refine ⟨hpos, ?_, ?_, hout⟩
      · intro blk _ hle
        rw [u64_of_lt hsum] at hle
        rw [hblocks blk hle]
        exact Option.some_ne_none _
      · intro p hp
        have hfits := htiles.fits p hp
        omega
  have hspec := wp_read_spec h buf hsum
  obtain ⟨out, s', hok, hout⟩ := Exec.exists_ok
    (Exec.wp_mono hspec (fun _ _ h => h) (fun _ _ h => h _ ((hreads _).mpr rfl) hcalm))
  rw [(hreads out).mp hout] at hok
  refine ⟨_, s', hok, ?_⟩
  intro i hi
  have hbyte := (copyOut_tiles htiles
    (fun blk => (ino₀.blockOnStore P b₀ blk).getD fun _ => P.junk) buf 0).1 i (by omega)
  have hblk : (offset + i) / ino₀.blockSize ≤ (offset + size) / ino₀.blockSize :=
    Nat.div_le_div_right (by omega)
  rw [Nat.zero_add] at hbyte
  rw [hbyte, hblocks _ hblk]
  rfl

/-- A file whose blocks on the store hold `data` reads back as `data`. -/
theorem readsBack_of_blocks (h₀ : Clean P ino₀ b₀ ⟨ino₀, b₀⟩) (hbs : 0 < ino₀.blockSize)
    {data : Bytes} (hlength : data.length ≤ ino₀.size) (hsize : ino₀.size < 2 ^ 64)
    {blocks : Nat → Mem}
    (hstore : ∀ blk, blk ≤ data.length / ino₀.blockSize →
      ino₀.blockOnStore P b₀ blk = some (blocks blk))
    (hbytes : ∀ pos byte, data[pos]? = some byte →
      blocks (pos / ino₀.blockSize) (pos % ino₀.blockSize) = byte) :
    ReadsBack P data ⟨ino₀, b₀⟩ := by
  intro calls s c hreads hquiet hpos hend
  have hbm : ino₀.blockmapOf P b₀ ≠ none := by
    intro hnone
    have hfirst := hstore 0 (Nat.zero_le _)
    rw [Inode.blockOnStore, hnone] at hfirst
    cases hfirst
  have hclean : Clean P ino₀ b₀ s := by
    apply hreads.clean h₀
    intro s c hs hcalm _
    exact bmReadable_of_calm (hs.withEnv c.env) hcalm hbm
  obtain ⟨out, s', hok, hout⟩ := exists_read (hclean.withEnv c.env) hquiet hbs hpos
    (hend.trans hlength) hsize (fun blk hblk => hstore blk
      (hblk.trans (Nat.div_le_div_right hend))) c.buf
  refine ⟨out, s', hok, ?_⟩
  apply List.ext_getElem?
  intro i
  rw [Mem.getElem?_bytesAt, List.getElem?_take, List.getElem?_drop]
  by_cases hi : i < c.size
  · have hin : c.offset + i < data.length := by omega
    have hbyte := hbytes (c.offset + i) _ (List.getElem?_eq_getElem hin)
    rw [if_pos hi, if_pos hi, Nat.zero_add, hout i hi, hbyte, List.getElem?_eq_getElem hin]
  · rw [if_neg hi, if_neg hi]

end Reads

end DcfsClient
