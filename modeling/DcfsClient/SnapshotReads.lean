import DcfsClient.StoredBlocks

/-!
# Reading a file while others write it

Several clients share one middleware. An inode that one of them has loaded names the inode and blockmap
records of the version that was the newest then, and it is never refreshed. Other clients go on to
create files and to commit new versions, of this file too. Records are never overwritten and the names
in the old blockmap stay valid, so the blocks that the session sees are those of the version it was
opened at, whenever they are loaded.

`blockOnStore_grows` is this fact for one block. `SharedRun` interleaves the reads of a session with
whatever the middleware serves in between.
-/

namespace DcfsClient

open Backend

/-! ## What the store has for an inode does not change -/

section Stable

variable {P : Platform} {b b' : Backend} {d name : Bytes} {ino : Inode} {c : Commit}
  {cs hist : List Commit} {blk : Nat}

theorem Backend.Sound.store_of_records (hb : b.Sound P) {p : CapsulePDU}
    (h : b.records P d name = some p) : b.store d name = some (.whole (P.serialize p)) := by
  obtain ⟨r, -, -, rfl, hslot⟩ := hb.named d name p h
  exact hslot

/-- What a stored record holds for its readers stays the same. -/
theorem Backend.Grows.payloadOf_eq (hg : b.Grows P b') (hb : b.Sound P) (hb' : b'.Sound P)
    (h : ∃ p, b.records P d name = some p) (cap : Nat) :
    payloadOf P b' d name cap = payloadOf P b d name cap := by
  obtain ⟨p, hp⟩ := h
  have hslot := hb.store_of_records hp
  have hslot' := hb'.store_of_records (hg.records d name p hp)
  unfold payloadOf
  rw [hslot, hslot']

theorem Linked.stored_blockmapName (h : Linked P d b hist) (hne : 0 < (blockmapName P hist).length) :
    ∃ p, b.records P d (blockmapName P hist) = some p := by
  cases hist with
  | nil => cases hne
  | cons c cs => exact ⟨_, (h.2.2 c.blockmap (by simp [Commit.drafts])).record⟩

theorem blockmapOf_grows (hb : b.Sound P) (hb' : b'.Sound P) (hg : b.Grows P b')
    (hl : Linked P ino.hashname b hist) (hbm : ino.bmRecordname = blockmapName P hist) :
    ino.blockmapOf P b' = ino.blockmapOf P b := by
  unfold Inode.blockmapOf
  split
  · rename_i hne
    rw [hbm] at hne ⊢
    rw [hg.payloadOf_eq hb hb' (hl.stored_blockmapName hne)]
  · rfl

/-- A list of data records that is too long for the cover makes a blockmap that cannot be loaded. -/
theorem length_blockNames_of_blockmapOf (hP : P.Lawful) (hb : b.Sound P)
    (hl : Linked P ino.hashname b (c :: cs)) (hbm : ino.bmRecordname = c.blockmap.name P)
    (hload : ino.blockmapOf P b ≠ none) : (blockNames P (c :: cs)).length ≤ ino.bmCover := by
  have hslot := hb.slot (hl.2.2 c.blockmap (by simp [Commit.drafts]))
  have hparse : P.parse (c.blockmap.bytes P) = c.blockmap.pdu P :=
    hP.parse_serialize (c.blockmap.pdu P)
  have hpayload : (c.blockmap.pdu P).payloadInTransit = (blockNames P (c :: cs)).flatten := by
    simp only [Draft.pdu, hl.2.1.blockmap.payload, Option.getD_some]
    rfl
  have hpos : 0 < ino.bmRecordname.length := by
    rw [hbm, c.blockmap.length_name hP]
    exact Nat.zero_lt_succ 31
  by_contra hlong
  apply hload
  rw [Inode.blockmapOf, if_pos hpos, hbm, payloadOf, hslot]
  simp only [Slot.bytes, hparse, hpayload]
  rw [if_neg, Option.map_none]
  rintro ⟨-, hfits⟩
  rw [length_flatten_of_forall _ (length_of_mem_blockNames hP), Nat.mul_comm] at hfits
  exact hlong (Nat.le_of_mul_le_mul_left hfits (by decide))

/-- Behind a list of names the memory is what it was. -/
theorem bytesAt_place_behind (m : Mem) {names : List Bytes} (hnames : ∀ x ∈ names, x.length = hashLen)
    {k : Nat} (hk : names.length ≤ k) :
    Mem.bytesAt (m.place names.flatten) (k * hashLen) hashLen =
      Mem.bytesAt m (k * hashLen) hashLen := by
  apply List.ext_getElem?
  intro i
  rw [Mem.getElem?_bytesAt, Mem.getElem?_bytesAt]
  have hend : names.flatten.length ≤ k * hashLen + i := by
    rw [length_flatten_of_forall names hnames]
    exact (Nat.mul_le_mul_right hashLen hk).trans (Nat.le_add_right _ _)
  rw [Mem.place, List.getElem?_eq_none hend]
  rfl

theorem bytesAt_zeros {junk : UInt8} {n off len : Nat} (h : off + len ≤ n) :
    Mem.bytesAt (Mem.memset (fun _ => junk) 0 n) off len = List.replicate len 0 := by
  apply List.ext_getElem?
  intro i
  rw [Mem.getElem?_bytesAt, List.getElem?_replicate]
  split
  · rw [Mem.memset, if_pos (by omega)]
  · rfl

def blockmapMem (P : Platform) (cover : Nat) (names : List Bytes) : Mem :=
  (Mem.memset (fun _ => P.junk) 0 (hashLen * cover)).place names.flatten

/-- Entry `blk` of a loaded blockmap. -/
theorem bmCheck_blockmapMem {names : List Bytes} (hnames : ∀ x ∈ names, x.length = hashLen)
    (hroom : names.length ≤ ino.bmCover) :
    RecordCache.bmCheck { ino with bm := some (blockmapMem P ino.bmCover names) } blk =
      names[blk]?.filter fun name => !strcmpEq name (List.replicate hashLen 0) := by
  simp only [RecordCache.bmCheck]
  by_cases hin : blk < names.length
  · have hentry := List.getElem?_eq_getElem hin
    rw [if_neg (by omega), blockmapMem, bytesAt_place_flatten _ hnames hentry, hentry,
      Option.filter_some]
    cases strcmpEq names[blk] (List.replicate hashLen 0) <;> rfl
  · rw [List.getElem?_eq_none (Nat.not_lt.mp hin), Option.filter_none]
    split
    · rfl
    · rename_i hcover
      have hzeros : Mem.bytesAt (blockmapMem P ino.bmCover names) (blk * hashLen) hashLen =
          List.replicate hashLen 0 := by
        rw [blockmapMem, bytesAt_place_behind _ hnames (Nat.not_lt.mp hin)]
        apply bytesAt_zeros
        rw [← Nat.succ_mul, Nat.mul_comm hashLen]
        exact Nat.mul_le_mul_right hashLen (Nat.lt_of_not_le hcover)
      rw [hzeros, if_pos (by decide)]

/-- Block `blk` of an inode with a linked history is the same in every later store. -/
theorem blockOnStore_grows (hP : P.Lawful) (hb : b.Sound P) (hb' : b'.Sound P) (hg : b.Grows P b')
    (hl : Linked P ino.hashname b hist) (hbm : ino.bmRecordname = blockmapName P hist) (blk : Nat) :
    ino.blockOnStore P b' blk = ino.blockOnStore P b blk := by
  rw [Inode.blockOnStore, Inode.blockOnStore, blockmapOf_grows hb hb' hg hl hbm]
  cases hload : ino.blockmapOf P b with
  | none => rfl
  | some bm =>
      rw [Option.bind_some, Option.bind_some, Inode.blockIn, Inode.blockIn]
      cases hname : RecordCache.bmCheck { ino with bm := bm } blk with
      | none => rfl
      | some name =>
          -- only names of the history come out of the blockmap
          have hstored : ∃ p, b.records P ino.hashname name = some p := by
            cases hist with
            | nil =>
                rw [Inode.blockmapOf, hbm] at hload
                cases hload
                cases hname
            | cons c cs =>
                have hroom := length_blockNames_of_blockmapOf hP hb hl hbm (by rw [hload]; simp)
                rw [blockmapOf_commit hP hb hl hbm hroom, Option.some.injEq] at hload
                rw [← hload] at hname
                have hentry := @bmCheck_blockmapMem P ino blk _ (length_of_mem_blockNames hP) hroom
                rw [blockmapMem, hname] at hentry
                obtain ⟨hmem, -⟩ := Option.filter_eq_some_iff.mp hentry.symm
                exact hl.stored_blockNames name (List.mem_of_getElem? hmem)
          dsimp only
          rw [hg.payloadOf_eq hb hb' hstored]

/-- What a read returns does not depend on what was added to the store. -/
theorem ReadsAs.congr {b b' : Backend} (h : ∀ blk, ino.blockOnStore P b' blk = ino.blockOnStore P b blk)
    {buf : Mem} {offset size : Nat} {out : Mem × Option Nat} :
    ReadsAs P b' ino buf offset size out ↔ ReadsAs P b ino buf offset size out := by
  unfold ReadsAs
  simp only [h]

/-- A clean session is clean on every later store. -/
theorem Clean.grows {ino₀ : Inode} (h : Clean P ino₀ b ⟨ino, b⟩)
    (hmap : ino₀.blockmapOf P b' = ino₀.blockmapOf P b)
    (hblocks : ∀ blk, ino₀.blockOnStore P b' blk = ino₀.blockOnStore P b blk) :
    Clean P ino₀ b' ⟨ino, b'⟩ := by
  refine ⟨h.file, h.size, Same.refl b', h.lengths, h.cover, ?_, ?_⟩
  · rw [hmap]
    exact h.bm
  · intro blk hc
    rw [hblocks]
    exact h.blocks blk hc

end Stable

/-! ## One reader among other clients -/

/-- The reads of one session and what the middleware served in between. `evs` is the run of the
middleware, which had come to `opened` when the inode `ino₀` was made, and `ino` is the inode now. Each
read met the condition `C`. -/
inductive SharedRun (P : Platform) (C : Session → ReadCall → Prop) (opened : List Event)
    (ino₀ : Inode) : List Event → Inode → Prop where
  | opened : SharedRun P C opened ino₀ opened ino₀
  | served {evs : List Event} {ino : Inode} (ev : Event) :
      SharedRun P C opened ino₀ evs ino → SharedRun P C opened ino₀ (ev :: evs) ino
  | returned {evs : List Event} {ino : Inode} {c : ReadCall} {out : Mem × Option Nat} {s : Session} :
      SharedRun P C opened ino₀ evs ino → C ⟨ino, current evs⟩ c →
      c.run P ⟨ino, current evs⟩ = .ok out s → SharedRun P C opened ino₀ evs s.ino
  | failed {evs : List Event} {ino : Inode} {c : ReadCall} {e : ErrT} {s : Session} :
      SharedRun P C opened ino₀ evs ino → C ⟨ino, current evs⟩ c →
      c.run P ⟨ino, current evs⟩ = .error (.err e) s → SharedRun P C opened ino₀ evs s.ino

/-- If the call returns bytes in the session `s`, then without failures it returns the same in `s₀`. -/
def ReadsAsIn (P : Platform) (s₀ s : Session) (c : ReadCall) : Prop :=
  ∀ out s', c.run P s = .ok out s' → ∀ e : Env, (∀ f ∈ e.faults, f = .none) →
    ∃ t, { c with env := e }.run P s₀ = .ok out t

section Shared

variable {P : Platform} {opened evs : List Event} {ino₀ ino : Inode} {h : Bytes} {hist : List Commit}
  {c : ReadCall}

theorem SharedRun.suffix {C : Session → ReadCall → Prop} (hrun : SharedRun P C opened ino₀ evs ino) :
    opened <:+ evs := by
  induction hrun with
  | opened => exact List.suffix_rfl
  | served ev _ ih => exact ih.trans (List.suffix_cons ev _)
  | returned _ _ _ ih => exact ih
  | failed _ _ _ ih => exact ih

/-- The cache of the session holds nothing but blocks of the version it was opened at. -/
theorem SharedRun.clean (hP : P.Lawful) (hrun : SharedRun P (ReadCall.Careful P) opened ino₀ evs ino)
    (hproper : ProperRun P evs) (h₀ : Clean P ino₀ (current opened) ⟨ino₀, current opened⟩)
    (hl : Linked P ino₀.hashname (current opened) hist)
    (hbm : ino₀.bmRecordname = blockmapName P hist) :
    Clean P ino₀ (current evs) ⟨ino, current evs⟩ := by
  induction hrun with
  | opened => exact h₀
  | @served evs ino ev hrun ih =>
      have hsuf := hrun.suffix
      have htail := hproper.tail
      have hsound := (htail.inv hP).sound
      have hsound' := (hproper.inv hP).sound
      have hgrow := hproper.grows hP (List.suffix_cons ev evs)
      have hl' := hl.grows (htail.grows hP hsuf)
      exact (ih htail).grows (blockmapOf_grows hsound hsound' hgrow hl' hbm)
        (blockOnStore_grows hP hsound hsound' hgrow hl' hbm)
  | @returned evs ino c out s hrun hcare hok ih =>
      have hclean := Exec.wp_ok (wp_read_clean ((ih hproper).withEnv c.env) c.buf c.offset c.size) hok
      exact ⟨hclean.file, hclean.size, Same.refl _, hclean.lengths, hclean.cover, hclean.bm,
        hclean.blocks⟩
  | @failed evs ino c e s hrun hcare herr ih =>
      have hspec := wp_read_clean ((ih hproper).withEnv c.env) c.buf c.offset c.size
      have hload : c.offset < ino₀.size →
          (Session.withEnv ⟨ino, current evs⟩ c.env).BmReadable P := by
        intro hlt
        exact hcare.2 (by rw [(ih hproper).size]; exact hlt)
      have hclean := Exec.wp_error hspec herr hload e rfl
      exact ⟨hclean.file, hclean.size, Same.refl _, hclean.lengths, hclean.cover, hclean.bm,
        hclean.blocks⟩

/-- The version of a file that `ReadFileMeta` found. -/
theorem exists_version (hP : P.Lawful) (hproper : ProperRun P opened) {e : Env} {m : FileMeta}
    {b : Backend}
    (hread : StorageBackend.readFileMeta P h { current opened with env := e } = .ok m b) :
    ∃ c cs, Linked P h (current opened) (c :: cs) ∧ m = c.fileMeta P := by
  have hinv := hproper.inv hP
  have hsame := Same.withEnv (current opened) e
  have hknown := index_of_readFileMeta hread
  rw [hsame.index] at hknown
  have hmem : h ∈ createdNames opened := by
    by_contra hnot
    exact hknown (hinv.unknown h hnot)
  obtain ⟨hist, hindex, hl, -⟩ := hinv.files h hmem
  have hl' := hl.grows (hsame.grows (P := P))
  obtain ⟨-, -, c, cs, rfl, hm⟩ :=
    Exec.wp_ok (wp_readFileMeta hP (hinv.sound.same hsame) (by rw [hsame.index, hindex]) hl') hread
  exact ⟨c, cs, hl, hm⟩

end Shared

/-- Whatever other clients have created and committed since a file was opened, also new versions of the
same file: a careful read that returns delivers the bytes that it would have delivered right after the
open. -/
theorem snapshot_reads {P : Platform} (hP : P.Lawful) {opened evs : List Event} {ino₀ ino : Inode}
    {h : Bytes} {kb : Nat} {e : Env} {m : FileMeta} {b : Backend}
    (hread : StorageBackend.readFileMeta P h { current opened with env := e } = .ok m b)
    (hino : ino₀ = .load h m.recordname m.blockmapHash kb blockmapCover m.isize m.aesKey)
    (hrun : SharedRun P (ReadCall.Careful P) opened ino₀ evs ino) (hproper : ProperRun P evs)
    {c : ReadCall} (hc : c.Careful P ⟨ino, current evs⟩) :
    ReadsAsIn P ⟨ino₀, current opened⟩ ⟨ino, current evs⟩ c := by
  intro out s' hok e' he'
  have hopened := hproper.suffix hrun.suffix
  obtain ⟨cm, cs, hl, hm⟩ := exists_version hP hopened hread
  have h₀ : Clean P ino₀ (current opened) ⟨ino₀, current opened⟩ := by
    rw [hino]
    exact clean_load _ _ _ _ _ _ _ _
  have hname : ino₀.hashname = h := by rw [hino]; rfl
  have hbm : ino₀.bmRecordname = blockmapName P (cm :: cs) := by rw [hino, hm]; rfl
  rw [← hname] at hl
  have hclean := hrun.clean hP hproper h₀ hl hbm
  have hspec := Exec.wp_ok (wp_read_spec (hclean.withEnv c.env) c.buf hc.1) hok
  have hsame := blockOnStore_grows hP (hopened.inv hP).sound (hproper.inv hP).sound
    (hproper.grows hP hrun.suffix) hl hbm
  have hspec₀ := (ReadsAs.congr hsame).mp hspec
  obtain ⟨out', t, hok', hout'⟩ := Exec.exists_ok (Exec.wp_mono
    (wp_read_spec (h₀.withEnv e') c.buf hc.1) (fun _ _ h => h) (fun _ _ h => h out hspec₀ he'))
  have heq : out' = out := by
    unfold ReadsAs at hout' hspec₀
    split at hout'
    · rename_i hend
      rw [if_pos hend] at hspec₀
      rw [hout', hspec₀]
    · rename_i hlt
      rw [if_neg hlt] at hspec₀
      rw [hout'.2.2.2, hspec₀.2.2.2]
  rw [heq] at hok'
  exact ⟨t, hok'⟩

section Instances

open Reference

def firstVersion : List (Request × Env) :=
  [(.signed platform (fileAt 5) [⟨platform.encrypt zeroKey (List.replicate 1024 7), 0⟩] [] zeroKey,
    { clock := [6, 7, 8] }), (.createNew, { clock := [5] })]

/-- Somebody else replaces the sevens of the file by eights. -/
@[irreducible] def twoVersions : List (Request × Env) :=
  (.signed platform (fileAt 5) [⟨platform.encrypt zeroKey (List.replicate 1024 8), 0⟩]
    ((storedFile.index (fileAt 5)).getD []) zeroKey, { clock := [9, 10, 11] }) :: firstVersion

theorem twoVersions_leaves : (replay platform twoVersions).head?.map (·.response) = some .done ∧
    Exec.returns (StorageBackend.readFileMeta platform (fileAt 5)) storedFile = true ∧
    Exec.returns (StorageBackend.readRecordData platform loadedFile.hashname loadedFile.bmRecordname
      (hashLen * loadedFile.bmCover)) { current (replay platform twoVersions) with env := {} } = true ∧
    (readByte []).byte platform ⟨loadedFile, current (replay platform twoVersions)⟩ 0 = some 7 := by
  decide +kernel

theorem properRun_twoVersions : ProperRun platform (replay platform twoVersions) :=
  properRun_replay _ (by decide +kernel)

/-- After the second version has been committed, the session opened before still reads a seven. -/
theorem snapshot_reads_twoVersions :
    (replay platform twoVersions).head?.map (·.response) = some .done ∧
    (readByte []).byte platform ⟨loadedFile, current (replay platform twoVersions)⟩ 0 = some 7 ∧
    ReadsAsIn platform ⟨loadedFile, current (replay platform firstVersion)⟩
      ⟨loadedFile, current (replay platform twoVersions)⟩ (readByte []) := by
  obtain ⟨hdone, hreturns, hload, hseven⟩ := twoVersions_leaves
  refine ⟨hdone, hseven, ?_⟩
  have hstored : storedFile = current (replay platform firstVersion) := by
    unfold storedFile firstVersion
    rfl
  obtain ⟨m, b, hread⟩ := Exec.exists_of_returns hreturns
  have hino : loadedFile =
      .load (fileAt 5) m.recordname m.blockmapHash 1 blockmapCover m.isize m.aesKey := by
    unfold loadedFile
    rw [hread]
  rw [hstored] at hread
  generalize hopened : replay platform firstVersion = opened at hread ⊢
  have hrun : SharedRun platform (ReadCall.Careful platform) opened loadedFile
      (replay platform twoVersions) loadedFile := by
    unfold twoVersions
    rw [← hopened]
    exact .served _ .opened
  have hcareful : (readByte []).Careful platform
      ⟨loadedFile, current (replay platform twoVersions)⟩ :=
    ⟨by decide, fun _ _ _ => Exec.exists_of_returns hload⟩
  exact snapshot_reads lawful (e := (current opened).env) hread hino hrun properRun_twoVersions
    hcareful

end Instances

end DcfsClient
