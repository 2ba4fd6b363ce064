import DcfsClient.RecordCache

/-!
# What the cache reads

`payloadOf`, `blockmapOf` and `blockIn` say what the records of the store contain for a file, without
any call that could fail. `Clean` is the invariant of an inode from which nothing has been written: a
loaded blockmap and a cached block hold what the store has for them. Filling the cache keeps it, even
when it fails in the middle, with one exception: a failed load leaves a zeroed blockmap behind that
counts as loaded.

A fill that meets no failure and no missing record succeeds, and what a successful read returns is a
function of the store alone (`readSpec`).
-/

namespace DcfsClient

open Backend

/-- The payload of a record, if it is there and fits a buffer of `cap` bytes. -/
def payloadOf (P : Platform) (b : Backend) (dcname recordname : Bytes) (cap : Nat) : Option Bytes :=
  match b.store dcname recordname with
  | none => none
  | some slot =>
    let payload := (P.parse slot.bytes).payloadInTransit
    if slot.bytes.length ≤ cap + recordHeaderSize + spareHashSpace ∧ payload.length ≤ cap then
      some payload else none

theorem payloadOf_congr {P : Platform} {b b' : Backend} (h : b'.store = b.store)
    (dcname recordname : Bytes) (cap : Nat) :
    payloadOf P b' dcname recordname cap = payloadOf P b dcname recordname cap := by
  unfold payloadOf
  rw [h]

theorem wp_readRecordData {P : Platform} {b : Backend} (dcname recordname : Bytes) (cap : Nat) :
    Exec.wp (StorageBackend.readRecordData P dcname recordname cap)
      (fun out b' => b.Same b' ∧ (b.Calm → b'.Calm) ∧
        payloadOf P b dcname recordname cap = some out)
      (fun _ b' => b.Same b' ∧ (payloadOf P b dcname recordname cap ≠ none → ¬ b.Calm)) b := by
  simp only [StorageBackend.readRecordData, Exec.wp_bind, Exec.wp_failIf, Exec.wp_pure,
    decide_eq_true_eq, decide_eq_false_iff_not]
  apply Exec.wp_mono (wp_readRecord_cases dcname recordname _)
  · rintro _ b' ⟨hs, hcalm, slot, hslot, rfl, hfits⟩
    constructor
    · intro hbig
      refine ⟨hs, fun hne => absurd ?_ hne⟩
      simp only [payloadOf, hslot]
      rw [if_neg (by omega)]
    · intro hsmall
      refine ⟨hs, hcalm, ?_⟩
      simp only [payloadOf, hslot]
      rw [if_pos ⟨hfits, by omega⟩]
  · rintro _ b' ⟨hs, hcause⟩
    refine ⟨hs, fun hne => ?_⟩
    cases hslot : b.store dcname recordname with
    | none => exact absurd (by simp only [payloadOf, hslot]) hne
    | some slot =>
        simp only [payloadOf, hslot] at hne
        by_cases hfits : slot.bytes.length ≤ cap + recordHeaderSize + spareHashSpace
        · exact hcause slot hslot hfits
        · exact absurd (if_neg (fun h => hfits h.1)) hne

namespace Inode

variable (P : Platform) (b : Backend) (ino : Inode)

def blockmapOf : Option (Option Mem) :=
  if 0 < ino.bmRecordname.length then
    (payloadOf P b ino.hashname ino.bmRecordname (hashLen * ino.bmCover)).map fun data =>
      some ((Mem.memset (fun _ => P.junk) 0 (hashLen * ino.bmCover)).place data)
  else some none

def blockIn (bm : Option Mem) (blk : Nat) : Option Mem :=
  match RecordCache.bmCheck { ino with bm := bm } blk with
  | some recordname =>
    (payloadOf P b ino.hashname recordname (ino.blockSize + aesPadLen)).map fun data =>
      Mem.place (fun _ => P.junk) (P.decrypt ino.aesKey data)
  | none => some (Mem.memset (fun _ => P.junk) 0 ino.blockSize)

def blockOnStore (blk : Nat) : Option Mem :=
  (ino.blockmapOf P b).bind fun bm => ino.blockIn P b bm blk

def isCached (blk : Nat) : Bool := ino.dcacheStats[blk]?.any (·.cached)

structure SameFile (ino ino' : Inode) : Prop where
  hashname : ino'.hashname = ino.hashname
  inoRecordname : ino'.inoRecordname = ino.inoRecordname
  blockSize : ino'.blockSize = ino.blockSize
  bmCover : ino'.bmCover = ino.bmCover
  bmRecordname : ino'.bmRecordname = ino.bmRecordname
  aesKey : ino'.aesKey = ino.aesKey
  refCount : ino'.refCount = ino.refCount

theorem SameFile.refl (ino : Inode) : ino.SameFile ino := ⟨rfl, rfl, rfl, rfl, rfl, rfl, rfl⟩

theorem SameFile.trans {i j k : Inode} (h : i.SameFile j) (h' : j.SameFile k) : i.SameFile k :=
  ⟨h'.hashname.trans h.hashname, h'.inoRecordname.trans h.inoRecordname,
    h'.blockSize.trans h.blockSize, h'.bmCover.trans h.bmCover,
    h'.bmRecordname.trans h.bmRecordname, h'.aesKey.trans h.aesKey, h'.refCount.trans h.refCount⟩

end Inode

/-- What filling the cache leaves alone, whatever happens. -/
structure Session.Fills (s s' : Session) : Prop where
  file : s.ino.SameFile s'.ino
  size : s'.ino.size = s.ino.size
  dirty : ∀ blk, s'.ino.isDirty blk = s.ino.isDirty blk
  be : s.be.Same s'.be

instance : IsPreorder Session Session.Fills where
  refl := fun s => ⟨Inode.SameFile.refl s.ino, rfl, fun _ => rfl, Same.refl s.be⟩
  trans := fun _ _ _ h h' => ⟨h.file.trans h'.file, h'.size.trans h.size,
    fun blk => (h'.dirty blk).trans (h.dirty blk), h.be.trans h'.be⟩

/-- Nothing has been written: what is cached is what the store has. -/
structure Clean (P : Platform) (ino₀ : Inode) (b₀ : Backend) (s : Session) : Prop where
  file : ino₀.SameFile s.ino
  size : s.ino.size = ino₀.size
  be : b₀.Same s.be
  lengths : s.ino.dcacheBlocks.length = s.ino.dcacheStats.length
  cover : ino₀.size / ino₀.blockSize < s.ino.dcacheStats.length
  bm : s.ino.bm = none ∨ ino₀.blockmapOf P b₀ = some s.ino.bm
  blocks : ∀ blk, s.ino.isCached blk = true → ∃ m, s.ino.dcacheBlocks[blk]? = some (some m) ∧
    ino₀.blockOnStore P b₀ blk = some m

structure Loaded (P : Platform) (ino₀ : Inode) (b₀ : Backend) (s : Session) : Prop
    extends Clean P ino₀ b₀ s where
  bmLoaded : ino₀.blockmapOf P b₀ = some s.ino.bm

structure Session.Grew (s s' : Session) : Prop where
  cached : ∀ blk, s.ino.isCached blk = true → s'.ino.isCached blk = true
  length : s.ino.dcacheStats.length ≤ s'.ino.dcacheStats.length
  calm : s.be.Calm → s'.be.Calm

theorem Session.Grew.refl (s : Session) : s.Grew s := ⟨fun _ h => h, le_rfl, fun h => h⟩

theorem Session.Grew.trans {s t u : Session} (h : s.Grew t) (h' : t.Grew u) : s.Grew u :=
  ⟨fun blk hb => h'.cached blk (h.cached blk hb), h.length.trans h'.length,
    fun hc => h'.calm (h.calm hc)⟩

section Fill

variable {P : Platform} {ino₀ : Inode} {b₀ : Backend} {s : Session}

def Session.BmReadable (P : Platform) (s : Session) : Prop :=
  s.ino.bm = none → 0 < s.ino.bmRecordname.length → ∃ data b',
    StorageBackend.readRecordData P s.ino.hashname s.ino.bmRecordname (hashLen * s.ino.bmCover) s.be =
      .ok data b'

/-- `fillBmcache` loads the blockmap. If it fails, the inode is left with a zeroed one. -/
theorem wp_fillBmcache (h : Clean P ino₀ b₀ s) :
    Exec.wp (RecordCache.fillBmcache P)
      (fun _ s' => Loaded P ino₀ b₀ s' ∧ s.Grew s')
      (fun _ _ => ¬ s.BmReadable P ∧ (ino₀.blockmapOf P b₀ ≠ none → ¬ s.be.Calm)) s := by
  simp only [RecordCache.fillBmcache, Exec.wp_bind, Exec.wp_get, Exec.wp_ite]
  constructor
  · rintro ⟨hbm, hlen⟩
    rw [Option.isNone_iff_eq_none] at hbm
    have hlen₀ : 0 < ino₀.bmRecordname.length := by rw [← h.file.bmRecordname]; exact hlen
    simp only [wp_onInode, wp_onBackend]
    apply Exec.wp_mono (Exec.wp_and (wp_readRecordData _ _ _) (Exec.wp_run _ _))
    · rintro data b' ⟨⟨hs, hcalm, hdata⟩, -⟩
      rw [payloadOf_congr h.be.store, h.file.hashname, h.file.bmRecordname, h.file.bmCover] at hdata
      have hload : ino₀.blockmapOf P b₀ = some (some ((Mem.memset (fun _ => P.junk) 0
          (hashLen * s.ino.bmCover)).place data)) := by
        rw [Inode.blockmapOf, if_pos hlen₀, hdata, h.file.bmCover]
        rfl
      exact ⟨⟨⟨⟨h.file.1, h.file.2, h.file.3, h.file.4, h.file.5, h.file.6, h.file.7⟩, h.size,
        h.be.trans hs, h.lengths, h.cover, Or.inr hload, h.blocks⟩, hload⟩, fun _ hb => hb, le_rfl, hcalm⟩
    · rintro _ b' ⟨⟨hs, hcause⟩, hrun⟩
      refine ⟨fun hread => ?_, fun hne => hcause ?_⟩
      · obtain ⟨data, b'', hok⟩ := hread hbm hlen
        rw [hok] at hrun
        cases hrun
      rw [payloadOf_congr h.be.store, h.file.hashname, h.file.bmRecordname, h.file.bmCover]
      intro hnone
      rw [Inode.blockmapOf, if_pos hlen₀, hnone] at hne
      exact hne rfl
  · intro hskip
    refine ⟨⟨h, ?_⟩, Session.Grew.refl s⟩
    rcases h.bm with hnone | hload
    · rw [hnone]
      have hlen : ¬ 0 < ino₀.bmRecordname.length := by
        rw [← h.file.bmRecordname]
        intro hlen
        exact hskip ⟨by rw [hnone]; rfl, hlen⟩
      rw [Inode.blockmapOf, if_neg hlen]
    · exact hload

theorem isCached_iff {ino : Inode} {blk : Nat} :
    ino.isCached blk = true ↔ ∃ stat, ino.dcacheStats[blk]? = some stat ∧ stat.cached = true := by
  unfold Inode.isCached
  cases ino.dcacheStats[blk]? <;> simp

theorem lt_of_isCached {ino : Inode} {blk : Nat} (h : ino.isCached blk = true) :
    blk < ino.dcacheStats.length := by
  obtain ⟨stat, hstat, -⟩ := isCached_iff.mp h
  exact (List.getElem?_eq_some_iff.mp hstat).1

theorem isCached_growTo (ino : Inode) (blk blk' : Nat) :
    (RecordCache.growTo ino blk).isCached blk' = ino.isCached blk' := by
  unfold RecordCache.growTo
  split
  · unfold Inode.isCached
    by_cases hlt : blk' < ino.dcacheStats.length
    · rw [List.getElem?_append_left hlt]
    · rw [List.getElem?_append_right (by omega), List.getElem?_eq_none (by omega : _ ≤ blk')]
      cases blk' - ino.dcacheStats.length <;> rfl
  · rfl

theorem length_growTo (ino : Inode) (blk : Nat) :
    ino.dcacheStats.length ≤ (RecordCache.growTo ino blk).dcacheStats.length ∧
      (blk ≤ ino.dcacheStats.length → blk < (RecordCache.growTo ino blk).dcacheStats.length) := by
  unfold RecordCache.growTo
  split
  · rename_i hle
    simp only [List.length_append, List.length_singleton]
    omega
  · omega

theorem Loaded.growTo (h : Loaded P ino₀ b₀ s) (blk : Nat) :
    Loaded P ino₀ b₀ { s with ino := RecordCache.growTo s.ino blk } := by
  have hfields : s.ino.SameFile (RecordCache.growTo s.ino blk) ∧
      (RecordCache.growTo s.ino blk).size = s.ino.size ∧
      (RecordCache.growTo s.ino blk).bm = s.ino.bm := by
    unfold RecordCache.growTo
    split <;> exact ⟨⟨rfl, rfl, rfl, rfl, rfl, rfl, rfl⟩, rfl, rfl⟩
  obtain ⟨hfile, hsize, hbm⟩ := hfields
  refine ⟨⟨h.file.trans hfile, hsize.trans h.size, h.be, ?_,
    lt_of_lt_of_le h.cover (length_growTo s.ino blk).1, ?_, ?_⟩, ?_⟩
  · have hlen := h.lengths
    simp only [RecordCache.growTo]
    split
    · simp [hlen]
    · exact hlen
  · simp only [hbm]
    exact h.bm
  · intro blk' hc
    rw [isCached_growTo] at hc
    obtain ⟨m, hm, hstore⟩ := h.blocks blk' hc
    refine ⟨m, ?_, hstore⟩
    have hlt := (List.getElem?_eq_some_iff.mp hm).1
    simp only [RecordCache.growTo]
    split
    · rw [List.getElem?_append_left hlt, hm]
    · exact hm
  · simp only [hbm]
    exact h.bmLoaded

/-- A block that is not cached may be overwritten. -/
theorem Loaded.setBlock (h : Loaded P ino₀ b₀ s) {blk : Nat} (hblk : s.ino.isCached blk = false)
    (m : Mem) : Loaded P ino₀ b₀ { s with ino := s.ino.setBlock blk m } := by
  refine ⟨⟨⟨h.file.1, h.file.2, h.file.3, h.file.4, h.file.5, h.file.6, h.file.7⟩, h.size, h.be,
    ?_, h.cover, h.bm, ?_⟩, h.bmLoaded⟩
  · simp [Inode.setBlock, h.lengths]
  · intro blk' hc
    have hne : blk ≠ blk' := by
      rintro rfl
      change s.ino.isCached blk = true at hc
      rw [hblk] at hc
      cases hc
    obtain ⟨m', hm', hstore⟩ := h.blocks blk' hc
    refine ⟨m', ?_, hstore⟩
    simp only [Inode.setBlock]
    rw [List.getElem?_set_ne hne, hm']

/-- A block with the contents of the store may be marked as cached. -/
theorem Loaded.setCached (h : Loaded P ino₀ b₀ s) {blk : Nat} (stat : CStat) {m : Mem}
    (hlt : blk < s.ino.dcacheStats.length) (hm : ino₀.blockOnStore P b₀ blk = some m) :
    let ino' := (s.ino.setBlock blk m).setStat blk { stat with cached := true }
    Loaded P ino₀ b₀ { s with ino := ino' } ∧ ino'.isCached blk = true ∧
      ∀ blk', s.ino.isCached blk' = true → ino'.isCached blk' = true := by
  intro ino'
  have hcached : ∀ blk', ino'.isCached blk' = if blk = blk' then true else s.ino.isCached blk' := by
    intro blk'
    simp only [ino', Inode.isCached, Inode.setStat, Inode.setBlock]
    split
    · rename_i he
      subst he
      rw [List.getElem?_set_self hlt]
      rfl
    · rename_i hne
      rw [List.getElem?_set_ne hne]
  refine ⟨⟨⟨⟨h.file.1, h.file.2, h.file.3, h.file.4, h.file.5, h.file.6, h.file.7⟩, h.size, h.be,
    ?_, ?_, h.bm, ?_⟩, h.bmLoaded⟩, ?_, ?_⟩
  · simp [ino', Inode.setBlock, Inode.setStat, h.lengths]
  · simpa [ino', Inode.setBlock, Inode.setStat] using h.cover
  · intro blk' hc
    simp only [hcached] at hc
    by_cases he : blk = blk'
    · subst he
      refine ⟨m, ?_, hm⟩
      simp only [ino', Inode.setStat, Inode.setBlock]
      rw [List.getElem?_set_self (by rw [h.lengths]; exact hlt)]
    · rw [if_neg he] at hc
      obtain ⟨m', hm', hstore⟩ := h.blocks blk' hc
      refine ⟨m', ?_, hstore⟩
      simp only [ino', Inode.setStat, Inode.setBlock]
      rw [List.getElem?_set_ne he, hm']
  · rw [hcached, if_pos rfl]
  · intro blk' hc
    rw [hcached]
    split
    · rfl
    · exact hc

/-- As a C string, a name is empty like the zeros if its first byte is zero, and only then. -/
theorem strcmpEq_zeros_iff {name : Bytes} (hlen : name.length = hashLen) :
    strcmpEq name (List.replicate hashLen 0) = true ↔ name.head? = some 0 := by
  have hzeros : List.replicate hashLen (0 : UInt8) = 0 :: List.replicate 31 0 := rfl
  cases name with
  | nil => cases hlen
  | cons a as =>
      rw [hzeros, strcmpEq]
      by_cases ha : a = 0 <;> simp [ha]

theorem bmCheck_congr {ino ino' : Inode} (hbm : ino'.bm = ino.bm) (hcover : ino'.bmCover = ino.bmCover)
    (blk : Nat) : RecordCache.bmCheck ino' blk = RecordCache.bmCheck ino blk := by
  unfold RecordCache.bmCheck
  rw [hbm, hcover]

/-- `fillBlock` on a loaded blockmap: the block gets cached, or a failure leaves the cache clean. -/
theorem wp_fillBlock (h : Loaded P ino₀ b₀ s) (blk : Nat) :
    Exec.wp (RecordCache.fillBlock P blk)
      (fun _ s' => Loaded P ino₀ b₀ s' ∧ s.Grew s' ∧ s'.ino.isCached blk = true)
      (fun x s' => (∀ e, x = .err e → Loaded P ino₀ b₀ s') ∧
        (blk ≤ s.ino.dcacheStats.length → ino₀.blockOnStore P b₀ blk ≠ none → ¬ s.be.Calm)) s := by
  simp only [RecordCache.fillBlock, Exec.wp_bind, wp_onInode, Exec.wp_get, Exec.wp_orAbort]
  have hg := h.growTo blk
  have hlen := length_growTo s.ino blk
  have hgrew : s.Grew { s with ino := RecordCache.growTo s.ino blk } :=
    ⟨fun blk' hc => by rw [isCached_growTo]; exact hc, hlen.1, fun hc => hc⟩
  set t : Session := { s with ino := RecordCache.growTo s.ino blk } with ht
  constructor
  swap
  · intro hnone
    refine ⟨fun e he => (by cases he), fun hle => ?_⟩
    rw [List.getElem?_eq_none_iff] at hnone
    have := hlen.2 hle
    omega
  intro stat hstat
  have hlt := (List.getElem?_eq_some_iff.mp hstat).1
  rw [Exec.wp_ite]
  refine ⟨fun hc => ⟨hg, hgrew, isCached_iff.mpr ⟨stat, hstat, hc⟩⟩, fun hc => ?_⟩
  have huncached : t.ino.isCached blk = false := by
    unfold Inode.isCached
    rw [hstat]
    simpa using hc
  have hjunk := hg.setBlock huncached (fun _ => P.junk)
  -- what the store has for this block, read through the loaded blockmap
  have hstore : ino₀.blockOnStore P b₀ blk = ino₀.blockIn P b₀ t.ino.bm blk := by
    rw [Inode.blockOnStore, hg.bmLoaded]
    rfl
  have hcheck : RecordCache.bmCheck { ino₀ with bm := t.ino.bm } blk =
      RecordCache.bmCheck t.ino blk := by
    apply bmCheck_congr
    · rfl
    · exact hg.file.bmCover.symm
  have hdone : ∀ (be : Backend) (m : Mem), t.be.Same be → (t.be.Calm → be.Calm) →
      ino₀.blockOnStore P b₀ blk = some m →
      let ino' := ((t.ino.setBlock blk fun _ => P.junk).setBlock blk m).setStat blk
        { stat with cached := true }
      Loaded P ino₀ b₀ ⟨ino', be⟩ ∧ s.Grew ⟨ino', be⟩ ∧ ino'.isCached blk = true := by
    intro be m hs hcalm hm ino'
    obtain ⟨hl, hself, hmono⟩ := hjunk.setCached stat hlt hm
    refine ⟨⟨⟨hl.file, hl.size, h.be.trans hs, hl.lengths, hl.cover, hl.bm, hl.blocks⟩, hl.bmLoaded⟩,
      ⟨fun blk' hc' => hmono blk' (hgrew.cached blk' hc'), ?_, fun hc' => hcalm hc'⟩, hself⟩
    simpa [ino', Inode.setStat, Inode.setBlock] using hlen.1
  cases hname : RecordCache.bmCheck t.ino blk with
  | none =>
      refine hdone t.be _ (Same.refl _) (fun hc' => hc') ?_
      rw [hstore, Inode.blockIn, hcheck, hname, hg.file.blockSize]
  | some recordname =>
      simp only [Exec.wp_bind, wp_onBackend, wp_onInode]
      have hin : ino₀.blockOnStore P b₀ blk =
          (payloadOf P t.be t.ino.hashname recordname (t.ino.blockSize + aesPadLen)).map fun data =>
            Mem.place (fun _ => P.junk) (P.decrypt t.ino.aesKey data) := by
        rw [hstore, Inode.blockIn, hcheck, hname, payloadOf_congr hg.be.store, hg.file.hashname,
          hg.file.blockSize, hg.file.aesKey]
      apply Exec.wp_mono (wp_readRecordData _ _ _)
      · rintro data b' ⟨hs, hcalm, hdata⟩
        apply hdone b' _ hs hcalm
        rw [hin, hdata]
        rfl
      · rintro x b' ⟨hs, hcause⟩
        refine ⟨fun e _ => ?_, fun _ hne hc' => ?_⟩
        · exact ⟨⟨hjunk.file, hjunk.size, h.be.trans hs, hjunk.lengths, hjunk.cover, hjunk.bm,
            hjunk.blocks⟩,
            hjunk.bmLoaded⟩
        · refine hcause ?_ hc'
          intro hnone
          rw [hin, hnone] at hne
          exact hne rfl

theorem wp_fillBlocks (h : Loaded P ino₀ b₀ s) (st n : Nat)
    (hst : st ≤ s.ino.dcacheStats.length) :
    Exec.wp ((List.range' st n).forM (RecordCache.fillBlock P))
      (fun _ s' => Loaded P ino₀ b₀ s' ∧ s.Grew s' ∧
        ∀ blk, st ≤ blk → blk < st + n → s'.ino.isCached blk = true)
      (fun x s' => (∀ e, x = .err e → Loaded P ino₀ b₀ s') ∧
        ((∀ blk, st ≤ blk → blk < st + n → ino₀.blockOnStore P b₀ blk ≠ none) → ¬ s.be.Calm)) s := by
  induction n generalizing st s with
  | zero => exact ⟨h, Session.Grew.refl s, fun blk h₁ h₂ => by omega⟩
  | succ n ih =>
      rw [List.range'_succ, List.forM, Exec.wp_bind]
      apply Exec.wp_mono (wp_fillBlock h st)
      · rintro _ t ⟨hl, hgrew, hc⟩
        apply Exec.wp_mono (ih hl (st + 1) (lt_of_isCached hc))
        · rintro _ u ⟨hl', hgrew', hall⟩
          refine ⟨hl', hgrew.trans hgrew', fun blk h₁ h₂ => ?_⟩
          by_cases he : blk = st
          · rw [he]
            exact hgrew'.cached st hc
          · exact hall blk (by omega) (by omega)
        · rintro x u ⟨herr, hcause⟩
          refine ⟨herr, fun hall hcalm => ?_⟩
          exact hcause (fun blk h₁ h₂ => hall blk (by omega) (by omega)) (hgrew.calm hcalm)
      · rintro x t ⟨herr, hcause⟩
        exact ⟨herr, fun hall => hcause hst (hall st le_rfl (by omega))⟩

/-- Filling the cache for a request that starts within the allocated blocks. -/
theorem wp_fillDcache (h : Clean P ino₀ b₀ s) {offset size : Nat}
    (hst : offset / ino₀.blockSize ≤ s.ino.dcacheStats.length) :
    Exec.wp (RecordCache.fillDcache P offset size)
      (fun _ s' => Loaded P ino₀ b₀ s' ∧ s.Grew s' ∧ ∀ blk, offset / ino₀.blockSize ≤ blk →
        blk ≤ u64 (offset + size) / ino₀.blockSize → s'.ino.isCached blk = true)
      (fun x s' => (s.BmReadable P → ∀ e, x = .err e → Clean P ino₀ b₀ s') ∧
        (offset / ino₀.blockSize ≤ u64 (offset + size) / ino₀.blockSize →
          (∀ blk, offset / ino₀.blockSize ≤ blk → blk ≤ u64 (offset + size) / ino₀.blockSize →
            ino₀.blockOnStore P b₀ blk ≠ none) → ¬ s.be.Calm)) s := by
  have hmin : min (offset / ino₀.blockSize) s.ino.dcacheStats.length = offset / ino₀.blockSize :=
    Nat.min_eq_left hst
  simp only [RecordCache.fillDcache, Exec.wp_bind, Exec.wp_get, h.file.blockSize, hmin]
  apply Exec.wp_mono (wp_fillBmcache h)
  · rintro _ t ⟨hl, hgrew⟩
    apply Exec.wp_mono (wp_fillBlocks hl _ _ (hst.trans hgrew.length))
    · rintro _ u ⟨hl', hgrew', hall⟩
      exact ⟨hl', hgrew.trans hgrew', fun blk h₁ h₂ => hall blk h₁ (by omega)⟩
    · rintro x u ⟨herr, hcause⟩
      refine ⟨fun _ e he => (herr e he).toClean, fun hle hall hcalm => ?_⟩
      exact hcause (fun blk h₁ h₂ => hall blk h₁ (by omega)) (hgrew.calm hcalm)
  · rintro x t ⟨hnot, hcause⟩
    refine ⟨fun hread => absurd hread hnot, fun hle hall => hcause ?_⟩
    intro hnone
    apply hall (offset / ino₀.blockSize) le_rfl hle
    rw [Inode.blockOnStore, hnone]
    rfl

end Fill

section Frame

open Exec

variable (P : Platform)

theorem readRecordData_moves (dcname recordname : Bytes) (cap : Nat) :
    Moves Same (StorageBackend.readRecordData P dcname recordname cap) :=
  fun _ => wp_mono (wp_readRecordData dcname recordname cap) (fun _ _ h => h.1) (fun _ _ h => h.1)

theorem readRecordData_spares {k : Abort} (hk : .stopped ≠ k) (hfits : .recordFits ≠ k)
    (dcname recordname : Bytes) (cap : Nat) :
    Spares k (StorageBackend.readRecordData P dcname recordname cap) :=
  .bind (readRecord_spares hk hfits _ _ _) fun _ => .bind (.failIf _ _) fun _ => .pure _

theorem onBackend_fills {α : Type} {m : BackendM α} (h : Moves Same m) :
    Moves Session.Fills (onBackend m) :=
  h.zoom fun s _ hs => ⟨Inode.SameFile.refl s.ino, rfl, fun _ => rfl, hs⟩

theorem onInode_fills {f : Inode → Inode} (hfile : ∀ ino : Inode, ino.SameFile (f ino))
    (hsize : ∀ ino, (f ino).size = ino.size)
    (hdirty : ∀ ino blk, (f ino).isDirty blk = ino.isDirty blk) :
    Moves Session.Fills (onInode f) :=
  .modify fun s => ⟨hfile s.ino, hsize s.ino, hdirty s.ino, Same.refl s.be⟩

theorem isDirty_growTo (ino : Inode) (blk blk' : Nat) :
    (RecordCache.growTo ino blk).isDirty blk' = ino.isDirty blk' := by
  unfold RecordCache.growTo
  split
  · unfold Inode.isDirty
    by_cases hlt : blk' < ino.dcacheStats.length
    · rw [List.getElem?_append_left hlt]
    · rw [List.getElem?_append_right (by omega), List.getElem?_eq_none (by omega : _ ≤ blk')]
      cases blk' - ino.dcacheStats.length <;> rfl
  · rfl

theorem setBlock_fills (blk : Nat) (m : Mem) : Moves Session.Fills (onInode (·.setBlock blk m)) :=
  onInode_fills (fun _ => ⟨rfl, rfl, rfl, rfl, rfl, rfl, rfl⟩) (fun _ => rfl) (fun _ _ => rfl)

theorem growTo_fills (blk : Nat) : Moves Session.Fills (onInode (RecordCache.growTo · blk)) := by
  refine onInode_fills ?_ ?_ (fun ino blk' => isDirty_growTo ino blk blk')
  · intro ino
    unfold RecordCache.growTo
    split <;> exact ⟨rfl, rfl, rfl, rfl, rfl, rfl, rfl⟩
  · intro ino
    unfold RecordCache.growTo
    split <;> rfl

theorem fillBmcache_fills : Moves Session.Fills (RecordCache.fillBmcache P) := by
  have hset : ∀ m : Mem, Moves Session.Fills (onInode fun ino => { ino with bm := some m }) :=
    fun m => onInode_fills (fun _ => ⟨rfl, rfl, rfl, rfl, rfl, rfl, rfl⟩) (fun _ => rfl)
      (fun _ _ => rfl)
  refine .bind .get fun s => .ite ?_ (.pure _)
  exact .bind (hset _) fun _ => .bind (onBackend_fills (readRecordData_moves P _ _ _)) fun _ =>
    hset _

/-- The statistics entry that `fillBlock` writes back is the one it read, but for `cached`. -/
theorem setStat_fills (blk : Nat) (stat : CStat) {s t : Session} (h : s.Fills t)
    (hstat : s.ino.dcacheStats[blk]? = some stat) :
    s.Fills { t with ino := t.ino.setStat blk { stat with cached := true } } := by
  refine ⟨⟨h.file.1, h.file.2, h.file.3, h.file.4, h.file.5, h.file.6, h.file.7⟩, h.size, ?_, h.be⟩
  intro blk'
  by_cases he : blk = blk'
  · subst he
    have hdirty : s.ino.isDirty blk = stat.dirty := by simp [Inode.isDirty, hstat]
    rw [hdirty]
    by_cases hlt : blk < t.ino.dcacheStats.length
    · simp [Inode.isDirty, Inode.setStat, hlt]
    · have ht := h.dirty blk
      rw [hdirty] at ht
      simp only [Inode.isDirty, Inode.setStat] at ht ⊢
      rw [List.set_eq_of_length_le (by omega)]
      exact ht
  · rw [← h.dirty blk']
    simp only [Inode.isDirty, Inode.setStat]
    rw [List.getElem?_set_ne he]

theorem fillBlock_fills (blk : Nat) : Moves Session.Fills (RecordCache.fillBlock P blk) := by
  refine .bind (growTo_fills blk) fun _ => ?_
  intro s
  simp only [wp_bind, wp_get, wp_orAbort]
  refine ⟨fun stat hstat => ?_, fun _ => refl_of Session.Fills s⟩
  rw [wp_ite]
  refine ⟨fun _ => refl_of Session.Fills s, fun _ => ?_⟩
  have hfinish : ∀ t, s.Fills t → wp (onInode (·.setStat blk { stat with cached := true }))
      (fun _ u => s.Fills u) (fun _ u => s.Fills u) t := by
    intro t ht
    exact setStat_fills blk stat ht hstat
  have hload : Moves Session.Fills (match RecordCache.bmCheck s.ino blk with
      | some recordname => do
        let data ← onBackend (StorageBackend.readRecordData P s.ino.hashname recordname
          (s.ino.blockSize + aesPadLen))
        onInode (·.setBlock blk (Mem.place (fun _ => P.junk) (P.decrypt s.ino.aesKey data)))
      | none => onInode (·.setBlock blk (Mem.memset (fun _ => P.junk) 0 s.ino.blockSize))) := by
    cases RecordCache.bmCheck s.ino blk with
    | none => exact setBlock_fills _ _
    | some recordname =>
        exact .bind (onBackend_fills (readRecordData_moves P _ _ _)) fun _ => setBlock_fills _ _
  rw [wp_bind]
  refine wp_mono (setBlock_fills blk _ s) ?_ (fun _ _ h => h)
  intro _ t ht
  have hbody := hload t
  cases hname : RecordCache.bmCheck s.ino blk with
  | none =>
      rw [hname] at hbody
      rw [wp_bind]
      exact wp_mono hbody (fun _ u hu => hfinish u (trans_of Session.Fills ht hu))
        (fun _ u hu => trans_of Session.Fills ht hu)
  | some recordname =>
      rw [hname] at hbody
      rw [wp_bind] at hbody
      simp only [wp_bind]
      refine wp_mono hbody (fun _ u hu => ?_) (fun _ u hu => trans_of Session.Fills ht hu)
      exact wp_mono hu (fun _ w hw => hfinish w (trans_of Session.Fills ht hw))
        (fun _ w hw => trans_of Session.Fills ht hw)

theorem fillDcache_fills (offset size : Nat) :
    Moves Session.Fills (RecordCache.fillDcache P offset size) :=
  .bind .get fun _ => .bind (fillBmcache_fills P) fun _ => .forM fun blk _ => fillBlock_fills P blk

end Frame

/-! ## Copying out -/

def copyOut (blocks : Nat → Mem) : Mem → Nat → List Piece → Mem
  | buf, _, [] => buf
  | buf, cur, p :: ps => copyOut blocks (Mem.memcpy buf cur (blocks p.block) p.off p.len)
      (cur + p.len) ps

section Copy

variable {P : Platform} {ino₀ : Inode} {b₀ : Backend} {s : Session}

theorem readPieces_moves (buf : Mem) (cur : Nat) (ps : List Piece) :
    Exec.Moves Eq (RecordCache.readPieces buf cur ps) := by
  induction ps generalizing buf cur with
  | nil => exact .pure _
  | cons p ps ih =>
      refine .bind .get fun s => .bind ?_ fun m => ih _ _
      exact .bind (.orAbort _ _) fun _ => .bind (.check _ _) fun _ => .pure _

theorem wp_readPieces (blocks : Nat → Mem) (ps : List Piece) (buf : Mem) (cur : Nat)
    (hps : ∀ p ∈ ps, s.ino.dcacheBlocks[p.block]? = some (some (blocks p.block))) :
    Exec.wp (RecordCache.readPieces buf cur ps)
      (fun out s' => out = copyOut blocks buf cur ps ∧ s' = s ∧
        ∀ p ∈ ps, p.off + p.len ≤ s.ino.blockSize + aesPadLen)
      (fun x _ => (∃ k, x = .abort k) ∧
        ¬ ∀ p ∈ ps, p.off + p.len ≤ s.ino.blockSize + aesPadLen) s := by
  induction ps generalizing buf cur with
  | nil => exact ⟨rfl, rfl, by simp⟩
  | cons p ps ih =>
      have hp := hps p (by simp)
      simp only [RecordCache.readPieces, RecordCache.blockOf, Exec.wp_bind, Exec.wp_get, hp,
        Option.join_some, Exec.wp_orAbort, Exec.wp_check, Exec.wp_pure, decide_eq_true_eq,
        decide_eq_false_iff_not]
      refine ⟨?_, fun hn => by cases hn⟩
      intro m hm
      rw [Option.some.injEq] at hm
      subst hm
      refine ⟨fun hfits => ?_, fun hbig => ⟨⟨_, rfl⟩, fun hall => hbig (hall p (by simp))⟩⟩
      refine Exec.wp_mono (ih _ _ fun q hq => hps q (by simp [hq])) ?_ ?_
      · rintro _ _ ⟨rfl, rfl, hall⟩
        refine ⟨rfl, rfl, fun q hq => ?_⟩
        rcases List.mem_cons.mp hq with rfl | hq
        · exact hfits
        · exact hall q hq
      · rintro x _ ⟨hx, hnot⟩
        exact ⟨hx, fun hall => hnot fun q hq => hall q (by simp [hq])⟩

/-- The blocks that a request touches, also one whose end wraps around. -/
theorem exists_piece_iff {bs offset size blk : Nat} :
    (∃ p ∈ copyPieces bs offset size, p.block = blk) ↔
      blk = offset / bs ∨ blk = u64 (offset + size) / bs ∨
        offset / bs < blk ∧ blk < u64 (offset + size) / bs := by
  unfold copyPieces
  dsimp only
  generalize offset / bs = st
  generalize u64 (offset + size) / bs = ed
  split
  next heq =>
    simp only [List.mem_singleton, exists_eq_left]
    omega
  next hne =>
    split
    next hnext =>
      simp only [List.mem_cons, List.not_mem_nil, or_false, exists_eq_or_imp, exists_eq_left]
      omega
    next hfar =>
      simp only [List.mem_cons, List.mem_append, List.mem_map, List.mem_range', List.not_mem_nil,
        or_false, exists_eq_or_imp]
      constructor
      · rintro (h | ⟨p, (⟨k, ⟨i, hi, rfl⟩, rfl⟩ | rfl), hp⟩)
        · exact .inl h.symm
        · dsimp only at hp
          omega
        · exact .inr (.inl hp.symm)
      · rintro (h | h | ⟨hst, hed⟩)
        · exact .inl h.symm
        · exact .inr ⟨_, .inr rfl, h.symm⟩
        · exact .inr ⟨_, .inl ⟨blk, ⟨blk - (st + 1), by omega, by omega⟩, rfl⟩, rfl⟩

/-- The pieces of a request that does not wrap lie in its blocks. -/
theorem block_of_mem_copyPieces {bs offset size : Nat} (hsum : offset + size < 2 ^ 64) {p : Piece}
    (hp : p ∈ copyPieces bs offset size) :
    offset / bs ≤ p.block ∧ p.block ≤ u64 (offset + size) / bs := by
  have hle : offset / bs ≤ u64 (offset + size) / bs := by
    rw [u64_of_lt hsum]
    exact Nat.div_le_div_right (by omega)
  rcases exists_piece_iff.mp ⟨p, hp, rfl⟩ with hfirst | hlast | ⟨hst, hed⟩
  · exact ⟨hfirst.ge, hfirst.le.trans hle⟩
  · exact ⟨hle.trans hlast.ge, hlast.le⟩
  · exact ⟨hst.le, hed.le⟩

end Copy

/-! ## Reading -/

/-- What a read of a file returns: the bytes the store has for the range. It does not return for an
empty range within the file, for a block that is missing, or for a piece that leaves its block. -/
def ReadsAs (P : Platform) (b : Backend) (ino : Inode) (buf : Mem) (offset size : Nat)
    (out : Mem × Option Nat) : Prop :=
  if ino.size ≤ offset then out = (buf, none)
  else
    let readSize := if ino.size < u64 (offset + size) then ino.size - offset else size
    let pieces := copyPieces ino.blockSize offset readSize
    0 < readSize ∧
      (∀ blk, offset / ino.blockSize ≤ blk → blk ≤ u64 (offset + readSize) / ino.blockSize →
        ino.blockOnStore P b blk ≠ none) ∧
      (∀ p ∈ pieces, p.off + p.len ≤ ino.blockSize + aesPadLen) ∧
      out = (copyOut (fun blk => (ino.blockOnStore P b blk).getD fun _ => P.junk) buf 0 pieces,
        some readSize)

section Read

variable {P : Platform} {ino₀ : Inode} {b₀ : Backend} {s : Session}

theorem Clean.start_le (h : Clean P ino₀ b₀ s) {offset : Nat} (hlt : offset < ino₀.size) :
    offset / ino₀.blockSize ≤ s.ino.dcacheStats.length := by
  have hle : offset / ino₀.blockSize ≤ ino₀.size / ino₀.blockSize := Nat.div_le_div_right hlt.le
  have hcover := h.cover
  omega

/-- A read changes nothing but the cache. -/
theorem read_fills (buf : Mem) (offset size : Nat) :
    Exec.Moves Session.Fills (Inode.read P buf offset size) := by
  refine .bind .get fun s => .ite (.pure _) ?_
  refine .bind (.bind (.check _ _) fun _ => .bind .get fun _ => ?_) fun _ => .pure _
  refine .bind (fillDcache_fills P _ _) fun _ => (readPieces_moves _ _ _).mono ?_
  rintro s _ rfl
  exact refl_of Session.Fills s

/-- A read keeps the cache clean, unless it fails to load the blockmap. -/
theorem wp_read_clean (h : Clean P ino₀ b₀ s) (buf : Mem) (offset size : Nat) :
    Exec.wp (Inode.read P buf offset size) (fun _ s' => Clean P ino₀ b₀ s')
      (fun x s' => (offset < ino₀.size → s.BmReadable P) → ∀ e, x = .err e → Clean P ino₀ b₀ s')
      s := by
  simp only [Inode.read, Exec.wp_bind, Exec.wp_get, Exec.wp_ite, Exec.wp_pure, h.size]
  refine ⟨fun _ => h, fun hlt => ?_⟩
  have hlt' : offset < ino₀.size := by omega
  simp only [RecordCache.read, Exec.wp_bind, Exec.wp_get, Exec.wp_check]
  refine ⟨fun _ => ?_, fun _ _ e he => by cases he⟩
  apply Exec.wp_mono (wp_fillDcache h (h.start_le hlt'))
  · rintro _ t ⟨hl, -, -⟩
    apply Exec.wp_mono (readPieces_moves _ _ _ t)
    · rintro _ _ rfl
      exact hl.toClean
    · rintro _ _ rfl _ _ _
      exact hl.toClean
  · rintro x t ⟨herr, -⟩ hread e he
    exact herr (hread hlt') e he

/-- What a read of a range that does not wrap returns, and that it returns when nothing fails. -/
theorem wp_read_spec (h : Clean P ino₀ b₀ s) (buf : Mem) {offset size : Nat}
    (hsum : offset + size < 2 ^ 64) :
    Exec.wp (Inode.read P buf offset size)
      (fun out _ => ReadsAs P b₀ ino₀ buf offset size out)
      (fun _ _ => ∀ out, ReadsAs P b₀ ino₀ buf offset size out → ¬ s.be.Calm) s := by
  simp only [Inode.read, Exec.wp_bind, Exec.wp_get, Exec.wp_ite, Exec.wp_pure, h.size]
  refine ⟨fun hle => by rw [ReadsAs, if_pos hle], fun hlt => ?_⟩
  have hlt' : offset < ino₀.size := by omega
  simp only [ReadsAs, if_neg hlt]
  set readSize := if ino₀.size < u64 (offset + size) then ino₀.size - offset else size with hrs
  have hsum' : offset + readSize < 2 ^ 64 := by
    have hle : readSize ≤ size := by
      rw [hrs, u64_of_lt hsum]
      split <;> omega
    omega
  have hst : offset / ino₀.blockSize ≤ u64 (offset + readSize) / ino₀.blockSize := by
    rw [u64_of_lt hsum']
    exact Nat.div_le_div_right (by omega)
  simp only [RecordCache.read, Exec.wp_bind, Exec.wp_get, Exec.wp_check, decide_eq_true_eq,
    decide_eq_false_iff_not]
  refine ⟨fun hpos => ?_, fun hzero out hout => absurd hout.1 hzero⟩
  apply Exec.wp_mono (wp_fillDcache h (h.start_le hlt'))
  · rintro _ t ⟨hl, hgrew, hcached⟩
    have hneed : ∀ blk, offset / ino₀.blockSize ≤ blk →
        blk ≤ u64 (offset + readSize) / ino₀.blockSize → ino₀.blockOnStore P b₀ blk ≠ none := by
      intro blk h₁ h₂ hnone
      obtain ⟨m, -, hm⟩ := hl.blocks blk (hcached blk h₁ h₂)
      rw [hm] at hnone
      cases hnone
    have hps : ∀ p ∈ copyPieces ino₀.blockSize offset readSize,
        t.ino.dcacheBlocks[p.block]? =
          some (some ((ino₀.blockOnStore P b₀ p.block).getD fun _ => P.junk)) := by
      intro p hp
      obtain ⟨h₁, h₂⟩ := block_of_mem_copyPieces hsum' hp
      obtain ⟨m, hm, hstore⟩ := hl.blocks p.block (hcached _ h₁ h₂)
      rw [hm, hstore]
      rfl
    simp only [h.file.blockSize]
    refine Exec.wp_mono (wp_readPieces (fun blk => (ino₀.blockOnStore P b₀ blk).getD fun _ => P.junk)
      _ buf 0 hps) ?_ ?_
    · rintro _ _ ⟨rfl, -, hfits⟩
      rw [hl.file.blockSize] at hfits
      exact ⟨hpos, hneed, hfits, rfl⟩
    · rintro _ _ ⟨-, hnot⟩ out hout
      rw [hl.file.blockSize] at hnot
      exact absurd hout.2.2.1 hnot
  · rintro x t ⟨-, hcause⟩ out hout
    exact hcause hst hout.2.1

end Read

end DcfsClient
