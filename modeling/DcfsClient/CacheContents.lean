import DcfsClient.CopyPieces
import DcfsClient.CacheWrites

/-!
# The logical content of a cached file

A byte of an open file is the byte of its block: the cached bytes of the block if it is cached,
otherwise what the store has for it under the blockmap of the session. `Inode.Tidy` is the state of
the vectors between two calls that went well. `Session.Filled` says what filling the cache does, also
when it fails at a block: the content, the dirty flags and the size stay what they were. Only a
blockmap that cannot be loaded changes the content. `Session.Wrote` says what copying a list of pieces
into the blocks does.
-/

namespace DcfsClient

open Backend

/-- The blockmap of a session: the one in memory, or what loading it would give. -/
def Session.bmNow (P : Platform) (s : Session) : Option (Option Mem) :=
  if s.ino.bm.isSome then some s.ino.bm else s.ino.blockmapOf P s.be

def Session.blockNow (P : Platform) (s : Session) (blk : Nat) : Option Mem :=
  if s.ino.isCached blk then (s.ino.dcacheBlocks[blk]?).join
  else (s.bmNow P).bind fun bm => s.ino.blockIn P s.be bm blk

def Session.content (P : Platform) (s : Session) (pos : Nat) : Option UInt8 :=
  (s.blockNow P (pos / s.ino.blockSize)).map fun m => m (pos % s.ino.blockSize)

structure Inode.Allocated (ino : Inode) : Prop where
  lengths : ino.dcacheBlocks.length = ino.dcacheStats.length
  alloc : ∀ blk, ino.isCached blk = true → ∃ m, ino.dcacheBlocks[blk]? = some (some m)

/-- Only cached blocks are allocated: no fill has stopped half-way. -/
def Inode.AllocatedCached (ino : Inode) : Prop :=
  ∀ blk : Nat, (ino.dcacheBlocks[blk]?).join ≠ none → ino.isCached blk = true

structure Inode.Tidy (ino : Inode) : Prop extends Inode.Allocated ino where
  dirty : ∀ blk, ino.isDirty blk = true → ino.isCached blk = true
  unloaded : ino.bm = none → 0 < ino.bmRecordname.length → ∀ blk, ino.isCached blk = false

/-- The cache was filled: more blocks may be cached, and nothing else can be seen. -/
structure Session.Filled (P : Platform) (s s' : Session) : Prop extends s.Fills s' where
  allocated : s.ino.Allocated → s'.ino.Allocated
  tidy : s.ino.Tidy → s'.ino.Tidy
  bmNow : s'.bmNow P = s.bmNow P
  blockNow : ∀ blk, s'.blockNow P blk = s.blockNow P blk
  cached : ∀ blk, s.ino.isCached blk = true → s'.ino.isCached blk = true
  length : s.ino.dcacheStats.length ≤ s'.ino.dcacheStats.length

theorem isCached_load (hashname inoRecordname bmRecordname : Bytes) (kb cover iSize : Nat)
    (aesKey : Bytes) (blk : Nat) :
    (Inode.load hashname inoRecordname bmRecordname kb cover iSize aesKey).isCached blk = false := by
  simp only [Inode.isCached, Inode.load, List.getElem?_replicate]
  split <;> rfl

/-- An inode that has just been opened. -/
theorem Inode.tidy_load (hashname inoRecordname bmRecordname : Bytes) (kb cover iSize : Nat)
    (aesKey : Bytes) :
    (Inode.load hashname inoRecordname bmRecordname kb cover iSize aesKey).Tidy := by
  have hun := isCached_load hashname inoRecordname bmRecordname kb cover iSize aesKey
  refine ⟨⟨?_, ?_⟩, ?_, fun _ _ => hun⟩
  · simp [Inode.load]
  · intro blk hc
    rw [hun] at hc
    cases hc
  · intro blk hd
    simp only [Inode.isDirty, Inode.load, List.getElem?_replicate] at hd
    split at hd <;> cases hd

theorem Inode.Allocated.resize {ino : Inode} (h : ino.Allocated) (n : Nat) :
    Inode.Allocated { ino with size := n } := ⟨h.lengths, h.alloc⟩

theorem Inode.Tidy.resize {ino : Inode} (h : ino.Tidy) (n : Nat) :
    Inode.Tidy { ino with size := n } := ⟨h.toAllocated.resize n, h.dirty, h.unloaded⟩

section Content

variable {P : Platform} {s s' : Session}

theorem Session.Filled.refl (s : Session) : s.Filled P s :=
  ⟨refl_of Session.Fills s, id, id, rfl, fun _ => rfl, fun _ h => h, le_rfl⟩

theorem Session.Filled.trans {s t u : Session} (h : s.Filled P t) (h' : t.Filled P u) :
    s.Filled P u :=
  ⟨trans_of Session.Fills h.toFills h'.toFills, h'.allocated ∘ h.allocated,
    h'.tidy ∘ h.tidy, h'.bmNow.trans h.bmNow, fun blk => (h'.blockNow blk).trans (h.blockNow blk),
    fun blk hb => h'.cached blk (h.cached blk hb), h.length.trans h'.length⟩

theorem Session.Filled.content (h : s.Filled P s') (pos : Nat) :
    s'.content P pos = s.content P pos := by
  unfold Session.content
  rw [h.file.blockSize, h.blockNow]

theorem Inode.SameFile.blockmapOf_eq {ino ino' : Inode} {b b' : Backend} (h : ino.SameFile ino')
    (hs : b.Same b') : ino'.blockmapOf P b' = ino.blockmapOf P b := by
  unfold Inode.blockmapOf
  rw [h.bmRecordname, h.hashname, h.bmCover, payloadOf_congr hs.store]

theorem Inode.SameFile.blockIn_eq {ino ino' : Inode} {b b' : Backend} (h : ino.SameFile ino')
    (hs : b.Same b') (bm : Option Mem) (blk : Nat) :
    ino'.blockIn P b' bm blk = ino.blockIn P b bm blk := by
  have hcheck : RecordCache.bmCheck { ino' with bm := bm } blk =
      RecordCache.bmCheck { ino with bm := bm } blk := by
    apply bmCheck_congr
    · rfl
    · exact h.bmCover
  unfold Inode.blockIn
  rw [hcheck, h.blockSize, h.hashname, h.aesKey]
  cases RecordCache.bmCheck { ino with bm := bm } blk with
  | none => rfl
  | some recordname =>
      dsimp only
      rw [payloadOf_congr hs.store]

theorem bmNow_eq (h : s.ino.SameFile s'.ino) (hs : s.be.Same s'.be) (hbm : s'.ino.bm = s.ino.bm) :
    s'.bmNow P = s.bmNow P := by
  unfold Session.bmNow
  rw [hbm, h.blockmapOf_eq hs]

/-- A block that stays cached or uncached shows the same bytes if its memory does. -/
theorem blockNow_eq (h : s.ino.SameFile s'.ino) (hs : s.be.Same s'.be)
    (hbm : s'.bmNow P = s.bmNow P) {blk : Nat} (hc : s'.ino.isCached blk = s.ino.isCached blk)
    (hblock : s.ino.isCached blk = true →
      (s'.ino.dcacheBlocks[blk]?).join = (s.ino.dcacheBlocks[blk]?).join) :
    s'.blockNow P blk = s.blockNow P blk := by
  unfold Session.blockNow
  rw [hc, hbm]
  split
  · rename_i hcached
    rw [hblock hcached]
  · simp only [h.blockIn_eq hs]

theorem blockNow_of_cached {blk : Nat} {m : Mem} (hc : s.ino.isCached blk = true)
    (hm : (s.ino.dcacheBlocks[blk]?).join = some m) : s.blockNow P blk = some m := by
  rw [Session.blockNow, if_pos hc, hm]

end Content

/-! ## Filling the cache -/

section Fill

variable {P : Platform} {s : Session}

theorem isCached_setStat_of_ne (ino : Inode) {blk blk' : Nat} (stat : CStat) (hne : blk ≠ blk') :
    (ino.setStat blk stat).isCached blk' = ino.isCached blk' := by
  simp only [Inode.isCached, Inode.setStat]
  rw [List.getElem?_set_ne hne]

theorem isCached_setStat_self (ino : Inode) {blk : Nat} (stat : CStat)
    (hlt : blk < ino.dcacheStats.length) : (ino.setStat blk stat).isCached blk = stat.cached := by
  simp only [Inode.isCached, Inode.setStat]
  rw [List.getElem?_set_self hlt]
  rfl

theorem join_growTo (ino : Inode) (blk blk' : Nat) :
    ((RecordCache.growTo ino blk).dcacheBlocks[blk']?).join = (ino.dcacheBlocks[blk']?).join := by
  unfold RecordCache.growTo
  split
  · by_cases hlt : blk' < ino.dcacheBlocks.length
    · rw [List.getElem?_append_left hlt]
    · rw [List.getElem?_append_right (by omega), List.getElem?_eq_none (by omega : _ ≤ blk')]
      cases blk' - ino.dcacheBlocks.length <;> rfl
  · rfl

/-- The vectors grow by an empty entry. -/
theorem Session.filled_growTo (P : Platform) (s : Session) (blk : Nat) :
    s.Filled P { s with ino := RecordCache.growTo s.ino blk } := by
  have hfills : s.Fills { s with ino := RecordCache.growTo s.ino blk } := growTo_fills blk s
  have hbm : (RecordCache.growTo s.ino blk).bm = s.ino.bm := by
    unfold RecordCache.growTo
    split <;> rfl
  have hcached := isCached_growTo s.ino blk
  have hblock := join_growTo s.ino blk
  have hnow : Session.bmNow P ⟨RecordCache.growTo s.ino blk, s.be⟩ = s.bmNow P :=
    bmNow_eq hfills.file hfills.be hbm
  have halloc : s.ino.Allocated → (RecordCache.growTo s.ino blk).Allocated := by
    intro h
    constructor
    · have hlen := h.lengths
      simp only [RecordCache.growTo]
      split
      · simp [hlen]
      · exact hlen
    · intro blk' hc
      rw [hcached] at hc
      obtain ⟨m, hm⟩ := h.alloc blk' hc
      exact ⟨m, Option.join_eq_some_iff.mp ((hblock blk').trans (by rw [hm]; rfl))⟩
  refine ⟨hfills, halloc, ?_, hnow, ?_, ?_, (length_growTo s.ino blk).1⟩
  · intro h
    refine ⟨halloc h.toAllocated, ?_, ?_⟩
    · intro blk' hd
      rw [isDirty_growTo] at hd
      rw [hcached]
      exact h.dirty blk' hd
    · intro hnone hlen blk'
      rw [hcached]
      rw [hbm] at hnone
      rw [hfills.file.bmRecordname] at hlen
      exact h.unloaded hnone hlen blk'
  · intro blk'
    exact blockNow_eq hfills.file hfills.be hnow (hcached blk') (fun _ => hblock blk')
  · intro blk' hc
    rw [hcached]
    exact hc

/-- A block that is not cached may be overwritten. -/
theorem Session.filled_setBlock (P : Platform) {s : Session} {blk : Nat}
    (hblk : s.ino.isCached blk = false) (m : Mem) {b' : Backend} (hs : s.be.Same b') :
    s.Filled P ⟨s.ino.setBlock blk m, b'⟩ := by
  have hfills : s.Fills ⟨s.ino.setBlock blk m, b'⟩ :=
    ⟨⟨rfl, rfl, rfl, rfl, rfl, rfl, rfl⟩, rfl, fun _ => rfl, hs⟩
  have hkeep : ∀ blk', s.ino.isCached blk' = true →
      (s.ino.setBlock blk m).dcacheBlocks[blk']? = s.ino.dcacheBlocks[blk']? := by
    intro blk' hc
    have hne : blk ≠ blk' := by
      rintro rfl
      rw [hblk] at hc
      cases hc
    exact List.getElem?_set_ne hne
  have hnow : Session.bmNow P ⟨s.ino.setBlock blk m, b'⟩ = s.bmNow P :=
    bmNow_eq hfills.file hfills.be rfl
  have halloc : s.ino.Allocated → (s.ino.setBlock blk m).Allocated := by
    intro h
    constructor
    · simp [Inode.setBlock, h.lengths]
    · intro blk' hc
      obtain ⟨m', hm'⟩ := h.alloc blk' hc
      exact ⟨m', (hkeep blk' hc).trans hm'⟩
  refine ⟨hfills, halloc, ?_, hnow, ?_, fun _ hc => hc, le_rfl⟩
  · intro h
    exact ⟨halloc h.toAllocated, h.dirty, h.unloaded⟩
  · intro blk'
    exact blockNow_eq hfills.file hfills.be hnow rfl (fun hc => by rw [hkeep blk' hc])

/-- The blockmap is in memory, if the file has one. -/
def Session.Ready (P : Platform) (s : Session) : Prop := s.bmNow P = some s.ino.bm

theorem Session.Ready.loaded (h : s.Ready P) (hbm : s.ino.bm = none) :
    ¬ 0 < s.ino.bmRecordname.length := by
  intro hlen
  unfold Session.Ready Session.bmNow Inode.blockmapOf at h
  rw [hbm, if_pos hlen] at h
  cases hp : payloadOf P s.be s.ino.hashname s.ino.bmRecordname (hashLen * s.ino.bmCover) <;>
    simp [hp] at h

/-- A block may be marked as cached when its memory holds what the session shows for it. -/
theorem Session.filled_setCached {s : Session} (hready : s.Ready P) {blk : Nat} (stat : CStat)
    (m : Mem) (hstat : s.ino.dcacheStats[blk]? = some stat)
    (hm : s.ino.dcacheBlocks[blk]? = some (some m)) (hnow : s.blockNow P blk = some m) :
    s.Filled P { s with ino := s.ino.setStat blk { stat with cached := true } } := by
  have hlt := (List.getElem?_eq_some_iff.mp hstat).1
  have hfills : s.Fills { s with ino := s.ino.setStat blk { stat with cached := true } } :=
    setStat_fills blk stat (refl_of Session.Fills s) hstat
  have hself : (s.ino.setStat blk { stat with cached := true }).isCached blk = true :=
    isCached_setStat_self s.ino _ hlt
  have hmono : ∀ blk', s.ino.isCached blk' = true →
      (s.ino.setStat blk { stat with cached := true }).isCached blk' = true := by
    intro blk' hc
    by_cases he : blk = blk'
    · rw [← he]
      exact hself
    · rw [isCached_setStat_of_ne s.ino _ he]
      exact hc
  have hnow' := bmNow_eq (P := P) hfills.file hfills.be rfl
  have halloc : s.ino.Allocated →
      (s.ino.setStat blk { stat with cached := true }).Allocated := by
    intro h
    constructor
    · simp [Inode.setStat, h.lengths]
    · intro blk' hc
      by_cases he : blk = blk'
      · rw [← he]
        exact ⟨m, hm⟩
      · rw [isCached_setStat_of_ne s.ino _ he] at hc
        exact h.alloc blk' hc
  refine ⟨hfills, halloc, ?_, hnow', ?_, hmono, ?_⟩
  · intro h
    refine ⟨halloc h.toAllocated, ?_, ?_⟩
    · intro blk' hd
      rw [hfills.dirty] at hd
      exact hmono blk' (h.dirty blk' hd)
    · intro hnone hlen
      exact absurd hlen (hready.loaded hnone)
  · intro blk'
    by_cases he : blk = blk'
    · rw [← he, hnow, Session.blockNow, if_pos hself]
      change (s.ino.dcacheBlocks[blk]?).join = some m
      rw [hm]
      rfl
    · exact blockNow_eq hfills.file hfills.be hnow' (isCached_setStat_of_ne s.ino _ he) (fun _ => rfl)
  · simp [Inode.setStat]

def RecordCache.loadBlock (P : Platform) (ino : Inode) (blk : Nat) : BackendM Unit :=
  if ino.isCached blk then pure ()
  else
    match RecordCache.bmCheck ino blk with
    | some recordname => do
      let _ ← StorageBackend.readRecordData P ino.hashname recordname (ino.blockSize + aesPadLen)
      pure ()
    | none => pure ()

theorem loadBlock_congr {ino ino' : Inode} (h : ino.SameFile ino') (hbm : ino'.bm = ino.bm) {blk : Nat}
    (hc : ino'.isCached blk = ino.isCached blk) :
    RecordCache.loadBlock P ino' blk = RecordCache.loadBlock P ino blk := by
  unfold RecordCache.loadBlock
  rw [hc, bmCheck_congr hbm h.bmCover, h.hashname, h.blockSize]

structure Session.FilledAt (P : Platform) (blk : Nat) (s s' : Session) : Prop
    extends s.Filled P s' where
  bm : s'.ino.bm = s.ino.bm
  others : ∀ blk', blk ≠ blk' → s'.ino.isCached blk' = s.ino.isCached blk'
  blocks : ∀ blk', blk ≠ blk' →
    (s'.ino.dcacheBlocks[blk']?).join = (s.ino.dcacheBlocks[blk']?).join

theorem Session.FilledAt.ready {blk : Nat} {s' : Session} (h : s.FilledAt P blk s')
    (hready : s.Ready P) : s'.Ready P := by
  unfold Session.Ready
  rw [h.bmNow, h.bm]
  exact hready

theorem Session.FilledAt.trans {blk : Nat} {s t u : Session} (h : s.FilledAt P blk t)
    (h' : t.FilledAt P blk u) : s.FilledAt P blk u :=
  ⟨h.toFilled.trans h'.toFilled, h'.bm.trans h.bm,
    fun blk' hne => (h'.others blk' hne).trans (h.others blk' hne),
    fun blk' hne => (h'.blocks blk' hne).trans (h.blocks blk' hne)⟩

theorem Session.filledAt_growTo (P : Platform) (s : Session) (blk : Nat) :
    s.FilledAt P blk { s with ino := RecordCache.growTo s.ino blk } := by
  refine ⟨s.filled_growTo P blk, ?_, fun blk' _ => isCached_growTo s.ino blk blk',
    fun blk' _ => join_growTo s.ino blk blk'⟩
  unfold RecordCache.growTo
  split <;> rfl

theorem Session.filledAt_setBlock (P : Platform) {s : Session} {blk : Nat}
    (hblk : s.ino.isCached blk = false) (m : Mem) {b' : Backend} (hs : s.be.Same b') :
    s.FilledAt P blk ⟨s.ino.setBlock blk m, b'⟩ := by
  refine ⟨s.filled_setBlock P hblk m hs, rfl, fun _ _ => rfl, ?_⟩
  intro blk' hne
  change ((s.ino.dcacheBlocks.set blk _)[blk']?).join = _
  rw [List.getElem?_set_ne hne]

/-- The block gets the junk of its allocation, then its contents, then the flag. -/
theorem Session.filledAt_loaded {s : Session} (hready : s.Ready P) {blk : Nat}
    (hblk : s.ino.isCached blk = false) {stat : CStat} (hstat : s.ino.dcacheStats[blk]? = some stat)
    (hlt : blk < s.ino.dcacheBlocks.length) {b' : Backend} (hs : s.be.Same b') {m : Mem}
    (hm : s.blockNow P blk = some m) :
    let u : Session := ⟨((s.ino.setBlock blk fun _ => P.junk).setBlock blk m).setStat blk
      { stat with cached := true }, b'⟩
    s.FilledAt P blk u ∧ u.ino.isCached blk = true := by
  intro u
  have hjunk := s.filledAt_setBlock P hblk (fun _ => P.junk) (Same.refl s.be)
  have hblock := hjunk.trans (Session.filledAt_setBlock P
    (s := ⟨s.ino.setBlock blk fun _ => P.junk, s.be⟩) hblk m hs)
  have hmark : Session.Filled P _ u := Session.filled_setCached
    (s := ⟨(s.ino.setBlock blk fun _ => P.junk).setBlock blk m, b'⟩) (hblock.ready hready) stat m
    hstat ?_ (by rw [hblock.blockNow, hm])
  · constructor
    · exact hblock.trans ⟨hmark, rfl, fun blk' hne => isCached_setStat_of_ne _ _ hne, fun _ _ => rfl⟩
    · exact isCached_setStat_self _ _ (List.getElem?_eq_some_iff.mp hstat).1
  · simp only [Inode.setBlock, List.set_set]
    exact List.getElem?_set_self hlt

theorem Session.Ready.blockNow_of_uncached (h : s.Ready P) {blk : Nat}
    (hblk : s.ino.isCached blk = false) :
    s.blockNow P blk = s.ino.blockIn P s.be s.ino.bm blk := by
  have hnow : s.bmNow P = some s.ino.bm := h
  unfold Session.blockNow
  rw [if_neg (by simp [hblk]), hnow]
  rfl

/-- What one block of a fill does, and the call it makes for it. -/
theorem wp_fillBlock_filled (hready : s.Ready P) (hlen : s.ino.dcacheBlocks.length =
      s.ino.dcacheStats.length) {blk : Nat} (hle : blk ≤ s.ino.dcacheStats.length) :
    Exec.wp (RecordCache.fillBlock P blk)
      (fun _ s' => s.FilledAt P blk s' ∧ s'.ino.isCached blk = true ∧
        RecordCache.loadBlock P s.ino blk s.be = .ok () s'.be)
      (fun x s' => s.FilledAt P blk s' ∧ s'.ino.isCached blk = false ∧
        RecordCache.loadBlock P s.ino blk s.be = .error x s'.be) s := by
  simp only [RecordCache.fillBlock, Exec.wp_bind, wp_onInode, Exec.wp_get, Exec.wp_orAbort]
  have hgrown := s.filledAt_growTo P blk
  have hready' := hgrown.ready hready
  have hload : RecordCache.loadBlock P s.ino blk =
      RecordCache.loadBlock P (RecordCache.growTo s.ino blk) blk :=
    (loadBlock_congr hgrown.file hgrown.bm (isCached_growTo s.ino blk blk)).symm
  have hblocks : blk < (RecordCache.growTo s.ino blk).dcacheBlocks.length := by
    unfold RecordCache.growTo
    split
    · simp only [List.length_append, List.length_singleton]
      omega
    · omega
  have hlt := (length_growTo s.ino blk).2 hle
  rw [hload]
  generalize ht : ({ s with ino := RecordCache.growTo s.ino blk } : Session) = t at hgrown hready'
  have hino : RecordCache.growTo s.ino blk = t.ino := by rw [← ht]
  have hbe : s.be = t.be := by rw [← ht]
  rw [hino] at hblocks hlt ⊢
  rw [hbe]
  constructor
  swap
  · intro hnone
    rw [List.getElem?_eq_none_iff] at hnone
    omega
  intro stat hstat
  rw [Exec.wp_ite]
  constructor
  · intro hc
    have hself : t.ino.isCached blk = true := isCached_iff.mpr ⟨stat, hstat, hc⟩
    refine ⟨hgrown, hself, ?_⟩
    rw [RecordCache.loadBlock, if_pos hself]
    rfl
  intro hc
  have huncached : t.ino.isCached blk = false := by
    unfold Inode.isCached
    rw [hstat]
    simpa using hc
  have hnow := hready'.blockNow_of_uncached huncached
  cases hname : RecordCache.bmCheck t.ino blk with
  | none =>
      have hcheck : RecordCache.bmCheck { t.ino with bm := t.ino.bm } blk = none := hname
      have hm : t.blockNow P blk = some (Mem.memset (fun _ => P.junk) 0 t.ino.blockSize) := by
        rw [hnow, Inode.blockIn, hcheck]
      obtain ⟨hat, hself⟩ := Session.filledAt_loaded hready' huncached hstat hblocks
        (Same.refl t.be) hm
      refine ⟨hgrown.trans hat, hself, ?_⟩
      rw [RecordCache.loadBlock, if_neg (by simp [huncached]), hname]
      rfl
  | some recordname =>
      have hcheck : RecordCache.bmCheck { t.ino with bm := t.ino.bm } blk = some recordname := hname
      have hin : t.blockNow P blk =
          (payloadOf P t.be t.ino.hashname recordname (t.ino.blockSize + aesPadLen)).map fun data =>
            Mem.place (fun _ => P.junk) (P.decrypt t.ino.aesKey data) := by
        rw [hnow, Inode.blockIn, hcheck]
      have hcall : RecordCache.loadBlock P t.ino blk =
          (StorageBackend.readRecordData P t.ino.hashname recordname
            (t.ino.blockSize + aesPadLen) >>= fun _ => pure ()) := by
        rw [RecordCache.loadBlock, if_neg (by simp [huncached]), hname]
      rw [hcall]
      simp only [Exec.wp_bind, wp_onBackend, wp_onInode]
      apply Exec.wp_mono (Exec.wp_and (wp_readRecordData _ _ _) (Exec.wp_run _ _))
      · rintro data b' ⟨⟨hs, -, hdata⟩, hrun⟩
        obtain ⟨hat, hself⟩ := Session.filledAt_loaded hready' huncached hstat hblocks hs
          (by rw [hin, hdata]; rfl)
        refine ⟨hgrown.trans hat, hself, ?_⟩
        rw [Exec.bind_of_ok hrun]
        rfl
      · rintro x b' ⟨⟨hs, -⟩, hrun⟩
        have hjunk := t.filledAt_setBlock P huncached (fun _ => P.junk) hs
        exact ⟨hgrown.trans hjunk, huncached, Exec.bind_of_error hrun⟩

theorem forM_row {σ : Type} (f : Nat → Exec ErrT Abort σ Unit) (st n : Nat) :
    (List.range' st (n + 1)).forM f = (f st >>= fun _ => (List.range' (st + 1) n).forM f) := rfl

theorem forM_row_congr {f g : Nat → BackendM Unit} (st n : Nat) (h : ∀ blk, st ≤ blk → f blk = g blk) :
    (List.range' st n).forM f = (List.range' st n).forM g := by
  induction n generalizing st with
  | zero => rfl
  | succ n ih => rw [forM_row, forM_row, h st le_rfl, ih (st + 1) fun blk hle => h blk (by omega)]

/-- Filling a row of blocks. If it stops, it stops at a block that is not cached, and it has not got
to the blocks behind it. -/
theorem wp_fillBlocks_filled (hready : s.Ready P) (halloc : s.ino.Allocated) (st n : Nat)
    (hst : st ≤ s.ino.dcacheStats.length) :
    Exec.wp ((List.range' st n).forM (RecordCache.fillBlock P))
      (fun _ s' => s.Filled P s' ∧ (∀ blk, s'.ino.isCached blk = true ↔
          s.ino.isCached blk = true ∨ st ≤ blk ∧ blk < st + n) ∧
        (s.ino.AllocatedCached → s'.ino.AllocatedCached) ∧
        (List.range' st n).forM (RecordCache.loadBlock P s.ino) s.be = .ok () s'.be)
      (fun x s' => s.Filled P s' ∧ (∃ blk, st ≤ blk ∧ blk < st + n ∧ s'.ino.isCached blk = false ∧
          ∀ blk', blk < blk' → s'.ino.isCached blk' = s.ino.isCached blk') ∧
        (List.range' st n).forM (RecordCache.loadBlock P s.ino) s.be = .error x s'.be) s := by
  induction n generalizing st s with
  | zero => exact ⟨Session.Filled.refl s, fun blk => by simp, id, rfl⟩
  | succ n ih =>
      rw [forM_row, forM_row, Exec.wp_bind]
      apply Exec.wp_mono (wp_fillBlock_filled hready halloc.lengths hst)
      · rintro _ t ⟨hat, hself, hload⟩
        have hrest : (List.range' (st + 1) n).forM (RecordCache.loadBlock P t.ino) =
            (List.range' (st + 1) n).forM (RecordCache.loadBlock P s.ino) := by
          apply forM_row_congr
          intro blk hle
          exact loadBlock_congr hat.file hat.bm (hat.others blk (by omega))
        rw [Exec.bind_of_ok hload, ← hrest]
        apply Exec.wp_mono (ih (hat.ready hready) (hat.allocated halloc) (st + 1)
          (lt_of_isCached hself))
        · rintro _ u ⟨hfilled, hall, hclosed, hloads⟩
          refine ⟨hat.toFilled.trans hfilled, ?_, fun h => hclosed ?_, hloads⟩
          swap
          · intro blk hblk
            by_cases he : st = blk
            · rw [← he]
              exact hself
            · rw [hat.blocks blk he] at hblk
              rw [hat.others blk he]
              exact h blk hblk
          intro blk
          rw [hall blk]
          by_cases he : st = blk
          · rw [← he]
            simp [hself]
          · rw [hat.others blk he]
            have hrange : st + 1 ≤ blk ∧ blk < st + 1 + n ↔ st ≤ blk ∧ blk < st + (n + 1) := by omega
            rw [hrange]
        · rintro x u ⟨hfilled, ⟨blk, h₁, h₂, hun, hbehind⟩, hloads⟩
          refine ⟨hat.toFilled.trans hfilled, ⟨blk, by omega, by omega, hun, ?_⟩, hloads⟩
          intro blk' hlt
          rw [hbehind blk' hlt]
          exact hat.others blk' (by omega)
      · rintro x t ⟨hat, hun, hload⟩
        refine ⟨hat.toFilled, ⟨st, le_rfl, by omega, hun, ?_⟩, Exec.bind_of_error hload⟩
        intro blk' hlt
        exact hat.others blk' (by omega)

def RecordCache.loadBm (P : Platform) (ino : Inode) : BackendM (Option Mem) :=
  if ino.bm.isNone ∧ 0 < ino.bmRecordname.length then do
    let data ← StorageBackend.readRecordData P ino.hashname ino.bmRecordname (hashLen * ino.bmCover)
    pure (some ((Mem.memset (fun _ => P.junk) 0 (hashLen * ino.bmCover)).place data))
  else pure ino.bm

/-- The calls on the backend that filling the cache for a request makes, in their order. -/
def RecordCache.loads (P : Platform) (ino : Inode) (offset size : Nat) : BackendM Unit := do
  let bm ← RecordCache.loadBm P ino
  let stBlock := min (offset / ino.blockSize) ino.dcacheStats.length
  let edBlock := u64 (offset + size) / ino.blockSize
  (List.range' stBlock (edBlock + 1 - stBlock)).forM
    (RecordCache.loadBlock P { ino with bm := bm })

def Inode.inFill (ino : Inode) (offset size blk : Nat) : Prop :=
  min (offset / ino.blockSize) ino.dcacheStats.length ≤ blk ∧
    blk ≤ u64 (offset + size) / ino.blockSize

theorem wp_fillBmcache_filled :
    Exec.wp (RecordCache.fillBmcache P)
      (fun _ s' => s.Filled P s' ∧ s'.Ready P ∧ s'.ino = { s.ino with bm := s'.ino.bm } ∧
        RecordCache.loadBm P s.ino s.be = .ok s'.ino.bm s'.be)
      (fun x s' => s.ino.bm = none ∧ 0 < s.ino.bmRecordname.length ∧ s.be.Same s'.be ∧
        (∃ m, s'.ino = { s.ino with bm := some m }) ∧
        RecordCache.loadBm P s.ino s.be = .error x s'.be) s := by
  simp only [RecordCache.fillBmcache, Exec.wp_bind, Exec.wp_get, Exec.wp_ite]
  constructor
  · rintro ⟨hbm, hlen⟩
    rw [RecordCache.loadBm, if_pos ⟨hbm, hlen⟩]
    rw [Option.isNone_iff_eq_none] at hbm
    simp only [wp_onInode, wp_onBackend]
    apply Exec.wp_mono (Exec.wp_and (wp_readRecordData _ _ _) (Exec.wp_run _ _))
    · rintro data b' ⟨⟨hs, -, hdata⟩, hrun⟩
      set bm' := (Mem.memset (fun _ => P.junk) 0 (hashLen * s.ino.bmCover)).place data with hbm'
      have hfills : s.Fills ⟨{ s.ino with bm := some bm' }, b'⟩ :=
        ⟨⟨rfl, rfl, rfl, rfl, rfl, rfl, rfl⟩, rfl, fun _ => rfl, hs⟩
      have hnow : s.bmNow P = some (some bm') := by
        unfold Session.bmNow Inode.blockmapOf
        rw [hbm, if_pos hlen, hdata]
        rfl
      refine ⟨⟨hfills, ?_, ?_, hnow.symm, ?_, fun _ hc => hc, le_rfl⟩, rfl, trivial, ?_⟩
      · intro h
        exact ⟨h.lengths, h.alloc⟩
      · intro h
        exact ⟨⟨h.lengths, h.alloc⟩, h.dirty, fun hnone => by cases hnone⟩
      · intro blk
        exact blockNow_eq hfills.file hfills.be hnow.symm rfl (fun _ => rfl)
      · rw [Exec.bind_of_ok hrun]
        rfl
    · rintro x b' ⟨⟨hs, -⟩, hrun⟩
      exact ⟨hbm, hlen, hs, ⟨_, rfl⟩, Exec.bind_of_error hrun⟩
  · intro hskip
    refine ⟨Session.Filled.refl s, ?_, rfl, ?_⟩
    · unfold Session.Ready Session.bmNow
      split
      · rfl
      · rename_i hnone
        have hlen : ¬ 0 < s.ino.bmRecordname.length := by
          intro hlen
          exact hskip ⟨by simpa using hnone, hlen⟩
        rw [Inode.blockmapOf, if_neg hlen]
        simp only [Option.not_isSome_iff_eq_none] at hnone
        rw [hnone]
    · rw [RecordCache.loadBm, if_neg hskip]
      rfl

/-- Filling the cache for a request. If it fails, some block that the request touches is not cached. -/
theorem wp_fillDcache_filled (halloc : s.ino.Allocated) (offset size : Nat) :
    Exec.wp (RecordCache.fillDcache P offset size)
      (fun _ s' => s.Filled P s' ∧ (∀ blk, s'.ino.isCached blk = true ↔ s.ino.isCached blk = true ∨
          s.ino.inFill offset size blk) ∧
        (s.ino.AllocatedCached → s'.ino.AllocatedCached) ∧
        RecordCache.loads P s.ino offset size s.be = .ok () s'.be)
      (fun x s' => s.Fills s' ∧ s'.ino.Allocated ∧ (s.ino.Tidy → s'.ino.Tidy ∧
          ∃ p ∈ copyPieces s.ino.blockSize offset size, s'.ino.isCached p.block = false) ∧
        RecordCache.loads P s.ino offset size s.be = .error x s'.be) s := by
  simp only [RecordCache.fillDcache, RecordCache.loads, Exec.wp_bind, Exec.wp_get]
  apply Exec.wp_mono wp_fillBmcache_filled
  · rintro _ t ⟨hfilled, hready, hino, hload⟩
    have hcached : ∀ blk, t.ino.isCached blk = s.ino.isCached blk := by
      intro blk
      rw [hino]
      rfl
    rw [Exec.bind_of_ok hload, ← hino]
    apply Exec.wp_mono (wp_fillBlocks_filled hready (hfilled.allocated halloc) _ _
      ((Nat.min_le_right _ _).trans hfilled.length))
    · rintro _ u ⟨hfilled', hall, hclosed, hloads⟩
      refine ⟨hfilled.trans hfilled', ?_, fun h => hclosed ?_, hloads⟩
      swap
      · rw [hino]
        exact h
      intro blk
      rw [hall blk, hcached]
      unfold Inode.inFill
      have hrange : ∀ a b c : Nat, a ≤ c ∧ c < a + (b + 1 - a) ↔ a ≤ c ∧ c ≤ b := by
        intro a b c
        omega
      rw [hrange]
    · rintro x u ⟨hfilled', ⟨blk, h₁, h₂, hun, hbehind⟩, hloads⟩
      have hboth := hfilled.trans hfilled'
      refine ⟨hboth.toFills, hboth.allocated halloc, fun htidy => ⟨hboth.tidy htidy, ?_⟩, hloads⟩
      by_cases hst : offset / s.ino.blockSize ≤ blk
      · obtain ⟨p, hp, hblk⟩ := exists_piece_iff.mpr (by omega : blk = offset / s.ino.blockSize ∨
          blk = u64 (offset + size) / s.ino.blockSize ∨
          offset / s.ino.blockSize < blk ∧ blk < u64 (offset + size) / s.ino.blockSize)
        refine ⟨p, hp, ?_⟩
        rw [hblk]
        exact hun
      · -- the request starts behind the vectors, and the fill did not get there
        obtain ⟨p, hp, hblk⟩ := exists_piece_iff.mpr (Or.inl (rfl : offset / s.ino.blockSize = _))
        refine ⟨p, hp, ?_⟩
        rw [hblk, hbehind _ (by omega), hcached]
        by_contra hc
        have hlt := lt_of_isCached (Bool.not_eq_false _ ▸ hc)
        omega
  · rintro x t ⟨hbm, hlen, hs, ⟨m, hino⟩, hload⟩
    refine ⟨?_, ?_, fun htidy => ⟨?_, ?_⟩, Exec.bind_of_error hload⟩
    · refine ⟨?_, ?_, ?_, hs⟩ <;> rw [hino]
      · exact ⟨rfl, rfl, rfl, rfl, rfl, rfl, rfl⟩
      · intro blk
        rfl
    · rw [hino]
      exact ⟨halloc.lengths, halloc.alloc⟩
    · rw [hino]
      exact ⟨⟨htidy.lengths, htidy.alloc⟩, htidy.dirty, fun hnone => by cases hnone⟩
    · obtain ⟨p, hp, -⟩ := exists_piece_iff.mpr (Or.inl (rfl : offset / s.ino.blockSize = _))
      refine ⟨p, hp, ?_⟩
      rw [hino]
      exact htidy.unloaded hbm hlen p.block

end Fill

/-! ## Copying into the cache -/

structure Session.Wrote (P : Platform) (buf : Mem) (cur : Nat) (ps : List Piece) (s s' : Session) :
    Prop where
  file : s.ino.SameFile s'.ino
  size : s'.ino.size = s.ino.size
  bm : s'.ino.bm = s.ino.bm
  be : s'.be = s.be
  length : s'.ino.dcacheStats.length = s.ino.dcacheStats.length
  lengths : s.ino.dcacheBlocks.length = s.ino.dcacheStats.length →
    s'.ino.dcacheBlocks.length = s'.ino.dcacheStats.length
  cached : ∀ blk, s'.ino.isCached blk = s.ino.isCached blk
  dirty : ∀ blk, s'.ino.isDirty blk = true ↔ s.ino.isDirty blk = true ∨ ∃ p ∈ ps, p.block = blk
  blocks : ∀ blk, (s'.ino.dcacheBlocks[blk]?).join =
    (s.ino.dcacheBlocks[blk]?).join.map fun _ => copyIn buf (s.ino.blockAt P) cur ps blk

section Copy

variable {P : Platform} {s : Session}

theorem blockAt_eq_some {ino : Inode} {blk : Nat} {m : Mem}
    (h : (ino.dcacheBlocks[blk]?).join = some m) : ino.blockAt P blk = m := by
  unfold Inode.blockAt
  rw [h]
  rfl

theorem Session.Wrote.nil (s : Session) (buf : Mem) (cur : Nat) : s.Wrote P buf cur [] s := by
  refine ⟨Inode.SameFile.refl s.ino, rfl, rfl, rfl, rfl, id, fun _ => rfl, by simp, ?_⟩
  intro blk
  cases hm : (s.ino.dcacheBlocks[blk]?).join with
  | none => rfl
  | some m =>
      rw [Option.map_some, copyIn, blockAt_eq_some hm]

/-- One piece more. -/
theorem Session.Wrote.cons {buf : Mem} {cur : Nat} {p : Piece} {ps : List Piece} {m : Mem}
    {stat : CStat} {s' : Session} (hm : (s.ino.dcacheBlocks[p.block]?).join = some m)
    (hstat : s.ino.dcacheStats[p.block]? = some stat)
    (h : Session.Wrote P buf (cur + p.len) ps ⟨(s.ino.setBlock p.block
      (Mem.memcpy m p.off buf cur p.len)).setStat p.block { stat with dirty := true }, s.be⟩ s') :
    s.Wrote P buf cur (p :: ps) s' := by
  have hlt := (List.getElem?_eq_some_iff.mp hstat).1
  set m' := Mem.memcpy m p.off buf cur p.len with hm'
  set ino' := (s.ino.setBlock p.block m').setStat p.block { stat with dirty := true } with hino'
  have hself : s.ino.dcacheBlocks[p.block]? = some (some m) := Option.join_eq_some_iff.mp hm
  have hblocks : ∀ blk, (ino'.dcacheBlocks[blk]?).join =
      if p.block = blk then some m' else (s.ino.dcacheBlocks[blk]?).join := by
    intro blk
    simp only [hino', Inode.setStat, Inode.setBlock]
    split
    · rename_i he
      rw [← he, List.getElem?_set_self (List.getElem?_eq_some_iff.mp hself).1]
      rfl
    · rename_i hne
      rw [List.getElem?_set_ne hne]
  have hat : ino'.blockAt P = Function.update (s.ino.blockAt P) p.block m' := by
    funext blk
    unfold Inode.blockAt
    rw [hblocks]
    by_cases he : p.block = blk
    · rw [if_pos he, ← he, Function.update_self]
      rfl
    · rw [if_neg he, Function.update_of_ne (Ne.symm he)]
  have hcached : ∀ blk, ino'.isCached blk = s.ino.isCached blk := by
    intro blk
    by_cases he : p.block = blk
    · have hflag : ino'.isCached p.block = stat.cached :=
        isCached_setStat_self (s.ino.setBlock p.block m') _ hlt
      rw [← he, hflag]
      simp [Inode.isCached, hstat]
    · exact isCached_setStat_of_ne _ _ he
  have hfile : s.ino.SameFile ino' := ⟨rfl, rfl, rfl, rfl, rfl, rfl, rfl⟩
  refine ⟨hfile.trans h.file, h.size, h.bm, h.be, ?_, ?_, ?_, ?_, ?_⟩
  · rw [h.length]
    simp [hino', Inode.setStat, Inode.setBlock]
  · intro hlen
    apply h.lengths
    simpa [hino', Inode.setStat, Inode.setBlock] using hlen
  · intro blk
    rw [h.cached]
    exact hcached blk
  · intro blk
    rw [h.dirty, isDirty_setStat (s.ino.setBlock p.block m') _ hlt rfl]
    change (if p.block = blk then true else s.ino.isDirty blk) = true ∨ _ ↔ _
    by_cases he : p.block = blk
    · simp [he]
    · simp [he]
  · intro blk
    rw [h.blocks, hblocks, copyIn, hat]
    by_cases he : p.block = blk
    · rw [if_pos he, ← he, hm, blockAt_eq_some hm]
      rfl
    · rw [if_neg he]
      cases hblk : (s.ino.dcacheBlocks[blk]?).join with
      | none => rfl
      | some m₁ => rw [blockAt_eq_some hm]

/-- Copying in works out exactly when every piece lies in an allocated block. -/
theorem wp_writePieces_wrote (hlen : s.ino.dcacheBlocks.length = s.ino.dcacheStats.length)
    (buf : Mem) (cur : Nat) (ps : List Piece) :
    Exec.wp (RecordCache.writePieces buf cur ps)
      (fun _ s' => s.Wrote P buf cur ps s' ∧ ∀ p ∈ ps, (s.ino.dcacheBlocks[p.block]?).join ≠ none ∧
        p.off + p.len ≤ s.ino.blockSize + aesPadLen)
      (fun x _ => x = .abort .undefined ∧ ¬ ∀ p ∈ ps, (s.ino.dcacheBlocks[p.block]?).join ≠ none ∧
        p.off + p.len ≤ s.ino.blockSize + aesPadLen) s := by
  induction ps generalizing s cur with
  | nil => exact ⟨Session.Wrote.nil s buf cur, by simp⟩
  | cons p ps ih =>
      simp only [RecordCache.writePieces, RecordCache.blockOf, Exec.wp_bind, Exec.wp_get,
        Exec.wp_orAbort, Exec.wp_check, Exec.wp_pure, wp_onInode, decide_eq_true_eq,
        decide_eq_false_iff_not]
      refine ⟨fun m hm => ⟨fun hfits => ⟨fun stat hstat => ?_, fun hnone => ?_⟩, fun hbig => ?_⟩,
        fun hnone => ?_⟩
      · set t : Session := ⟨(s.ino.setBlock p.block (Mem.memcpy m p.off buf cur p.len)).setStat
          p.block { stat with dirty := true }, s.be⟩ with ht
        have hlen' : t.ino.dcacheBlocks.length = t.ino.dcacheStats.length := by
          simpa [ht, Inode.setStat, Inode.setBlock] using hlen
        -- allocating is not undone, and nothing new is allocated
        have halloc : ∀ blk : Nat, (t.ino.dcacheBlocks[blk]?).join ≠ none ↔
            (s.ino.dcacheBlocks[blk]?).join ≠ none := by
          intro blk
          have hone : s.Wrote P buf cur [p] t := Session.Wrote.cons hm hstat (Session.Wrote.nil t _ _)
          rw [hone.blocks]
          simp
        refine Exec.wp_mono (ih hlen' (cur + p.len)) ?_ ?_
        · rintro _ u ⟨hu, hall⟩
          refine ⟨Session.Wrote.cons hm hstat hu, ?_⟩
          intro q hq
          rcases List.mem_cons.mp hq with rfl | hq
          · exact ⟨by rw [hm]; simp, hfits⟩
          · exact ⟨(halloc q.block).mp (hall q hq).1, (hall q hq).2⟩
        · rintro x u ⟨hx, hnot⟩
          refine ⟨hx, fun hall => hnot fun q hq => ?_⟩
          have hq' := hall q (by simp [hq])
          exact ⟨(halloc q.block).mpr hq'.1, hq'.2⟩
      · -- the two vectors have one length
        have hlt := (List.getElem?_eq_some_iff.mp (Option.join_eq_some_iff.mp hm)).1
        rw [List.getElem?_eq_none_iff] at hnone
        omega
      · exact ⟨trivial, fun hall => hbig (hall p (by simp)).2⟩
      · exact ⟨trivial, fun hall => (hall p (by simp)).1 hnone⟩

theorem Session.Wrote.bmNow_eq {buf : Mem} {cur : Nat} {ps : List Piece} {s' : Session}
    (h : s.Wrote P buf cur ps s') : s'.bmNow P = s.bmNow P := by
  have hs : s.be.Same s'.be := by
    rw [h.be]
    exact Same.refl s.be
  exact DcfsClient.bmNow_eq h.file hs h.bm

/-- A block without a piece is as before. -/
theorem Session.Wrote.blockNow_of_uncached {buf : Mem} {cur : Nat} {ps : List Piece} {s' : Session}
    (h : s.Wrote P buf cur ps s') {blk : Nat} (hc : s.ino.isCached blk = false) :
    s'.blockNow P blk = s.blockNow P blk := by
  have hs : s.be.Same s'.be := by
    rw [h.be]
    exact Same.refl s.be
  refine blockNow_eq h.file hs h.bmNow_eq (h.cached blk) ?_
  intro hc'
  rw [hc] at hc'
  cases hc'

theorem Session.Wrote.blockNow_of_cached {buf : Mem} {cur : Nat} {ps : List Piece} {s' : Session}
    (h : s.Wrote P buf cur ps s') {blk : Nat} (hc : s.ino.isCached blk = true) {m : Mem}
    (hm : s.blockNow P blk = some m) :
    s'.blockNow P blk = some (copyIn buf (s.ino.blockAt P) cur ps blk) := by
  rw [Session.blockNow, if_pos hc] at hm
  rw [Session.blockNow, if_pos ((h.cached blk).trans hc), h.blocks, hm]
  rfl

/-- A block that no piece lies in shows what it showed. -/
theorem Session.Wrote.blockNow_of_forall_ne {buf : Mem} {cur : Nat} {ps : List Piece} {s' : Session}
    (h : s.Wrote P buf cur ps s') {blk : Nat} (hno : ∀ p ∈ ps, p.block ≠ blk) :
    s'.blockNow P blk = s.blockNow P blk := by
  cases hc : s.ino.isCached blk with
  | false => exact h.blockNow_of_uncached hc
  | true =>
      rw [Session.blockNow, if_pos ((h.cached blk).trans hc), Session.blockNow, if_pos hc, h.blocks]
      cases hm : (s.ino.dcacheBlocks[blk]?).join with
      | none => rfl
      | some m => rw [Option.map_some, copyIn_of_forall_ne _ _ _ hno, blockAt_eq_some hm]

theorem Session.Wrote.allocated {buf : Mem} {cur : Nat} {ps : List Piece} {s' : Session}
    (h : s.Wrote P buf cur ps s') (halloc : s.ino.Allocated) : s'.ino.Allocated := by
  refine ⟨h.lengths halloc.lengths, ?_⟩
  intro blk hc
  rw [h.cached] at hc
  obtain ⟨m, hm⟩ := halloc.alloc blk hc
  have hjoin := h.blocks blk
  rw [hm] at hjoin
  exact ⟨_, Option.join_eq_some_iff.mp hjoin⟩

theorem Session.Wrote.tidy {buf : Mem} {cur : Nat} {ps : List Piece} {s' : Session}
    (h : s.Wrote P buf cur ps s') (htidy : s.ino.Tidy)
    (hps : ∀ p ∈ ps, s.ino.isCached p.block = true) : s'.ino.Tidy := by
  refine ⟨h.allocated htidy.toAllocated, ?_, ?_⟩
  · intro blk hd
    rw [h.cached]
    rcases (h.dirty blk).mp hd with hd | ⟨p, hp, rfl⟩
    · exact htidy.dirty blk hd
    · exact hps p hp
  · intro hnone hlen blk
    rw [h.cached]
    rw [h.bm] at hnone
    rw [h.file.bmRecordname] at hlen
    exact htidy.unloaded hnone hlen blk

/-- The file after a run of bytes was copied into cached blocks. -/
theorem Session.Wrote.content_tiles {buf : Mem} {cur a : Nat} {ps : List Piece} {s' : Session}
    (h : s.Wrote P buf cur ps s') (halloc : s.ino.Allocated)
    (hps : ∀ p ∈ ps, s.ino.isCached p.block = true) (hbs : 0 < s.ino.blockSize)
    (htiles : Tiles s.ino.blockSize a ps) (pos : Nat) :
    s'.content P pos =
      if a ≤ pos ∧ pos < a + span ps then some (buf (cur + (pos - a))) else s.content P pos := by
  have hsplit : pos / s.ino.blockSize * s.ino.blockSize + pos % s.ino.blockSize = pos := by
    rw [Nat.mul_comm]
    exact Nat.div_add_mod pos s.ino.blockSize
  unfold Session.content
  rw [h.file.blockSize]
  cases hc : s.ino.isCached (pos / s.ino.blockSize) with
  | false =>
      rw [h.blockNow_of_uncached hc, if_neg]
      rintro ⟨hst, hed⟩
      obtain ⟨p, hp, hblk⟩ := htiles.exists_block hst hed
      have hcp := hps p hp
      rw [hblk, hc] at hcp
      cases hcp
  | true =>
      obtain ⟨m, hm⟩ := halloc.alloc _ hc
      have hjoin : (s.ino.dcacheBlocks[pos / s.ino.blockSize]?).join = some m := by
        rw [hm]
        rfl
      have hnow := DcfsClient.blockNow_of_cached (P := P) hc hjoin
      rw [h.blockNow_of_cached hc hnow, hnow, Option.map_some, Option.map_some,
        copyIn_tiles htiles buf _ cur _ _ (Nat.mod_lt pos hbs), hsplit, blockAt_eq_some hjoin]
      split <;> rfl

end Copy

end DcfsClient
