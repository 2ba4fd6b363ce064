import DcfsClient.CacheReads
import DcfsClient.ModifyCases

/-!
# Writing to the cache and flushing it

A write changes the cache and, when it succeeds, possibly the size; it marks the blocks it touches as
dirty even when the fill before it failed. A flush turns the dirty blocks into descs (`dirtyDescs`)
and asks the middleware for a `Modify` based on the inode's record. `wp_flushCache` gives its cases on
a linked file.
-/

namespace DcfsClient

open Backend

/-! ## Writes -/

/-- What a write leaves alone. The size changes only together with a dirty block. -/
structure Session.Writes (s s' : Session) : Prop where
  file : s.ino.SameFile s'.ino
  be : s.be.Same s'.be
  dirty : ∀ blk, s.ino.isDirty blk = true → s'.ino.isDirty blk = true
  size : s'.ino.size = s.ino.size ∨ ∃ blk, s'.ino.isDirty blk = true

instance : IsPreorder Session Session.Writes where
  refl := fun s => ⟨Inode.SameFile.refl s.ino, Same.refl s.be, fun _ h => h, Or.inl rfl⟩
  trans := by
    intro s t u h h'
    refine ⟨h.file.trans h'.file, h.be.trans h'.be, fun blk hb => h'.dirty blk (h.dirty blk hb), ?_⟩
    rcases h'.size with hs' | hd'
    · rcases h.size with hs | ⟨blk, hd⟩
      · exact Or.inl (hs'.trans hs)
      · exact Or.inr ⟨blk, h'.dirty blk hd⟩
    · exact Or.inr hd'

theorem Session.Fills.writes {s s' : Session} (h : s.Fills s') : s.Writes s' :=
  ⟨h.file, h.be, fun blk hb => (h.dirty blk).trans hb, Or.inl h.size⟩

section Writes

open Exec

variable {P : Platform} {s : Session}

theorem isDirty_setStat (ino : Inode) {blk : Nat} (stat : CStat)
    (hlt : blk < ino.dcacheStats.length) (hdirty : stat.dirty = true) (blk' : Nat) :
    (ino.setStat blk stat).isDirty blk' = if blk = blk' then true else ino.isDirty blk' := by
  simp only [Inode.isDirty, Inode.setStat]
  split
  · rename_i he
    subst he
    rw [List.getElem?_set_self hlt]
    simpa using hdirty
  · rename_i hne
    rw [List.getElem?_set_ne hne]

/-- One piece of a write: the block is replaced and marked. -/
theorem writePiece_writes (blk : Nat) (m : Mem) {stat : CStat}
    (hstat : s.ino.dcacheStats[blk]? = some stat) :
    let t : Session :=
      { s with ino := (s.ino.setBlock blk m).setStat blk { stat with dirty := true } }
    s.Writes t ∧ t.ino.isDirty blk = true := by
  intro t
  have hlt := (List.getElem?_eq_some_iff.mp hstat).1
  have hdirty := isDirty_setStat (s.ino.setBlock blk m) { stat with dirty := true } hlt rfl
  refine ⟨⟨⟨rfl, rfl, rfl, rfl, rfl, rfl, rfl⟩, Same.refl s.be, ?_, Or.inl rfl⟩, ?_⟩
  · intro blk' hb
    rw [hdirty]
    split
    · rfl
    · exact hb
  · rw [hdirty, if_pos rfl]

theorem writePieces_writes (buf : Mem) (cur : Nat) (ps : List Piece) :
    Moves Session.Writes (RecordCache.writePieces buf cur ps) := by
  induction ps generalizing cur with
  | nil => exact .pure _
  | cons p ps ih =>
      intro s
      simp only [RecordCache.writePieces, RecordCache.blockOf, wp_bind, wp_get, wp_orAbort, wp_check,
        wp_pure, wp_onInode]
      have hrefl := refl_of Session.Writes s
      refine ⟨fun m _ => ⟨fun _ => ⟨fun stat hstat => ?_, fun _ => hrefl⟩, fun _ => hrefl⟩,
        fun _ => hrefl⟩
      have hstep := (writePiece_writes p.block (Mem.memcpy m p.off buf cur p.len) hstat).1
      exact wp_mono (ih _ _) (fun _ _ h => trans_of Session.Writes hstep h)
        (fun _ _ h => trans_of Session.Writes hstep h)

/-- A write of at least one piece leaves a dirty block. -/
theorem wp_writePieces_dirty (buf : Mem) (cur : Nat) {ps : List Piece} (hne : ps ≠ []) :
    wp (RecordCache.writePieces buf cur ps) (fun _ s' => ∃ blk, s'.ino.isDirty blk = true)
      (fun _ _ => True) s := by
  obtain ⟨p, ps, rfl⟩ := List.exists_cons_of_ne_nil hne
  simp only [RecordCache.writePieces, RecordCache.blockOf, wp_bind, wp_get, wp_orAbort, wp_check,
    wp_pure, wp_onInode]
  refine ⟨fun m _ => ⟨fun _ => ⟨fun stat hstat => ?_, fun _ => trivial⟩, fun _ => trivial⟩,
    fun _ => trivial⟩
  have hdirty := (writePiece_writes p.block (Mem.memcpy m p.off buf cur p.len) hstat).2
  exact wp_mono (writePieces_writes buf (cur + p.len) ps _)
    (fun _ _ h => ⟨p.block, h.dirty p.block hdirty⟩) (fun _ _ _ => trivial)

theorem copyPieces_ne_nil (bs offset size : Nat) : copyPieces bs offset size ≠ [] := by
  unfold copyPieces
  dsimp only
  split
  · simp
  · split <;> simp

/-- A write that returns has marked a block. -/
theorem wp_recordCacheWrite (buf : Mem) (offset size : Nat) :
    wp (RecordCache.write P buf offset size)
      (fun _ s' => s.Writes s' ∧ ∃ blk, s'.ino.isDirty blk = true) (fun _ s' => s.Writes s') s := by
  have hrefl := refl_of Session.Writes s
  simp only [RecordCache.write, wp_bind, wp_check, wp_get]
  refine ⟨fun _ => ?_, fun _ => hrefl⟩
  refine wp_mono (((fillDcache_fills P offset size).mono fun _ _ h => h.writes).attempt s) ?_
    (fun _ _ h => h)
  intro ret t ht
  have hpieces := wp_and (writePieces_writes buf 0 (copyPieces s.ino.blockSize offset size) t)
    (wp_writePieces_dirty buf 0 (copyPieces_ne_nil s.ino.blockSize offset size))
  refine wp_mono hpieces ?_ (fun _ _ h => trans_of Session.Writes ht h.1)
  rintro _ u ⟨hu, hd⟩
  have hsu := trans_of Session.Writes ht hu
  cases ret with
  | ok _ => exact ⟨hsu, hd⟩
  | error e => exact hsu

theorem write_writes (buf : Mem) (offset size : Nat) :
    Moves Session.Writes (Inode.write P buf offset size) := by
  intro s
  simp only [Inode.write, wp_bind, wp_get, wp_onInode, wp_pure]
  generalize (if s.ino.size ≤ offset then s.ino.size else offset) = offset'
  refine wp_mono (wp_recordCacheWrite buf offset' size) ?_ (fun _ _ h => h)
  rintro _ t ⟨ht, blk, hd⟩
  split
  · exact ⟨⟨ht.file.1, ht.file.2, ht.file.3, ht.file.4, ht.file.5, ht.file.6, ht.file.7⟩, ht.be,
      ht.dirty, Or.inr ⟨blk, hd⟩⟩
  · exact ht

end Writes

/-! ## Flushes -/

theorem filter_range_lt {n len : Nat} (hle : n ≤ len) :
    (List.range len).filter (fun blk => decide (blk < n)) = List.range n := by
  obtain ⟨k, rfl⟩ := Nat.exists_eq_add_of_le hle
  rw [List.range_add, List.filter_append]
  have hkept : (List.range n).filter (fun blk => decide (blk < n)) = List.range n := by
    rw [List.filter_eq_self]
    intro blk hblk
    exact decide_eq_true (List.mem_range.mp hblk)
  have hdropped : ((List.range k).map (n + ·)).filter (fun blk => decide (blk < n)) = [] := by
    rw [List.filter_eq_nil_iff]
    intro blk hblk
    obtain ⟨i, -, rfl⟩ := List.mem_map.mp hblk
    simp
  rw [hkept, hdropped, List.append_nil]

namespace Inode

variable (P : Platform) (ino : Inode)

def dirtyBlocks : List Nat := (List.range ino.dcacheStats.length).filter ino.isDirty

def blockAt (blk : Nat) : Mem := (ino.dcacheBlocks[blk]?).join.getD fun _ => P.junk

def dirtyDesc (blk : Nat) : BufDesc where
  buf := P.encrypt ino.aesKey (Mem.bytesAt (ino.blockAt P blk) 0 ino.inlen.toNat)
  fileOffset := u64 (blk * ino.blockSize)

def dirtyDescs : List BufDesc := ino.dirtyBlocks.map (ino.dirtyDesc P)

/-- A block below 2 GiB is encrypted whole. -/
theorem dirtyDesc_buf (h : ino.blockSize < 2 ^ 31) (blk : Nat) : (ino.dirtyDesc P blk).buf =
    P.encrypt ino.aesKey (Mem.bytesAt (ino.blockAt P blk) 0 ino.blockSize) := by
  rw [dirtyDesc, inlen_of_lt h, Int.toNat_natCast]

theorem mem_dirtyBlocks {blk : Nat} : blk ∈ ino.dirtyBlocks ↔ ino.isDirty blk = true := by
  simp only [dirtyBlocks, List.mem_filter, List.mem_range, and_iff_right_iff_imp]
  intro h
  by_contra hge
  rw [isDirty, List.getElem?_eq_none (by omega)] at h
  cases h

theorem dirtyDescs_of_first {n : Nat} (hdirty : ∀ blk, ino.isDirty blk = decide (blk < n)) :
    ino.dirtyDescs P = (List.range n).map (ino.dirtyDesc P) := by
  have hle : n ≤ ino.dcacheStats.length := by
    by_contra hlt
    have hlast : ino.isDirty ino.dcacheStats.length = true := by
      rw [hdirty]
      exact decide_eq_true (by omega)
    rw [isDirty, List.getElem?_eq_none le_rfl] at hlast
    cases hlast
  rw [dirtyDescs, dirtyBlocks, funext hdirty, filter_range_lt hle]

theorem length_dirtyBlocks : ino.dirtyBlocks.length = ino.dirtyCount := by
  have hget : ∀ l : List CStat, ((List.range l.length).filter
      fun blk => l[blk]?.any (·.dirty)).length = l.countP (·.dirty) := by
    intro l
    induction l using List.reverseRecOn with
    | nil => rfl
    | append_singleton l stat ih =>
        have hleft : (List.range l.length).filter (fun blk => (l ++ [stat])[blk]?.any (·.dirty)) =
            (List.range l.length).filter fun blk => l[blk]?.any (·.dirty) := by
          apply List.filter_congr
          intro blk hblk
          rw [List.getElem?_append_left (List.mem_range.mp hblk)]
        rw [List.length_append, List.length_singleton, List.range_succ, List.filter_append, hleft,
          List.length_append, ih, List.countP_append]
        cases hd : stat.dirty <;> simp [hd]
  exact hget ino.dcacheStats

theorem dirtyCount_eq_zero_iff : ino.dirtyCount = 0 ↔ ∀ blk, ino.isDirty blk = false := by
  rw [← length_dirtyBlocks, List.length_eq_zero_iff, List.eq_nil_iff_forall_not_mem]
  simp only [mem_dirtyBlocks, Bool.not_eq_true]

end Inode

section Flushes

variable {P : Platform} {b : Backend} {d : Bytes} {hist : List Commit}

theorem wp_encryptSymmetric (key : Bytes) (inbuf : Mem) (inlen : Int) :
    Exec.wp (P.encryptSymmetric key inbuf inlen)
      (fun out b' => out = P.encrypt key (inbuf.bytesAt 0 inlen.toNat) ∧ 0 ≤ inlen ∧ b.Same b' ∧
        (b.Calm → b'.Calm))
      (fun x b' => b.Same b' ∧ ∀ e, x = .err e → b.Calm → inlen < 0) b := by
  simp only [Platform.encryptSymmetric, Exec.wp_bind, Exec.wp_failIf, Exec.wp_pure,
    decide_eq_true_eq, decide_eq_false_iff_not, Int.not_lt]
  apply Exec.wp_mono (wp_fallible_cases errCrypto)
  · rintro _ b₁ ⟨hs, hcalm⟩
    exact ⟨fun hneg => ⟨hs, fun _ _ _ => hneg⟩, fun hpos => ⟨trivial, hpos, hs, hcalm⟩⟩
  · rintro x b₁ ⟨hs, hnot⟩
    exact ⟨hs, fun _ _ hc => absurd hc hnot⟩

theorem wp_encryptSymmetric_calm (hcalm : b.Calm) (key : Bytes) (inbuf : Mem) {inlen : Int}
    (hlen : 0 ≤ inlen) :
    Exec.wp (P.encryptSymmetric key inbuf inlen) (fun _ b' => b'.Calm) (fun _ _ => False) b := by
  simp only [Platform.encryptSymmetric, Exec.wp_bind, Exec.wp_failIf, Exec.wp_pure,
    decide_eq_true_eq, decide_eq_false_iff_not, Int.not_lt]
  refine Exec.wp_mono (wp_fallible_calm hcalm errCrypto) ?_ (fun _ _ hf => hf)
  rintro _ b₁ ⟨_, hcalm₁⟩
  exact ⟨fun hneg => absurd hlen (Int.not_le.mpr hneg), fun _ => hcalm₁⟩

theorem wp_collectDirty (ino : Inode) (l : List Nat) :
    Exec.wp (RecordCache.collectDirty P ino l)
      (fun out b' => out = (l.filter ino.isDirty).map (ino.dirtyDesc P) ∧ b.Same b' ∧
        (b.Calm → b'.Calm))
      (fun x b' => b.Same b' ∧ ∀ e, x = .err e → b.Calm → ino.inlen < 0) b := by
  induction l generalizing b with
  | nil => exact ⟨rfl, Same.refl b, fun h => h⟩
  | cons blk rest ih =>
      simp only [RecordCache.collectDirty, Exec.wp_ite]
      refine ⟨fun hdirty => ?_, fun hclean => ?_⟩
      · simp only [Exec.wp_bind, Exec.wp_orAbort, Exec.wp_pure]
        refine ⟨fun m hm => ?_, fun _ => ⟨Same.refl b, fun e he => by cases he⟩⟩
        apply Exec.wp_mono (wp_encryptSymmetric ino.aesKey m ino.inlen)
        · rintro _ b₁ ⟨rfl, -, hs, hcalm⟩
          apply Exec.wp_mono ih
          · rintro out b₂ ⟨hout, hs', hcalm'⟩
            refine ⟨?_, hs.trans hs', fun h => hcalm' (hcalm h)⟩
            have hat : ino.blockAt P blk = m := by simp [Inode.blockAt, hm]
            rw [hout, List.filter_cons_of_pos hdirty, List.map_cons, Inode.dirtyDesc, hat]
          · rintro x b₂ ⟨hs', hcause⟩
            exact ⟨hs.trans hs', fun e he h => hcause e he (hcalm h)⟩
        · exact fun _ _ hfailed => hfailed
      · rw [List.filter_cons_of_neg hclean]
        exact ih

/-- Under a negative length no dirty block is collected. -/
theorem wp_collectDirty_nonneg (ino : Inode) (l : List Nat) :
    Exec.wp (RecordCache.collectDirty P ino l)
      (fun _ _ => ∀ blk ∈ l, ino.isDirty blk = true → 0 ≤ ino.inlen) (fun _ _ => True) b := by
  induction l generalizing b with
  | nil => simp [RecordCache.collectDirty]
  | cons blk rest ih =>
      simp only [RecordCache.collectDirty, Exec.wp_ite]
      refine ⟨fun _ => ?_, fun hclean => ?_⟩
      · simp only [Exec.wp_bind, Exec.wp_orAbort, Exec.wp_pure]
        refine ⟨fun m _ => ?_, fun _ => trivial⟩
        apply Exec.wp_mono (wp_encryptSymmetric ino.aesKey m ino.inlen)
        · rintro _ b₁ ⟨-, hpos, -⟩
          exact Exec.wp_mono ih (fun _ _ _ _ _ _ => hpos) (fun _ _ _ => trivial)
        · intro _ _ _
          trivial
      · apply Exec.wp_mono ih
        · intro _ _ hrest blk' hmem hdirty
          rcases List.mem_cons.mp hmem with rfl | hmem
          · exact absurd hdirty hclean
          · exact hrest blk' hmem hdirty
        · exact fun _ _ h => h

/-- The backend after a flush of `descs` that was accepted on top of `hist`. -/
def Backend.Accepts (P : Platform) (d : Bytes) (hist : List Commit) (descs : List BufDesc)
    (aesKey : Bytes) (b b' : Backend) : Prop :=
  ∃ c : Commit, c.descs = descs ∧ c.key = (workingInode P aesKey hist).key ∧
    b'.index = Function.update b.index d (some (c.inode.name P)) ∧
    (P.CollisionFree b'.hashed → b'.Sound P ∧ b.Grows P b' ∧ Linked P d b' (c :: hist))

def Backend.Rejects (P : Platform) (b b' : Backend) : Prop :=
  P.CollisionFree b'.hashed → b'.Sound P ∧ b.Grows P b' ∧ b'.index = b.index

theorem Backend.Same.rejects (hb : b.Sound P) {b' : Backend} (h : b.Same b') : b.Rejects P b' :=
  fun _ => ⟨hb.same h, h.grows, h.index⟩

/-- `WriteRecord` on top of the current version of a linked file. -/
theorem wp_writeRecord_linked (hP : P.Lawful) (hb : b.Sound P)
    (hd : b.index d = some (headName P hist)) (hl : Linked P d b hist) (descs : List BufDesc)
    (aesKey : Bytes) :
    Exec.wp (StorageBackend.writeRecord P d descs (headName P hist) aesKey)
      (fun _ b' => (descs = [] ∧ b' = b) ∨ (descs ≠ [] ∧ Accepts P d hist descs aesKey b b'))
      (fun x b' => Rejects P b b' ∧ ∀ e, x = .err e → ¬ b.Calm) b := by
  simp only [StorageBackend.writeRecord, Exec.wp_ite, List.length_eq_zero_iff]
  refine ⟨fun hnil => Or.inl ⟨hnil, rfl⟩, fun hne => ?_⟩
  simp only [Exec.wp_bind]
  apply Exec.wp_mono (wp_fallible_cases errSign)
  · rintro _ b₁ ⟨hs, hcalm⟩
    have hb₁ := hb.same hs
    have hd₁ : b₁.index d = some (headName P hist) := by rw [hs.index, hd]
    have hl₁ := hl.grows (hs.grows (P := P))
    have hspec := wp_modify_sound hP hb₁ hd₁ hl₁ descs (headName P hist) aesKey
      (P.sign (P.hash256 (DCFSMidSim.modifyArgs d descs (headName P hist) aesKey)))
    have hsteady : Exec.wp (DCFSMidSim.modify P d descs (headName P hist) aesKey
        (P.sign (P.hash256 (DCFSMidSim.modifyArgs d descs (headName P hist) aesKey))))
        (fun _ _ => True) (fun x _ => ∀ e, x = .err e → ¬ b.Calm) b₁ := by
      by_cases hc : b.Calm
      · refine Exec.wp_mono (wp_modify_steady hP hb₁ (hcalm hc) hd₁ hl₁ descs aesKey)
          (fun _ _ _ => trivial) ?_
        rintro x _ ⟨k, hk⟩ e he
        rw [hk] at he
        cases he
      · exact Exec.wp_mono (Exec.wp_run _ _) (fun _ _ _ => trivial) (fun _ _ _ _ _ => hc)
    apply Exec.wp_mono (Exec.wp_and hspec hsteady)
    · rintro _ b' ⟨⟨_, c, hdescs, hkey, hindex, hafter⟩, _⟩
      refine Or.inr ⟨hne, c, hdescs, hkey, by rw [hindex, hs.index], fun hfree => ?_⟩
      obtain ⟨hsound, hgrow, hlinked⟩ := hafter hfree
      exact ⟨hsound, hs.grows.trans hgrow, hlinked⟩
    · rintro x b' ⟨hafter, hcause⟩
      refine ⟨fun hfree => ?_, hcause⟩
      obtain ⟨hsound, hgrow, hindex⟩ := hafter hfree
      exact ⟨hsound, hs.grows.trans hgrow, hindex.trans hs.index⟩
  · rintro x b₁ ⟨hs, hnot⟩
    exact ⟨hs.rejects hb, fun _ _ => hnot⟩

variable {s : Session}

/-- The cases of `FlushCache` for an inode that holds the current version of its file. -/
theorem wp_flushCache (hP : P.Lawful) (hb : s.be.Sound P)
    (hd : s.be.index s.ino.hashname = some (headName P hist))
    (hbase : s.ino.inoRecordname = headName P hist) (hl : Linked P s.ino.hashname s.be hist) :
    Exec.wp (RecordCache.flushCache P)
      (fun _ s' => (s.ino.dirtyDescs P = [] ∧ s.be.Same s'.be) ∨ (s.ino.dirtyDescs P ≠ [] ∧
        Accepts P s.ino.hashname hist (s.ino.dirtyDescs P) s.ino.aesKey s.be s'.be))
      (fun x s' => Rejects P s.be s'.be ∧ ∀ e, x = .err e → s.be.Calm → s.ino.inlen < 0) s := by
  simp only [RecordCache.flushCache, Exec.wp_bind, Exec.wp_get, wp_onBackend, wp_onInode]
  apply Exec.wp_mono (wp_collectDirty s.ino _)
  · rintro descs b₁ ⟨hdescs, hs, hcalm⟩
    change descs = s.ino.dirtyDescs P at hdescs
    have hd₁ : b₁.index s.ino.hashname = some (headName P hist) := by rw [hs.index, hd]
    have hl₁ := hl.grows (hs.grows (P := P))
    rw [hdescs, hbase]
    apply Exec.wp_mono (wp_writeRecord_linked hP (hb.same hs) hd₁ hl₁ _ _)
    · intro _ b' hcase
      rcases hcase with ⟨hnil, rfl⟩ | ⟨hne, c, hc, hkey, hindex, hafter⟩
      · exact Or.inl ⟨hnil, hs⟩
      · refine Or.inr ⟨hne, c, hc, hkey, by rw [hindex, hs.index], fun hfree => ?_⟩
        obtain ⟨hsound, hgrow, hlinked⟩ := hafter hfree
        exact ⟨hsound, hs.grows.trans hgrow, hlinked⟩
    · rintro x b' ⟨hrej, hcause⟩
      refine ⟨fun hfree => ?_, fun e he hc => absurd (hcalm hc) (hcause e he)⟩
      obtain ⟨hsound, hgrow, hindex⟩ := hrej hfree
      exact ⟨hsound, hs.grows.trans hgrow, hindex.trans hs.index⟩
  · rintro x b₁ ⟨hs, hcause⟩
    exact ⟨hs.rejects hb, hcause⟩

theorem wp_flushCache_sendsNothing (h : s.ino.SendsNothing) :
    Exec.wp (RecordCache.flushCache P) (fun _ s' => s.be.Same s'.be) (fun _ s' => s.be.Same s'.be) s := by
  simp only [RecordCache.flushCache, Exec.wp_bind, Exec.wp_get, wp_onBackend, wp_onInode]
  apply Exec.wp_mono (Exec.wp_and (wp_collectDirty s.ino _) (wp_collectDirty_nonneg s.ino _))
  · rintro descs b₁ ⟨⟨hdescs, hs, -⟩, hpos⟩
    have hnil : descs = [] := by
      rw [hdescs, List.map_eq_nil_iff, List.filter_eq_nil_iff]
      intro blk hmem hdirty
      rcases h with hzero | hneg
      · rw [s.ino.dirtyCount_eq_zero_iff.mp hzero blk] at hdirty
        cases hdirty
      · exact absurd (hpos blk hmem hdirty) (Int.not_le.mpr hneg)
    rw [hnil]
    exact hs
  · rintro x b₁ ⟨⟨hs, -⟩, -⟩
    exact hs

theorem wp_collectDirty_calm (hcalm : b.Calm) {ino : Inode} {l : List Nat}
    (hlen : ∀ blk ∈ l, ino.isDirty blk = true → 0 ≤ ino.inlen)
    (halloc : ∀ blk ∈ l, ino.isDirty blk = true → (ino.dcacheBlocks[blk]?).join ≠ none) :
    Exec.wp (RecordCache.collectDirty P ino l) (fun _ _ => True) (fun _ _ => False) b := by
  induction l generalizing b with
  | nil => trivial
  | cons blk rest ih =>
      have hlen' : ∀ blk ∈ rest, ino.isDirty blk = true → 0 ≤ ino.inlen :=
        fun blk' hmem => hlen blk' (List.mem_cons_of_mem blk hmem)
      have halloc' : ∀ blk ∈ rest, ino.isDirty blk = true → (ino.dcacheBlocks[blk]?).join ≠ none :=
        fun blk' hmem => halloc blk' (List.mem_cons_of_mem blk hmem)
      simp only [RecordCache.collectDirty, Exec.wp_ite]
      refine ⟨fun hdirty => ?_, fun _ => ih hcalm hlen' halloc'⟩
      simp only [Exec.wp_bind, Exec.wp_orAbort, Exec.wp_pure]
      refine ⟨fun m _ => ?_, halloc blk List.mem_cons_self hdirty⟩
      refine Exec.wp_mono (wp_encryptSymmetric_calm hcalm ino.aesKey m
        (hlen blk List.mem_cons_self hdirty)) ?_ (fun _ _ hf => hf)
      intro _ b₁ hcalm₁
      exact ih hcalm₁ hlen' halloc'

/-- The first flush of a file that meets no failure is a commit, however many blocks it sends. -/
theorem wp_flushCache_first (hP : P.Lawful) (hcalm : s.be.Calm)
    (hd : s.be.index s.ino.hashname = some []) (hbase : s.ino.inoRecordname = [])
    (hl : Linked P s.ino.hashname s.be []) (hkey : s.ino.aesKey.length = aesKeyLen)
    (hlen : 0 ≤ s.ino.inlen)
    (halloc : ∀ blk, s.ino.isDirty blk = true → (s.ino.dcacheBlocks[blk]?).join ≠ none)
    (hne : s.ino.dirtyDescs P ≠ []) :
    Exec.wp (RecordCache.flushCache P)
      (fun _ s' => ∃ c b₁, c.descs = s.ino.dirtyDescs P ∧ c.key = s.ino.aesKey.take aesKeyLen ∧
        s.be.Same b₁ ∧ Commits P s.ino.hashname [] c b₁ s'.be)
      (fun _ _ => False) s := by
  simp only [RecordCache.flushCache, Exec.wp_bind, Exec.wp_get, wp_onBackend, wp_onInode]
  have hcollect := Exec.wp_and (wp_collectDirty s.ino (List.range s.ino.dcacheStats.length))
    (@wp_collectDirty_calm P s.be hcalm s.ino (List.range s.ino.dcacheStats.length)
      (fun _ _ _ => hlen) (fun blk _ => halloc blk))
  refine Exec.wp_mono hcollect ?_ (fun _ _ hf => hf.2)
  rintro descs b₁ ⟨⟨hdescs, hs, hcalm₁⟩, _⟩
  change descs = s.ino.dirtyDescs P at hdescs
  have hcount : ¬ descs.length = 0 := by
    rw [hdescs, List.length_eq_zero_iff]
    exact hne
  simp only [StorageBackend.writeRecord, if_neg hcount, Exec.wp_bind, hbase]
  refine Exec.wp_mono (wp_fallible_calm (hcalm₁ hcalm) errSign) ?_ (fun _ _ hf => hf)
  rintro _ b₂ ⟨hs₂, hcalm₂⟩
  have hsame := hs.trans hs₂
  have hd₂ : b₂.index s.ino.hashname = some (headName P []) := by
    rw [hsame.index, hd]
    rfl
  have hmodify := Exec.wp_and
    (wp_modify hP hd₂ (hl.grows hsame.grows) descs [] s.ino.aesKey (P.sign (P.hash256
      (DCFSMidSim.modifyArgs s.ino.hashname descs [] s.ino.aesKey))))
    (wp_modify_first_calm hP hcalm₂ hd₂ (by rw [hdescs]; exact hne) hkey)
  refine Exec.wp_mono hmodify ?_ (fun _ _ hf => hf.2)
  rintro _ b₃ ⟨⟨_, c, hc, hckey, hcommits⟩, _⟩
  exact ⟨c, b₂, hc.trans hdescs, hckey, hsame, hcommits⟩

end Flushes

end DcfsClient
