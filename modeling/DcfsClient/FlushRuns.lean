import DcfsClient.FileContents
import DcfsClient.Reference
import DcfsClient.Trace

/-!
# What a flush sends after a run of reads and writes

A run is a list of calls of `Inode::Read` and `Inode::Write` on one open file that all return.
`Session.Faithful` is the invariant of the run: a block that is not dirty shows what the store has for
it. Filling the cache keeps it because it changes nothing that can be seen, and copying into the cache
keeps it because every block with a piece is marked.

A flush turns the dirty blocks into descs in the order of the file and drops the cache only after they
were accepted.
-/

namespace DcfsClient

open Backend

inductive CacheCall where
  | read (buf : Mem) (offset size : Nat)
  | write (buf : Mem) (offset size : Nat)

def Session.call (P : Platform) (s : Session) : CacheCall → Option Session
  | .read buf offset size => Exec.after (Inode.read P buf offset size) s
  | .write buf offset size => Exec.after (Inode.write P buf offset size) s

/-- What is cached and not dirty is what the store has. -/
structure Session.Faithful (P : Platform) (s : Session) : Prop where
  tidy : s.ino.Tidy
  closed : s.ino.AllocatedCached
  bm : s.bmNow P = s.ino.blockmapOf P s.be
  clean : ∀ blk, s.ino.isDirty blk = false → s.blockNow P blk = s.ino.blockOnStore P s.be blk
  offsets : ∀ blk, s.ino.isDirty blk = true → blk * s.ino.blockSize < 2 ^ 64
  size : s.ino.size < 2 ^ 64

section Faithful

variable {P : Platform} {s t u : Session}

theorem Session.faithful_load (hashname inoRecordname bmRecordname : Bytes) (kb cover : Nat)
    {iSize : Nat} (aesKey : Bytes) (b : Backend) (hsize : iSize < 2 ^ 64) : Session.Faithful P
      ⟨Inode.load hashname inoRecordname bmRecordname kb cover iSize aesKey, b⟩ := by
  have htidy := Inode.tidy_load hashname inoRecordname bmRecordname kb cover iSize aesKey
  have hun := isCached_load hashname inoRecordname bmRecordname kb cover iSize aesKey
  refine ⟨htidy, ?_, rfl, ?_, ?_, hsize⟩
  · intro blk hblk
    simp only [Inode.load, List.getElem?_replicate] at hblk
    split at hblk <;> exact absurd rfl hblk
  · intro blk _
    rw [Session.blockNow, if_neg (by simp [hun])]
    rfl
  · intro blk hd
    have hc := htidy.dirty blk hd
    rw [hun] at hc
    cases hc

theorem Session.Fills.blockOnStore_eq (h : s.Fills t) (blk : Nat) :
    t.ino.blockOnStore P t.be blk = s.ino.blockOnStore P s.be blk := by
  unfold Inode.blockOnStore
  simp only [h.file.blockmapOf_eq h.be, h.file.blockIn_eq h.be]

theorem Session.Faithful.filled (h : s.Faithful P) (hfilled : s.Filled P t)
    (hclosed : t.ino.AllocatedCached) : t.Faithful P := by
  refine ⟨hfilled.tidy h.tidy, hclosed, ?_, ?_, ?_, ?_⟩
  · rw [hfilled.bmNow, h.bm, hfilled.file.blockmapOf_eq hfilled.be]
  · intro blk hd
    rw [hfilled.dirty] at hd
    rw [hfilled.blockNow, h.clean blk hd, hfilled.toFills.blockOnStore_eq]
  · intro blk hd
    rw [hfilled.dirty] at hd
    rw [hfilled.file.blockSize]
    exact h.offsets blk hd
  · rw [hfilled.size]
    exact h.size

/-- The blocks that a request starting in the file touches begin at 64-bit offsets. -/
theorem piece_offset_lt {bs offset size : Nat} (hoff : offset < 2 ^ 64) {p : Piece}
    (hp : p ∈ copyPieces bs offset size) : p.block * bs < 2 ^ 64 := by
  have hu : u64 (offset + size) < 2 ^ 64 := Nat.mod_lt _ (by decide)
  rcases exists_piece_iff.mp ⟨p, hp, rfl⟩ with hfirst | hlast | ⟨-, hed⟩
  · rw [hfirst]
    exact lt_of_le_of_lt (Nat.div_mul_le_self offset bs) hoff
  · rw [hlast]
    exact lt_of_le_of_lt (Nat.div_mul_le_self _ bs) hu
  · have hle : p.block * bs ≤ u64 (offset + size) / bs * bs := Nat.mul_le_mul_right bs hed.le
    exact lt_of_le_of_lt (hle.trans (Nat.div_mul_le_self _ bs)) hu

theorem Session.Faithful.wrote (h : s.Faithful P) {buf : Mem} {cur : Nat} {ps : List Piece}
    (hwrote : s.Wrote P buf cur ps t) (hps : ∀ p ∈ ps, s.ino.isCached p.block = true)
    (hsmall : ∀ p ∈ ps, p.block * s.ino.blockSize < 2 ^ 64) : t.Faithful P := by
  have hsame : s.be.Same t.be := by
    rw [hwrote.be]
    exact Same.refl s.be
  refine ⟨hwrote.tidy h.tidy hps, ?_, ?_, ?_, ?_, ?_⟩
  · intro blk hblk
    rw [hwrote.cached]
    apply h.closed blk
    intro hnone
    rw [hwrote.blocks, hnone] at hblk
    exact hblk rfl
  · rw [hwrote.bmNow_eq, h.bm, hwrote.file.blockmapOf_eq hsame]
  · intro blk hd
    have hno : ¬ (s.ino.isDirty blk = true ∨ ∃ p ∈ ps, p.block = blk) := by
      rw [← hwrote.dirty, hd]
      simp
    have hd₀ : s.ino.isDirty blk = false := by
      rw [← Bool.not_eq_true]
      exact fun hdirty => hno (Or.inl hdirty)
    have hne : ∀ p ∈ ps, p.block ≠ blk := fun p hp he => hno (Or.inr ⟨p, hp, he⟩)
    rw [hwrote.blockNow_of_forall_ne hne, h.clean blk hd₀]
    unfold Inode.blockOnStore
    simp only [hwrote.file.blockmapOf_eq hsame, hwrote.file.blockIn_eq hsame]
  · intro blk hd
    rw [hwrote.file.blockSize]
    rcases (hwrote.dirty blk).mp hd with hd | ⟨p, hp, rfl⟩
    · exact h.offsets blk hd
    · exact hsmall p hp
  · rw [hwrote.size]
    exact h.size

/-- A change of the size alone. -/
theorem Session.Faithful.resize (h : s.Faithful P) {n : Nat} (hn : n < 2 ^ 64) :
    Session.Faithful P { s with ino := { s.ino with size := n } } :=
  ⟨h.tidy.resize n, h.closed, h.bm, h.clean, h.offsets, hn⟩

theorem Session.Faithful.fillDcache (h : s.Faithful P) {offset size : Nat}
    (hfill : RecordCache.fillDcache P offset size s = .ok () t) : t.Faithful P := by
  obtain ⟨hfilled, -, hclosed, -⟩ :=
    Exec.wp_ok (wp_fillDcache_filled h.tidy.toAllocated offset size) hfill
  exact h.filled hfilled (hclosed h.closed)

theorem Session.Faithful.read (h : s.Faithful P) {buf : Mem} {offset size : Nat}
    {r : Mem × Option Nat} (hread : Inode.read P buf offset size s = .ok r t) : t.Faithful P := by
  unfold Inode.read at hread
  obtain ⟨_, _, hget, hread⟩ := Exec.bind_eq_ok hread
  cases hget
  split at hread
  · cases hread
    exact h
  · obtain ⟨out, u, hu, hread⟩ := Exec.bind_eq_ok hread
    cases hread
    obtain ⟨-, v, hfill, hpieces⟩ := read_eq_ok hu
    have hsame := Exec.wp_ok (readPieces_moves _ _ _ v) hpieces
    rw [← hsame]
    exact h.fillDcache hfill

/-- A write that returns has copied into allocated blocks, and after a fill that went well these are
cached. -/
theorem Session.Faithful.recordCacheWrite (h : s.Faithful P) {buf : Mem} {offset size : Nat}
    (hoff : offset < 2 ^ 64) (hwrite : RecordCache.write P buf offset size s = .ok () u) :
    u.Faithful P := by
  obtain ⟨-, t, hfill, hpieces⟩ := write_eq_ok hwrite
  have ht := h.fillDcache hfill
  have hbs : t.ino.blockSize = s.ino.blockSize :=
    (Exec.wp_ok (fillDcache_fills P offset size s) hfill).file.blockSize
  obtain ⟨hwrote, hall⟩ := Exec.wp_ok (wp_writePieces_wrote (P := P) ht.tidy.lengths buf 0 _) hpieces
  apply ht.wrote hwrote
  · intro p hp
    exact ht.closed p.block (hall p hp).1
  · intro p hp
    rw [hbs]
    exact piece_offset_lt hoff hp

theorem Session.Faithful.write (h : s.Faithful P) {buf : Mem} {offset size n : Nat}
    (hwrite : Inode.write P buf offset size s = .ok n t) : t.Faithful P := by
  have hoff : (if s.ino.size ≤ offset then s.ino.size else offset) < 2 ^ 64 := by
    have hsize := h.size
    split <;> omega
  unfold Inode.write at hwrite
  obtain ⟨_, _, hget, hwrite⟩ := Exec.bind_eq_ok hwrite
  cases hget
  generalize (if s.ino.size ≤ offset then s.ino.size else offset) = start at hoff hwrite
  obtain ⟨_, u, hu, hwrite⟩ := Exec.bind_eq_ok hwrite
  have hfaithful := h.recordCacheWrite hoff hu
  obtain ⟨_, u', hgrow, hwrite⟩ := Exec.bind_eq_ok hwrite
  cases hgrow
  cases hwrite
  dsimp only
  split
  · exact hfaithful.resize (Nat.mod_lt (start + size) (by decide))
  · exact hfaithful

theorem Session.Faithful.call (h : s.Faithful P) {c : CacheCall} (hcall : s.call P c = some t) :
    t.Faithful P := by
  cases c with
  | read buf offset size =>
      obtain ⟨r, hr⟩ := Exec.after_eq_some.mp hcall
      exact h.read hr
  | write buf offset size =>
      obtain ⟨n, hn⟩ := Exec.after_eq_some.mp hcall
      exact h.write hn

theorem Session.Faithful.run (h : s.Faithful P) {calls : List CacheCall}
    (hrun : Trace.replay (Session.call P) s calls = some t) : t.Faithful P := by
  apply Trace.replay_induction (I := fun _ s => s.Faithful P) h ?_ hrun
  intro _ s c t hs hstep
  exact hs.call hstep

end Faithful

/-! ## The flush -/

/-- The descs that a flush passes to `WriteRecord`: one for each dirty block and no others, in the
order of the blocks, with the offset of the block and a buffer that decrypts to its bytes. -/
def SendsDirty (P : Platform) (ino : Inode) (descs : List BufDesc) : Prop :=
  ∃ blks : List Nat, blks.Pairwise (· < ·) ∧ (∀ blk, blk ∈ blks ↔ ino.isDirty blk = true) ∧
    List.Forall₂ (fun blk desc => desc.fileOffset = blk * ino.blockSize ∧
      ∃ m, ino.dcacheBlocks[blk]? = some (some m) ∧
        P.decrypt ino.aesKey desc.buf = Mem.bytesAt m 0 ino.blockSize) blks descs

/-- A block that is cached and not dirty is what the store has. Whatever the world does to a flush, it
passes one desc for each dirty block to `WriteRecord`, and gets there if nothing fails; it leaves the
inode as it was unless it returns, in which case nothing is dirty or cached. -/
structure FlushesChanges (P : Platform) (s : Session) : Prop where
  clean : ∀ blk, s.ino.isCached blk = true → s.ino.isDirty blk = false →
    ∃ m, s.ino.dcacheBlocks[blk]? = some (some m) ∧ s.ino.blockOnStore P s.be blk = some m
  collects : ∀ e : Env, (∀ f ∈ e.faults, f = .none) → ∃ descs b',
    RecordCache.collectDirty P s.ino (List.range s.ino.dcacheStats.length) (s.withEnv e).be =
      .ok descs b'
  sends : ∀ e descs b',
    RecordCache.collectDirty P s.ino (List.range s.ino.dcacheStats.length) (s.withEnv e).be =
      .ok descs b' →
    SendsDirty P s.ino descs ∧ RecordCache.flushCache P (s.withEnv e) =
      (onBackend (StorageBackend.writeRecord P s.ino.hashname descs s.ino.inoRecordname
        s.ino.aesKey) >>= fun _ => onInode RecordCache.dropCaches) ⟨s.ino, b'⟩
  atomic : ∀ e, Exec.wp (RecordCache.flushCache P)
    (fun _ u => ∀ blk, u.ino.isDirty blk = false ∧ u.ino.isCached blk = false)
    (fun _ u => u.ino = s.ino) (s.withEnv e)

section Flush

variable {P : Platform} {s t : Session} {kb : Nat}

theorem Session.Faithful.sendsDirty (h : s.Faithful P) (hP : P.Lawful)
    (hsmall : ∀ blk, s.ino.isDirty blk = true → s.ino.blockSize + aesPadLen < 2 ^ 31) :
    SendsDirty P s.ino (s.ino.dirtyDescs P) := by
  refine ⟨s.ino.dirtyBlocks, ?_, fun blk => s.ino.mem_dirtyBlocks, ?_⟩
  · exact List.Pairwise.filter _ List.pairwise_lt_range
  · rw [Inode.dirtyDescs, List.forall₂_map_right_iff, List.forall₂_same]
    intro blk hblk
    have hd := s.ino.mem_dirtyBlocks.mp hblk
    have hroom := hsmall blk hd
    obtain ⟨m, hm⟩ := h.tidy.alloc blk (h.tidy.dirty blk hd)
    have hat : s.ino.blockAt P blk = m := blockAt_eq_some (by rw [hm]; rfl)
    refine ⟨u64_of_lt (h.offsets blk hd), m, hm, ?_⟩
    rw [s.ino.dirtyDesc_buf P (by omega), hP.decrypt_encrypt _ _ (by rwa [Mem.length_bytesAt]), hat]

/-- A flush changes the inode only when it returns. -/
theorem wp_flushCache_ino (s : Session) :
    Exec.wp (RecordCache.flushCache P) (fun _ u => u.ino = RecordCache.dropCaches s.ino)
      (fun _ u => u.ino = s.ino) s := by
  simp only [RecordCache.flushCache, Exec.wp_bind, Exec.wp_get, wp_onBackend, wp_onInode]
  apply Exec.wp_mono (Exec.wp_run _ _)
  · intro descs b _
    apply Exec.wp_mono (Exec.wp_run _ _)
    · intro _ b' _
      trivial
    · intro _ _ _
      trivial
  · intro _ _ _
    trivial

theorem dropCaches_drops (ino : Inode) (blk : Nat) :
    (RecordCache.dropCaches ino).isDirty blk = false ∧
      (RecordCache.dropCaches ino).isCached blk = false := by
  simp only [RecordCache.dropCaches, Inode.isDirty, Inode.isCached, List.getElem?_map]
  cases ino.dcacheStats[blk]? <;> exact ⟨rfl, rfl⟩

/-- The flush goes on with what was collected. -/
theorem flushCache_of_collected {descs : List BufDesc} {b' : Backend}
    (h : RecordCache.collectDirty P s.ino (List.range s.ino.dcacheStats.length) s.be =
      .ok descs b') :
    RecordCache.flushCache P s =
      (onBackend (StorageBackend.writeRecord P s.ino.hashname descs s.ino.inoRecordname
        s.ino.aesKey) >>= fun _ => onInode RecordCache.dropCaches) ⟨s.ino, b'⟩ := by
  have hzoom : onBackend (RecordCache.collectDirty P s.ino
      (List.range s.ino.dcacheStats.length)) s = .ok descs ⟨s.ino, b'⟩ := by
    unfold onBackend Exec.zoom
    rw [h]
  exact Exec.bind_of_ok hzoom

/-- As long as what is dirty is in blocks that an `int` can count. -/
theorem Session.Faithful.flushesChanges (h : s.Faithful P) (hP : P.Lawful)
    (hsmall : ∀ blk, s.ino.isDirty blk = true → s.ino.blockSize + aesPadLen < 2 ^ 31) :
    FlushesChanges P s := by
  refine ⟨?_, ?_, ?_, ?_⟩
  · intro blk hc hd
    obtain ⟨m, hm⟩ := h.tidy.alloc blk hc
    refine ⟨m, hm, ?_⟩
    rw [← h.clean blk hd]
    exact blockNow_of_cached hc (by rw [hm]; rfl)
  · intro e hcalm
    have hlen : ∀ blk ∈ List.range s.ino.dcacheStats.length, s.ino.isDirty blk = true →
        0 ≤ s.ino.inlen := by
      intro blk _ hd
      have hroom := hsmall blk hd
      rw [Inode.inlen_of_lt (by omega)]
      exact Int.natCast_nonneg _
    have halloc : ∀ blk ∈ List.range s.ino.dcacheStats.length, s.ino.isDirty blk = true →
        (s.ino.dcacheBlocks[blk]?).join ≠ none := by
      intro blk _ hd
      obtain ⟨m, hm⟩ := h.tidy.alloc blk (h.tidy.dirty blk hd)
      simp [hm]
    obtain ⟨descs, b', hok, -⟩ :=
      Exec.exists_ok (@wp_collectDirty_calm P (s.withEnv e).be hcalm s.ino _ hlen halloc)
    exact ⟨descs, b', hok⟩
  · intro e descs b' hcollect
    obtain ⟨hdescs, -, -⟩ := Exec.wp_ok (wp_collectDirty s.ino _) hcollect
    refine ⟨?_, flushCache_of_collected hcollect⟩
    rw [hdescs]
    exact h.sendsDirty hP hsmall
  · intro e
    apply Exec.wp_mono (wp_flushCache_ino (s.withEnv e))
    · intro _ u hino blk
      rw [hino]
      exact dropCaches_drops s.ino blk
    · intro _ u hino
      exact hino

/-- A dirty block of 2 GiB or more is not sent, or only its first bytes are. -/
theorem not_flushesChanges (hP : P.Lawful) {blk : Nat} (hd : s.ino.isDirty blk = true)
    (hbs : s.ino.blockSize = kb * 1024) (hbig : 2 ^ 31 ≤ kb * 1024) : ¬ FlushesChanges P s := by
  intro h
  obtain ⟨hshort, hroom⟩ := Inode.inlen_of_le hbs hbig
  obtain ⟨descs, b', hcollect⟩ := h.collects {} (fun f hf => by cases hf)
  obtain ⟨hdescs, -, -⟩ := Exec.wp_ok (wp_collectDirty s.ino _) hcollect
  obtain ⟨⟨blks, -, hmem, hall⟩, -⟩ := h.sends {} descs b' hcollect
  cases hall with
  | nil => cases (hmem blk).mpr hd
  | @cons first desc _ _ hfirst _ =>
      obtain ⟨-, m, -, hdec⟩ := hfirst
      have hdesc : desc ∈ (List.filter s.ino.isDirty (List.range s.ino.dcacheStats.length)).map
          (s.ino.dirtyDesc P) := by
        rw [← hdescs]
        exact List.mem_cons_self
      obtain ⟨sent, -, rfl⟩ := List.mem_map.mp hdesc
      rw [Inode.dirtyDesc, hP.decrypt_encrypt _ _ (by rwa [Mem.length_bytesAt])] at hdec
      have hlength := congrArg List.length hdec
      rw [Mem.length_bytesAt, Mem.length_bytesAt] at hlength
      omega

theorem Session.call_blockSize {c : CacheCall} (h : s.call P c = some t) :
    t.ino.blockSize = s.ino.blockSize := by
  cases c with
  | read buf offset size =>
      obtain ⟨r, hr⟩ := Exec.after_eq_some.mp h
      exact (Exec.wp_ok (read_fills buf offset size s) hr).file.blockSize
  | write buf offset size =>
      obtain ⟨n, hn⟩ := Exec.after_eq_some.mp h
      exact (Exec.wp_ok (write_writes buf offset size s) hn).file.blockSize

theorem replay_call_blockSize {calls : List CacheCall}
    (hrun : Trace.replay (Session.call P) s calls = some t) : t.ino.blockSize = s.ino.blockSize := by
  apply Trace.replay_induction (I := fun _ t => t.ino.blockSize = s.ino.blockSize) rfl ?_ hrun
  intro _ u c v hu hstep
  exact (Session.call_blockSize hstep).trans hu

end Flush

/-- After any run of reads and writes that return, on any file that was opened, a flush sends all that
changed and only that exactly if a block has less than 2 GiB, or nothing is dirty. -/
theorem flush_sends_changes_iff (P : Platform) (hP : P.Lawful)
    (hashname inoRecordname bmRecordname : Bytes) (kb cover iSize : Nat) (aesKey : Bytes) (b : Backend)
    (hsize : iSize < 2 ^ 64) (calls : List CacheCall) (s : Session)
    (hrun : Trace.replay (Session.call P)
      ⟨Inode.load hashname inoRecordname bmRecordname kb cover iSize aesKey, b⟩ calls = some s) :
    FlushesChanges P s ↔ kb * 1024 < 2 ^ 31 ∨ s.ino.dirtyCount = 0 := by
  have h : s.Faithful P :=
    (Session.faithful_load hashname inoRecordname bmRecordname kb cover aesKey b hsize).run hrun
  have hbs : s.ino.blockSize = kb * 1024 := replay_call_blockSize hrun
  constructor
  · intro hflush
    by_contra hno
    rw [not_or, Nat.not_lt, Inode.dirtyCount_eq_zero_iff, not_forall] at hno
    obtain ⟨hbig, blk, hd⟩ := hno
    exact not_flushesChanges hP (Bool.of_not_eq_false hd) hbs hbig hflush
  · intro hcond
    apply h.flushesChanges hP
    intro blk hd
    rcases hcond with hsmall | hclean
    · rw [hbs]
      exact Inode.add_aesPadLen_lt hsmall
    · rw [s.ino.dirtyCount_eq_zero_iff.mp hclean blk] at hd
      cases hd

def writeTwice : List CacheCall :=
  [.write (fun _ => 8) 1500 5, .write (fun _ => 7) 3 5, .read (fun _ => 0) 2100 10]

theorem flush_sends_changes_iff_writeTwice : ∃ s,
    Trace.replay (Session.call Reference.platform)
      ⟨Inode.load [] [] [] 1 blockmapCover 3000 Reference.zeroKey, {}⟩ writeTwice = some s ∧
    s.ino.isDirty 0 = true ∧ s.ino.isDirty 1 = true ∧ s.ino.isCached 2 = true ∧
    s.ino.isDirty 2 = false ∧ FlushesChanges Reference.platform s := by
  obtain ⟨s, hrun, hfirst, hsecond, hcached, hclean⟩ : ∃ s,
      Trace.replay (Session.call Reference.platform)
        ⟨Inode.load [] [] [] 1 blockmapCover 3000 Reference.zeroKey, {}⟩ writeTwice = some s ∧
      s.ino.isDirty 0 = true ∧ s.ino.isDirty 1 = true ∧ s.ino.isCached 2 = true ∧
      s.ino.isDirty 2 = false := ⟨_, rfl, rfl, rfl, rfl, rfl⟩
  have hiff := flush_sends_changes_iff Reference.platform Reference.lawful [] [] [] 1 blockmapCover 3000
    Reference.zeroKey {} (by decide) writeTwice s hrun
  exact ⟨s, hrun, hfirst, hsecond, hcached, hclean, hiff.mpr (Or.inl (by decide))⟩

/-! ## Blocks of 4 GiB -/

section Wide

open Reference

/-- A file that was just created, with blocks of 4 GiB. -/
def wideFile : Session where
  ino := .load (fileAt 5) [] [] 4194304 blockmapCover 0 zeroKey
  be := (Exec.after (DCFSMidSim.createNew platform) { env := { clock := [5, 6, 7, 8] } }).getD {}

@[irreducible] def wideWritten : Session :=
  (Trace.replay (Session.call platform) wideFile [.write (fun _ => 7) 0 1]).getD wideFile

def wideDescs : Option (List BufDesc) :=
  match RecordCache.collectDirty platform wideWritten.ino
    (List.range wideWritten.ino.dcacheStats.length) wideWritten.be with
  | .ok descs _ => some descs
  | .error _ _ => none

theorem wideWritten_leaves :
    (Trace.replay (Session.call platform) wideFile [.write (fun _ => 7) 0 1]).isSome = true ∧
    wideWritten.ino.isDirty 0 = true ∧ wideWritten.ino.blockSize = 4194304 * 1024 ∧
    wideDescs = some [⟨platform.encrypt zeroKey [], 0⟩] ∧
    Exec.returns (RecordCache.flushCache platform) wideWritten = true := by decide +kernel

/-- The size of the block is `0` as an `int`: the byte is dirty, the flush sends the encryption of nothing
and returns. -/
theorem not_flushesChanges_wideWritten :
    Trace.replay (Session.call platform) wideFile [.write (fun _ => 7) 0 1] = some wideWritten ∧
    wideWritten.ino.isDirty 0 = true ∧
    (∃ b', RecordCache.collectDirty platform wideWritten.ino
      (List.range wideWritten.ino.dcacheStats.length) wideWritten.be =
        .ok [⟨platform.encrypt zeroKey [], 0⟩] b') ∧
    (∃ u, RecordCache.flushCache platform wideWritten = .ok () u) ∧
    ¬ FlushesChanges platform wideWritten := by
  obtain ⟨hsome, hdirty, hbs, hdescs, hreturns⟩ := wideWritten_leaves
  refine ⟨?_, hdirty, ?_, ?_, not_flushesChanges lawful hdirty hbs (by decide)⟩
  · obtain ⟨s, hs⟩ := Option.isSome_iff_exists.mp hsome
    unfold wideWritten
    rw [hs]
    rfl
  · unfold wideDescs at hdescs
    split at hdescs
    next descs b' hcollect =>
      rw [Option.some.injEq] at hdescs
      rw [hdescs] at hcollect
      exact ⟨b', hcollect⟩
    · cases hdescs
  · obtain ⟨_, u, hflush⟩ := Exec.exists_of_returns hreturns
    exact ⟨u, hflush⟩

end Wide

end DcfsClient
