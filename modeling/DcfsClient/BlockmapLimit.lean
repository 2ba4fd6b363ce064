import DcfsClient.AppendSession
import DcfsClient.MountRuns
import DcfsClient.StoredBlocks

/-!
# How large a file may get

A write to a new file never leaves a gap, because it starts at the end of the file at the latest. So the
dirty blocks of the first session are the blocks up to the one that holds the end of the file, and
the flush sends them all: the end of a file of `size` bytes lies in block `size / blockSize`, also when the
last block is full, because a write copies one byte too many.

The middleware takes any number of blocks into a blockmap, but the client reads a blockmap into a buffer for
`blockmapCover` names. `reopens_iff` says that a flush that was accepted can be read back exactly if the end
of the file lies in one of the first `blockmapCover` blocks.
-/

namespace DcfsClient

open Backend Exec

structure WriteCall where
  buf : Mem
  offset : Nat
  size : Nat
  env : Env

def WriteCall.run (P : Platform) (c : WriteCall) (s : Session) :
    EStateM.Result (Exit ErrT Abort) Session Nat :=
  Inode.write P c.buf c.offset c.size (s.withEnv c.env)

inductive WritesTo (P : Platform) (s₀ : Session) : List WriteCall → Session → Prop where
  | nil : WritesTo P s₀ [] s₀
  | returned {calls : List WriteCall} {s s' : Session} {c : WriteCall} {written : Nat} :
      WritesTo P s₀ calls s → c.run P s = .ok written s' → WritesTo P s₀ (c :: calls) s'
  | failed {calls : List WriteCall} {s s' : Session} {c : WriteCall} {e : ErrT} :
      WritesTo P s₀ calls s → c.run P s = .error (.err e) s' → WritesTo P s₀ (c :: calls) s'

/-! ## The dirty blocks of the first session -/

/-- The dirty blocks are the first `n`: none before the first write, and all up to the end of the file
after it. There is no blockmap yet. -/
structure FirstSession (ino₀ : Inode) (b : Backend) (n : Nat) (s : Session) : Prop where
  file : ino₀.SameFile s.ino
  be : b.Same s.be
  bm : s.ino.bm = none
  dirty : ∀ blk, s.ino.isDirty blk = decide (blk < n)
  count : n = 0 ∧ s.ino.size = 0 ∨ n = s.ino.size / s.ino.blockSize + 1

section Writing

variable {P : Platform} {s : Session} {ino₀ : Inode} {b : Backend} {n : Nat}

theorem FirstSession.withEnv (h : FirstSession ino₀ b n s) (e : Env) :
    FirstSession ino₀ b n (s.withEnv e) :=
  ⟨h.file, h.be.trans (Same.withEnv s.be e), h.bm, h.dirty, h.count⟩

theorem firstSession_fresh (h : Bytes) (kb cover : Nat) (key : Bytes) (b : Backend) :
    FirstSession (Inode.fresh h kb cover key).ref b 0 ⟨(Inode.fresh h kb cover key).ref, b⟩ := by
  refine ⟨Inode.SameFile.refl _, Same.refl b, rfl, ?_, Or.inl ⟨rfl, rfl⟩⟩
  intro blk
  simp only [Inode.isDirty, Inode.fresh, Inode.load, Inode.ref, List.getElem?_replicate]
  split <;> rfl

/-- Without a blockmap no block has a record, so that a fill asks the server for nothing. -/
theorem wp_fillBlock_unmapped (hbm : s.ino.bm = none) (blk : Nat) :
    wp (RecordCache.fillBlock P blk) (fun _ s' => s'.ino.bm = none) (fun x _ => ∀ e, x ≠ .err e)
      s := by
  have hgrow : (RecordCache.growTo s.ino blk).bm = none := by
    unfold RecordCache.growTo
    split <;> exact hbm
  have hcheck : RecordCache.bmCheck (RecordCache.growTo s.ino blk) blk = none := by
    simp only [RecordCache.bmCheck, hgrow]
  simp only [RecordCache.fillBlock, wp_bind, wp_onInode, wp_get, wp_orAbort, wp_ite, hcheck, wp_pure]
  refine ⟨fun stat _ => ⟨fun _ => hgrow, fun _ => hgrow⟩, fun _ e he => by cases he⟩

theorem wp_fillDcache_unmapped (hbm : s.ino.bm = none) (hrecord : s.ino.bmRecordname = [])
    (offset size : Nat) :
    wp (RecordCache.fillDcache P offset size) (fun _ s' => s'.ino.bm = none)
      (fun x _ => ∀ e, x ≠ .err e) s := by
  have hskip : ¬ (s.ino.bm.isNone ∧ 0 < s.ino.bmRecordname.length) := by
    rw [hrecord]
    simp
  have hrow : ∀ (l : List Nat) (t : Session), t.ino.bm = none →
      wp (l.forM (RecordCache.fillBlock P)) (fun _ s' => s'.ino.bm = none)
        (fun x _ => ∀ e, x ≠ .err e) t := by
    intro l
    induction l with
    | nil => exact fun t ht => ht
    | cons blk l ih =>
        intro t ht
        rw [List.forM, wp_bind]
        exact wp_mono (wp_fillBlock_unmapped ht blk) (fun _ u hu => ih u hu) (fun _ _ hx => hx)
  simp only [RecordCache.fillDcache, RecordCache.fillBmcache, wp_bind, wp_get, if_neg hskip, wp_pure]
  exact hrow _ s hbm

theorem wp_writePieces_dirties (buf : Mem) (cur : Nat) (ps : List Piece) :
    wp (RecordCache.writePieces buf cur ps)
      (fun _ s' => s'.ino.bm = s.ino.bm ∧ s'.ino.size = s.ino.size ∧
        ∀ blk, s'.ino.isDirty blk = true ↔ s.ino.isDirty blk = true ∨ ∃ p ∈ ps, p.block = blk)
      (fun x _ => ∀ e, x ≠ .err e) s := by
  induction ps generalizing s cur with
  | nil => exact ⟨rfl, rfl, fun blk => by simp⟩
  | cons p ps ih =>
      simp only [RecordCache.writePieces, RecordCache.blockOf, wp_bind, wp_get, wp_orAbort, wp_check,
        wp_pure, wp_onInode]
      refine ⟨fun m _ => ⟨fun _ => ⟨fun stat hstat => ?_, ?_⟩, ?_⟩, ?_⟩
      · have hlt := (List.getElem?_eq_some_iff.mp hstat).1
        refine wp_mono (ih _) ?_ (fun _ _ hx => hx)
        rintro _ t ⟨hbm, hsize, hdirty⟩
        refine ⟨hbm, hsize, ?_⟩
        intro blk
        rw [hdirty blk, isDirty_setStat (s.ino.setBlock p.block _) { stat with dirty := true } hlt rfl]
        split
        next he => simp [he]
        next hne =>
          change s.ino.isDirty blk = true ∨ _ ↔ _
          simp [hne]
      all_goals exact fun _ e he => by cases he

/-- The new dirty blocks, given where the write starts and where its end lies. -/
theorem dirty_count {bs n size start : Nat} (stop : Nat) (hstart : start ≤ size)
    (hcount : n = 0 ∧ size = 0 ∨ n = size / bs + 1) :
    ∃ n', n' = (if size < stop then stop else size) / bs + 1 ∧
      ∀ blk, blk < n' ↔ blk < n ∨ (blk = start / bs ∨ blk = stop / bs ∨
        start / bs < blk ∧ blk < stop / bs) := by
  refine ⟨_, rfl, ?_⟩
  intro blk
  have hst : start / bs ≤ size / bs := Nat.div_le_div_right hstart
  rcases hcount with ⟨rfl, rfl⟩ | rfl
  · have hzero : start / bs = 0 := by
      rw [Nat.le_zero.mp hstart, Nat.zero_div]
    have hstop : (if 0 < stop then stop else 0) = stop := by
      split <;> omega
    rw [hstop, hzero]
    generalize stop / bs = last
    omega
  · split
    next hlt =>
      have hle : size / bs ≤ stop / bs := Nat.div_le_div_right hlt.le
      omega
    next hge =>
      have hle : stop / bs ≤ size / bs := Nat.div_le_div_right (by omega)
      omega

/-- A write to a new file returns or ends the process, and leaves no gap. -/
theorem FirstSession.write (h : FirstSession ino₀ b n s) (hrecord : ino₀.bmRecordname = [])
    (buf : Mem) (offset size : Nat) :
    wp (Inode.write P buf offset size) (fun _ s' => ∃ n', FirstSession ino₀ b n' s')
      (fun x _ => ∀ e, x ≠ .err e) s := by
  have hstart : (if s.ino.size ≤ offset then s.ino.size else offset) ≤ s.ino.size := by
    split <;> omega
  simp only [Inode.write, RecordCache.write, wp_bind, wp_get, wp_check, wp_attempt, wp_onInode, wp_pure]
  generalize (if s.ino.size ≤ offset then s.ino.size else offset) = start at hstart
  refine ⟨fun _ => ?_, fun _ e he => by cases he⟩
  have hunmapped : s.ino.bmRecordname = [] := h.file.bmRecordname.trans hrecord
  have hfill := wp_and (wp_fillDcache_unmapped (P := P) h.bm hunmapped start size)
    (fillDcache_fills P start size s)
  apply wp_mono hfill
  · rintro _ t ⟨hbm, hfills⟩
    have hpieces := wp_and (wp_writePieces_dirties (s := t) buf 0 (copyPieces s.ino.blockSize start size))
      (writePieces_writes buf 0 (copyPieces s.ino.blockSize start size) t)
    apply wp_mono hpieces
    · rintro _ u ⟨⟨hbm', hsize, hdirty⟩, hwrites⟩
      have hfile := h.file.trans (hfills.file.trans hwrites.file)
      have hsize' : u.ino.size = s.ino.size := hsize.trans hfills.size
      have hbs : u.ino.blockSize = s.ino.blockSize := by
        rw [hfile.blockSize, h.file.blockSize]
      obtain ⟨n', hn', hblocks⟩ := dirty_count (u64 (start + size)) hstart h.count
      have hdirty' : ∀ blk, u.ino.isDirty blk = decide (blk < n') := by
        intro blk
        rw [Bool.eq_iff_iff, hdirty blk, hfills.dirty, h.dirty, decide_eq_true_eq, decide_eq_true_eq,
          hblocks, exists_piece_iff]
      refine ⟨n', ?_⟩
      rw [hsize']
      split
      next hlt =>
        rw [if_pos hlt] at hn'
        refine ⟨⟨hfile.1, hfile.2, hfile.3, hfile.4, hfile.5, hfile.6, hfile.7⟩,
          h.be.trans (hfills.be.trans hwrites.be), hbm'.trans hbm, hdirty', Or.inr ?_⟩
        change n' = u64 (start + size) / u.ino.blockSize + 1
        rw [hbs]
        exact hn'
      next hge =>
        rw [if_neg hge] at hn'
        refine ⟨hfile, h.be.trans (hfills.be.trans hwrites.be), hbm'.trans hbm, hdirty', Or.inr ?_⟩
        rw [hsize', hbs]
        exact hn'
    · exact fun _ _ hx => hx.1
  · rintro x t ⟨hx, _⟩
    cases x with
    | err e => exact absurd rfl (hx e)
    | abort k => exact fun e he => by cases he

theorem WritesTo.firstSession {calls : List WriteCall} (hrecord : ino₀.bmRecordname = [])
    (h₀ : FirstSession ino₀ b 0 ⟨ino₀, b⟩) (h : WritesTo P ⟨ino₀, b⟩ calls s) :
    ∃ n, FirstSession ino₀ b n s := by
  induction h with
  | nil => exact ⟨0, h₀⟩
  | @returned calls s s' c written _ hok ih =>
      obtain ⟨n, hn⟩ := ih
      have hspec := (hn.withEnv c.env).write (P := P) hrecord c.buf c.offset c.size
      exact wp_ok hspec hok
  | @failed calls s s' c e _ herr ih =>
      obtain ⟨n, hn⟩ := ih
      have hspec := (hn.withEnv c.env).write (P := P) hrecord c.buf c.offset c.size
      exact absurd rfl (wp_error hspec herr e)

end Writing

/-! ## Opening the file again -/

/-- The inode that `get_inode` makes of what `ReadFileMeta` returned. -/
def FileMeta.inode (m : FileMeta) (h : Bytes) (kb : Nat) : Inode :=
  Inode.load h m.recordname m.blockmapHash kb blockmapCover m.isize m.aesKey

/-- A file with a commit can be opened again, and whenever the file is, the blockmap can be loaded and has
a record for every block that was dirty in `ino`, with the contents that `ino` sent. -/
structure Reopens (P : Platform) (kb : Nat) (ino : Inode) (b : Backend) : Prop where
  opens : b.index ino.hashname ≠ some [] → ∀ e : Env, (∀ f ∈ e.faults, f = .none) →
    ∃ m b₁, StorageBackend.readFileMeta P ino.hashname { b with env := e } = .ok m b₁
  entries : ∀ e m b₁, StorageBackend.readFileMeta P ino.hashname { b with env := e } = .ok m b₁ →
    ∀ e' : Env, (∀ f ∈ e'.faults, f = .none) →
      ∃ t, RecordCache.fillBmcache P ⟨m.inode ino.hashname kb, { b₁ with env := e' }⟩ = .ok () t ∧
        ∀ blk, ino.isDirty blk = true → ∃ r, t.be.Holds P ino.hashname r ∧
          RecordCache.bmCheck t.ino blk = some (r.name P) ∧
          r.payload = some (ino.dirtyDesc P blk).buf

section Reopen

variable {P : Platform} {ino : Inode} {b : Backend} {c : Commit} {n kb : Nat}

/-- Entry `blk` of the blockmap of a first commit is the data record of desc `blk`. -/
theorem bmCheck_first (hP : P.Lawful) (hb : b.Sound P) (hproper : ProperNames P b)
    (hl : Linked P ino.hashname b [c]) (hbm : ino.blockmapOf P b = some ino.bm)
    (hrecord : ino.bmRecordname = c.blockmap.name P) (hroom : c.descs.length ≤ ino.bmCover)
    {blk : Nat} {desc : BufDesc} (hdesc : c.descs[blk]? = some desc) :
    ∃ r, b.Holds P ino.hashname r ∧ RecordCache.bmCheck ino blk = some (r.name P) ∧
      r.payload = some desc.buf := by
  obtain ⟨r, -, hholds, hentry, hpayload⟩ := hl.exists_entry_first hdesc
  have hlength : (blockNames P [c]).length ≤ ino.bmCover := by
    rw [hl.length_blockNames_first]
    exact hroom
  have hlt : ¬ ino.bmCover ≤ blk := by
    have hin := (List.getElem?_eq_some_iff.mp hdesc).1
    omega
  rw [blockmapOf_commit hP hb hl hrecord hlength, Option.some.injEq] at hbm
  have hbytes := bytesAt_place_flatten (Mem.memset (fun _ => P.junk) 0 (hashLen * ino.bmCover))
    (length_of_mem_blockNames hP) hentry
  have hname := strcmpEq_zeros (r.length_name hP) (hproper _ _ _ hholds.record)
  refine ⟨r, hholds, ?_, hpayload⟩
  simp only [RecordCache.bmCheck, ← hbm, if_neg hlt, hbytes, hname, Bool.false_eq_true, if_false]

/-- A blockmap that is too long for the buffer of the client is not loaded. -/
theorem blockmapOf_too_long (hP : P.Lawful) (hb : b.Sound P) (hl : Linked P ino.hashname b [c])
    (hrecord : ino.bmRecordname = c.blockmap.name P) (hbig : ino.bmCover < c.descs.length) :
    ino.blockmapOf P b = none := by
  have hholds := hl.2.2 c.blockmap (by simp [Commit.drafts])
  have hpayload : (c.blockmap.pdu P).payloadInTransit = (blockNames P [c]).flatten := by
    simp only [Draft.pdu, hl.2.1.blockmap.payload, Option.getD_some]
    rfl
  have hlength : (blockNames P [c]).flatten.length = c.descs.length * hashLen := by
    rw [length_flatten_of_forall _ (length_of_mem_blockNames hP), hl.length_blockNames_first]
  have hlong : hashLen * ino.bmCover < c.descs.length * hashLen := by
    rw [Nat.mul_comm]
    exact Nat.mul_lt_mul_of_pos_right hbig (Nat.zero_lt_succ 31)
  have hpos : 0 < ino.bmRecordname.length := by
    rw [hrecord, c.blockmap.length_name hP]
    exact Nat.zero_lt_succ 31
  have hslot := hb.slot hholds
  have hparse := hholds.parse_slot hslot
  have hnone : payloadOf P b ino.hashname (c.blockmap.name P) (hashLen * ino.bmCover) = none := by
    simp only [payloadOf, hslot, hparse, hpayload, hlength]
    exact if_neg (by omega)
  rw [Inode.blockmapOf, if_pos hpos, hrecord, hnone]
  rfl

/-- What `ReadFileMeta` returns for a file with one commit. -/
theorem readFileMeta_first (hP : P.Lawful) (hb : b.Sound P) (hf : FileState P b ino.hashname [c])
    {e : Env} {m : FileMeta} {b₁ : Backend}
    (hread : StorageBackend.readFileMeta P ino.hashname { b with env := e } = .ok m b₁) :
    m = c.fileMeta P ∧ b.Same b₁ := by
  have hsame := Same.withEnv b e
  have hspec := @wp_readFileMeta P { b with env := e } ino.hashname [c] hP (hb.same hsame) hf.index
    (hf.linked.grows hsame.grows)
  obtain ⟨hs, -, c', cs', hhist, hm⟩ := wp_ok hspec hread
  injection hhist with hc
  rw [hm, ← hc]
  exact ⟨rfl, hsame.trans hs⟩

theorem exists_readFileMeta (hP : P.Lawful) (hb : b.Sound P) (hf : FileState P b ino.hashname [c])
    {e : Env} (hcalm : ∀ f ∈ e.faults, f = .none) :
    ∃ m b₁, StorageBackend.readFileMeta P ino.hashname { b with env := e } = .ok m b₁ := by
  have hsame := Same.withEnv b e
  have hkey := hf.keys c (List.mem_singleton_self c)
  have hspec := @wp_readFileMeta P { b with env := e } ino.hashname [c] hP (hb.same hsame) hf.index
    (hf.linked.grows hsame.grows)
  obtain ⟨m, b₁, hread, -⟩ := exists_ok (wp_mono hspec (fun _ _ h => h)
    (fun _ _ h => h.2 c [] rfl hkey hcalm))
  exact ⟨m, b₁, hread⟩

theorem reopens_of_room (hP : P.Lawful) (hb : b.Sound P) (hproper : ProperNames P b)
    (hf : FileState P b ino.hashname [c])
    (hdescs : c.descs = (List.range n).map (ino.dirtyDesc P))
    (hdirty : ∀ blk, ino.isDirty blk = decide (blk < n)) (hroom : n ≤ blockmapCover) :
    Reopens P kb ino b := by
  refine ⟨fun _ e hcalm => exists_readFileMeta hP hb hf hcalm, ?_⟩
  intro e m b₁ hread e' hcalm
  obtain ⟨hm, hsame⟩ := readFileMeta_first hP hb hf hread
  let b₂ : Backend := { b₁ with env := e' }
  have hsame₂ : b.Same b₂ := hsame.trans (Same.withEnv b₁ e')
  have hb₂ : b₂.Sound P := hb.same hsame₂
  have hl₂ : Linked P ino.hashname b₂ [c] := hf.linked.grows hsame₂.grows
  have hcount : c.descs.length ≤ blockmapCover := by
    rw [hdescs, List.length_map, List.length_range]
    exact hroom
  let loaded := m.inode ino.hashname kb
  have hclean : Clean P loaded b₂ ⟨loaded, b₂⟩ := clean_load _ _ _ _ _ _ _ _
  have hrecord : loaded.bmRecordname = c.blockmap.name P := by
    change m.blockmapHash = _
    rw [hm]
    rfl
  have hlength : (blockNames P [c]).length ≤ loaded.bmCover := by
    rw [hl₂.length_blockNames_first]
    exact hcount
  have hbm : loaded.blockmapOf P b₂ ≠ none := by
    have hlinked : Linked P loaded.hashname b₂ [c] := hl₂
    rw [blockmapOf_commit hP hb₂ hlinked hrecord hlength]
    exact Option.some_ne_none _
  obtain ⟨u, t, hok, hloaded, -⟩ := exists_ok (wp_mono (wp_fillBmcache hclean) (fun _ _ h => h)
    (fun _ _ h => h.2 hbm hcalm))
  refine ⟨t, hok, ?_⟩
  intro blk hblk
  rw [hdirty, decide_eq_true_eq] at hblk
  have hdesc : c.descs[blk]? = some (ino.dirtyDesc P blk) := by
    rw [hdescs, List.getElem?_map, List.getElem?_range hblk]
    rfl
  -- the inode after the load, over the store it was loaded from
  have hname : t.ino.hashname = ino.hashname := hloaded.file.hashname
  have hsame₃ : b.Same t.be := hsame₂.trans hloaded.be
  have hl₃ : Linked P t.ino.hashname t.be [c] := by
    rw [hname]
    exact hf.linked.grows hsame₃.grows
  have hproper₃ : ProperNames P t.be := by
    intro d name p hp
    apply hproper d name p
    unfold Backend.records at hp ⊢
    rw [← hsame₃.store]
    exact hp
  have hbm₃ : t.ino.blockmapOf P t.be = some t.ino.bm := by
    rw [← hloaded.bmLoaded, Inode.blockmapOf, Inode.blockmapOf, payloadOf_congr hloaded.be.store,
      hloaded.file.hashname, hloaded.file.bmRecordname, hloaded.file.bmCover]
  have hfound := bmCheck_first hP (hb.same hsame₃) hproper₃ hl₃ hbm₃
    (hloaded.file.bmRecordname.trans hrecord) (by rw [hloaded.file.bmCover]; exact hcount) hdesc
  rw [hname] at hfound
  exact hfound

theorem not_reopens_of_big (hP : P.Lawful) (hb : b.Sound P)
    (hf : FileState P b ino.hashname [c]) (hbig : blockmapCover < c.descs.length) :
    ¬ Reopens P kb ino b := by
  intro h
  obtain ⟨m, b₁, hread⟩ := exists_readFileMeta (e := {}) hP hb hf (fun f hmem => by cases hmem)
  obtain ⟨hm, hsame₁⟩ := readFileMeta_first hP hb hf hread
  let loaded := m.inode ino.hashname kb
  let b₂ : Backend := { b₁ with env := {} }
  have hsame₂ : b.Same b₂ := hsame₁.trans (Same.withEnv b₁ {})
  have hclean : Clean P loaded b₂ ⟨loaded, b₂⟩ := clean_load _ _ _ _ _ _ _ _
  have hrecord : loaded.bmRecordname = c.blockmap.name P := by
    change m.blockmapHash = _
    rw [hm]
    rfl
  obtain ⟨t, hok, -⟩ := h.entries {} m b₁ hread {} (fun f hmem => by cases hmem)
  have hloaded := (wp_ok (wp_fillBmcache hclean) hok).1.bmLoaded
  have hnone : loaded.blockmapOf P b₂ = none :=
    blockmapOf_too_long hP (hb.same hsame₂) (hf.linked.grows hsame₂.grows) hrecord hbig
  rw [hnone] at hloaded
  cases hloaded

end Reopen

/-! ## The limit -/

section Limit

variable {P : Platform} {s s' : Session} {ino₀ : Inode} {b b₀ b₁ : Backend} {n kb : Nat}
  {h key : Bytes}

/-- The file right after `CreateNew`. -/
theorem fileState_of_createNew (hP : P.Lawful) (hb : b₀.Sound P)
    (hnew : DCFSMidSim.createNew P b₀ = .ok (h, key) b₁) (hfree : P.CollisionFree b₁.hashed) :
    b₁.Sound P ∧ FileState P b₁ h [] ∧ key.length = aesKeyLen := by
  obtain ⟨hout, hindex, hafter⟩ := wp_ok (wp_createNew_sound hP hb) hnew
  obtain ⟨hname, hkey⟩ := Prod.mk.inj hout
  obtain ⟨hsound, -, hholds⟩ := hafter hfree
  refine ⟨hsound, ⟨?_, ⟨_, hname.symm, ?_⟩, fun c hc => by cases hc⟩, ?_⟩
  · rw [hindex, ← hname, Function.update_self]
    rfl
  · rw [hname]
    exact hholds
  · rw [hkey, Mem.length_bytesAt]

/-- Writing does not touch what the server has of the file. -/
theorem FirstSession.fileState (hs : FirstSession ino₀ b n s)
    (hf : FileState P b ino₀.hashname []) : FileState P s.be s.ino.hashname [] := by
  rw [hs.file.hashname]
  exact hf.grows hs.be.grows (by rw [hs.be.index])

/-- The flush of a first session: nothing was written, or all its blocks are the first commit. -/
theorem FirstSession.flushed (hP : P.Lawful) (hs : FirstSession ino₀ b n s) (hb : b.Sound P)
    (hbase : ino₀.inoRecordname = []) (hf : FileState P b ino₀.hashname [])
    (hkey : ino₀.aesKey.length = aesKeyLen) (hflush : RecordCache.flushCache P s = .ok () s')
    (hfree : P.CollisionFree s'.be.hashed) :
    (n = 0 ∧ b.Same s'.be) ∨ (0 < n ∧ s'.be.Sound P ∧ ∃ c : Commit,
      c.descs = (List.range n).map (s.ino.dirtyDesc P) ∧
        FileState P s'.be s.ino.hashname [c]) := by
  have hf₀ := hs.fileState hf
  have hspec := wp_flushCache hP (hb.same hs.be) hf₀.index (hs.file.inoRecordname.trans hbase)
    hf₀.linked
  have hblocks := s.ino.dirtyDescs_of_first P hs.dirty
  rcases wp_ok hspec hflush with ⟨hnil, hsame⟩ | ⟨hne, c, hdescs, hckey, hcindex, hafter⟩
  · rw [hblocks, List.map_eq_nil_iff, List.range_eq_nil] at hnil
    exact .inl ⟨hnil, hs.be.trans hsame⟩
  · have hpos : 0 < n := by
      rw [Nat.pos_iff_ne_zero]
      rintro rfl
      exact hne hblocks
    obtain ⟨hsound, -, hlinked'⟩ := hafter hfree
    refine .inr ⟨hpos, hsound, c, hdescs.trans hblocks, ?_, hlinked', ?_⟩
    · rw [hcindex, Function.update_self]
      rfl
    · intro c' hc'
      rw [List.mem_singleton.mp hc', hckey]
      change (s.ino.aesKey.take aesKeyLen).length = aesKeyLen
      rw [hs.file.aesKey, List.length_take, hkey, Nat.min_self]

/-- A file without commits cannot be opened. -/
theorem reopens_unwritten (hP : P.Lawful) {ino : Inode} (hb : b.Sound P)
    (hf : FileState P b ino.hashname []) : Reopens P kb ino b := by
  refine ⟨fun hwritten => absurd hf.index hwritten, ?_⟩
  intro e m b₁ hread
  have hsame := Same.withEnv b e
  have hspec := @wp_readFileMeta P { b with env := e } ino.hashname [] hP (hb.same hsame) hf.index
    (hf.linked.grows hsame.grows)
  obtain ⟨-, -, c, cs, hhist, -⟩ := wp_ok hspec hread
  cases hhist

/-- After any writes to a new file and a flush that was accepted, the blocks can be found again exactly if
the end of the file lies in one of the blocks that a blockmap covers. -/
theorem reopens_iff (hP : P.Lawful) (hb : b₀.Sound P)
    (hnew : DCFSMidSim.createNew P b₀ = .ok (h, key) b₁) {calls : List WriteCall}
    (hwrites : WritesTo P ⟨(Inode.fresh h kb blockmapCover key).ref, b₁⟩ calls s) {e : Env}
    (hflush : RecordCache.flushCache P (s.withEnv e) = .ok () s')
    (hfree : P.CollisionFree s'.be.hashed) (hproper : ProperNames P s'.be) :
    Reopens P kb s.ino s'.be ↔ s.ino.size / (kb * 1024) < blockmapCover := by
  obtain ⟨n, hs⟩ := hwrites.firstSession rfl (firstSession_fresh h kb blockmapCover key b₁)
  have hse := hs.withEnv e
  have hremembers := wp_ok (flushCache_remembers (P := P) (s.withEnv e)) hflush
  have hfree₁ : P.CollisionFree b₁.hashed := by
    apply hfree.of_subset
    rw [← hse.be.hashed]
    exact hremembers.hashed
  obtain ⟨hb₁, hf₁, hkey⟩ := fileState_of_createNew hP hb hnew hfree₁
  have hname : s.ino.hashname = h := hs.file.hashname
  have hbs : s.ino.blockSize = kb * 1024 := hs.file.blockSize
  have hcount := hs.count
  rw [hbs] at hcount
  rcases hse.flushed hP hb₁ rfl hf₁ hkey hflush hfree with
    ⟨hzero, hsame⟩ | ⟨hpos, hsound, c, hdescs, hf⟩
  · have hsize : s.ino.size / (kb * 1024) = 0 := by
      rcases hcount with ⟨-, hsize⟩ | hn
      · rw [hsize, Nat.zero_div]
      · rw [hzero] at hn
        cases hn
    have hf' : FileState P s'.be s.ino.hashname [] := by
      rw [hname]
      exact hf₁.grows hsame.grows (by rw [hsame.index])
    rw [hsize]
    exact ⟨fun _ => by decide, fun _ => reopens_unwritten hP (hb₁.same hsame) hf'⟩
  · have hn : n = s.ino.size / (kb * 1024) + 1 := by
      rcases hcount with ⟨hzero, -⟩ | hn
      · omega
      · exact hn
    have hlength : c.descs.length = n := by rw [hdescs, List.length_map, List.length_range]
    constructor
    · intro hreopens
      by_contra hbig
      refine not_reopens_of_big hP hsound hf ?_ hreopens
      rw [hlength, hn]
      exact Nat.lt_succ_of_le (Nat.le_of_not_lt hbig)
    · intro hsmall
      have hroom : n ≤ blockmapCover := by
        rw [hn]
        exact hsmall
      exact reopens_of_room hP hsound hproper hf hdescs hs.dirty hroom

end Limit

/-! ## A file for every number of blocks

A new file with blocks of the default size gets `full` blocks of zeros and one byte more in a single write. -/

section Large

open Reference

def largeBuf (full : Nat) : Mem := fun i => if i < full * 16384 then 0 else 7

def largeWrite (full : Nat) : WriteCall := ⟨largeBuf full, 0, full * 16384 + 1, {}⟩

theorem depth_single {i : Nat} (h : i < 256 ^ 31) : depth [chainName i] = i + 1 := by
  simp [depth, ofLe_chainName h]

theorem depth_pair {i j : Nat} (hi : i < 256 ^ 31) (hj : j < 256 ^ 31) (hle : i ≤ j) :
    depth [chainName i, chainName j] = j + 1 := by
  simp only [depth, List.map_cons, List.map_nil, List.foldr_cons, List.foldr_nil,
    ofLe_chainName hi, ofLe_chainName hj]
  omega

theorem name_dataRun {i : Nat} {descs : List BufDesc} {rs : List Draft}
    (h : DataRun chainPlatform (chainName i) descs rs) (hlt : i + descs.length < 256 ^ 31) {k : Nat}
    {r : Draft} (hr : rs[k]? = some r) : r.name chainPlatform = chainName (i + k + 1) := by
  induction descs generalizing i rs k with
  | nil =>
      cases rs with
      | nil => cases hr
      | cons r rs => exact h.elim
  | cons desc descs ih =>
      cases rs with
      | nil => exact h.elim
      | cons r₀ rs =>
          obtain ⟨-, hprev, -, hrest⟩ := h
          rw [List.length_cons] at hlt
          have hname : r₀.name chainPlatform = chainName (i + 1) := by
            rw [name_chainPlatform, hprev, depth_single (by omega)]
          cases k with
          | zero =>
              rw [List.getElem?_cons_zero, Option.some.injEq] at hr
              rw [← hr]
              exact hname
          | succ k =>
              rw [List.getElem?_cons_succ] at hr
              rw [hname] at hrest
              rw [ih hrest (by omega) hr]
              congr 1
              omega

/-- The records of a first commit, in the order they are pushed after the META record. -/
theorem name_drafts {d : Bytes} {c : Commit} (hd : d = chainName 0)
    (hok : CommitOk chainPlatform d [] c) (hlt : c.descs.length + 3 < 256 ^ 31) {k : Nat} {r : Draft}
    (hr : c.drafts[k]? = some r) : r.name chainPlatform = chainName (k + 1) := by
  have hlength := hok.data.length
  have hne := hok.data.ne_nil hok.descs_ne
  have hdata : DataRun chainPlatform (chainName 0) c.descs c.data := by
    rw [← hd]
    exact hok.data
  have hlast : lastName chainPlatform d c.data = chainName c.descs.length := by
    have hpos : 0 < c.data.length := List.length_pos_iff.mpr hne
    rw [lastName]
    cases hr : c.data.getLast? with
    | none => exact absurd (List.getLast?_eq_none_iff.mp hr) hne
    | some r =>
        rw [List.getLast?_eq_getElem?] at hr
        rw [Option.elim_some, name_dataRun hdata (by omega) hr]
        congr 1
        omega
  have hblockmap : c.blockmap.name chainPlatform = chainName (c.descs.length + 1) := by
    have hprev : c.blockmap.prevhash = [chainName 0, chainName c.descs.length] := by
      rw [hok.blockmap.prev, hlast, hd]
      rfl
    rw [name_chainPlatform, hprev, depth_pair (by omega) (by omega) (Nat.zero_le _)]
  have hinode : c.inode.name chainPlatform = chainName (c.descs.length + 2) := by
    have hprev : c.inode.prevhash = [chainName 0, chainName (c.descs.length + 1)] := by
      rw [hok.inode.prev, hblockmap, hd]
      rfl
    rw [name_chainPlatform, hprev, depth_pair (by omega) (by omega) (Nat.zero_le _)]
  unfold Commit.drafts at hr
  by_cases hk : k < c.data.length
  · rw [List.getElem?_append_left hk] at hr
    rw [name_dataRun hdata (by omega) hr, Nat.zero_add]
  · rw [List.getElem?_append_right (by omega)] at hr
    obtain ⟨i, hi⟩ : ∃ i, k = c.data.length + i := ⟨k - c.data.length, by omega⟩
    rw [hi, Nat.add_sub_cancel_left] at hr
    rw [hi, hlength]
    rcases i with - | i
    · rw [List.getElem?_cons_zero, Option.some.injEq] at hr
      rw [← hr]
      exact hblockmap
    · rw [List.getElem?_cons_succ] at hr
      rcases i with - | i
      · rw [List.getElem?_cons_zero, Option.some.injEq] at hr
        rw [← hr]
        exact hinode
      · cases hr

/-- All that `chainHash` sees of a string that is not a header. -/
def payloadCode (b : Bytes) : Nat := b.length * 256 + (b.headD 0).toNat

/-- Records that are named by their position, and payloads that are told apart by their code. -/
theorem chain_collisionFree {hashed : List Bytes} {drafts : List Draft}
    (hlt : drafts.length ≤ 256 ^ 31)
    (hnames : ∀ k r, drafts[k]? = some r → r.name chainPlatform = chainName k)
    (hhashed : ∀ x ∈ hashed, ∃ r ∈ drafts, x ∈ r.strings chainPlatform)
    (hpayload : ∀ r ∈ drafts, ∀ x ∈ r.payload, x.head? ≠ some 255 ∧ payloadCode x < 256 ^ 31)
    (hcode : ∀ r ∈ drafts, ∀ x ∈ r.payload, ∀ r' ∈ drafts, ∀ y ∈ r'.payload,
      payloadCode x = payloadCode y → x = y) : chainPlatform.CollisionFree hashed := by
  have hcases : ∀ x ∈ hashed,
      (∃ (k : Nat) (r : Draft), drafts[k]? = some r ∧
          x = chainPlatform.serializeHeader (r.header chainPlatform)) ∨
        ∃ r ∈ drafts, x ∈ r.payload := by
    intro x hx
    obtain ⟨r, hr, hx⟩ := hhashed x hx
    obtain ⟨k, hk⟩ := List.getElem?_of_mem hr
    rcases List.mem_cons.mp hx with rfl | hx
    · exact .inl ⟨k, r, hk, rfl⟩
    · exact .inr ⟨r, hr, Option.mem_toList.mp hx⟩
  have hheader : ∀ (k : Nat) (r : Draft), drafts[k]? = some r →
      chainPlatform.hash256 (chainPlatform.serializeHeader (r.header chainPlatform)) =
        chainName k := hnames
  have hother : ∀ r ∈ drafts, ∀ x ∈ r.payload,
      chainPlatform.hash256 x = 2 :: leBytes 31 (payloadCode x) :=
    fun r hr x hx => if_neg (hpayload r hr x hx).1
  have hne : ∀ (k : Nat) (l : Bytes), chainName k ≠ 2 :: l := by
    intro k l he
    exact absurd (List.head_eq_of_cons_eq he) (by decide)
  intro x hx y hy he
  rcases hcases x hx with ⟨k, r, hk, rfl⟩ | ⟨r, hr, hxr⟩
  · rcases hcases y hy with ⟨k', r', hk', rfl⟩ | ⟨r', hr', hyr⟩
    · rw [hheader k r hk, hheader k' r' hk'] at he
      have hin := (List.getElem?_eq_some_iff.mp hk).1
      have hin' := (List.getElem?_eq_some_iff.mp hk').1
      have hsame := chainName_injOn (by omega) (by omega) he
      rw [hsame, hk', Option.some.injEq] at hk
      rw [hk]
    · rw [hheader k r hk, hother r' hr' y hyr] at he
      exact absurd he (hne _ _)
  · rcases hcases y hy with ⟨k', r', hk', rfl⟩ | ⟨r', hr', hyr⟩
    · rw [hheader k' r' hk', hother r hr x hxr] at he
      exact absurd he.symm (hne _ _)
    · rw [hother r hr x hxr, hother r' hr' y hyr] at he
      have hcodes := congrArg ofLe (List.tail_eq_of_cons_eq he)
      rw [ofLe_leBytes, ofLe_leBytes, Nat.mod_eq_of_lt (hpayload r hr x hxr).2,
        Nat.mod_eq_of_lt (hpayload r' hr' y hyr).2] at hcodes
      exact hcode r hr x hxr r' hr' y hyr hcodes

theorem encrypt_code {key b : Bytes} {v : UInt8} (hkey : key.headD 0 = 0) (hb : b.head? = some v) :
    (chainPlatform.encrypt key b).head? = some (v + 1) ∧
      payloadCode (chainPlatform.encrypt key b) = (b.length + 16) * 256 + (v + 1).toNat := by
  cases b with
  | nil => cases hb
  | cons a l =>
      rw [List.head?_cons, Option.some.injEq] at hb
      subst hb
      have hencrypt : chainPlatform.encrypt key (a :: l) =
          (a + 1) :: (l.map (· + 1) ++ List.replicate aesPadLen 16) := by
        change (a :: l).map (· + (key.headD 0 + 1)) ++ _ = _
        rw [hkey]
        rfl
      rw [hencrypt]
      refine ⟨rfl, ?_⟩
      simp only [payloadCode, List.length_cons, List.length_append, List.length_map,
        List.length_replicate, List.headD_cons, aesPadLen]

variable {full : Nat} {ino : Inode} {c : Commit} {d : Bytes}

theorem largeData_get {pos : Nat} (h : pos < full * 16384 + 1) :
    (Mem.bytesAt (largeBuf full) 0 (full * 16384 + 1))[pos]? =
      some (if pos < full * 16384 then 0 else 7) := by
  rw [Mem.getElem?_bytesAt, if_pos h, Nat.zero_add]
  rfl

theorem large_block (P : Platform)
    (happ : Appended 16384 (Mem.bytesAt (largeBuf full) 0 (full * 16384 + 1)) ino) {blk : Nat}
    (hlt : blk < full) :
    Mem.bytesAt (ino.blockAt P blk) 0 16384 = Mem.bytesAt (fun _ => 0) 0 16384 := by
  apply List.ext_getElem?
  intro i
  rw [Mem.getElem?_bytesAt, Mem.getElem?_bytesAt]
  by_cases hi : i < 16384
  · have hget := @largeData_get full (blk * 16384 + i) (by omega)
    rw [if_pos (by omega)] at hget
    have hbyte := happ.blockAt (P := P) hget
    have hdiv : (blk * 16384 + i) / 16384 = blk := by omega
    have hmod : (blk * 16384 + i) % 16384 = i := by omega
    rw [hdiv, hmod] at hbyte
    rw [if_pos hi, if_pos hi, Nat.zero_add, hbyte]
  · rw [if_neg hi, if_neg hi]

theorem large_last (P : Platform)
    (happ : Appended 16384 (Mem.bytesAt (largeBuf full) 0 (full * 16384 + 1)) ino) :
    ino.blockAt P full 0 = 7 := by
  have hget := @largeData_get full (full * 16384) (by omega)
  rw [if_neg (Nat.lt_irrefl _)] at hget
  have hbyte := happ.blockAt (P := P) hget
  have hdiv : full * 16384 / 16384 = full := by omega
  have hmod : full * 16384 % 16384 = 0 := by omega
  rw [hdiv, hmod] at hbyte
  exact hbyte

theorem large_dirtyDescs (P : Platform)
    (happ : Appended 16384 (Mem.bytesAt (largeBuf full) 0 (full * 16384 + 1)) ino) :
    ino.dirtyDescs P = (List.range (full + 1)).map (ino.dirtyDesc P) := by
  have hlength : (Mem.bytesAt (largeBuf full) 0 (full * 16384 + 1)).length = full * 16384 + 1 :=
    Mem.length_bytesAt _ _ _
  have hdiv : (full * 16384 + 1) / 16384 = full := by omega
  rw [happ.dirtyDescs (by omega), hlength, hdiv]

theorem large_count (happ : Appended 16384 (Mem.bytesAt (largeBuf full) 0 (full * 16384 + 1)) ino)
    (hdescs : c.descs = ino.dirtyDescs chainPlatform) : c.descs.length = full + 1 := by
  rw [hdescs, large_dirtyDescs chainPlatform happ, List.length_map, List.length_range]

/-- The payload of a data record: a block of zeros or the last block. -/
theorem large_data (happ : Appended 16384 (Mem.bytesAt (largeBuf full) 0 (full * 16384 + 1)) ino)
    (hkey : ino.aesKey.headD 0 = 0) (hdescs : c.descs = ino.dirtyDescs chainPlatform)
    {rs : List Draft} (hrun : DataRun chainPlatform d c.descs rs) :
    ∃ zeros last : Bytes, ∀ r ∈ rs, ∀ x ∈ r.payload,
      (x = zeros ∧ x.head? = some 1 ∧ payloadCode x = 4198401) ∨
      (x = last ∧ x.head? = some 8 ∧ payloadCode x = 4198408) := by
  refine ⟨chainPlatform.encrypt ino.aesKey (Mem.bytesAt (fun _ => 0) 0 16384),
    chainPlatform.encrypt ino.aesKey (Mem.bytesAt (ino.blockAt chainPlatform full) 0 16384), ?_⟩
  intro r hr x hx
  have hmem : some x ∈ c.descs.map fun desc => some desc.buf := by
    rw [← hrun.payload, ← Option.mem_def.mp hx]
    exact List.mem_map_of_mem hr
  rw [hdescs, large_dirtyDescs chainPlatform happ, List.map_map] at hmem
  obtain ⟨blk, hblk, hbuf⟩ := List.mem_map.mp hmem
  have hx : x = chainPlatform.encrypt ino.aesKey
      (Mem.bytesAt (ino.blockAt chainPlatform blk) 0 16384) := by
    have hsmall : ino.blockSize < 2 ^ 31 := by
      rw [happ.blockSize]
      decide
    rw [← happ.blockSize, ← ino.dirtyDesc_buf chainPlatform hsmall]
    exact (Option.some.inj hbuf).symm
  rw [List.mem_range] at hblk
  by_cases hlt : blk < full
  · rw [large_block chainPlatform happ hlt] at hx
    have hhead : (Mem.bytesAt (fun _ => 0) 0 16384).head? = some 0 := by
      rw [List.head?_eq_getElem?, Mem.getElem?_bytesAt, if_pos (by omega)]
    have hcode := encrypt_code hkey hhead
    rw [Mem.length_bytesAt] at hcode
    rw [hx]
    exact .inl ⟨rfl, hcode.1, hcode.2⟩
  · have heq : blk = full := by omega
    rw [heq] at hx
    have hhead : (Mem.bytesAt (ino.blockAt chainPlatform full) 0 16384).head? = some 7 := by
      rw [List.head?_eq_getElem?, Mem.getElem?_bytesAt, if_pos (by omega),
        large_last chainPlatform happ]
    have hcode := encrypt_code hkey hhead
    rw [Mem.length_bytesAt] at hcode
    rw [hx]
    exact .inr ⟨rfl, hcode.1, hcode.2⟩

/-- The payload of a blockmap record. -/
theorem names_code {rs : List Draft} (hne : rs ≠ []) :
    (rs.map (·.name chainPlatform)).flatten.head? = some 1 ∧
      payloadCode (rs.map (·.name chainPlatform)).flatten = 8192 * rs.length + 1 := by
  obtain ⟨r₀, rs₀, hcons⟩ := List.exists_cons_of_ne_nil hne
  have hhead : (rs.map (·.name chainPlatform)).flatten.head? = some 1 := by
    simp only [hcons, List.map_cons, List.flatten_cons, name_chainPlatform]
    rfl
  have hall : ∀ l ∈ rs.map (·.name chainPlatform), l.length = 32 := by
    intro l hl
    obtain ⟨r, -, rfl⟩ := List.mem_map.mp hl
    exact r.length_name chain_lawful
  refine ⟨hhead, ?_⟩
  rw [payloadCode, length_flatten_of_forall _ hall, List.length_map, List.headD_eq_head?_getD, hhead]
  change rs.length * 32 * 256 + 1 = _
  omega

/-- The payload of an inode record; the size is a multiple of the block size. -/
theorem inode_code {descs : List BufDesc} {cipher : Bytes} (hlength : cipher.length = 32) :
    (leBytes 8 (committedSize descs) ++ cipher).head? = some 0 ∧
      payloadCode (leBytes 8 (committedSize descs) ++ cipher) = 10240 := by
  have hzero : UInt8.ofNat (committedSize descs) = 0 := by
    have hmod : committedSize descs % 256 = 0 := by
      rw [committedSize, u64]
      unfold defaultBlockSizeInKb
      omega
    rw [← UInt8.toNat_inj, UInt8.toNat_ofNat', hmod]
    rfl
  have hcons : leBytes 8 (committedSize descs) ++ cipher = UInt8.ofNat (committedSize descs) ::
      (leBytes 7 (committedSize descs / 256) ++ cipher) := rfl
  constructor
  · rw [hcons, List.head?_cons, hzero]
  · rw [payloadCode, List.length_append, length_leBytes, hlength, hcons, List.headD_cons, hzero]
    rfl

/-- The payloads of the commit: a block of zeros, the last block, the blockmap and the inode. -/
theorem large_payloads
    (happ : Appended 16384 (Mem.bytesAt (largeBuf full) 0 (full * 16384 + 1)) ino)
    (hkey : ino.aesKey.headD 0 = 0) (hdescs : c.descs = ino.dirtyDescs chainPlatform)
    (hok : CommitOk chainPlatform d [] c) :
    ∃ zeros last names inode : Bytes, ∀ r ∈ c.drafts, ∀ x ∈ r.payload,
      (x = zeros ∧ x.head? = some 1 ∧ payloadCode x = 4198401) ∨
      (x = last ∧ x.head? = some 8 ∧ payloadCode x = 4198408) ∨
      (x = names ∧ x.head? = some 1 ∧ payloadCode x = 8192 * (full + 1) + 1) ∨
      (x = inode ∧ x.head? = some 0 ∧ payloadCode x = 10240) := by
  obtain ⟨zeros, last, hdata⟩ := large_data happ hkey hdescs hok.data
  refine ⟨zeros, last, (c.data.map (·.name chainPlatform)).flatten, leBytes 8 (committedSize c.descs) ++
    chainPlatform.encrypt chainPlatform.symmetricMiddlewareKey c.key, ?_⟩
  intro r hr x hx
  rcases List.mem_append.mp hr with hr | hr
  · rcases hdata r hr x hx with h | h
    · exact .inl h
    · exact .inr (.inl h)
  · simp only [List.mem_cons, List.not_mem_nil, or_false] at hr
    rcases hr with rfl | rfl
    · rw [hok.blockmap.payload, Option.mem_some_iff] at hx
      have hx : (c.data.map (·.name chainPlatform)).flatten = x := hx
      have hcode := names_code (hok.data.ne_nil hok.descs_ne)
      rw [hok.data.length, large_count happ hdescs, hx] at hcode
      exact .inr (.inr (.inl ⟨hx.symm, hcode.1, hcode.2⟩))
    · rw [hok.inode.payload, Option.mem_some_iff] at hx
      have hx : leBytes 8 (committedSize c.descs) ++
          chainPlatform.encrypt chainPlatform.symmetricMiddlewareKey c.key = x := hx
      have hlength : (chainPlatform.encrypt chainPlatform.symmetricMiddlewareKey c.key).length =
          32 := hok.inode.key_length
      have hcode := @inode_code c.descs _ hlength
      rw [hx] at hcode
      exact .inr (.inr (.inr ⟨hx.symm, hcode.1, hcode.2⟩))

def chainMeta : Draft := ⟨.capsuleMeta, [], none, 0⟩

def chainKey : Bytes := Mem.bytesAt (fun _ => 0) 0 aesKeyLen

theorem createNew_chain :
    ∃ b₁, DCFSMidSim.createNew chainPlatform {} = .ok (chainName 0, chainKey) b₁ ∧
      b₁.hashed = chainMeta.strings chainPlatform := by
  have hreturns : returns (DCFSMidSim.createNew chainPlatform) {} = true := by decide +kernel
  obtain ⟨out, b₁, hnew⟩ := exists_of_returns hreturns
  obtain ⟨hout, b₂, hpushed, -, hhashed, -⟩ := wp_ok (wp_createNew {}) hnew
  have hname : chainMeta.name chainPlatform = chainName 0 := name_chainPlatform chainMeta
  refine ⟨b₁, ?_, ?_⟩
  · rw [hnew, hout, ← hname]
    rfl
  · rw [hhashed, hpushed.hashed]
    exact List.append_nil _

/-- No two strings of the file have one hash. -/
theorem large_collisionFree (hfull : full < 2 ^ 20)
    (happ : Appended 16384 (Mem.bytesAt (largeBuf full) 0 (full * 16384 + 1)) ino)
    (hkey : ino.aesKey.headD 0 = 0) (hdescs : c.descs = ino.dirtyDescs chainPlatform)
    (hok : CommitOk chainPlatform (chainName 0) [] c) {hashed : List Bytes}
    (hhashed : ∀ x ∈ hashed, ∃ r ∈ chainMeta :: c.drafts, x ∈ r.strings chainPlatform) :
    chainPlatform.CollisionFree hashed := by
  obtain ⟨zeros, last, names, inode, hcases⟩ := large_payloads happ hkey hdescs hok
  have hcount := large_count happ hdescs
  have hlength : c.drafts.length = full + 3 := by
    rw [Commit.drafts, List.length_append, hok.data.length, hcount]
    rfl
  have hdrafts : ∀ r ∈ chainMeta :: c.drafts, ∀ x ∈ r.payload, r ∈ c.drafts := by
    intro r hr x hx
    rcases List.mem_cons.mp hr with rfl | hr
    · cases hx
    · exact hr
  apply @chain_collisionFree hashed (chainMeta :: c.drafts)
  · rw [List.length_cons, hlength]
    omega
  · intro k r hr
    cases k with
    | zero =>
        rw [List.getElem?_cons_zero, Option.some.injEq] at hr
        rw [← hr]
        exact name_chainPlatform chainMeta
    | succ k =>
        rw [List.getElem?_cons_succ] at hr
        exact name_drafts rfl hok (by omega) hr
  · exact hhashed
  · intro r hr x hx
    rcases hcases r (hdrafts r hr x hx) x hx with
      ⟨-, hhead, hcode⟩ | ⟨-, hhead, hcode⟩ | ⟨-, hhead, hcode⟩ | ⟨-, hhead, hcode⟩
    all_goals
      rw [hhead, hcode]
      exact ⟨by decide, by omega⟩
  · intro r hr x hx r' hr' y hy he
    -- two payloads of one kind are equal, and the codes of the kinds differ
    rcases hcases r (hdrafts r hr x hx) x hx with
      ⟨hx, -, hcode⟩ | ⟨hx, -, hcode⟩ | ⟨hx, -, hcode⟩ | ⟨hx, -, hcode⟩
    all_goals
      rcases hcases r' (hdrafts r' hr' y hy) y hy with
        ⟨hy, -, hcode'⟩ | ⟨hy, -, hcode'⟩ | ⟨hy, -, hcode'⟩ | ⟨hy, -, hcode'⟩
    all_goals first
      | exact hx.trans hy.symm
      | omega

theorem large_written (full : Nat) (hfull : full < 2 ^ 20) :
    ∃ b₁ s, DCFSMidSim.createNew chainPlatform {} = .ok (chainName 0, chainKey) b₁ ∧
      b₁.hashed = chainMeta.strings chainPlatform ∧
      WritesTo chainPlatform ⟨(Inode.fresh (chainName 0) 16 blockmapCover chainKey).ref, b₁⟩
        [largeWrite full] s ∧
      Appended 16384 (Mem.bytesAt (largeBuf full) 0 (full * 16384 + 1)) s.ino := by
  obtain ⟨b₁, hnew, hhashed₁⟩ := createNew_chain
  let ino₀ : Inode := (Inode.fresh (chainName 0) 16 blockmapCover chainKey).ref
  have hfresh : Appended 16384 [] ino₀ := appended_fresh (chainName 0) 16 chainKey
  have hsum : ([] : Bytes).length + (full * 16384 + 1) < 2 ^ 64 := by
    rw [List.length_nil]
    omega
  have hwrite := @wp_write_append chainPlatform ((⟨ino₀, b₁⟩ : Session).withEnv {}) 16384 []
    (by omega) hfresh (largeBuf full) (full * 16384 + 1) (by omega) hsum
  obtain ⟨out, s, hok, happ⟩ := exists_ok hwrite
  rw [List.nil_append] at happ
  exact ⟨b₁, s, hnew, hhashed₁, .returned .nil hok, happ⟩

theorem chain_properNames {b : Backend} (hb : b.Sound chainPlatform) : ProperNames chainPlatform b := by
  apply properNames_of_head hb
  intro x hzero
  change (chainHash x).head? = some 0 at hzero
  unfold chainHash at hzero
  split at hzero
  all_goals exact absurd (Option.some.inj hzero) (by decide)

/-- The file that the blocks are flushed to. -/
theorem chain_created {b₁ : Backend}
    (hnew : DCFSMidSim.createNew chainPlatform {} = .ok (chainName 0, chainKey) b₁)
    (hhashed : b₁.hashed = chainMeta.strings chainPlatform) :
    b₁.Sound chainPlatform ∧ FileState chainPlatform b₁ (chainName 0) [] ∧
      chainKey.length = aesKeyLen := by
  have hfree : chainPlatform.CollisionFree b₁.hashed := by
    rw [hhashed]
    intro x hx y hy _
    exact (List.mem_singleton.mp hx).trans (List.mem_singleton.mp hy).symm
  exact fileState_of_createNew chain_lawful (sound_empty chainPlatform) hnew hfree

theorem large_allocated
    (happ : Appended 16384 (Mem.bytesAt (largeBuf full) 0 (full * 16384 + 1)) ino) {blk : Nat}
    (hdirty : ino.isDirty blk = true) : (ino.dcacheBlocks[blk]?).join ≠ none := by
  apply happ.allocated ?_ hdirty
  rw [Mem.length_bytesAt]
  omega

/-- The flush of the file is accepted, and the blocks are its first commit. -/
theorem large_flushed (full : Nat) (hfull : full < 2 ^ 20) :
    ∃ b₁ s s', DCFSMidSim.createNew chainPlatform {} = .ok (chainName 0, chainKey) b₁ ∧
      WritesTo chainPlatform ⟨(Inode.fresh (chainName 0) 16 blockmapCover chainKey).ref, b₁⟩
        [largeWrite full] s ∧
      RecordCache.flushCache chainPlatform (s.withEnv {}) = .ok () s' ∧
      chainPlatform.CollisionFree s'.be.hashed ∧ ProperNames chainPlatform s'.be ∧
      s.ino.size = full * 16384 + 1 ∧ s'.be.Sound chainPlatform ∧
      ∃ c : Commit, c.descs.length = full + 1 ∧
        FileState chainPlatform s'.be s.ino.hashname [c] := by
  obtain ⟨b₁, s, hnew, hhashed₁, hwrites, happ⟩ := large_written full hfull
  obtain ⟨n, hs⟩ := hwrites.firstSession rfl
    (firstSession_fresh (chainName 0) 16 blockmapCover chainKey b₁)
  have hse := hs.withEnv {}
  have hname : s.ino.hashname = chainName 0 := hs.file.hashname
  have haes : s.ino.aesKey = chainKey := hs.file.aesKey
  have hsize : s.ino.size = full * 16384 + 1 := by
    rw [happ.size, Mem.length_bytesAt]
  have hn : n = full + 1 := by
    have hcount := hs.count
    rw [hsize, happ.blockSize] at hcount
    omega
  obtain ⟨hb₁, hf₁, hkey⟩ := chain_created hnew hhashed₁
  have hf₀ := hse.fileState hf₁
  have hkey' : s.ino.aesKey.length = aesKeyLen := by
    rw [haes]
    exact hkey
  have hlen : 0 ≤ s.ino.inlen := by
    rw [Inode.inlen, happ.blockSize]
    decide
  have hne : s.ino.dirtyDescs chainPlatform ≠ [] := by
    rw [large_dirtyDescs chainPlatform happ]
    intro hnil
    cases List.range_eq_nil.mp (List.map_eq_nil_iff.mp hnil)
  have hflush := wp_flushCache_first chain_lawful (s := s.withEnv {}) (fun f hf => by cases hf) hf₀.index
    hs.file.inoRecordname hf₀.linked hkey' hlen (fun _ => large_allocated happ) hne
  obtain ⟨_, s', hflushed, c, b₂, hdescs, -, hsame, hcommits⟩ := exists_ok hflush
  -- the strings that were hashed
  have hfree : chainPlatform.CollisionFree s'.be.hashed := by
    obtain ⟨b₃, hpush, -, hhashed⟩ := hcommits.pushes
    have hcommit : CommitOk chainPlatform (chainName 0) [] c := by
      rw [← hname]
      exact hcommits.ok
    have hzero : s.ino.aesKey.headD 0 = 0 := by
      rw [haes]
      rfl
    apply large_collisionFree hfull happ hzero hdescs hcommit
    intro x hx
    rw [hhashed, hpush.mem_hashed, hsame.hashed, hse.be.hashed, hhashed₁] at hx
    rcases hx with ⟨r, hr, hx⟩ | hx
    · exact ⟨r, List.mem_cons_of_mem _ hr, hx⟩
    · exact ⟨chainMeta, List.mem_cons_self, hx⟩
  rcases hse.flushed chain_lawful hb₁ rfl hf₁ hkey hflushed hfree with
    ⟨hzero, -⟩ | ⟨-, hsound, c', hdescs', hf⟩
  · omega
  · have hlength : c'.descs.length = full + 1 := by
      rw [hdescs', List.length_map, List.length_range, hn]
    exact ⟨b₁, s, s', hnew, hwrites, hflushed, hfree, chain_properNames hsound, hsize, hsound, c',
      hlength, hf⟩

/-- A file of two blocks can be opened again. -/
theorem reopens_iff_twoBlocks :
    ∃ b₁ s s', DCFSMidSim.createNew chainPlatform {} = .ok (chainName 0, chainKey) b₁ ∧
      WritesTo chainPlatform ⟨(Inode.fresh (chainName 0) 16 blockmapCover chainKey).ref, b₁⟩
        [largeWrite 1] s ∧
      RecordCache.flushCache chainPlatform (s.withEnv {}) = .ok () s' ∧
      Reopens chainPlatform 16 s.ino s'.be := by
  obtain ⟨b₁, s, s', hnew, hwrites, hflush, hfree, hproper, hsize, -⟩ := large_flushed 1 (by decide)
  refine ⟨b₁, s, s', hnew, hwrites, hflush, ?_⟩
  rw [reopens_iff chain_lawful (sound_empty chainPlatform) hnew hwrites hflush hfree hproper, hsize]
  decide

/-- A file of `blockmapCover` blocks and one byte is stored, and its blockmap cannot be loaded. -/
theorem not_reopens_large :
    ∃ b₁ s s', DCFSMidSim.createNew chainPlatform {} = .ok (chainName 0, chainKey) b₁ ∧
      WritesTo chainPlatform ⟨(Inode.fresh (chainName 0) 16 blockmapCover chainKey).ref, b₁⟩
        [largeWrite 512] s ∧
      RecordCache.flushCache chainPlatform (s.withEnv {}) = .ok () s' ∧
      chainPlatform.CollisionFree s'.be.hashed ∧ ProperNames chainPlatform s'.be ∧
      ¬ Reopens chainPlatform 16 s.ino s'.be := by
  obtain ⟨b₁, s, s', hnew, hwrites, hflush, hfree, hproper, -, hsound, c, hlength, hf⟩ :=
    large_flushed 512 (by decide)
  have hbig : blockmapCover < c.descs.length := by
    rw [hlength]
    decide
  exact ⟨b₁, s, s', hnew, hwrites, hflush, hfree, hproper,
    not_reopens_of_big chain_lawful hsound hf hbig⟩

end Large

end DcfsClient
