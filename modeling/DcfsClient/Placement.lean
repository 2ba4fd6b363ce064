import DcfsClient.FileMetaCases
import DcfsClient.MiddlewareRuns
import DcfsClient.Reference

/-!
# Where the blocks of a flush end up

`Placement` is what a blockmap is for: entry `k` names the newest data record for block `k`, there are
entries for the blocks up to the largest one written, and the recorded size covers them. `Modify`
achieves it for the first flush of a file. On every later flush it works with `isize = 0`, since the
old inode record's size is not read back, so it appends entries for blocks that have one already, and
it records the number of blocks of the last flush as the size of the file.
-/

namespace DcfsClient

open Backend

def Written (flushes : List (List BufDesc)) (k : Nat) : Prop :=
  ∃ desc ∈ flushes.flatten, desc.fileOffset = k * midBlockSize

/-- Flushes, newest first, as `FlushCache` makes them: blocks in ascending order, new ones right after
those that are recorded. -/
inductive Conforms : List (List BufDesc) → Prop where
  | nil : Conforms []
  | cons {descs : List BufDesc} {older : List (List BufDesc)} (ks : List Nat) :
      Conforms older → descs ≠ [] → ks.Pairwise (· < ·) →
      descs.map BufDesc.fileOffset = ks.map (· * midBlockSize) →
      (∀ k, Written (descs :: older) k → ∀ j < k, Written (descs :: older) j) →
      Conforms (descs :: older)

def newest (flushes : List (List BufDesc)) (k : Nat) : Option BufDesc :=
  flushes.flatten.find? (·.fileOffset = k * midBlockSize)

def Latest (P : Platform) (b : Backend) (d : Bytes) (ino bm : CapsulePDU) : Prop :=
  ∃ n m, b.index d = some n ∧ b.records P d n = some ino ∧ prev1 ino = some m ∧
    b.records P d m = some bm

/-- Block `k` of the file holds `buf`, and the blockmap and the size are right for it. -/
structure Placed (P : Platform) (b : Backend) (d : Bytes) (flushes : List (List BufDesc))
    (ino bm : CapsulePDU) (k : Nat) (buf : Bytes) : Prop where
  entry : ∃ name p, (chunks hashLen bm.payloadInTransit)[k]? = some name ∧
    b.records P d name = some p ∧ p.header.msgtype = recordTypeToString .datablock ∧
    p.payloadInTransit = buf
  entries : ∀ K, Written flushes K → (∀ j, Written flushes j → j ≤ K) →
    (chunks hashLen bm.payloadInTransit).length = 1 + K
  isize : k * midBlockSize < ofLe (ino.payloadInTransit.take inodeAesKeyOffset)

def Placement (P : Platform) (b : Backend) (d : Bytes) (flushes : List (List BufDesc)) : Prop :=
  ∀ k desc, newest flushes k = some desc →
    ∃ ino bm, Latest P b d ino bm ∧ Placed P b d flushes ino bm k desc.buf

/-! ## Sets of blocks -/

theorem midBlockSize_pos : 0 < midBlockSize := by decide

theorem newest_isSome {flushes : List (List BufDesc)} {k : Nat} (h : Written flushes k) :
    ∃ desc, newest flushes k = some desc := by
  obtain ⟨desc, hmem, hoff⟩ := h
  apply Option.isSome_iff_exists.mp
  rw [newest, List.find?_isSome]
  exact ⟨desc, hmem, by simpa using hoff⟩

theorem written_of_newest {flushes : List (List BufDesc)} {k : Nat} {desc : BufDesc}
    (h : newest flushes k = some desc) :
    desc ∈ flushes.flatten ∧ desc.fileOffset = k * midBlockSize := by
  have hoff := List.find?_some h
  exact ⟨List.mem_of_find?_eq_some h, by simpa using hoff⟩

/-- The blocks written by conforming flushes are the first `N`, and no flush can name more blocks
than it has descs. -/
theorem Conforms.written_iff {flushes : List (List BufDesc)} (h : Conforms flushes)
    (hne : flushes ≠ []) : ∃ N, 0 < N ∧ N ≤ flushes.flatten.length ∧
      ∀ k, Written flushes k ↔ k < N := by
  classical
  obtain ⟨descs, older, rfl⟩ := List.exists_cons_of_ne_nil hne
  obtain - | ⟨ks, -, hdescs, -, hks, hdown⟩ := h
  set flushes := descs :: older with hfl
  let bound := (flushes.flatten.map BufDesc.fileOffset).sum
  have hsome : ∃ k, ¬ Written flushes k := by
    refine ⟨bound + 1, ?_⟩
    rintro ⟨desc, hmem, hoff⟩
    have hle : desc.fileOffset ≤ bound :=
      List.single_le_sum (by simp) _ (List.mem_map_of_mem hmem)
    have hge : bound + 1 ≤ (bound + 1) * midBlockSize :=
      Nat.le_mul_of_pos_right _ midBlockSize_pos
    omega
  have hiff : ∀ k, Written flushes k ↔ k < Nat.find hsome := by
    intro k
    constructor
    · intro hk
      by_contra hlt
      have hle : Nat.find hsome ≤ k := by omega
      rcases Nat.eq_or_lt_of_le hle with he | hlt'
      · exact Nat.find_spec hsome (by rw [he]; exact hk)
      · exact Nat.find_spec hsome (hdown k hk _ hlt')
    · intro hk
      exact not_not.mp (Nat.find_min hsome hk)
  refine ⟨Nat.find hsome, ?_, ?_, hiff⟩
  · obtain ⟨k, rest, rfl⟩ : ∃ k rest, ks = k :: rest := by
      apply List.exists_cons_of_ne_nil
      rintro rfl
      exact hdescs (by simpa using hks)
    obtain ⟨desc, hmem, hoff⟩ : ∃ desc ∈ descs, desc.fileOffset = k * midBlockSize := by
      have hm : k * midBlockSize ∈ descs.map BufDesc.fileOffset := by rw [hks]; simp
      simpa using hm
    have hk : Written flushes k := ⟨desc, by simp [hfl, hmem], hoff⟩
    have := (hiff k).mp hk
    omega
  · have hsub : (List.range (Nat.find hsome)).map (· * midBlockSize) ⊆
        flushes.flatten.map BufDesc.fileOffset := by
      intro x hx
      obtain ⟨k, hk, rfl⟩ := List.mem_map.mp hx
      obtain ⟨desc, hmem, hoff⟩ := (hiff k).mpr (List.mem_range.mp hk)
      exact List.mem_map.mpr ⟨desc, hmem, hoff⟩
    have hnodup : ((List.range (Nat.find hsome)).map (· * midBlockSize)).Nodup := by
      apply List.nodup_range.map
      intro i j hij
      exact Nat.eq_of_mul_eq_mul_right midBlockSize_pos hij
    have hlen := (hnodup.subperm hsub).length_le
    rwa [List.length_map, List.length_map, List.length_range] at hlen

/-- A single conforming flush is the list of blocks `0`, `1`, and so on. -/
theorem Conforms.offsets {descs : List BufDesc} (h : Conforms [descs]) :
    descs.map BufDesc.fileOffset = (List.range descs.length).map (· * midBlockSize) := by
  obtain ⟨N, -, -, hiff⟩ := h.written_iff (by simp)
  obtain - | ⟨ks, -, -, hsorted, hks, -⟩ := h
  have hmem : ∀ k, k ∈ ks ↔ k < N := by
    intro k
    rw [← hiff k]
    have hoff : Written [descs] k ↔ k * midBlockSize ∈ descs.map BufDesc.fileOffset := by
      simp [Written]
    rw [hoff, hks, List.mem_map]
    constructor
    · exact fun hk => ⟨k, hk, rfl⟩
    · rintro ⟨j, hj, he⟩
      rwa [← Nat.eq_of_mul_eq_mul_right midBlockSize_pos he]
  have hperm : ks.Perm (List.range N) := by
    refine (List.perm_ext_iff_of_nodup (hsorted.imp (fun h => h.ne)) List.nodup_range).mpr ?_
    intro k
    rw [hmem, List.mem_range]
  have hrange : ks = List.range N := by
    refine hperm.eq_of_pairwise ?_ (hsorted.imp le_of_lt) (List.pairwise_lt_range.imp le_of_lt)
    intro a b _ _ hab hba
    omega
  have hlen : descs.length = N := by
    have he := congrArg List.length hks
    simpa [hrange] using he
  rw [hks, hrange, hlen]

theorem conforms_singleton {descs : List BufDesc} (hne : descs ≠ [])
    (h : descs.map BufDesc.fileOffset = (List.range descs.length).map (· * midBlockSize)) :
    Conforms [descs] := by
  have hiff : ∀ k, Written [descs] k ↔ k < descs.length := by
    intro k
    have hoff : Written [descs] k ↔ k * midBlockSize ∈ descs.map BufDesc.fileOffset := by
      simp [Written]
    rw [hoff, h, List.mem_map]
    constructor
    · rintro ⟨j, hj, he⟩
      rw [← Nat.eq_of_mul_eq_mul_right midBlockSize_pos he]
      exact List.mem_range.mp hj
    · exact fun hk => ⟨k, List.mem_range.mpr hk, rfl⟩
  refine .cons _ .nil hne List.pairwise_lt_range h ?_
  intro k hk j hj
  rw [hiff] at hk ⊢
  omega

theorem Conforms.nonempty {flushes : List (List BufDesc)} (h : Conforms flushes) :
    ∀ descs ∈ flushes, descs ≠ [] := by
  induction h with
  | nil => simp
  | cons ks hold hne _ _ _ ih =>
      intro descs' hmem
      rcases List.mem_cons.mp hmem with rfl | hmem
      · exact hne
      · exact ih descs' hmem

/-! ## The latest records of a history -/

section History

variable {P : Platform} {b : Backend} {d : Bytes} {c : Commit} {cs : List Commit}

theorem Linked.latest (h : Linked P d b (c :: cs)) (hindex : b.index d = some (c.inode.name P))
    {ino bm : CapsulePDU} :
    Latest P b d ino bm ↔ ino = c.inode.pdu P ∧ bm = c.blockmap.pdu P := by
  have hino := (h.2.2 c.inode (by simp [Commit.drafts])).record
  have hbm := (h.2.2 c.blockmap (by simp [Commit.drafts])).record
  have hprev : prev1 (c.inode.pdu P) = some (c.blockmap.name P) := by
    simp [prev1, Draft.pdu, Draft.header, h.2.1.inode.prev]
  constructor
  · rintro ⟨n, m, hn, hi, hm, hb⟩
    rw [hindex, Option.some.injEq] at hn
    subst hn
    rw [hino, Option.some.injEq] at hi
    subst hi
    rw [hprev, Option.some.injEq] at hm
    subst hm
    rw [hbm, Option.some.injEq] at hb
    exact ⟨rfl, hb.symm⟩
  · rintro ⟨rfl, rfl⟩
    exact ⟨_, _, hindex, hino, hprev, hbm⟩

theorem CommitOk.entries (hP : P.Lawful) (h : CommitOk P d cs c) :
    chunks hashLen (c.blockmap.pdu P).payloadInTransit = blockNames P (c :: cs) := by
  simp only [Draft.pdu, h.blockmap.payload, Option.getD_some]
  exact chunks_flatten (by decide) _ (length_of_mem_names hP c.data)

theorem Linked.length_blockNames {hist : List Commit} (h : Linked P d b hist) :
    (blockNames P hist).length = (hist.map Commit.descs).flatten.length := by
  induction hist with
  | nil => rfl
  | cons c cs ih =>
      have hlen := h.2.1.data.length
      rw [blockNames, List.length_append, ih h.1, List.length_map, hlen]
      simp only [List.map_cons, List.flatten_cons, List.length_append]
      omega

/-- The recorded size covers the last of `N` blocks only if this flush wrote them all. -/
theorem le_of_lt_committedSize {descs : List BufDesc} {N : Nat}
    (h : (N - 1) * midBlockSize < committedSize descs) : N ≤ descs.length := by
  have hle : committedSize descs ≤ descs.length * defaultBlockSizeInKb * 1024 := Nat.mod_le _ _
  have hmid : midBlockSize = 16384 := rfl
  have hkb : defaultBlockSizeInKb = 16 := rfl
  rw [hkb] at hle
  rw [hmid] at h
  omega

theorem lt_of_lt_committedSize {descs : List BufDesc}
    (h : (descs.length - 1) * midBlockSize < committedSize descs) : descs.length < 2 ^ 50 := by
  have hkb : defaultBlockSizeInKb = 16 := rfl
  have hmid : midBlockSize = 16384 := rfl
  unfold committedSize u64 at h
  rw [hkb, hmid] at h
  omega

theorem getElem?_newest {descs : List BufDesc} (h : Conforms [descs]) {k : Nat} {desc : BufDesc}
    (hk : newest [descs] k = some desc) : descs[k]? = some desc := by
  obtain ⟨hmem, hoff⟩ := written_of_newest hk
  rw [List.flatten_singleton] at hmem
  obtain ⟨i, hi⟩ := List.mem_iff_getElem?.mp hmem
  have hmap := congrArg (·[i]?) h.offsets
  simp only [List.getElem?_map, hi, Option.map_some, hoff] at hmap
  obtain ⟨hlt, -⟩ := List.getElem?_eq_some_iff.mp hi
  rw [List.getElem?_range hlt, Option.map_some, Option.some.injEq] at hmap
  rw [Nat.eq_of_mul_eq_mul_right midBlockSize_pos hmap]
  exact hi

theorem Linked.entry_first (h : Linked P d b [c]) {k : Nat} {desc : BufDesc}
    (hk : c.descs[k]? = some desc) : ∃ name p, (blockNames P [c])[k]? = some name ∧
      b.records P d name = some p ∧ p.header.msgtype = recordTypeToString .datablock ∧
      p.payloadInTransit = desc.buf := by
  obtain ⟨r, hmem, hholds, hentry, hrp⟩ := h.exists_entry_first hk
  refine ⟨r.name P, _, hentry, hholds.record, ?_, ?_⟩
  · simp only [Draft.pdu, Draft.header, h.2.1.data.type r hmem]
  · simp only [Draft.pdu, hrp, Option.getD_some]

end History

/-! ## The theorem -/

section Main

variable {P : Platform} {run : List Event} {d : Bytes}

/-- The blocks of a file are where they should be exactly as long as it has been flushed at most once,
with fewer than `2 ^ 50` blocks. -/
theorem placement_iff (hP : P.Lawful) (hrun : ProperRun P run)
    (hd : (createdNames run).count d = 1)
    (hconf : Conforms ((succeeded d run).map Event.descs)) :
    Placement P (current run) d ((succeeded d run).map Event.descs) ↔
      (succeeded d run).length ≤ 1 ∧ ((succeeded d run).flatMap Event.descs).length < 2 ^ 50 := by
  obtain ⟨hist, hindex, hl, ht⟩ := (hrun.inv hP).tracks hd
  have htotal : (succeeded d run).flatMap Event.descs = (hist.map Commit.descs).flatten := by
    rw [← ht.descs, List.flatMap_def]
  rw [ht.length, htotal]
  rw [ht.descs] at hconf ⊢
  cases hist with
  | nil => exact ⟨fun _ => ⟨by simp, by simp⟩, fun _ k desc hk => by simp [newest] at hk⟩
  | cons c cs =>
      constructor
      · intro hplace
        obtain ⟨N, hpos, -, hiff⟩ := hconf.written_iff (by simp)
        have hlast : Written ((c :: cs).map Commit.descs) (N - 1) := (hiff _).mpr (by omega)
        obtain ⟨desc, hdesc⟩ := newest_isSome hlast
        obtain ⟨ino, bm, hlatest, hpl⟩ := hplace _ desc hdesc
        obtain ⟨rfl, rfl⟩ := (hl.latest hindex).mp hlatest
        have hentries := hpl.entries _ hlast (fun j hj => by have := (hiff j).mp hj; omega)
        have hsize := hpl.isize
        rw [hl.2.1.entries hP, hl.length_blockNames] at hentries
        rw [hl.2.1.isize] at hsize
        have hle := le_of_lt_committedSize hsize
        simp only [List.map_cons, List.flatten_cons, List.length_append] at hentries
        have hcs : cs = [] := by
          cases cs with
          | nil => rfl
          | cons c' cs' =>
              have hne := hconf.nonempty c'.descs (by simp)
              have hpos' := List.length_pos_iff.mpr hne
              simp only [List.map_cons, List.flatten_cons, List.length_append] at hentries
              omega
        subst hcs
        have hN : N = c.descs.length := by
          simp only [List.map_nil, List.flatten_nil, List.length_nil] at hentries
          omega
        rw [hN] at hsize
        have hlt := lt_of_lt_committedSize hsize
        exact ⟨by simp, by simpa using hlt⟩
      · rintro ⟨hone, hlt⟩ k desc hk
        have hcs : cs = [] := by
          rw [List.length_cons] at hone
          exact List.length_eq_zero_iff.mp (by omega)
        subst hcs
        simp only [List.map_cons, List.map_nil] at hk hconf ⊢
        rw [List.map_cons, List.map_nil, List.flatten_singleton] at hlt
        have hget := getElem?_newest hconf hk
        obtain ⟨hklt, -⟩ := List.getElem?_eq_some_iff.mp hget
        refine ⟨_, _, (hl.latest hindex).mpr ⟨rfl, rfl⟩, ?_⟩
        constructor
        · rw [hl.2.1.entries hP]
          exact hl.entry_first hget
        · intro K hK hmax
          obtain ⟨N, hpos, hN, hiff⟩ := hconf.written_iff (by simp)
          rw [hl.2.1.entries hP, hl.length_blockNames]
          have hKN := (hiff K).mp hK
          have hNK := hmax (N - 1) ((hiff _).mpr (by omega))
          have hlen : c.descs.length ≤ N := by
            have hmem : Written [c.descs] (c.descs.length - 1) := by
              have hoff := congrArg (·[c.descs.length - 1]?) hconf.offsets
              simp only [List.getElem?_map, List.getElem?_range (by omega :
                c.descs.length - 1 < c.descs.length), Option.map_some,
                Option.map_eq_some_iff] at hoff
              obtain ⟨desc', hd', ho'⟩ := hoff
              exact ⟨desc', by simpa using List.mem_of_getElem? hd', ho'⟩
            have := (hiff _).mp hmem
            omega
          simp only [List.flatten_singleton] at hN
          simp only [List.map_cons, List.map_nil, List.flatten_singleton]
          omega
        · rw [hl.2.1.isize, committedSize_eq hlt]
          exact Nat.mul_lt_mul_of_pos_right hklt midBlockSize_pos

end Main

section Instances

open Reference

def flushedOnce : List Event :=
  replay platform [(.signed platform (fileAt 5) [⟨[1], 0⟩, ⟨[2], midBlockSize⟩] [] zeroKey,
    { clock := [6, 7, 8, 9] }), (.createNew, { clock := [5] })]

theorem flushedOnce_descs : (succeeded (fileAt 5) flushedOnce).map Event.descs =
    [[⟨[1], 0⟩, ⟨[2], midBlockSize⟩]] := by decide +kernel

theorem flushedOnce_conforms :
    Conforms ((succeeded (fileAt 5) flushedOnce).map Event.descs) := by
  rw [flushedOnce_descs]
  exact conforms_singleton (by simp) (by decide)

theorem placement_flushedOnce : Placement platform (current flushedOnce) (fileAt 5)
    ((succeeded (fileAt 5) flushedOnce).map Event.descs) := by
  have hproper : ProperRun platform flushedOnce := properRun_replay _ (by decide +kernel)
  have hiff := placement_iff (d := fileAt 5) lawful hproper (by decide +kernel) flushedOnce_conforms
  have hone : (succeeded (fileAt 5) flushedOnce).length = 1 := by
    rw [← List.length_map Event.descs, flushedOnce_descs]
    rfl
  have hblocks : ((succeeded (fileAt 5) flushedOnce).flatMap Event.descs).length = 2 := by
    rw [List.flatMap_def, flushedOnce_descs]
    rfl
  exact hiff.mpr ⟨hone.le, by omega⟩

/-- A file flushed twice, with its only block both times. -/
def flushedTwice : List Event :=
  let first := [(Request.signed platform (fileAt 5) [⟨[1], 0⟩] [] zeroKey, { clock := [6, 7, 8] }),
    (.createNew, { clock := [5] })]
  let n := ((current (replay platform first)).index (fileAt 5)).getD []
  replay platform ((.signed platform (fileAt 5) [⟨[2], 0⟩] n zeroKey, { clock := [9, 10, 11] }) ::
    first)

theorem written_flushedTwice {k : Nat} : Written [[⟨[2], 0⟩], [⟨[1], 0⟩]] k ↔ k = 0 := by
  have hmid : midBlockSize ≠ 0 := by decide
  simp [Written, hmid, eq_comm]

/-- What the run leaves: two successful flushes, and a blockmap with two entries. -/
theorem flushedTwice_leaves : (createdNames flushedTwice).count (fileAt 5) = 1 ∧
    (succeeded (fileAt 5) flushedTwice).map Event.descs = [[⟨[2], 0⟩], [⟨[1], 0⟩]] ∧
    ((((current flushedTwice).index (fileAt 5)).bind
      ((current flushedTwice).records platform (fileAt 5))).bind prev1).bind
        (fun m => ((current flushedTwice).records platform (fileAt 5) m).map
          (fun p => (chunks hashLen p.payloadInTransit).length)) = some 2 := by decide +kernel

/-- The second flush of a block leaves two entries in the blockmap of a file of one block. -/
theorem placement_flushedTwice : ProperRun platform flushedTwice ∧
    (createdNames flushedTwice).count (fileAt 5) = 1 ∧
    Conforms ((succeeded (fileAt 5) flushedTwice).map Event.descs) ∧
    ¬ Placement platform (current flushedTwice) (fileAt 5)
      ((succeeded (fileAt 5) flushedTwice).map Event.descs) := by
  have hproper : ProperRun platform flushedTwice := properRun_replay _ (by decide +kernel)
  obtain ⟨hcount, hdescs, htwo⟩ := flushedTwice_leaves
  refine ⟨hproper, hcount, ?_, ?_⟩
  · rw [hdescs]
    refine .cons [0] (conforms_singleton (by simp) (by decide)) (by simp) (by simp) rfl ?_
    intro k hk j hj
    rw [written_flushedTwice] at hk
    omega
  · rw [hdescs]
    intro h
    obtain ⟨ino, bm, ⟨n, m, hn, hino, hm, hbm⟩, hpl⟩ := h 0 ⟨[2], 0⟩ (by decide)
    have hentries := hpl.entries 0 (written_flushedTwice.mpr rfl)
      (fun j hj => (written_flushedTwice.mp hj).le)
    simp only [hn, hino, hm, hbm, Option.bind_some, Option.map_some, Option.some.injEq] at htwo
    exact absurd (htwo.symm.trans hentries) (by decide)

end Instances

end DcfsClient
