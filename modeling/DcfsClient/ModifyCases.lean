import DcfsClient.History

/-!
# The cases of `CreateNew` and `Modify`

One rule for each phase of `Modify`, and from them the cases of the whole call on a linked file:
refused without effect, stuck with some grounded records stored, or committed.
-/

namespace DcfsClient

open Backend

section Phases

variable {P : Platform} {b : Backend} {d : Bytes} {hist : List Commit}

/-- `inode_record` after the re-read of a file with this history. -/
def workingInode (P : Platform) (aesKey : Bytes) : List Commit → InodeRecord
  | [] => { key := aesKey.take aesKeyLen }
  | c :: _ => { blockmapHash := c.blockmap.name P, key := rewrapKey P c.key }

/-- `blockmap_record` after the re-read of a file with this history. -/
def workingBlockmap (P : Platform) (d : Bytes) : List Commit → BlockMapRecord
  | [] => {}
  | c :: cs => { dataHashes := blockNames P (c :: cs),
                 hashToLatestDataBlock := latestData P d (c :: cs) }

theorem workingInode_key_le (aesKey : Bytes) : (workingInode P aesKey hist).key.length ≤ aesKeyLen := by
  cases hist <;> exact List.length_take_le _ _

theorem workingInode_isize (aesKey : Bytes) : (workingInode P aesKey hist).isize = 0 := by
  cases hist <;> rfl

/-- The bytes read under the name of a held draft parse to it. -/
theorem Backend.Holds.parse_slot {r : Draft} {slot : Slot} (h : b.Holds P d r)
    (hs : b.store d (r.name P) = some slot) : P.parse slot.bytes = r.pdu P := by
  have hrec := h.record
  unfold Backend.records at hrec
  rw [hs] at hrec
  cases slot with
  | whole c => exact Option.some.inj hrec
  | torn c => cases hrec

theorem wp_readCurrent (hP : P.Lawful) (hl : Linked P d b hist) (aesKey : Bytes) :
    Exec.wp (DCFSMidSim.readCurrent P d (headName P hist) aesKey)
      (fun out b' => out = (workingInode P aesKey hist, workingBlockmap P d hist) ∧ b.Same b')
      (fun _ b' => b.Same b') b := by
  cases hist with
  | nil =>
      simp only [DCFSMidSim.readCurrent, headName, ne_eq, not_true_eq_false, if_false, Exec.wp_pure]
      exact ⟨rfl, Same.refl b⟩
  | cons c cs =>
      obtain ⟨-, hc, hall⟩ := hl
      have hinode := hall c.inode (by simp [Commit.drafts])
      have hblockmap := hall c.blockmap (by simp [Commit.drafts])
      have hne : c.inode.name P ≠ [] := c.inode.name_ne_nil hP
      simp only [DCFSMidSim.readCurrent, headName, ne_eq, hne, not_false_eq_true, if_true,
        Exec.wp_bind, Exec.wp_orAbort, Exec.wp_pure]
      refine Exec.wp_mono (wp_readRecord d _ _) ?_ (fun _ _ he => he)
      rintro _ b₁ ⟨hs₁, -, slot, hslot, rfl⟩
      have hpdu := hinode.parse_slot hslot
      refine ⟨?_, fun _ => hs₁⟩
      intro bmName hbm
      have hbm' : bmName = c.blockmap.name P := by
        rw [hpdu] at hbm
        simpa [Draft.pdu, Draft.header, hc.inode.prev] using hbm.symm
      subst hbm'
      have hkey : ((P.parse slot.bytes).payloadInTransit.drop inodeAesKeyOffset).take aesKeyLen =
          rewrapKey P c.key := by
        rw [hpdu]
        simp only [Draft.pdu, hc.inode.payload, Option.getD_some, rewrapKey]
        rw [List.drop_left' (by simp [inodeAesKeyOffset])]
      refine Exec.wp_mono (wp_readRecord d _ _) ?_ (fun _ _ he => hs₁.trans he)
      rintro _ b₂ ⟨hs₂, -, slot₂, hslot₂, rfl⟩
      rw [hs₁.store] at hslot₂
      have hpdu₂ := hblockmap.parse_slot hslot₂
      refine ⟨?_, fun _ => hs₁.trans hs₂⟩
      intro latest hlatest
      refine ⟨?_, hs₁.trans hs₂⟩
      have hlatest' : latest = latestData P d (c :: cs) := by
        rw [hpdu₂] at hlatest
        simpa [Draft.pdu, Draft.header, hc.blockmap.prev, latestData] using hlatest.symm
      have hnames : chunks hashLen (P.parse slot₂.bytes).payloadInTransit =
          blockNames P (c :: cs) := by
        rw [hpdu₂]
        simp only [Draft.pdu, hc.blockmap.payload, Option.getD_some]
        exact chunks_flatten (by decide) _ (length_of_mem_names hP c.data)
      rw [hkey, hnames, hlatest']
      rfl

def startOf (dcname latest prev : Bytes) : Bytes :=
  if prev = [] then (if latest ≠ [] then latest else dcname) else prev

theorem startOf_history (hP : P.Lawful) (hl : Linked P d b hist) :
    startOf d (workingBlockmap P d hist).hashToLatestDataBlock [] = latestData P d hist := by
  cases hist with
  | nil => rfl
  | cons c cs =>
      have hne := latestData_ne_nil hP hl.2.1
      simp [startOf, workingBlockmap, hne]

/-- Everything a loop over descs can do, whatever the clock and the faults. -/
theorem wp_pushDataBlocks (hP : P.Lawful) (latest prev : Bytes) (descs : List BufDesc) :
    Exec.wp (DCFSMidSim.pushDataBlocks P d latest prev descs)
      (fun out b' => ∃ rs, DataRun P (startOf d latest prev) descs rs ∧ Pushes P d b rs b' ∧
        out = (descs.map BufDesc.fileOffset).zip (rs.map (·.name P)))
      (fun _ b' => ∃ descs' rs, DataRun P (startOf d latest prev) descs' rs ∧ Stuck P d b rs b')
      b := by
  induction descs generalizing prev b with
  | nil =>
      simp only [DCFSMidSim.pushDataBlocks, Exec.wp_pure]
      exact ⟨[], trivial, .nil (Same.refl b), rfl⟩
  | cons desc descs ih =>
      simp only [DCFSMidSim.pushDataBlocks, Exec.wp_bind]
      have hstart : (if prev = [] then (if latest ≠ [] then latest else d) else prev) =
          startOf d latest prev := rfl
      rw [hstart]
      apply Exec.wp_mono (wp_pushRecord _ _ _)
      · rintro _ b₁ ⟨t, rfl, hpush⟩
        let r : Draft := ⟨.datablock, [startOf d latest prev], some desc.buf, t⟩
        change Pushed P d r b b₁ at hpush
        simp only [Exec.wp_pure]
        have hnext : startOf d latest (r.name P) = r.name P := if_neg (r.name_ne_nil hP)
        apply Exec.wp_mono (ih (r.name P))
        · rintro _ b' ⟨rs, hrun, hpushes, rfl⟩
          rw [hnext] at hrun
          exact ⟨r :: rs, ⟨rfl, rfl, rfl, hrun⟩, .cons hpush hpushes, rfl⟩
        · rintro _ b' ⟨descs', rs, hrun, b₂, hpushes, hlast⟩
          rw [hnext] at hrun
          exact ⟨desc :: descs', r :: rs, ⟨rfl, rfl, rfl, hrun⟩, b₂, .cons hpush hpushes, hlast⟩
      · rintro _ b' ⟨t, hpush | hdrop⟩
        · exact ⟨[desc], [_], ⟨rfl, rfl, rfl, trivial⟩, b', .cons hpush (.nil (Same.refl b')),
            Or.inl (Same.refl b')⟩
        · exact ⟨[], [], trivial, b, .nil (Same.refl b), Or.inr ⟨_, hdrop⟩⟩

/-- The working copy's `isize` is `0`, so every block is appended. -/
theorem foldlM_placeBlock (hs : List Bytes) (blocks : List (Nat × Bytes)) :
    blocks.foldlM (DCFSMidSim.placeBlock 0) hs = some (hs ++ blocks.map Prod.snd) := by
  induction blocks generalizing hs with
  | nil => simp
  | cons block blocks ih =>
      simp only [List.foldlM_cons, DCFSMidSim.placeBlock, Nat.not_lt_zero, if_false,
        Option.bind_eq_bind, Option.bind_some, ih, List.map_cons, List.append_assoc,
        List.singleton_append]

theorem flatMap_take_of_length {hs : List Bytes} (h : ∀ x ∈ hs, x.length = hashLen) :
    hs.flatMap (·.take hashLen) = hs.flatten := by
  induction hs with
  | nil => rfl
  | cons x hs ih =>
      have hx : x.take hashLen = x := List.take_of_length_le (by rw [h x (by simp)])
      simp [hx, ih (fun y hy => h y (by simp [hy]))]

theorem getLast?_zip_names {P : Platform} {descs : List BufDesc} {rs : List Draft}
    (hlen : rs.length = descs.length) (x : Nat × Bytes)
    (hx : ((descs.map BufDesc.fileOffset).zip (rs.map (·.name P))).getLast? = some x)
    (start : Bytes) : x.2 = lastName P start rs := by
  have hsnd : ((descs.map BufDesc.fileOffset).zip (rs.map (·.name P))).map Prod.snd =
      rs.map (·.name P) := List.map_snd_zip (by simp [hlen])
  have hl : (rs.map (·.name P)).getLast? = some x.2 := by
    rw [← hsnd, List.getLast?_map, hx]
    rfl
  rw [List.getLast?_map] at hl
  unfold lastName
  cases hr : rs.getLast? with
  | none => simp [hr] at hl
  | some r => simpa [hr] using hl.symm

theorem wp_pushBlockmap (hP : P.Lawful) (hl : Linked P d b hist) (aesKey : Bytes)
    {descs : List BufDesc} {rs : List Draft} (hlen : rs.length = descs.length) {b₁ : Backend} :
    Exec.wp (DCFSMidSim.pushBlockmap P d (workingInode P aesKey hist) (workingBlockmap P d hist)
        ((descs.map BufDesc.fileOffset).zip (rs.map (·.name P))))
      (fun name b' => ∃ r, name = r.name P ∧ BlockmapOk P d hist rs r ∧ rs ≠ [] ∧ Pushed P d r b₁ b')
      (fun _ b' => b₁.Same b' ∨ ∃ r, BlockmapOk P d hist rs r ∧ rs ≠ [] ∧
        (Pushed P d r b₁ b' ∨ Dropped P d r b₁ b')) b₁ := by
  have hprev : (if (workingInode P aesKey hist).blockmapHash ≠ [] then
      (workingInode P aesKey hist).blockmapHash else d) = latestBlockmap P d hist := by
    cases hist with
    | nil => rfl
    | cons c cs => exact if_pos (c.blockmap.name_ne_nil hP)
  have hdata : (workingBlockmap P d hist).dataHashes = blockNames P hist := by cases hist <;> rfl
  have hsnd : ((descs.map BufDesc.fileOffset).zip (rs.map (·.name P))).map Prod.snd =
      rs.map (·.name P) := List.map_snd_zip (by simp [hlen])
  simp only [DCFSMidSim.pushBlockmap, Exec.wp_bind, Exec.wp_orAbort, workingInode_isize,
    foldlM_placeBlock, hsnd, hprev, hdata]
  refine ⟨?_, fun _ => Or.inl (Same.refl b₁)⟩
  intro latest hlatest
  have hname := getLast?_zip_names hlen latest hlatest d
  have hne : rs ≠ [] := by rintro rfl; simp at hlatest
  refine ⟨?_, fun hn => by cases hn⟩
  intro names hnames
  rw [Option.some.injEq] at hnames
  subst hnames
  rw [flatMap_take_of_length (length_of_mem_names hP rs), hname]
  apply Exec.wp_mono (wp_pushRecord _ _ _)
  · rintro _ b' ⟨t, rfl, hpush⟩
    exact ⟨_, rfl, ⟨rfl, rfl, rfl⟩, hne, hpush⟩
  · rintro _ b' ⟨t, hpush⟩
    exact Or.inr ⟨_, ⟨rfl, rfl, rfl⟩, hne, hpush⟩

theorem wp_pushInode (hP : P.Lawful) (aesKey : Bytes) (bm : Draft)
    (descs : List BufDesc) {b₁ : Backend} :
    Exec.wp (DCFSMidSim.pushInode P d (headName P hist) (workingInode P aesKey hist) (bm.name P)
        descs.length)
      (fun name b' => ∃ r, name = r.name P ∧
        InodeOk P d hist bm descs (workingInode P aesKey hist).key r ∧ Pushed P d r b₁ b')
      (fun _ b' => b₁.Same b' ∨ ∃ r,
        InodeOk P d hist bm descs (workingInode P aesKey hist).key r ∧
          (Pushed P d r b₁ b' ∨ Dropped P d r b₁ b')) b₁ := by
  have hprev : (if headName P hist ≠ [] then headName P hist else d) = latestInode P d hist := by
    cases hist with
    | nil => rfl
    | cons c cs => exact if_pos (c.inode.name_ne_nil hP)
  simp only [DCFSMidSim.pushInode, Exec.wp_bind, Exec.wp_check, decide_eq_true_eq, hprev,
    workingInode_isize, Nat.zero_le, if_true]
  refine ⟨?_, fun _ => Or.inl (Same.refl b₁)⟩
  intro hlen
  apply Exec.wp_mono (wp_pushRecord _ _ _)
  · rintro _ b' ⟨t, rfl, hpush⟩
    exact ⟨_, rfl, ⟨rfl, rfl, rfl, hlen⟩, hpush⟩
  · rintro _ b' ⟨t, hpush⟩
    exact Or.inr ⟨_, ⟨rfl, rfl, rfl, hlen⟩, hpush⟩

end Phases

/-! ## The whole call -/

section Whole

variable {P : Platform} {b : Backend} {d : Bytes} {hist : List Commit}

structure Backend.Commits (P : Platform) (d : Bytes) (hist : List Commit) (c : Commit)
    (b b' : Backend) : Prop where
  ok : CommitOk P d hist c
  pushes : ∃ b₁, Pushes P d b c.drafts b₁ ∧ b'.store = b₁.store ∧ b'.hashed = b₁.hashed
  index : b'.index = Function.update b.index d (some (c.inode.name P))

/-- An unsuccessful `Modify` on a linked file: some records may have been added, the index is as it
was. -/
def Backend.Leaves (P : Platform) (d : Bytes) (b b' : Backend) : Prop :=
  ∃ rs, Grounded P (fun x => ∃ w, b.records P d x = some w) rs ∧ Stuck P d b rs b'

theorem Backend.Same.leaves {b b' : Backend} (h : b.Same b') : Leaves P d b b' :=
  ⟨[], trivial, b, .nil (Same.refl b), Or.inl h⟩

theorem indexAt_of_some {current : Bytes} (hd : b.index d = some current)
    {Q : Bytes → Backend → Prop} {E : Exit ErrT Abort → Backend → Prop} :
    Exec.wp (indexAt d) Q E b ↔ Q current b := by
  simp only [indexAt, Exec.wp_modifyGet, hd]

/-- A request based on another inode than the indexed one changes nothing. -/
theorem wp_modify_stale {current inodeHash : Bytes} (hd : b.index d = some current)
    (hstale : inodeHash ≠ current) (descs : List BufDesc) (aesKey sig : Bytes) :
    Exec.wp (DCFSMidSim.modify P d descs inodeHash aesKey sig) (fun _ _ => False)
      (fun e b' => (∃ code, e = .err code) ∧ b' = b) b := by
  simp only [DCFSMidSim.modify, Exec.wp_bind, Exec.wp_failIf, indexAt_of_some hd]
  refine ⟨fun _ => ⟨⟨_, rfl⟩, trivial⟩, fun _ => ⟨fun _ => ⟨⟨_, rfl⟩, trivial⟩, fun h => ?_⟩⟩
  simp [hstale] at h

/-- What a `Modify` on a linked file can do. -/
theorem wp_modify (hP : P.Lawful) (hd : b.index d = some (headName P hist))
    (hl : Linked P d b hist) (descs : List BufDesc) (inodeHash aesKey sig : Bytes) :
    Exec.wp (DCFSMidSim.modify P d descs inodeHash aesKey sig)
      (fun _ b' => inodeHash = headName P hist ∧ ∃ c : Commit, c.descs = descs ∧
        c.key = (workingInode P aesKey hist).key ∧ Commits P d hist c b b')
      (fun _ b' => Leaves P d b b') b := by
  by_cases hstale : inodeHash = headName P hist
  swap
  · refine Exec.wp_mono (wp_modify_stale hd hstale descs aesKey sig) (fun _ _ h => h.elim) ?_
    rintro _ b' ⟨-, rfl⟩
    exact (Same.refl b').leaves
  simp only [DCFSMidSim.modify, Exec.wp_bind, Exec.wp_failIf, indexAt_of_some hd, Exec.wp_get, hd,
    hstale]
  refine ⟨fun _ => (Same.refl b).leaves, fun _ => ⟨fun h => by simp at h, fun _ =>
    ⟨fun h => by simp at h, fun _ => ?_⟩⟩⟩
  refine Exec.wp_mono (wp_readCurrent hP hl aesKey) ?_ (fun _ _ h => h.leaves)
  rintro _ b₀ ⟨rfl, hs₀⟩
  apply Exec.wp_mono (wp_pushDataBlocks hP _ _ _)
  swap
  · rintro _ b' ⟨descs', rs, hrun, b₁, hpush, hlast⟩
    rw [startOf_history hP hl] at hrun
    exact ⟨rs, hrun.grounded hl.stored_latestData, b₁, hpush.same_left hs₀, hlast⟩
  rintro _ b₁ ⟨rs, hrun, hpush₁, rfl⟩
  rw [startOf_history hP hl] at hrun
  have hpush₁ := hpush₁.same_left hs₀
  apply Exec.wp_mono (wp_pushBlockmap hP hl aesKey hrun.length)
  swap
  · rintro _ b' (hs | ⟨bm, hbm, hne, hlast⟩)
    · exact ⟨rs, hrun.grounded hl.stored_latestData, b₁, hpush₁, Or.inl hs⟩
    · rcases hlast with hpush | hdrop
      · exact ⟨rs ++ [bm], hbm.grounded hP hl hrun hne, b',
          hpush₁.append (.cons hpush (.nil (Same.refl b'))), Or.inl (Same.refl b')⟩
      · exact ⟨rs, hrun.grounded hl.stored_latestData, b₁, hpush₁, Or.inr ⟨bm, hdrop⟩⟩
  rintro _ b₂ ⟨bm, rfl, hbm, hne, hpush₂⟩
  have hpush₂ := hpush₁.append (.cons hpush₂ (.nil (Same.refl b₂)))
  have hdescs : descs ≠ [] := by
    rintro rfl
    exact hne (List.length_eq_zero_iff.mp hrun.length)
  have hcommit : ∀ ino, InodeOk P d hist bm descs (workingInode P aesKey hist).key ino →
      CommitOk P d hist ⟨descs, rs, bm, ino, (workingInode P aesKey hist).key⟩ :=
    fun ino hino => ⟨hdescs, hrun, hbm, hino, by rintro c₀ cs₀ rfl; rfl, workingInode_key_le aesKey⟩
  apply Exec.wp_mono (wp_pushInode hP aesKey bm descs)
  swap
  · rintro _ b' (hs | ⟨ino, hino, hlast⟩)
    · exact ⟨rs ++ [bm], hbm.grounded hP hl hrun hne, b₂, hpush₂, Or.inl hs⟩
    · rcases hlast with hpush | hdrop
      · exact ⟨_, (hcommit ino hino).grounded hP hl, b', by
          simpa [Commit.drafts] using hpush₂.append (.cons hpush (.nil (Same.refl b'))),
          Or.inl (Same.refl b')⟩
      · exact ⟨rs ++ [bm], hbm.grounded hP hl hrun hne, b₂, hpush₂, Or.inr ⟨ino, hdrop⟩⟩
  rintro _ b₃ ⟨ino, rfl, hino, hpush₃⟩
  have hpush₃ := hpush₂.append (.cons hpush₃ (.nil (Same.refl b₃)))
  simp only [assignIndex, Exec.wp_modify]
  refine ⟨trivial, ⟨descs, rs, bm, ino, _⟩, rfl, rfl, hcommit ino hino,
    ⟨b₃, by simpa [Commit.drafts] using hpush₃, rfl, rfl⟩, ?_⟩
  simp only [setIndex, hpush₃.index]

theorem Backend.Commits.spec (hP : P.Lawful) {c : Commit} {b' : Backend}
    (h : Commits P d hist c b b') (hb : b.Sound P) (hl : Linked P d b hist)
    (hfree : P.CollisionFree b'.hashed) :
    b'.Sound P ∧ b.Grows P b' ∧ Linked P d b' (c :: hist) := by
  obtain ⟨b₁, hpush, hstore, hhashed⟩ := h.pushes
  obtain ⟨hsound, hgrow, hall⟩ := hpush.sound hP hb (by rw [← hhashed]; exact hfree)
    (h.ok.grounded hP hl)
  have hgrow₁ : b₁.Grows P b' := .of_eq hstore hhashed
  exact ⟨hsound.of_eq hstore hhashed, hgrow.trans hgrow₁,
    hl.grows (hgrow.trans hgrow₁), h.ok, fun r hr => (hall r hr).grows hgrow₁⟩

theorem Backend.Leaves.spec (hP : P.Lawful) {b' : Backend} (h : Leaves P d b b')
    (hb : b.Sound P) (hfree : P.CollisionFree b'.hashed) :
    b'.Sound P ∧ b.Grows P b' ∧ b'.index = b.index := by
  obtain ⟨rs, hgr, hstuck⟩ := h
  exact hstuck.sound hP hb hfree hgr

/-- `CreateNew` stores a META record whose only variable part is the clock reading. -/
theorem wp_createNew (b : Backend) :
    let r : Draft := ⟨.capsuleMeta, [], none, b.env.clock.headD 0⟩
    Exec.wp (DCFSMidSim.createNew P)
      (fun out b' => out = (r.name P, Mem.bytesAt b.env.aesKey 0 aesKeyLen) ∧
        ∃ b₁, Pushed P (r.name P) r b b₁ ∧ b'.store = b₁.store ∧ b'.hashed = b₁.hashed ∧
          b'.index = Function.update b.index (r.name P) (some []))
      (fun _ b' => Pushed P (r.name P) r b b' ∨ Dropped P (r.name P) r b b') b := by
  intro r
  simp only [DCFSMidSim.createNew, Exec.wp_bind]
  refine Exec.wp_mono (wp_composeRecord _ _ _) ?_ (fun _ _ he => he)
  rintro _ b₀ ⟨rfl, hstore, hindex, hhashed, hkey⟩
  change Exec.wp (writeRecord (r.name P) (r.name P) (r.bytes P)) _ _ b₀
  refine Exec.wp_mono (wp_writeComposed r hstore hindex hhashed) ?_ (fun _ _ he => he)
  rintro _ b₁ ⟨hpush, hkey₁⟩
  simp only [assignIndex, Exec.wp_modify, Exec.wp_get, Exec.wp_pure]
  refine ⟨?_, b₁, hpush, rfl, rfl, ?_⟩
  · simp only [setIndex, hkey₁, hkey]
    rfl
  · simp only [setIndex, hpush.index]
    rfl

/-- `CreateNew` on a sound store: the new file has its META record and an empty entry. -/
theorem wp_createNew_sound (hP : P.Lawful) (hb : b.Sound P) :
    let r : Draft := ⟨.capsuleMeta, [], none, b.env.clock.headD 0⟩
    Exec.wp (DCFSMidSim.createNew P)
      (fun out b' => out = (r.name P, Mem.bytesAt b.env.aesKey 0 aesKeyLen) ∧
        b'.index = Function.update b.index (r.name P) (some []) ∧
        (P.CollisionFree b'.hashed → b'.Sound P ∧ b.Grows P b' ∧ b'.Holds P (r.name P) r))
      (fun _ b' => b'.index = b.index ∧
        (P.CollisionFree b'.hashed → b'.Sound P ∧ b.Grows P b')) b := by
  intro r
  have hrefs : ∀ x ∈ pduRefs (r.pdu P), ∃ w, b.records P (r.name P) x = some w := by
    intro x hx
    rw [pduRefs_of_ne_blockmap (by simp [r])] at hx
    cases hx
  have hpushed : ∀ b₁ : Backend, Pushed P (r.name P) r b b₁ → P.CollisionFree b₁.hashed →
      b₁.Sound P ∧ b.Grows P b₁ ∧ b₁.Holds P (r.name P) r := by
    intro b₁ h hf
    have hp := (Pushes.cons h (.nil (Same.refl b₁))).sound hP hb hf ⟨hrefs, trivial⟩
    exact ⟨hp.1, hp.2.1, hp.2.2 r (by simp)⟩
  apply Exec.wp_mono (wp_createNew b)
  · rintro _ b' ⟨rfl, b₁, hpush, hstore, hhashed, hindex⟩
    refine ⟨rfl, hindex, fun hfree => ?_⟩
    obtain ⟨hsound, hgrow, hholds⟩ := hpushed b₁ hpush (by rw [← hhashed]; exact hfree)
    have hg : b₁.Grows P b' := .of_eq hstore hhashed
    exact ⟨hsound.of_eq hstore hhashed, hgrow.trans hg, hholds.grows hg⟩
  · rintro _ b' (hpush | hdrop)
    · refine ⟨hpush.index, fun hfree => ?_⟩
      obtain ⟨hsound, hgrow, -⟩ := hpushed b' hpush hfree
      exact ⟨hsound, hgrow⟩
    · exact ⟨hdrop.index, fun _ => ⟨hdrop.sound hP hb, hdrop.grows⟩⟩

/-- `Modify` on a linked file of a sound store. -/
theorem wp_modify_sound (hP : P.Lawful) (hb : b.Sound P)
    (hd : b.index d = some (headName P hist)) (hl : Linked P d b hist) (descs : List BufDesc)
    (inodeHash aesKey sig : Bytes) :
    Exec.wp (DCFSMidSim.modify P d descs inodeHash aesKey sig)
      (fun _ b' => inodeHash = headName P hist ∧ ∃ c : Commit, c.descs = descs ∧
        c.key = (workingInode P aesKey hist).key ∧
        b'.index = Function.update b.index d (some (c.inode.name P)) ∧
        (P.CollisionFree b'.hashed → b'.Sound P ∧ b.Grows P b' ∧ Linked P d b' (c :: hist)))
      (fun _ b' => P.CollisionFree b'.hashed →
        b'.Sound P ∧ b.Grows P b' ∧ b'.index = b.index) b := by
  apply Exec.wp_mono (wp_modify hP hd hl descs inodeHash aesKey sig)
  · rintro _ b' ⟨hbase, c, hdescs, hkey, hc⟩
    exact ⟨hbase, c, hdescs, hkey, hc.index, fun hfree => hc.spec hP hb hl hfree⟩
  · intro _ b' hleave hfree
    exact hleave.spec hP hb hfree

end Whole

/-! ## What was hashed stays in the log and other capsules stay as they are, whatever the request -/

namespace DCFSMidSim

open Exec

variable (P : Platform)

theorem composeRecord_touches (d : Bytes) (type : RecordType) (hashes : List Bytes)
    (inDesc : Option Bytes) : Moves (Touches d) (composeRecord P type hashes inDesc) := by
  have hpayload : Moves (Touches d) (inDesc.elim (pure zeroString) (hashPart P)) := by
    cases inDesc with
    | none => exact .pure _
    | some c => exact hashPart_touches P c d
  refine .bind hpayload fun _ => .bind (now_touches d) fun _ => ?_
  exact .bind (hashPart_touches P _ d) fun _ => .pure _

theorem pushRecord_touches (d : Bytes) (type : RecordType) (hashes : List Bytes)
    (payload : Bytes) : Moves (Touches d) (pushRecord P d type hashes payload) :=
  .bind (composeRecord_touches P d type hashes (some payload)) fun _ =>
    .bind (writeRecord_touches _ _ _) fun _ => .pure _

/-- The capsule it touches is the one it composes, so only the hashes can be stated beforehand. -/
theorem createNew_remembers : Moves Remembers (createNew P) := by
  have hcompose := composeRecord_touches P [] .capsuleMeta [] none
  refine .bind (hcompose.mono fun _ _ h => h.remembers) fun out => ?_
  refine .bind ((writeRecord_touches out.2 out.2 out.1).mono fun _ _ h => h.remembers) fun _ => ?_
  exact .bind (.modify fun b => b.remembers_setIndex _ _) fun _ => .bind .get fun _ => .pure _

theorem getInodeName_moves (hashname sig : Bytes) : Moves Same (getInodeName P hashname sig) := by
  refine .bind (.failIf _ _) fun _ => .bind .get fun b => ?_
  cases b.index hashname with
  | none => exact .fail _
  | some recordname => exact .pure _

theorem readCurrent_moves (d current aesKey : Bytes) :
    Moves Same (readCurrent P d current aesKey) := by
  refine .ite ?_ (.pure _)
  refine .bind (readRecord_moves _ _ _) fun _ => .bind (.orAbort _ _) fun _ => ?_
  exact .bind (readRecord_moves _ _ _) fun _ => .bind (.orAbort _ _) fun _ => .pure _

theorem pushDataBlocks_touches (d latest prev : Bytes) (descs : List BufDesc) :
    Moves (Touches d) (pushDataBlocks P d latest prev descs) := by
  induction descs generalizing prev with
  | nil => exact .pure _
  | cons desc descs ih =>
      exact .bind (pushRecord_touches P _ _ _ _) fun name => .bind (ih name) fun _ => .pure _

theorem modify_touches (d : Bytes) (descs : List BufDesc) (inodeHash aesKey sig : Bytes) :
    Moves (Touches d) (modify P d descs inodeHash aesKey sig) := by
  have hindex : Moves (Touches d) (indexAt d) := by
    refine .modifyGet fun b => ?_
    cases b.index d with
    | none => exact b.touches_setIndex d []
    | some n => exact refl_of (Touches d) b
  refine .bind (.failIf _ _) fun _ => .bind hindex fun _ => .bind (.failIf _ _) fun _ => ?_
  refine .bind .get fun _ => .bind (.failIf _ _) fun _ => ?_
  refine .bind ((readCurrent_moves P _ _ _).mono fun _ _ h => h.touches d) fun _ => ?_
  refine .bind (pushDataBlocks_touches P _ _ _ _) fun _ => .bind ?_ fun _ => .bind ?_ fun _ => ?_
  · exact .bind (.orAbort _ _) fun _ => .bind (.orAbort _ _) fun _ => pushRecord_touches P _ _ _ _
  · exact .bind (.check _ _) fun _ => pushRecord_touches P _ _ _ _
  · exact .modify fun b => b.touches_setIndex _ _

theorem modify_remembers (d : Bytes) (descs : List BufDesc) (inodeHash aesKey sig : Bytes) :
    Moves Remembers (modify P d descs inodeHash aesKey sig) :=
  (modify_touches P d descs inodeHash aesKey sig).mono fun _ _ h => h.remembers

end DCFSMidSim

/-! ## A `Modify` that meets no failure -/

section Steady

open DCFSMidSim

variable (P : Platform)

theorem composeRecord_steady (type : RecordType) (hashes : List Bytes) (inDesc : Option Bytes) :
    Steady (composeRecord P type hashes inDesc) := by
  have hpayload : Steady (inDesc.elim (pure zeroString) (hashPart P)) := by
    cases inDesc with
    | none => exact .pure _
    | some c => exact .hashPart P c
  exact .bind hpayload fun _ => .bind .now fun _ => .bind (.hashPart P _) fun _ => .pure _

theorem pushRecord_steady (d : Bytes) (type : RecordType) (hashes : List Bytes) (payload : Bytes) :
    Steady (pushRecord P d type hashes payload) :=
  .bind (composeRecord_steady P type hashes (some payload)) fun _ =>
    .bind (.writeRecord _ _ _) fun _ => .pure _

theorem pushDataBlocks_steady (d latest prev : Bytes) (descs : List BufDesc) :
    Steady (pushDataBlocks P d latest prev descs) := by
  induction descs generalizing prev with
  | nil => exact .pure _
  | cons desc descs ih =>
      exact .bind (pushRecord_steady P _ _ _ _) fun name => .bind (ih name) fun _ => .pure _

theorem pushBlockmap_steady (d : Bytes) (inode : InodeRecord) (blockmap : BlockMapRecord)
    (blocks : List (Nat × Bytes)) : Steady (pushBlockmap P d inode blockmap blocks) :=
  .bind (.orAbort _ _) fun _ => .bind (.orAbort _ _) fun _ => pushRecord_steady P _ _ _ _

theorem pushInode_steady (d current : Bytes) (inode : InodeRecord) (bm : Bytes) (count : Nat) :
    Steady (pushInode P d current inode bm count) :=
  .bind (.check _ _) fun _ => pushRecord_steady P _ _ _ _

variable {P} {b : Backend} {d : Bytes} {hist : List Commit}

/-- The records that `Modify` re-reads are there. -/
theorem wp_readCurrent_steady (hP : P.Lawful) (hb : b.Sound P) (hcalm : b.Calm)
    (hl : Linked P d b hist) (aesKey : Bytes) :
    Exec.wp (readCurrent P d (headName P hist) aesKey) (fun _ b' => b'.Calm)
      (fun x _ => ∃ k, x = .abort k) b := by
  cases hist with
  | nil => exact hcalm
  | cons c cs =>
      obtain ⟨-, hc, hall⟩ := hl
      have hinode := hall c.inode (by simp [Commit.drafts])
      have hblockmap := hall c.blockmap (by simp [Commit.drafts])
      have hne : c.inode.name P ≠ [] := c.inode.name_ne_nil hP
      simp only [readCurrent, headName, ne_eq, hne, not_false_eq_true, if_true, Exec.wp_bind,
        Exec.wp_orAbort, Exec.wp_pure]
      refine Exec.wp_mono (wp_readRecord_present hcalm _ (hb.slot hinode)) ?_ (fun _ _ hx => hx)
      rintro out b₁ ⟨hout, hs₁, hcalm₁⟩
      have hpdu : P.parse out = c.inode.pdu P := by
        rw [hout]
        exact hinode.parse_slot (hb.slot hinode)
      refine ⟨?_, fun _ => ⟨_, rfl⟩⟩
      intro bmName hbm
      have hbm' : bmName = c.blockmap.name P := by
        rw [hpdu] at hbm
        simpa [Draft.pdu, Draft.header, hc.inode.prev] using hbm.symm
      have hslot : b₁.store d bmName = some (.whole (c.blockmap.bytes P)) := by
        rw [hbm', hs₁.store]
        exact hb.slot hblockmap
      refine Exec.wp_mono (wp_readRecord_present hcalm₁ _ hslot) ?_ (fun _ _ hx => hx)
      rintro _ b₂ ⟨_, _, hcalm₂⟩
      exact ⟨fun _ _ => hcalm₂, fun _ => ⟨_, rfl⟩⟩

/-- An up-to-date and signed `Modify` is refused only by an assertion. -/
theorem wp_modify_steady (hP : P.Lawful) (hb : b.Sound P) (hcalm : b.Calm)
    (hd : b.index d = some (headName P hist)) (hl : Linked P d b hist) (descs : List BufDesc)
    (aesKey : Bytes) :
    Exec.wp (DCFSMidSim.modify P d descs (headName P hist) aesKey
        (P.sign (P.hash256 (modifyArgs d descs (headName P hist) aesKey))))
      (fun _ b' => b'.Calm) (fun x _ => ∃ k, x = .abort k) b := by
  simp only [DCFSMidSim.modify, Exec.wp_bind, Exec.wp_failIf, indexAt_of_some hd, Exec.wp_get, hd,
    hP.verify_sign]
  refine ⟨fun h => by simp at h, fun _ => ⟨fun h => by simp at h, fun _ =>
    ⟨fun h => by simp at h, fun _ => ?_⟩⟩⟩
  refine Exec.wp_mono (wp_readCurrent_steady hP hb hcalm hl aesKey) ?_ (fun _ _ hx => hx)
  intro current b₀ hc₀
  refine Exec.wp_mono (pushDataBlocks_steady P _ _ _ _ b₀ hc₀) ?_ (fun _ _ hx => hx)
  intro _ b₁ hc₁
  refine Exec.wp_mono (pushBlockmap_steady P _ _ _ _ b₁ hc₁) ?_ (fun _ _ hx => hx)
  intro _ b₂ hc₂
  refine Exec.wp_mono (pushInode_steady P _ _ _ _ _ b₂ hc₂) ?_ (fun _ _ hx => hx)
  intro _ b₃ hc₃
  exact hc₃

theorem wp_pushRecord_calm (hcalm : b.Calm) (type : RecordType) (hashes : List Bytes)
    (payload : Bytes) :
    Exec.wp (pushRecord P d type hashes payload) (fun _ b' => b'.Calm) (fun _ _ => False) b := by
  simp only [pushRecord, composeRecord, Option.elim_some, Exec.wp_bind, hashPart, now,
    Exec.wp_modifyGet, Exec.wp_pure]
  apply wp_writeRecord_calm
  exact hcalm

theorem wp_pushDataBlocks_calm (hcalm : b.Calm) (latest prev : Bytes) (descs : List BufDesc) :
    Exec.wp (pushDataBlocks P d latest prev descs)
      (fun out b' => b'.Calm ∧ out.length = descs.length) (fun _ _ => False) b := by
  induction descs generalizing prev b with
  | nil => exact ⟨hcalm, rfl⟩
  | cons desc descs ih =>
      simp only [pushDataBlocks, Exec.wp_bind]
      refine Exec.wp_mono (wp_pushRecord_calm hcalm _ _ _) ?_ (fun _ _ hf => hf)
      intro name b₁ hcalm₁
      refine Exec.wp_mono (ih hcalm₁ name) ?_ (fun _ _ hf => hf)
      rintro rest b₂ ⟨hcalm₂, hlength⟩
      exact ⟨hcalm₂, congrArg Nat.succ hlength⟩

/-- The first `Modify` of a file has nothing to read, and there is no limit to the number of blocks that it
takes. -/
theorem wp_modify_first_calm (hP : P.Lawful) (hcalm : b.Calm) (hd : b.index d = some [])
    {descs : List BufDesc} (hne : descs ≠ []) {aesKey : Bytes} (hkey : aesKey.length = aesKeyLen) :
    Exec.wp (DCFSMidSim.modify P d descs [] aesKey
        (P.sign (P.hash256 (modifyArgs d descs [] aesKey))))
      (fun _ _ => True) (fun _ _ => False) b := by
  simp only [DCFSMidSim.modify, Exec.wp_bind, Exec.wp_failIf, indexAt_of_some hd, Exec.wp_get, hd,
    hP.verify_sign]
  refine ⟨fun h => by simp at h, fun _ => ⟨fun h => by simp at h, fun _ =>
    ⟨fun h => by simp at h, fun _ => ?_⟩⟩⟩
  simp only [readCurrent, ne_eq, not_true_eq_false, if_false, Exec.wp_pure]
  refine Exec.wp_mono (wp_pushDataBlocks_calm hcalm _ _ descs) ?_ (fun _ _ hf => hf)
  rintro blocks b₁ ⟨hcalm₁, hlength⟩
  have hblocks : blocks ≠ [] := by
    rintro rfl
    exact hne (List.length_eq_zero_iff.mp hlength.symm)
  have hencrypted : (P.encrypt P.symmetricMiddlewareKey (aesKey.take aesKeyLen)).length =
      aesKeyLen + aesPadLen := by
    rw [List.take_of_length_le (le_of_eq hkey),
      hP.encrypt_length _ _ (by rw [hkey]; decide) (by rw [hkey]; rfl), hkey]
  simp only [pushBlockmap, foldlM_placeBlock, Exec.wp_bind, Exec.wp_orAbort]
  refine ⟨?_, fun hnone => hblocks (List.getLast?_eq_none_iff.mp hnone)⟩
  intro latest _
  refine ⟨?_, fun hnone => by cases hnone⟩
  intro names _
  refine Exec.wp_mono (wp_pushRecord_calm hcalm₁ _ _ _) ?_ (fun _ _ hf => hf)
  intro name b₂ hcalm₂
  simp only [pushInode, hencrypted, Exec.wp_bind, Exec.wp_check]
  refine ⟨fun _ => ?_, fun hfalse => by simp at hfalse⟩
  exact Exec.wp_mono (wp_pushRecord_calm hcalm₂ _ _ _) (fun _ _ _ => trivial) (fun _ _ hf => hf)

end Steady

end DcfsClient
