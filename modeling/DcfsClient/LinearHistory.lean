import DcfsClient.MiddlewareRuns
import DcfsClient.Reference

/-!
# One line of history for each file

From the entry of the index, the first previous hash of an inode record leads to the inode record it
was based on, and so back to the META record. The blockmap records and the data records form chains
of the same kind. `LinearHistory` says that these chains are the successful `Modify` calls of the run,
all of them and nothing else.

It holds of every run in which no two files were created at the same clock reading. A META record has
nothing but its clock reading to tell it from another, so `CreateNew` returns the name of an existing
file when the reading repeats, and empties that file's entry.
-/

namespace DcfsClient

open Backend LinkedStore

def chainStart (d n : Bytes) : Bytes := if n = [] then d else n

/-- The three chains of file `d` in the last state of a run: the inode records are those the
successful calls left in the index, the blockmap records are the ones they name, and the data records
carry the bytes of all the descs, last written first. -/
structure FileChains (P : Platform) (run : List Event) (d n : Bytes)
    (inodes blockmaps datas : List Bytes) : Prop where
  stop : ∃ p, (current run).records P d d = some p ∧ prev0 p = none ∧
    p.header.msgtype = recordTypeToString .capsuleMeta
  inode_chain : Follows prev0 ((current run).records P d) d (chainStart d n) inodes
  inodes_eq : inodes.map some = (succeeded d run).map (·.after.index d)
  blockmap_chain : Follows prev0 ((current run).records P d) d (blockmaps.headD d) blockmaps
  blockmaps_eq : blockmaps.map some =
    inodes.map (fun k => ((current run).records P d k).bind prev1)
  data_chain : Follows prev0 ((current run).records P d) d (datas.headD d) datas
  datas_start : datas.head? =
    blockmaps.head?.bind (fun k => ((current run).records P d k).bind prev1)
  datas_eq : datas.map (fun k => ((current run).records P d k).map CapsulePDU.payloadInTransit) =
    ((succeeded d run).flatMap (fun ev => ev.descs.reverse)).map (fun desc => some desc.buf)

structure LinearHistory (P : Platform) (run : List Event) : Prop where
  stale : ∀ ev evs, ev :: evs <:+ run → ∀ d ∈ createdNames evs, ev.target = some d →
    (current evs).index d ≠ some ev.base →
      (∃ e, ev.response = .failed e) ∧ (current evs).Same ev.after
  once : ∀ d ∈ createdNames run, ((succeeded d run).map Event.base).Nodup
  chains : ∀ d ∈ createdNames run, ∃ n inodes blockmaps datas,
    (current run).index d = some n ∧ FileChains P run d n inodes blockmaps datas

section Chains

variable {P : Platform} {b : Backend} {d : Bytes} {hist : List Commit}

theorem Linked.stop (h : Linked P d b hist) : ∃ p, b.records P d d = some p ∧ prev0 p = none ∧
    p.header.msgtype = recordTypeToString .capsuleMeta := by
  obtain ⟨t, hname, hh⟩ := h.meta_holds
  have hrec := hh.record
  rw [hname] at hrec
  exact ⟨_, hrec, rfl, rfl⟩

theorem Linked.inodes (h : Linked P d b hist) :
    Follows prev0 (b.records P d) d (latestInode P d hist) (hist.map (·.inode.name P)) := by
  induction hist with
  | nil => rfl
  | cons c cs ih =>
      have hc := h.2.2 c.inode (by simp [Commit.drafts])
      refine Follows.cons hc.record ?_ (ih h.1)
      simp [prev0, Draft.pdu, Draft.header, h.2.1.inode.prev]

theorem Linked.blockmaps (h : Linked P d b hist) :
    Follows prev0 (b.records P d) d (latestBlockmap P d hist) (hist.map (·.blockmap.name P)) := by
  induction hist with
  | nil => rfl
  | cons c cs ih =>
      have hc := h.2.2 c.blockmap (by simp [Commit.drafts])
      refine Follows.cons hc.record ?_ (ih h.1)
      simp [prev0, Draft.pdu, Draft.header, h.2.1.blockmap.prev]

theorem Linked.blockmap_of_inode (h : Linked P d b hist) :
    (hist.map (·.blockmap.name P)).map some =
      (hist.map (·.inode.name P)).map (fun k => (b.records P d k).bind prev1) := by
  induction hist with
  | nil => rfl
  | cons c cs ih =>
      have hc := (h.2.2 c.inode (by simp [Commit.drafts])).record
      have hprev : prev1 (c.inode.pdu P) = some (c.blockmap.name P) := by
        simp [prev1, Draft.pdu, Draft.header, h.2.1.inode.prev]
      simp only [List.map_cons, ih h.1, hc, Option.bind_some, hprev]

theorem lastName_cons (start : Bytes) (r : Draft) (rs : List Draft) :
    lastName P start (r :: rs) = lastName P (r.name P) rs := by
  unfold lastName
  cases rs with
  | nil => rfl
  | cons r' rs => rw [List.getLast?_cons_of_ne_nil (by simp), List.getLast?_cons]; rfl

/-- A run of data records continues the chain it starts from. -/
theorem DataRun.follows {prev : Bytes} {descs : List BufDesc} {rs : List Draft} {ns : List Bytes}
    (h : DataRun P prev descs rs) (hall : ∀ r ∈ rs, b.Holds P d r)
    (hns : Follows prev0 (b.records P d) d prev ns) :
    Follows prev0 (b.records P d) d (lastName P prev rs) ((rs.map (·.name P)).reverse ++ ns) := by
  induction descs generalizing prev rs ns with
  | nil => cases rs with
    | nil => exact hns
    | cons r rs => exact h.elim
  | cons desc descs ih => cases rs with
    | nil => exact h.elim
    | cons r rs =>
        obtain ⟨-, hprev, -, hrest⟩ := h
        have hr : Follows prev0 (b.records P d) d (r.name P) (r.name P :: ns) := by
          refine Follows.cons (hall r (by simp)).record ?_ hns
          simp [prev0, Draft.pdu, Draft.header, hprev]
        have hstep := ih hrest (fun r' hr' => hall r' (by simp [hr'])) hr
        rw [lastName_cons]
        simpa using hstep

theorem lastName_of_ne_nil {start start' : Bytes} {rs : List Draft} (h : rs ≠ []) :
    lastName P start rs = lastName P start' rs := by
  cases rs with
  | nil => exact absurd rfl h
  | cons r rs => rw [lastName_cons, lastName_cons]

theorem Linked.datas (h : Linked P d b hist) :
    Follows prev0 (b.records P d) d (latestData P d hist) (blockNames P hist).reverse := by
  induction hist with
  | nil => rfl
  | cons c cs ih =>
      have hrun := h.2.1.data.follows (fun r hr => h.2.2 r (by simp [Commit.drafts, hr])) (ih h.1)
      rw [latestData, blockNames, List.reverse_append,
        lastName_of_ne_nil (h.2.1.data.ne_nil h.2.1.descs_ne)]
      exact hrun

theorem Linked.payloads (h : Linked P d b hist) :
    (blockNames P hist).reverse.map (fun k => (b.records P d k).map CapsulePDU.payloadInTransit) =
      (hist.flatMap (fun c => c.descs.reverse)).map (fun desc => some desc.buf) := by
  induction hist with
  | nil => rfl
  | cons c cs ih =>
      have hdata : c.data.map (fun r => (b.records P d (r.name P)).map
          CapsulePDU.payloadInTransit) = c.descs.map (fun desc => some desc.buf) := by
        have hpay := h.2.1.data.payload
        rw [← hpay]
        apply List.map_congr_left
        intro r hr
        obtain ⟨desc, -, hdesc⟩ : ∃ desc ∈ c.descs, some desc.buf = r.payload := by
          have hr' : r.payload ∈ c.data.map Draft.payload := List.mem_map_of_mem hr
          rw [hpay] at hr'
          simpa using hr'
        rw [(h.2.2 r (by simp [Commit.drafts, hr])).record, ← hdesc]
        simp [Draft.pdu, ← hdesc]
      simp only [blockNames, List.reverse_append, List.map_append, List.flatMap_cons, ih h.1,
        List.map_reverse, List.map_map]
      rw [← hdata]
      rfl

theorem headD_map_blockmap (hist : List Commit) :
    (hist.map (·.blockmap.name P)).headD d = latestBlockmap P d hist := by
  cases hist <;> rfl

theorem head?_blockNames (h : Linked P d b hist) : (blockNames P hist).reverse.head? =
    (hist.map (·.blockmap.name P)).head?.bind (fun k => (b.records P d k).bind prev1) := by
  cases hist with
  | nil => rfl
  | cons c cs =>
      have hc := (h.2.2 c.blockmap (by simp [Commit.drafts])).record
      have hne := h.2.1.data.ne_nil h.2.1.descs_ne
      obtain ⟨r, hr⟩ := List.getLast?_isSome.mpr hne |> Option.isSome_iff_exists.mp
      have hlast : lastName P d c.data = r.name P := by simp [lastName, hr]
      simp only [List.map_cons, List.head?_cons, Option.bind_some, hc]
      simp [prev1, Draft.pdu, Draft.header, h.2.1.blockmap.prev, blockNames, hlast, hr]

theorem headD_blockNames (h : Linked P d b hist) :
    (blockNames P hist).reverse.headD d = latestData P d hist := by
  cases hist with
  | nil => rfl
  | cons c cs =>
      have hne := h.2.1.data.ne_nil h.2.1.descs_ne
      obtain ⟨r, hr⟩ := List.getLast?_isSome.mpr hne |> Option.isSome_iff_exists.mp
      simp [blockNames, latestData, lastName, hr]

theorem bases_cons (c : Commit) (cs : List Commit) :
    bases P (c :: cs) = cs.map (·.inode.name P) ++ [[]] := by
  induction cs generalizing c with
  | nil => rfl
  | cons c' cs ih => rw [bases, ih]; rfl

/-- No two commits are based on the same inode record. -/
theorem Linked.bases_nodup (hP : P.Lawful) (h : Linked P d b hist) : (bases P hist).Nodup := by
  cases hist with
  | nil => exact List.nodup_nil
  | cons c cs =>
      obtain ⟨p, hp, hnone, -⟩ := h.stop
      have hstop : ∀ v, b.records P d d = some v → prev0 v = none := by
        intro v hv
        rw [hp, Option.some.injEq] at hv
        rw [← hv]
        exact hnone
      have hnodup := Follows.nodup hstop h.inodes
      rw [List.map_cons, List.nodup_cons] at hnodup
      rw [bases_cons, List.nodup_append]
      refine ⟨hnodup.2, List.nodup_singleton _, ?_⟩
      intro x hx y hy
      obtain ⟨c', -, rfl⟩ := List.mem_map.mp hx
      rw [List.mem_singleton] at hy
      rw [hy]
      exact c'.inode.name_ne_nil hP

end Chains

/-! ## Clock readings and names -/

def metaDraft (t : BitVec 64) : Draft := ⟨.capsuleMeta, [], none, t⟩

def createdClock (ev : Event) : Option (BitVec 64) :=
  match ev.response with
  | .created _ _ => some (ev.env.clock.headD 0)
  | _ => none

def createdClocks (evs : List Event) : List (BitVec 64) := evs.filterMap createdClock

section Clocks

variable {P : Platform} {evs run : List Event} {ev : Event}

/-- A file gets the name of the META record of its clock reading. -/
theorem IsRun.createdName_eq (h : IsRun P (ev :: evs)) :
    createdName ev = (createdClock ev).map (fun t => (metaDraft t).name P) ∧
      ∀ t, createdClock ev = some t → (metaDraft t).strings P ⊆ ev.after.hashed := by
  have ho := h.served
  have hexit : ∀ x, ev.response = .ofExit x →
      createdName ev = none ∧ createdClock ev = none := by
    intro x hx
    cases x <;> simp [createdName, createdClock, hx, Response.ofExit]
  have hother : createdName ev = none ∧ createdClock ev = none →
      createdName ev = (createdClock ev).map (fun t => (metaDraft t).name P) ∧
        ∀ t, createdClock ev = some t → (metaDraft t).strings P ⊆ ev.after.hashed := by
    rintro ⟨hn, ht⟩
    simp [hn, ht]
  cases hreq : ev.request with
  | createNew =>
      rw [hreq] at ho
      have hspec : Exec.wp (Request.createNew.exec P)
          (fun out b' => ∃ key,
            out = .created ((metaDraft (ev.env.clock.headD 0)).name P) key ∧
            (metaDraft (ev.env.clock.headD 0)).strings P ⊆ b'.hashed)
          (fun _ _ => True) { current evs with env := ev.env } := by
        simp only [Request.exec, Exec.wp_bind, Exec.wp_pure]
        refine Exec.wp_mono (wp_createNew _) ?_ (fun _ _ _ => trivial)
        rintro _ b' ⟨rfl, b₁, hpush, -, hhashed, -⟩
        refine ⟨_, rfl, ?_⟩
        rw [hhashed, hpush.hashed]
        exact List.subset_append_left _ _
      rcases serve_spec ho hspec with ⟨key, hresp, hsub⟩ | ⟨x, hresp, -⟩
      · constructor
        · simp [createdName, createdClock, hresp]
        · intro t ht
          simp only [createdClock, hresp, Option.some.injEq] at ht
          rw [← ht]
          exact hsub
      · exact hother (hexit x hresp)
  | getInodeName hashname sig =>
      rw [hreq] at ho
      have hidle := (serve_getInodeName ho).2
      refine hother ⟨createdName_of_isIdle hidle, ?_⟩
      unfold createdClock
      cases hr : ev.response <;> simp_all [Response.isIdle]
  | modify d descs inodeHash aesKey sig =>
      rw [hreq] at ho
      rcases serve_modify_response ho with hresp | ⟨x, hresp⟩
      · exact hother (by simp [createdName, createdClock, hresp])
      · exact hother (hexit x hresp)

theorem IsRun.createdNames_eq (h : IsRun P evs) :
    createdNames evs = (createdClocks evs).map (fun t => (metaDraft t).name P) ∧
      ∀ t ∈ createdClocks evs, (metaDraft t).strings P ⊆ (current evs).hashed := by
  induction evs with
  | nil => exact ⟨rfl, fun _ ht => by cases ht⟩
  | cons ev evs ih =>
      obtain ⟨hnames, hsub⟩ := ih h.tail
      obtain ⟨hname, hnew⟩ := h.createdName_eq
      have hold : ∀ t ∈ createdClocks evs, (metaDraft t).strings P ⊆ ev.after.hashed :=
        fun t ht => List.Subset.trans (hsub t ht) h.remembers.hashed
      cases ht : createdClock ev with
      | none =>
          rw [ht] at hname
          have hn : createdNames (ev :: evs) = createdNames evs := by
            simp [createdNames, hname]
          have hc : createdClocks (ev :: evs) = createdClocks evs := by
            simp [createdClocks, ht]
          rw [hn, hc]
          exact ⟨hnames, hold⟩
      | some t =>
          rw [ht] at hname
          have hn : createdNames (ev :: evs) = (metaDraft t).name P :: createdNames evs := by
            simp [createdNames, hname]
          have hc : createdClocks (ev :: evs) = t :: createdClocks evs := by
            simp [createdClocks, ht]
          rw [hn, hc, hnames]
          refine ⟨rfl, fun t' ht' => ?_⟩
          rcases List.mem_cons.mp ht' with rfl | ht'
          · exact hnew _ ht
          · exact hold t' ht'

/-- Files created at different clock readings have different names. -/
theorem IsRun.distinct (hP : P.Lawful) (h : IsRun P evs)
    (hfree : P.CollisionFree (current evs).hashed) (hclocks : (createdClocks evs).Nodup) :
    (createdNames evs).Nodup := by
  obtain ⟨hnames, hsub⟩ := h.createdNames_eq
  rw [hnames]
  apply hclocks.map_on
  intro t ht t' ht' he
  have hdraft := Draft.eq_of_name_eq hP hfree (hsub t ht) (hsub t' ht') he
  exact congrArg Draft.timestamp hdraft

end Clocks

/-! ## The theorem -/

section Main

variable {P : Platform} {evs run : List Event} {ev : Event} {d : Bytes}

theorem IsRun.stale (h : IsRun P (ev :: evs)) {n : Bytes} (hindex : (current evs).index d = some n)
    (htarget : ev.target = some d) (hbase : n ≠ ev.base) :
    (∃ e, ev.response = .failed e) ∧ (current evs).Same ev.after := by
  have ho := h.served
  cases hreq : ev.request with
  | createNew => simp [Event.target, hreq] at htarget
  | getInodeName hashname sig => simp [Event.target, hreq] at htarget
  | modify d' descs inodeHash aesKey sig =>
      simp only [Event.target, hreq, Option.some.injEq] at htarget
      simp only [Event.base, hreq] at hbase
      subst htarget
      rw [hreq] at ho
      have hspec : Exec.wp ((Request.modify d' descs inodeHash aesKey sig).exec P)
          (fun _ _ => False) (fun x b' => (∃ e, x = .err e) ∧ (current evs).Same b')
          { current evs with env := ev.env } := by
        simp only [Request.exec, Exec.wp_bind, Exec.wp_pure]
        have hindex' : { current evs with env := ev.env }.index d' = some n := hindex
        refine Exec.wp_mono (wp_modify_stale hindex' (Ne.symm hbase) descs aesKey sig)
          (fun _ _ hf => hf) ?_
        rintro x b' ⟨hx, rfl⟩
        exact ⟨hx, Same.withEnv _ _⟩
      rcases serve_spec ho hspec with hf | ⟨x, hresp, ⟨e, rfl⟩, hsame⟩
      · exact hf.elim
      · exact ⟨⟨e, hresp⟩, hsame⟩

theorem RunInv.fileChains (hP : P.Lawful) (h : RunInv P run)
    (hd : (createdNames run).count d = 1) :
    ∃ n inodes blockmaps datas,
      (current run).index d = some n ∧ FileChains P run d n inodes blockmaps datas := by
  obtain ⟨hist, hindex, hl, ht⟩ := h.tracks hd
  have hstart : chainStart d (headName P hist) = latestInode P d hist := by
    cases hist with
    | nil => rfl
    | cons c cs => exact if_neg (c.inode.name_ne_nil hP)
  have hdescs : (succeeded d run).flatMap (fun ev => ev.descs.reverse) =
      hist.flatMap (fun c => c.descs.reverse) := by
    have he := congrArg (List.flatMap List.reverse) ht.descs
    simpa [List.flatMap_map] using he
  refine ⟨_, hist.map (·.inode.name P), hist.map (·.blockmap.name P),
    (blockNames P hist).reverse, hindex, ?_⟩
  constructor
  · exact hl.stop
  · rw [hstart]
    exact hl.inodes
  · rw [ht.names, List.map_map]
    rfl
  · rw [headD_map_blockmap]
    exact hl.blockmaps
  · exact hl.blockmap_of_inode
  · rw [headD_blockNames hl]
    exact hl.datas
  · exact head?_blockNames hl
  · rw [hdescs]
    exact hl.payloads

/-- Where no two files were created at one clock reading, the history of each file is the line of its
successful modifications. -/
theorem linear_history (hP : P.Lawful) (hrun : IsRun P run) (hon : OnCreated run)
    (hfree : P.CollisionFree (current run).hashed) (hclocks : (createdClocks run).Nodup) :
    LinearHistory P run := by
  have hproper : ProperRun P run := ⟨hrun, hon, hfree⟩
  have hinv := hproper.inv hP
  have hcount : ∀ d ∈ createdNames run, (createdNames run).count d = 1 := fun d hd =>
    List.count_eq_one_of_mem (hrun.distinct hP hfree hclocks) hd
  constructor
  · intro ev evs hs d hd htarget hbase
    have hevs := hproper.suffix hs
    obtain ⟨hist, hindex, -, -⟩ := (hevs.tail.inv hP).files d hd
    apply hevs.isRun.stale hindex htarget
    intro he
    exact hbase (by rw [hindex, he])
  · intro d hd
    obtain ⟨hist, -, hl, ht⟩ := hinv.tracks (hcount d hd)
    rw [ht.bases]
    exact hl.bases_nodup hP
  · intro d hd
    exact hinv.fileChains hP (hcount d hd)

end Main

section Instances

open Reference

def firstFlush : Request × Env :=
  (.signed platform (fileAt 5) [⟨[1, 2], 0⟩, ⟨[3], midBlockSize⟩] [] zeroKey,
    { clock := [6, 7, 8, 9] })

/-- Two flushes of one file, between them a request that comes too late, and a second file. -/
def twoClients : List Event :=
  let first := [firstFlush, (.createNew, { clock := [5] })]
  let n := ((current (replay platform first)).index (fileAt 5)).getD []
  replay platform
    ((.createNew, { clock := [20] }) ::
      (.signed platform (fileAt 5) [⟨[4], 0⟩] n zeroKey, { clock := [13, 14, 15] }) ::
      (.signed platform (fileAt 5) [⟨[7], 0⟩] [] zeroKey, { clock := [10, 11, 12] }) :: first)

example : twoClients.map (·.succeeds (fileAt 5)) = [false, true, false, true, false] := by
  decide +kernel

theorem linear_history_twoClients : LinearHistory platform twoClients := by
  have hproper : ProperRun platform twoClients := properRun_replay _ (by decide +kernel)
  exact linear_history lawful hproper.isRun hproper.onCreated hproper.free (by decide +kernel)

/-- The clock reads the same for a second file, after the first has been flushed. -/
def equalClocks : List Event :=
  replay platform [(.createNew, { clock := [5] }), firstFlush, (.createNew, { clock := [5] })]

theorem equalClocks_proper : ProperRun platform equalClocks :=
  properRun_replay _ (by decide +kernel)

/-- The second `CreateNew` empties the entry of the first file and its history is gone. -/
theorem linear_history_equalClocks : IsRun platform equalClocks ∧ OnCreated equalClocks ∧
    platform.CollisionFree (current equalClocks).hashed ∧ ¬ LinearHistory platform equalClocks := by
  refine ⟨equalClocks_proper.isRun, equalClocks_proper.onCreated, equalClocks_proper.free, ?_⟩
  intro h
  obtain ⟨n, inodes, _, _, hindex, hc⟩ := h.chains (fileAt 5) (by decide +kernel)
  have hempty : (current equalClocks).index (fileAt 5) = some [] := by decide +kernel
  rw [hempty, Option.some.injEq] at hindex
  subst hindex
  have hinodes := hc.inodes_eq
  cases hi : inodes with
  | nil =>
      rw [hi] at hinodes
      exact absurd hinodes (by decide +kernel)
  | cons x rest =>
      have hx : (fileAt 5) = x := by
        have hf := hc.inode_chain
        rw [hi] at hf
        exact hf.head_eq
      have hhead : some (fileAt 5) = ((succeeded (fileAt 5) equalClocks).map
          (·.after.index (fileAt 5))).head? := by
        rw [← hinodes, hi, ← hx]
        rfl
      exact absurd hhead (by decide +kernel)

end Instances

end DcfsClient
