import DcfsClient.DCClientRuns
import DcfsClient.Reference

/-!
# What completes a `Put` and a `Get`

An operation of the client completes on messages of its own only: a `Put` returns after the threshold
of acks for its hash, and a `Get` of a record returns a record that came for its hash and its kind.

The converse for `Put` fails. The counter of acks belongs to the process and not to the entry, and the
handler compares it for equality. Once a hash has had the threshold of acks, a later `Put` of it is not
completed by any number of further acks. `undone_put_below_threshold` is about the runs in which every
`Put` comes early enough.
-/

namespace DcfsClient

open Trace

/-- Freshness responses carry the empty hash, as the requests they answer do. -/
def FreshEmpty (N : Network) (evs : List ClientEvent) : Prop :=
  ∀ msg, .getResp msg ∈ evs → (N.parseGetResponse msg).freshResp = true →
    (N.parseGetResponse msg).hash = []

/-- A successful plain response in `evs` for `hash`, of the kind that `opt` asks for, has brought the
record `srlPdu`. -/
def BroughtRecord (N : Network) (evs : List ClientEvent) (hash : Bytes) (opt : DCGetOptions)
    (srlPdu : Bytes) : Prop :=
  ∃ msg, .getResp msg ∈ evs ∧
    let resp := N.parseGetResponse msg
    resp.success = true ∧ resp.freshResp = false ∧ resp.hash = hash ∧
    (resp.record.payloadInTransit = [] ↔ opt.isMetaonlyReq = true) ∧
    srlPdu = N.serialize resp.record

/-! ## A network to compute with -/

namespace Reference

def encGetResponse (r : ClientGetResponse) : Bytes :=
  [if r.success then 1 else 0, if r.freshResp then 1 else 0] ++ (encBytes r.hash ++
    (encNat r.freshHashes.length ++ (r.freshHashes.flatMap encBytes ++ encPDU r.record)))

def decGetResponse (l : Bytes) : ClientGetResponse :=
  let (hash, rest) := decBytes (l.drop 2)
  let (count, rest) := decNat rest
  let (freshHashes, rest) := decMany count rest
  { success := l[0]? == some 1, freshResp := l[1]? == some 1, hash := hash,
    freshHashes := freshHashes, record := decPDU rest }

def network (threshold : Nat) : Network where
  toPlatform := platform
  serializeGetRequest r := [if r.freshReq then 1 else 0, if r.metaonlyReq then 1 else 0] ++
    (encBytes r.hash ++ r.replyAddr)
  parseGetResponse := decGetResponse
  serializeFreshHashes c := encNat c.freshHashes.length ++ c.freshHashes.flatMap encBytes
  writeThreshold := threshold
  recvGetRespAddr := [2]
  dcServers := [[3]]
  serveServers := [[3]]

theorem decGetResponse_encGetResponse (r : ClientGetResponse) :
    decGetResponse (encGetResponse r) = r := by
  obtain ⟨success, hash, record, freshResp, freshHashes⟩ := r
  have hrecord := decPDU_encPDU record
  cases success <;> cases freshResp <;> simp [encGetResponse, decGetResponse, hrecord]

def ackOf (hash : Bytes) : Bytes :=
  encPDU { header := { msgtype := replicationAck }, headerHash := hash }

end Reference

section OwnMessages

variable {N : Network} {evs older : List ClientEvent} {s t : Node}

theorem answer_eq_some {resp : ClientGetResponse} {gk : Bytes × Bool} {srlPdu : Bytes} :
    resp.answer N = some (gk, srlPdu) ↔ resp.success = true ∧
      (resp.freshResp = true ∧ gk = (resp.hash, false) ∧
          srlPdu = N.serializeFreshHashes ⟨resp.freshHashes⟩ ∨
        resp.freshResp = false ∧ gk = (resp.hash, resp.record.payloadInTransit.length == 0) ∧
          srlPdu = N.serialize resp.record) := by
  unfold ClientGetResponse.answer
  cases resp.success <;> cases resp.freshResp <;> simp [eq_comm]

theorem key_eq_iff {resp : ClientGetResponse} {hash : Bytes} {metaonly : Bool} :
    (hash, metaonly) = (resp.hash, resp.record.payloadInTransit.length == 0) ↔
      resp.hash = hash ∧ (resp.record.payloadInTransit = [] ↔ metaonly = true) := by
  rw [Prod.mk.injEq, eq_comm, Bool.eq_iff_iff, beq_iff_eq, List.length_eq_zero_iff]
  constructor
  · exact fun h => ⟨h.1, h.2.symm⟩
  · exact fun h => ⟨h.1, h.2.symm⟩

theorem Delivered.broughtRecord {hash srlPdu : Bytes} {opt : DCGetOptions}
    (h : Delivered N evs (hash, opt.isMetaonlyReq) srlPdu) (hfresh : FreshEmpty N evs)
    (hne : hash ≠ []) : BroughtRecord N evs hash opt srlPdu := by
  obtain ⟨msg, hmem, hanswer⟩ := h
  obtain ⟨hsuccess, ⟨hf, hkey, -⟩ | ⟨hf, hkey, hsrl⟩⟩ := answer_eq_some.mp hanswer
  · have hhash : hash = (N.parseGetResponse msg).hash := congrArg Prod.fst hkey
    exact absurd (hhash.trans (hfresh msg hmem hf)) hne
  · obtain ⟨hhash, hkind⟩ := key_eq_iff.mp hkey
    exact ⟨msg, hmem, hsuccess, hf, hhash, hkind, hsrl⟩

theorem IsClientRun.before {ev : ClientEvent} {newer : List ClientEvent}
    (h : IsClientRun N (newer ++ ev :: older) t) :
    ∃ s s', IsClientRun N older s ∧ s.step N ev = some s' := by
  obtain ⟨s', hs'⟩ := replay_of_append h
  obtain ⟨s, hs, hev⟩ := replay_cons_eq_some.mp hs'
  exact ⟨s, s', hs, hev⟩

theorem NodeInv.put_returned {hash srlPdu : Bytes} {value : Option Bytes} (hinv : NodeInv N evs s)
    (h : s.step N (.returned (.put hash srlPdu) value) = some t) :
    N.writeThreshold ≤ acks N hash evs := by
  cases step_effect h with
  | putReturned _ _ pops _ hpops hdone => exact hinv.putDone hash pops hpops hdone

theorem NodeInv.get_returned {hash srlPdu : Bytes} {opt : DCGetOptions} (hinv : NodeInv N evs s)
    (h : s.step N (.returned (.get hash opt) (some srlPdu)) = some t) :
    Delivered N evs (hash, opt.isMetaonlyReq) srlPdu := by
  have heffect := step_effect h
  generalize hvalue : some srlPdu = value at heffect
  cases heffect with
  | getReturned _ _ gops _ hgops _ =>
      split at hvalue
      next => exact hinv.delivered _ gops srlPdu hgops hvalue.symm
      next => cases hvalue

/-- Whatever the network does, `CommitAck` is called at most once for a hash, a `Put` returns after the
threshold of acks for its hash, and a `Get` of a record returns one that came for it. -/
theorem completed_by_own_messages (hrun : IsClientRun N evs s) :
    (∀ hash, s.client.commits.count hash ≤ 1) ∧
    (∀ newer hash srlPdu value older, evs = newer ++ .returned (.put hash srlPdu) value :: older →
      N.writeThreshold ≤ acks N hash older) ∧
    (FreshEmpty N evs → ∀ newer hash opt srlPdu older,
      evs = newer ++ .returned (.get hash opt) (some srlPdu) :: older →
      opt.isFreshReq = false → hash ≠ [] → BroughtRecord N older hash opt srlPdu) := by
  refine ⟨?_, ?_, ?_⟩
  · exact List.nodup_iff_count_le_one.mp hrun.inv.commits_nodup
  · intro newer hash srlPdu value older hevs
    subst hevs
    obtain ⟨s, t, hs, hev⟩ := hrun.before
    exact hs.inv.put_returned hev
  · intro hfresh newer hash opt srlPdu older hevs _ hne
    subst hevs
    obtain ⟨s, t, hs, hev⟩ := hrun.before
    have hfresh' : FreshEmpty N older := by
      intro msg hmem
      exact hfresh msg (by simp [hmem])
    exact (hs.inv.get_returned hev).broughtRecord hfresh' hne

end OwnMessages

def someRecord : CapsulePDU := { headerHash := [7], payloadInTransit := [8] }

def putThenGet : List ClientEvent :=
  [ .returned (.get [7] ⟨false, false⟩) (some (Reference.encPDU someRecord)),
    .getResp (Reference.encGetResponse { success := true, hash := [7], record := someRecord }),
    .call (.get [7] ⟨false, false⟩) 0,
    .returned (.put [7] [9]) none,
    .ack (Reference.ackOf [7]),
    .ack (Reference.ackOf [7]),
    .call (.put [7] [9]) 0 ]

theorem completed_by_own_messages_putThenGet : ∃ s,
    IsClientRun (Reference.network 2) putThenGet s ∧ FreshEmpty (Reference.network 2) putThenGet ∧
    s.client.commits.count [7] ≤ 1 ∧ 2 ≤ acks (Reference.network 2) [7] (putThenGet.drop 4) ∧
    BroughtRecord (Reference.network 2) (putThenGet.drop 1) [7] ⟨false, false⟩
      (Reference.encPDU someRecord) := by
  have hsome : (Trace.replay (Node.step (Reference.network 2)) {} putThenGet).isSome = true := by
    decide
  obtain ⟨s, hs⟩ := Option.isSome_iff_exists.mp hsome
  have hfresh : FreshEmpty (Reference.network 2) putThenGet := by
    intro msg hmem hf
    have hmsg : msg = Reference.encGetResponse
        { success := true, hash := [7], record := someRecord } := by simpa [putThenGet] using hmem
    rw [hmsg] at hf
    cases (congrArg ClientGetResponse.freshResp
      (Reference.decGetResponse_encGetResponse _)).symm.trans hf
  obtain ⟨hcommit, hput, hget⟩ := completed_by_own_messages hs
  exact ⟨s, hs, hfresh, hcommit [7], hput (putThenGet.take 3) [7] [9] none _ rfl,
    hget hfresh [] [7] ⟨false, false⟩ _ _ rfl rfl (List.cons_ne_nil _ _)⟩

/-! ## Puts that come early enough -/

section EarlyPuts

variable (N : Network)

def ClientEvent.inserts (hash : Bytes) (older : List ClientEvent) : ClientEvent → Bool
  | .call (.put hash' _) _ => hash' == hash &&
      (Trace.replay (Node.step N) {} older).any fun s => (s.client.putStatus hash).isNone
  | _ => false

/-- The acks for `hash` handled since the last insertion of an entry for it. -/
def acksSinceInsert (hash : Bytes) : List ClientEvent → Nat
  | [] => 0
  | ev :: older =>
    if ev.inserts N hash older then 0
    else acksSinceInsert hash older + if ev.isAck N hash then 1 else 0

def ClientEvent.PutsEarly (older : List ClientEvent) : ClientEvent → Prop
  | .call (.put hash _) _ => acks N hash older < N.writeThreshold
  | _ => True

variable {N} {evs : List ClientEvent} {s t : Node}

theorem acksSinceInsert_le_acks (hash : Bytes) : acksSinceInsert N hash evs ≤ acks N hash evs := by
  induction evs with
  | nil => exact Nat.le_refl _
  | cons ev older ih =>
      rw [acks_cons, acksSinceInsert]
      split
      next => exact Nat.zero_le _
      next => exact Nat.add_le_add_right ih _

def UndoneBelow (N : Network) (evs : List ClientEvent) (s : Node) : Prop :=
  ∀ hash pops, s.client.putStatus hash = some pops → pops.done = false →
    acks N hash evs < N.writeThreshold

theorem UndoneBelow.step {older : List ClientEvent} {ev : ClientEvent} (hinv : NodeInv N older s)
    (h : UndoneBelow N older s) (hearly : ev.PutsEarly N older) (hstep : s.step N ev = some t) :
    UndoneBelow N (ev :: older) t := by
  intro hash pops hpops hdone
  cases step_effect hstep with
  | putNew hash' srlPdu rand hidle hnew =>
      simp only [acks_cons, ClientEvent.isAck, Bool.false_eq_true, if_false, Nat.add_zero]
      by_cases hhash : hash = hash'
      · rw [hhash]
        exact hearly
      · exact h hash pops (by simpa [Function.update_of_ne hhash] using hpops) hdone
  | putKnown hash' srlPdu rand pops' hidle hknown => exact h hash pops hpops hdone
  | getNew hash' opt rand addr hidle hfresh hnew haddr => exact h hash pops hpops hdone
  | getKnown hash' opt rand gops hidle hfresh hknown => exact h hash pops hpops hdone
  | putReturned hash' srlPdu pops' hwait hpops' hdone' =>
      simp only [Function.update_apply] at hpops
      split at hpops
      next => cases hpops
      next => exact h hash pops hpops hdone
  | getReturned hash' opt gops hwait hgops hdone' => exact h hash pops hpops hdone
  | ackCounted msg hne =>
      have hbelow := h hash pops hpops hdone
      rw [acks_cons_ack, Function.update_apply]
      split
      next hhash =>
        rw [hinv.counted] at hne
        rw [← hhash] at hne ⊢
        omega
      next => exact hbelow
  | ackCommitted msg heq =>
      -- the entry for the hash of the ack is done now
      by_cases hhash : hash = (N.parse msg).headerHash
      · subst hhash
        simp only [DCClient.markPut, Function.update_self] at hpops
        obtain ⟨old, -, rfl⟩ := Option.map_eq_some_iff.mp hpops
        cases hdone
      · simp only [DCClient.markPut, Function.update_of_ne hhash] at hpops
        rw [acks_cons_ack, Function.update_of_ne hhash]
        exact h hash pops hpops hdone
  | response msg =>
      have hput : ∀ a, (s.client.markGet a).putStatus = s.client.putStatus := by
        intro a
        cases a <;> rfl
      rw [hput] at hpops
      exact h hash pops hpops hdone

/-- If every `Put` of a hash comes before the threshold of acks for it, no entry that is not done has
had the threshold of acks since it was inserted. -/
theorem undone_put_below_threshold (hrun : IsClientRun N evs s)
    (hearly : EachStep (Node.step N) {} (fun older _ ev _ => ev.PutsEarly N older) evs) :
    ∀ hash pops, s.client.putStatus hash = some pops → pops.done = false →
      acksSinceInsert N hash evs < N.writeThreshold := by
  have hinv : NodeInv N evs s ∧ UndoneBelow N evs s := by
    have hstart : NodeInv N [] {} ∧ UndoneBelow N [] {} :=
      ⟨nodeInv_start, fun _ _ h => by cases h⟩
    refine replay_induction_of (I := fun evs s => NodeInv N evs s ∧ UndoneBelow N evs s) hstart ?_
      hearly hrun
    intro older s ev t hI hC hstep
    exact ⟨hI.1.step hstep, hI.2.step hI.1 hC hstep⟩
  intro hash pops hpops hdone
  exact (acksSinceInsert_le_acks hash).trans_lt (hinv.2 hash pops hpops hdone)

end EarlyPuts

def firstPut : List ClientEvent :=
  [ .returned (.put [7] [9]) none, .ack (Reference.ackOf [7]), .call (.put [7] [9]) 0 ]

/-- After its `Put` has returned, a name is put and acknowledged once more. -/
def secondPut : List ClientEvent :=
  .ack (Reference.ackOf [7]) :: .call (.put [7] [9]) 0 :: firstPut

theorem undone_put_below_threshold_putOnce : ∃ s pops,
    IsClientRun (Reference.network 2) (putThenGet.drop 5) s ∧
    EachStep (Node.step (Reference.network 2)) {}
      (fun older _ ev _ => ev.PutsEarly (Reference.network 2) older) (putThenGet.drop 5) ∧
    s.client.putStatus [7] = some pops ∧ pops.done = false ∧
    acksSinceInsert (Reference.network 2) [7] (putThenGet.drop 5) < 2 := by
  have hundone : ((Trace.replay (Node.step (Reference.network 2)) {} (putThenGet.drop 5)).bind fun s =>
      s.client.putStatus [7]).map (·.done) = some false := by decide
  obtain ⟨pops, hpops, hdone⟩ := Option.map_eq_some_iff.mp hundone
  obtain ⟨s, hs, hentry⟩ := Option.bind_eq_some_iff.mp hpops
  have hearly : EachStep (Node.step (Reference.network 2)) {}
      (fun older _ ev _ => ev.PutsEarly (Reference.network 2) older) (putThenGet.drop 5) := by
    refine ⟨⟨trivial, fun s t _ _ => ?_⟩, fun s t _ _ => trivial⟩
    exact Nat.zero_lt_two
  exact ⟨s, pops, hs, hearly, hentry, hdone,
    undone_put_below_threshold hs hearly [7] pops hentry hdone⟩

/-- With a threshold of one, the second `Put` has had its ack and is not done. -/
theorem undone_put_secondPut : ∃ s pops,
    IsClientRun (Reference.network 1) secondPut s ∧
    s.client.putStatus [7] = some pops ∧ pops.done = false ∧
    (Reference.network 1).writeThreshold ≤ acksSinceInsert (Reference.network 1) [7] secondPut := by
  have hundone : ((Trace.replay (Node.step (Reference.network 1)) {} secondPut).bind fun s =>
      s.client.putStatus [7]).map (·.done) = some false := by decide
  obtain ⟨pops, hpops, hdone⟩ := Option.map_eq_some_iff.mp hundone
  obtain ⟨s, hs, hentry⟩ := Option.bind_eq_some_iff.mp hpops
  exact ⟨s, pops, hs, hentry, hdone, by decide⟩

end DcfsClient
