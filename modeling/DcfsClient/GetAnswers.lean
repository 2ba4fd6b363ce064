import DcfsClient.Completions

/-!
# Which responses answer a `Get`

The entry of a `Get` is keyed by what the request asked for, and a response is matched to it by what the
response contains. `answered_iff` says when the two agree: the response must be a success, and the record
in it must be without a payload exactly if only the metadata was asked for. A failed response changes
nothing, so the `Get` goes on waiting, and so does a plain `Get` of a META record.

All freshness requests share one key, and their entry is never erased. The second part is about the runs in
which a freshness request finds no entry, and no plain response for that key comes while it waits.
-/

namespace DcfsClient

open Trace

/-- The value `Get` is to return when the response is all it gets. -/
def ClientGetResponse.value (N : Network) (resp : ClientGetResponse) : Option Bytes :=
  if resp.success then some (N.serialize resp.record) else none

def ClientEvent.isMessage : ClientEvent → Bool
  | .ack _ => true
  | .getResp _ => true
  | _ => false

structure Node.Outstanding (s : Node) (hash : Bytes) (opt : DCGetOptions) : Prop where
  waiting : s.waiting = some (.get hash opt)
  plain : opt.isFreshReq = false
  undone : ClientCall.awake s.client (.get hash opt) = false

/-- The `Get` can return with `value` now, and it can return after any further messages. -/
structure Node.Answered (N : Network) (s : Node) (hash : Bytes) (opt : DCGetOptions)
    (value : Option Bytes) : Prop where
  now : ∃ t, s.step N (.returned (.get hash opt) value) = some t
  later : ∀ msgs t, (∀ ev ∈ msgs, ev.isMessage = true) → Trace.replay (Node.step N) s msgs = some t →
    ClientCall.awake t.client (.get hash opt) = true

section Answers

variable {N : Network} {evs : List ClientEvent} {s t : Node} {hash : Bytes} {opt : DCGetOptions}

theorem awake_get_iff {c : DCClient} :
    ClientCall.awake c (.get hash opt) = true ↔
      ∃ gops, c.getStatus (hash, opt.isMetaonlyReq) = some gops ∧ gops.done = true := by
  cases h : c.getStatus (hash, opt.isMetaonlyReq) <;> simp [ClientCall.awake, h]

theorem markGet_self {c : DCClient} {gk : Bytes × Bool} (srlPdu : Bytes)
    (h : (c.getStatus gk).isSome = true) :
    ∃ gops, (c.markGet (some (gk, srlPdu))).getStatus gk = some gops ∧ gops.done = true ∧
      gops.ret = 0 ∧ gops.srlPdu = some srlPdu := by
  obtain ⟨old, hold⟩ := Option.isSome_iff_exists.mp h
  exact ⟨{ old with done := true, ret := 0, srlPdu := some srlPdu },
    by simp [DCClient.markGet, hold], rfl, rfl, rfl⟩

/-- Messages do not take an answer back. -/
theorem awake_step {ev : ClientEvent} (hmsg : ev.isMessage = true) (h : s.step N ev = some t)
    (hawake : ClientCall.awake s.client (.get hash opt) = true) :
    ClientCall.awake t.client (.get hash opt) = true := by
  cases step_effect h with
  | ackCounted msg hne => exact hawake
  | ackCommitted msg heq => exact hawake
  | response msg =>
      obtain ⟨gops, hgops, hdone⟩ := awake_get_iff.mp hawake
      have hsome : ((s.client.markGet ((N.parseGetResponse msg).answer N)).getStatus
          (hash, opt.isMetaonlyReq)).isSome = true := by
        rw [markGet_isSome, hgops]
        rfl
      obtain ⟨gops', hgops'⟩ := Option.isSome_iff_exists.mp hsome
      refine awake_get_iff.mpr ⟨gops', hgops', ?_⟩
      cases markGet_cases hgops' with
      | inl hold =>
          rw [hgops, Option.some.injEq] at hold
          rw [← hold]
          exact hdone
      | inr hnew =>
          obtain ⟨-, -, hdone', -⟩ := hnew
          exact hdone'
  | _ => cases hmsg

theorem awake_replay {msgs : List ClientEvent} (hmsgs : ∀ ev ∈ msgs, ev.isMessage = true)
    (hawake : ClientCall.awake s.client (.get hash opt) = true)
    (h : Trace.replay (Node.step N) s msgs = some t) :
    ClientCall.awake t.client (.get hash opt) = true := by
  induction msgs generalizing t with
  | nil =>
      obtain rfl := replay_nil_eq_some.mp h
      exact hawake
  | cons ev msgs ih =>
      obtain ⟨u, hu, hev⟩ := replay_cons_eq_some.mp h
      have hawake' := ih (fun ev hmem => hmsgs ev (List.mem_cons_of_mem _ hmem)) hu
      exact awake_step (hmsgs ev List.mem_cons_self) hev hawake'

theorem step_returned_get {gops : GetStatus} (hwait : s.waiting = some (.get hash opt))
    (hgops : s.client.getStatus (hash, opt.isMetaonlyReq) = some gops) (hdone : gops.done = true) :
    s.step N (.returned (.get hash opt) (if gops.ret = 0 then gops.srlPdu else none)) =
      some ⟨s.client, none⟩ := by
  have hawake : ClientCall.awake s.client (.get hash opt) = true :=
    awake_get_iff.mpr ⟨gops, hgops, hdone⟩
  have hrun : outcome (ClientCall.leave (.get hash opt)) s.client =
      some (if gops.ret = 0 then gops.srlPdu else none, s.client) := by
    have hspec : Exec.wp (ClientCall.leave (.get hash opt))
        (fun v d => v = (if gops.ret = 0 then gops.srlPdu else none) ∧ d = s.client)
        (fun _ _ => False) s.client := by
      simp [ClientCall.leave, DCClient.getEnd, hgops]
    obtain ⟨v, d, hm, rfl, rfl⟩ := Exec.exists_ok hspec
    exact outcome_eq_some.mpr hm
  simp [Node.step, hwait, hawake, hrun]

/-- A response with the hash of an outstanding `Get` answers it exactly if it is a success and its record
is of the kind that was asked for. -/
theorem answered_iff (hrun : IsClientRun N evs s) (hout : s.Outstanding hash opt) (msg : Bytes)
    (hplain : (N.parseGetResponse msg).freshResp = false)
    (hhash : (N.parseGetResponse msg).hash = hash) :
    (∃ t, s.step N (.getResp msg) = some t ∧
      t.Answered N hash opt ((N.parseGetResponse msg).value N)) ↔
    (N.parseGetResponse msg).success = true ∧
      ((N.parseGetResponse msg).record.payloadInTransit = [] ↔ opt.isMetaonlyReq = true) := by
  constructor
  · rintro ⟨t, ht, hanswered⟩
    rw [step_getResp, Option.some.injEq] at ht
    have hawake : ClientCall.awake t.client (.get hash opt) = true :=
      hanswered.later [] t (by simp) rfl
    obtain ⟨gops, hgops, hdone⟩ := awake_get_iff.mp hawake
    rw [← ht] at hgops
    cases markGet_cases hgops with
    | inl hold =>
        have hawake' := awake_get_iff.mpr ⟨gops, hold, hdone⟩
        rw [hout.undone] at hawake'
        cases hawake'
    | inr hnew =>
        obtain ⟨srlPdu, hanswer, -⟩ := hnew
        obtain ⟨hsuccess, ⟨hf, -⟩ | ⟨-, hkey, -⟩⟩ := answer_eq_some.mp hanswer
        · rw [hplain] at hf
          cases hf
        · exact ⟨hsuccess, (key_eq_iff.mp hkey).2⟩
  · rintro ⟨hsuccess, hkind⟩
    have hanswer : (N.parseGetResponse msg).answer N = some ((hash, opt.isMetaonlyReq),
        N.serialize (N.parseGetResponse msg).record) :=
      answer_eq_some.mpr ⟨hsuccess, .inr ⟨hplain, key_eq_iff.mpr ⟨hhash, hkind⟩, rfl⟩⟩
    have hentry := hrun.inv.getWaiting hash opt hout.waiting
    obtain ⟨gops, hgops, hdone, hret, hsrl⟩ :=
      markGet_self (N.serialize (N.parseGetResponse msg).record) hentry
    rw [← hanswer] at hgops
    refine ⟨_, step_getResp N s msg, ?_, ?_⟩
    · have hstep := @step_returned_get N
        ⟨s.client.markGet ((N.parseGetResponse msg).answer N), s.waiting⟩ hash opt gops
        hout.waiting hgops hdone
      rw [if_pos hret, hsrl] at hstep
      rw [ClientGetResponse.value, if_pos hsuccess]
      exact ⟨_, hstep⟩
    · intro msgs t hmsgs ht
      exact awake_replay hmsgs (awake_get_iff.mpr ⟨gops, hgops, hdone⟩) ht

end Answers

def plainGet : List ClientEvent := [.call (.get [7] ⟨false, false⟩) 0]

theorem plainGet_outstanding : ∃ s, IsClientRun (Reference.network 1) plainGet s ∧
    s.Outstanding [7] ⟨false, false⟩ := by
  have hrun : (Trace.replay (Node.step (Reference.network 1)) {} plainGet).map (fun s =>
      (s.waiting, ClientCall.awake s.client (.get [7] ⟨false, false⟩))) =
      some (some (.get [7] ⟨false, false⟩), false) := by decide
  obtain ⟨s, hs, hfacts⟩ := Option.map_eq_some_iff.mp hrun
  obtain ⟨hwait, hundone⟩ := Prod.mk.injEq .. ▸ hfacts
  exact ⟨s, hs, hwait, rfl, hundone⟩

theorem answered_iff_plainGet : ∃ s, IsClientRun (Reference.network 1) plainGet s ∧
    s.Outstanding [7] ⟨false, false⟩ ∧
    ∃ t, s.step (Reference.network 1) (.getResp (Reference.encGetResponse
        { success := true, hash := [7], record := someRecord })) = some t ∧
      t.Answered (Reference.network 1) [7] ⟨false, false⟩ (some (Reference.encPDU someRecord)) := by
  obtain ⟨s, hs, hout⟩ := plainGet_outstanding
  have hparse : (Reference.network 1).parseGetResponse (Reference.encGetResponse
      { success := true, hash := [7], record := someRecord }) =
      { success := true, hash := [7], record := someRecord } :=
    Reference.decGetResponse_encGetResponse _
  have hiff := answered_iff hs hout (Reference.encGetResponse
    { success := true, hash := [7], record := someRecord }) (by rw [hparse]) (by rw [hparse])
  rw [hparse] at hiff
  exact ⟨s, hs, hout, hiff.mpr ⟨rfl, by simp [someRecord]⟩⟩

def metaRecord : CapsulePDU := { headerHash := [7] }

/-- A failed response, and a successful one with a META record, leave the `Get` waiting. -/
theorem plainGet_unanswered : ∃ s, IsClientRun (Reference.network 1) plainGet s ∧
    s.Outstanding [7] ⟨false, false⟩ ∧
    ∀ resp ∈ [({ success := false, hash := [7] } : ClientGetResponse),
        { success := true, hash := [7], record := metaRecord }],
      resp.hash = [7] ∧ resp.freshResp = false ∧
      ¬ ∃ t, s.step (Reference.network 1) (.getResp (Reference.encGetResponse resp)) = some t ∧
        t.Answered (Reference.network 1) [7] ⟨false, false⟩ (resp.value (Reference.network 1)) := by
  obtain ⟨s, hs, hout⟩ := plainGet_outstanding
  have hasleep : ∀ resp ∈ [({ success := false, hash := [7] } : ClientGetResponse),
        { success := true, hash := [7], record := metaRecord }],
      resp.hash = [7] ∧ resp.freshResp = false ∧ (Trace.replay (Node.step (Reference.network 1)) {}
        (.getResp (Reference.encGetResponse resp) :: plainGet)).map (fun t =>
          ClientCall.awake t.client (.get [7] ⟨false, false⟩)) = some false := by decide
  refine ⟨s, hs, hout, ?_⟩
  intro resp hresp
  obtain ⟨hhash, hplain, hawake⟩ := hasleep resp hresp
  refine ⟨hhash, hplain, ?_⟩
  rintro ⟨t, ht, hanswered⟩
  rw [replay_cons_eq_some.mpr ⟨s, hs, ht⟩, Option.map_some, Option.some.injEq] at hawake
  have hdone := hanswered.later [] t (by simp) rfl
  rw [hawake] at hdone
  cases hdone

/-! ## Freshness requests -/

def ClientEvent.isCall : ClientEvent → Bool
  | .call _ _ => true
  | _ => false

def sinceCall (evs : List ClientEvent) : List ClientEvent := evs.takeWhile fun ev => !ev.isCall

def BroughtHashes (N : Network) (evs : List ClientEvent) (srlPdu : Bytes) : Prop :=
  ∃ msg, .getResp msg ∈ evs ∧
    let resp := N.parseGetResponse msg
    resp.success = true ∧ resp.freshResp = true ∧
    srlPdu = N.serializeFreshHashes ⟨resp.freshHashes⟩

/-- A `Get` for freshness sends a freshness request, and what it returns was brought by a freshness
response since. -/
def ClientEvent.FreshlyAnswered (N : Network) (older : List ClientEvent) (s : Node)
    (ev : ClientEvent) (t : Node) : Prop :=
  match ev with
  | .call (.get hash opt) _ => opt.isFreshReq = true → ∃ addr ∈ N.serveServers,
      t.client.sent = (addr, N.serializeGetRequest
        ⟨hash, N.recvGetRespAddr, true, opt.isMetaonlyReq⟩) :: s.client.sent
  | .returned (.get _ opt) (some srlPdu) => opt.isFreshReq = true →
      BroughtHashes N (sinceCall older) srlPdu
  | _ => True

/-- A `Get` for freshness finds no entry, and while it waits no plain response for the empty hash comes
with a record that has a payload. -/
def ClientEvent.KeepsFresh (N : Network) (s : Node) : ClientEvent → Prop
  | .call (.get hash opt) _ => opt.isFreshReq = true →
      s.client.getStatus (hash, opt.isMetaonlyReq) = none
  | .getResp msg => ∀ hash opt, s.waiting = some (.get hash opt) → opt.isFreshReq = true →
      let resp := N.parseGetResponse msg
      resp.success = true → resp.freshResp = false → resp.hash = [] →
        resp.record.payloadInTransit = []
  | _ => True

structure FreshInv (N : Network) (evs : List ClientEvent) (s : Node) : Prop where
  key : ∀ hash opt, s.waiting = some (.get hash opt) → opt.isFreshReq = true →
    hash = [] ∧ opt.isMetaonlyReq = false
  brought : ∀ hash opt gops srlPdu, s.waiting = some (.get hash opt) → opt.isFreshReq = true →
    s.client.getStatus (hash, opt.isMetaonlyReq) = some gops → gops.srlPdu = some srlPdu →
    BroughtHashes N (sinceCall evs) srlPdu

section Freshness

variable {N : Network} {evs older : List ClientEvent} {s t : Node} {ev : ClientEvent}

theorem sinceCall_cons (h : ev.isCall = false) : sinceCall (ev :: evs) = ev :: sinceCall evs := by
  simp [sinceCall, h]

theorem BroughtHashes.cons {srlPdu : Bytes} (hev : ev.isCall = false)
    (h : BroughtHashes N (sinceCall evs) srlPdu) :
    BroughtHashes N (sinceCall (ev :: evs)) srlPdu := by
  obtain ⟨msg, hmem, hresp⟩ := h
  rw [sinceCall_cons hev]
  exact ⟨msg, List.mem_cons_of_mem ev hmem, hresp⟩

/-- There is nothing to keep while no `Get` waits. -/
theorem freshInv_of_no_get (h : ∀ hash opt, t.waiting ≠ some (.get hash opt)) :
    FreshInv N evs t := by
  constructor
  · intro hash opt hw
    exact absurd hw (h hash opt)
  · intro hash opt gops srlPdu hw
    exact absurd hw (h hash opt)

theorem freshInv_start : FreshInv N [] {} := by
  apply freshInv_of_no_get
  intro hash opt hw
  cases hw

/-- Acks do not concern a `Get`. -/
theorem FreshInv.ack {msg : Bytes} (h : FreshInv N older s)
    (hget : t.client.getStatus = s.client.getStatus) (hwait : t.waiting = s.waiting) :
    FreshInv N (.ack msg :: older) t := by
  constructor
  · rw [hwait]
    exact h.key
  · rw [hwait, hget]
    intro hash opt gops srlPdu hw hf hgops hsrl
    exact (h.brought hash opt gops srlPdu hw hf hgops hsrl).cons rfl

theorem FreshInv.step (h : FreshInv N older s) (hcond : ev.KeepsFresh N s)
    (hstep : s.step N ev = some t) : FreshInv N (ev :: older) t := by
  cases step_effect hstep with
  | putNew hash srlPdu rand hidle hnew => exact freshInv_of_no_get fun _ _ hw => by cases hw
  | putKnown hash srlPdu rand pops hidle hknown =>
      exact freshInv_of_no_get fun _ _ hw => by cases hw
  | getNew hash opt rand addr hidle hfresh hnew haddr =>
      constructor
      · intro hash' opt' hw hf
        cases hw
        exact hfresh hf
      · intro hash' opt' gops srlPdu hw hf hgops hsrl
        cases hw
        simp only [Function.update_self, Option.some.injEq] at hgops
        rw [← hgops] at hsrl
        cases hsrl
  | getKnown hash opt rand gops hidle hfresh hknown =>
      constructor
      · intro hash' opt' hw hf
        cases hw
        exact hfresh hf
      · intro hash' opt' gops' srlPdu hw hf hgops hsrl
        cases hw
        rw [hcond hf] at hknown
        cases hknown
  | putReturned hash srlPdu pops hwait hpops hdone =>
      exact freshInv_of_no_get fun _ _ hw => by cases hw
  | getReturned hash opt gops hwait hgops hdone =>
      exact freshInv_of_no_get fun _ _ hw => by cases hw
  | ackCounted msg hne => exact h.ack rfl rfl
  | ackCommitted msg heq => exact h.ack rfl rfl
  | response msg =>
      constructor
      · exact h.key
      · intro hash opt gops srlPdu hw hf hgops hsrl
        cases markGet_cases hgops with
        | inl hold => exact (h.brought hash opt gops srlPdu hw hf hold hsrl).cons rfl
        | inr hnew =>
            obtain ⟨srlPdu', hanswer, -, -, hsrl'⟩ := hnew
            rw [hsrl, Option.some.injEq] at hsrl'
            subst hsrl'
            obtain ⟨hsuccess, ⟨hfr, -, hbytes⟩ | ⟨hfr, hkey, -⟩⟩ := answer_eq_some.mp hanswer
            · rw [sinceCall_cons rfl]
              exact ⟨msg, List.mem_cons_self, hsuccess, hfr, hbytes⟩
            · -- a plain response for the key of freshness requests
              obtain ⟨hnil, hmeta⟩ := h.key hash opt hw hf
              obtain ⟨hhash, hkind⟩ := key_eq_iff.mp hkey
              have hempty := hcond hash opt hw hf hsuccess hfr (hhash.trans hnil)
              rw [hkind.mp hempty] at hmeta
              cases hmeta

/-- In a run that keeps to the condition, every `Get` for freshness sends a freshness request and returns
what a freshness response has brought since it was called. -/
theorem freshly_answered
    (hcond : EachStep (Node.step N) {} (fun _ s ev _ => ev.KeepsFresh N s) evs) :
    EachStep (Node.step N) {} (fun older s ev t => ev.FreshlyAnswered N older s t) evs := by
  have hinv : ∀ {evs t}, EachStep (Node.step N) {} (fun _ s ev _ => ev.KeepsFresh N s) evs →
      Trace.replay (Node.step N) {} evs = some t → FreshInv N evs t :=
    fun hC h => replay_induction_of freshInv_start
      (fun older s ev t hI hC hstep => hI.step hC hstep) hC h
  refine EachStep.of_invariant hinv ?_ hcond
  intro older s ev t hI hC hstep
  cases step_effect hstep with
  | getNew hash opt rand addr hidle hfresh hnew haddr =>
      intro hf
      refine ⟨addr, haddr, ?_⟩
      rw [hf]
  | getKnown hash opt rand gops hidle hfresh hknown =>
      intro hf
      rw [hC hf] at hknown
      cases hknown
  | getReturned hash opt gops hwait hgops hdone =>
      generalize hvalue : (if gops.ret = 0 then gops.srlPdu else none) = value
      cases value with
      | none => trivial
      | some srlPdu =>
          intro hf
          split at hvalue
          next => exact hI.brought hash opt gops srlPdu hwait hf hgops hvalue
          next => cases hvalue
  | _ => trivial

end Freshness

def oneFreshHash : ClientGetResponse := { success := true, freshResp := true, freshHashes := [[5]] }

def freshGet : List ClientEvent :=
  [ .returned (.get [] ⟨true, false⟩)
      (some ((Reference.network 1).serializeFreshHashes ⟨[[5]]⟩)),
    .getResp (Reference.encGetResponse oneFreshHash),
    .call (.get [] ⟨true, false⟩) 0 ]

/-- After a `Get` for freshness was answered, the same call once more. -/
def freshGetAgain : List ClientEvent :=
  .returned (.get [] ⟨true, false⟩) (some ((Reference.network 1).serializeFreshHashes ⟨[[5]]⟩)) ::
    .call (.get [] ⟨true, false⟩) 0 :: freshGet

theorem freshly_answered_freshGet :
    (Trace.replay (Node.step (Reference.network 1)) {} freshGet).isSome = true ∧
    EachStep (Node.step (Reference.network 1)) {}
      (fun _ s ev _ => ev.KeepsFresh (Reference.network 1) s) freshGet ∧
    EachStep (Node.step (Reference.network 1)) {}
      (fun older s ev t => ev.FreshlyAnswered (Reference.network 1) older s t) freshGet := by
  have hcond : EachStep (Node.step (Reference.network 1)) {}
      (fun _ s ev _ => ev.KeepsFresh (Reference.network 1) s) freshGet := by
    refine ⟨⟨⟨trivial, ?_⟩, ?_⟩, fun _ _ _ _ => trivial⟩
    · intro s t hs _ _
      obtain rfl := replay_nil_eq_some.mp hs
      rfl
    · intro s t _ _ hash opt _ _ resp _ hplain
      have hfresh : resp.freshResp = true := congrArg ClientGetResponse.freshResp
        (Reference.decGetResponse_encGetResponse oneFreshHash)
      rw [hfresh] at hplain
      cases hplain
  exact ⟨by decide, hcond, freshly_answered hcond⟩

/-- The second `Get` for freshness sends nothing and returns the answer to the first. -/
theorem not_freshly_answered_freshGetAgain :
    (Trace.replay (Node.step (Reference.network 1)) {} freshGetAgain).isSome = true ∧
    ¬ EachStep (Node.step (Reference.network 1)) {}
      (fun older s ev t => ev.FreshlyAnswered (Reference.network 1) older s t) freshGetAgain := by
  have hrun : (Trace.replay (Node.step (Reference.network 1)) {} freshGetAgain).isSome = true := by
    decide
  refine ⟨hrun, ?_⟩
  intro h
  obtain ⟨t, ht⟩ := Option.isSome_iff_exists.mp hrun
  obtain ⟨s, hs, hev⟩ := replay_cons_eq_some.mp ht
  obtain ⟨msg, hmem, -⟩ := h.2 s t hs hev rfl
  cases hmem

end DcfsClient
