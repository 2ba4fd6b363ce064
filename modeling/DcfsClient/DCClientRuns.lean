import DcfsClient.DCClient
import DcfsClient.Trace

/-!
# Runs of the client of the DataCapsule servers

One caller uses the client: it calls `Put` or `Get`, waits, and calls again after the return. In between
the listen thread handles whatever the network delivers, in any order and any number of times. A call
is two events, everything before its wait and everything after it; a message that is handled while the
caller prepares or leaves the wait is a message handled before or after that event. A run ends with the
process, so an event at which an assertion fails or which C++ leaves undefined is not part of any run.

`Node.Effect` lists what an event can do. `NodeInv` is the invariant of all runs: the counts are the acks
handled so far, a commit needs the threshold, a `Put` has an entry exactly while it waits, and what an
entry of a `Get` holds came in a successful response with its key.
-/

namespace DcfsClient

open Trace Exec

namespace ClientCall

def enter (N : Network) (rand : Nat) : ClientCall → ClientM Unit
  | .put hash srlPdu => DCClient.putBegin N hash srlPdu
  | .get hash opt => DCClient.getBegin N rand hash opt

def awake (s : DCClient) : ClientCall → Bool
  | .put hash _ => (s.putStatus hash).elim false (·.done)
  | .get hash opt => (s.getStatus (hash, opt.isMetaonlyReq)).elim false (·.done)

def leave : ClientCall → ClientM (Option Bytes)
  | .put hash _ => do
    DCClient.putEnd hash
    pure none
  | .get hash opt => DCClient.getEnd hash opt

end ClientCall

structure Node where
  client : DCClient := {}
  waiting : Option ClientCall := none

inductive ClientEvent where
  | call (c : ClientCall) (rand : Nat)
  | returned (c : ClientCall) (value : Option Bytes)
  | ack (msg : Bytes)
  | getResp (msg : Bytes)
  deriving DecidableEq

def outcome {α : Type} (m : ClientM α) (s : DCClient) : Option (α × DCClient) :=
  match m s with
  | .ok a t => some (a, t)
  | .error _ _ => none

namespace Node

variable (N : Network)

def step (s : Node) : ClientEvent → Option Node
  | .call c rand => do
    guard (s.waiting = none)
    let (_, t) ← outcome (c.enter N rand) s.client
    pure ⟨t, some c⟩
  | .returned c value => do
    guard (s.waiting = some c ∧ c.awake s.client = true)
    let (v, t) ← outcome c.leave s.client
    guard (v = value)
    pure ⟨t, none⟩
  | .ack msg => do
    let (_, t) ← outcome (ClientComm.handleAck N msg) s.client
    pure ⟨t, s.waiting⟩
  | .getResp msg => do
    let (_, t) ← outcome (ClientComm.handleGetResp N msg) s.client
    pure ⟨t, s.waiting⟩

end Node

def IsClientRun (N : Network) (evs : List ClientEvent) (s : Node) : Prop :=
  Trace.replay (Node.step N) {} evs = some s

/-! ## What an event can do -/

def ClientGetResponse.answer (N : Network) (resp : ClientGetResponse) :
    Option ((Bytes × Bool) × Bytes) :=
  if resp.success then
    if resp.freshResp then some ((resp.hash, false), N.serializeFreshHashes ⟨resp.freshHashes⟩)
    else some ((resp.hash, resp.record.payloadInTransit.length == 0), N.serialize resp.record)
  else none

namespace DCClient

variable (s : DCClient)

def markPut (hash : Bytes) : DCClient :=
  let pops := (s.putStatus hash).map fun pops => { pops with done := true, ret := 0 }
  { s with putStatus := Function.update s.putStatus hash pops }

def markGet : Option ((Bytes × Bool) × Bytes) → DCClient
  | none => s
  | some (gk, srlPdu) =>
    let gops := (s.getStatus gk).map fun gops =>
      { gops with done := true, ret := 0, srlPdu := some srlPdu }
    { s with getStatus := Function.update s.getStatus gk gops }

theorem wp_commitAck (hash : Bytes) :
    wp (commitAck hash) (fun _ t => t = { s with commits := hash :: s.commits }.markPut hash)
      (fun _ _ => False) s := by
  simp only [commitAck, wp_bind, Exec.wp_modify, wp_get]
  cases h : s.putStatus hash with
  | none =>
      have hsame : Function.update s.putStatus hash none = s.putStatus := by
        rw [← h, Function.update_eq_self]
      simp [markPut, h, hsame]
  | some pops => simp [markPut, h]

theorem wp_commitAnswer (gk : Bytes × Bool) (srlPdu : Bytes) :
    wp (commitAnswer gk srlPdu) (fun _ t => t = s.markGet (some (gk, srlPdu)))
      (fun _ _ => False) s := by
  simp only [commitAnswer, wp_bind, wp_get]
  cases h : s.getStatus gk with
  | none =>
      have hsame : Function.update s.getStatus gk none = s.getStatus := by
        rw [← h, Function.update_eq_self]
      simp [markGet, h, hsame]
  | some gops => simp [markGet, h]

end DCClient

theorem wp_handleGetResp (N : Network) (msg : Bytes) (s : DCClient) :
    wp (ClientComm.handleGetResp N msg)
      (fun _ t => t = s.markGet ((N.parseGetResponse msg).answer N)) (fun _ _ => False) s := by
  unfold ClientComm.handleGetResp ClientGetResponse.answer
  generalize N.parseGetResponse msg = resp
  cases hs : resp.success with
  | false => simp [hs, DCClient.markGet]
  | true =>
      cases hf : resp.freshResp with
      | true =>
          simp only [hs, hf, DCClient.commitFreshResp, if_true, wp_bind, wp_pure]
          exact s.wp_commitAnswer _ _
      | false =>
          simp only [hs, hf, DCClient.commitGetResp, Bool.false_eq_true, if_false, if_true, wp_bind,
            wp_pure]
          exact s.wp_commitAnswer _ _

/-- A counted ack, and the commit it leads to. -/
theorem wp_handleAck (N : Network) (msg : Bytes) (s : DCClient) :
    wp (ClientComm.handleAck N msg)
      (fun _ t =>
        let hash := (N.parse msg).headerHash
        let acks := s.recvAckMap hash + 1
        let counted := { s with recvAckMap := Function.update s.recvAckMap hash acks }
        (N.parse msg).header.msgtype = replicationAck ∧ acks ≤ intMax ∧
        t = if acks = N.writeThreshold then
            { counted with commits := hash :: s.commits }.markPut hash
          else counted)
      (fun _ _ => True) s := by
  simp only [ClientComm.handleAck, wp_bind, wp_check, wp_get, wp_set, implies_true, and_true,
    beq_iff_eq, decide_eq_true_eq]
  intro htype hmax
  refine (wp_ite _ _ _).mpr ⟨fun hc => ?_, fun hc => ?_⟩
  · simp only [wp_bind, wp_pure]
    refine wp_mono (DCClient.wp_commitAck _ _) ?_ (fun _ _ h => h.elim)
    intro _ t ht
    rw [if_pos hc]
    exact ⟨htype, hmax, ht⟩
  · rw [wp_pure, if_neg hc]
    exact ⟨htype, hmax, rfl⟩

/-- A call inserts an entry and sends a message only if there is no entry yet; a return needs a done
entry. -/
inductive Node.Effect (N : Network) (s : Node) : ClientEvent → Node → Prop
  | putNew (hash srlPdu : Bytes) (rand : Nat) (hidle : s.waiting = none)
      (hnew : s.client.putStatus hash = none) :
      Effect N s (.call (.put hash srlPdu) rand)
        ⟨{ s.client with
            putStatus := Function.update s.client.putStatus hash (some {})
            sent := N.dcServers.map (·, srlPdu) ++ s.client.sent }, some (.put hash srlPdu)⟩
  | putKnown (hash srlPdu : Bytes) (rand : Nat) (pops : PutStatus) (hidle : s.waiting = none)
      (hknown : s.client.putStatus hash = some pops) :
      Effect N s (.call (.put hash srlPdu) rand) ⟨s.client, some (.put hash srlPdu)⟩
  | getNew (hash : Bytes) (opt : DCGetOptions) (rand : Nat) (addr : Bytes) (hidle : s.waiting = none)
      (hfresh : opt.isFreshReq = true → hash = [] ∧ opt.isMetaonlyReq = false)
      (hnew : s.client.getStatus (hash, opt.isMetaonlyReq) = none) (haddr : addr ∈ N.serveServers) :
      Effect N s (.call (.get hash opt) rand)
        ⟨{ s.client with
            getStatus := Function.update s.client.getStatus (hash, opt.isMetaonlyReq)
              (some { isFreshReq := opt.isFreshReq, isMetaonlyReq := opt.isMetaonlyReq })
            sent := (addr, N.serializeGetRequest
              ⟨hash, N.recvGetRespAddr, opt.isFreshReq, opt.isMetaonlyReq⟩) :: s.client.sent },
          some (.get hash opt)⟩
  | getKnown (hash : Bytes) (opt : DCGetOptions) (rand : Nat) (gops : GetStatus)
      (hidle : s.waiting = none)
      (hfresh : opt.isFreshReq = true → hash = [] ∧ opt.isMetaonlyReq = false)
      (hknown : s.client.getStatus (hash, opt.isMetaonlyReq) = some gops) :
      Effect N s (.call (.get hash opt) rand) ⟨s.client, some (.get hash opt)⟩
  | putReturned (hash srlPdu : Bytes) (pops : PutStatus) (hwait : s.waiting = some (.put hash srlPdu))
      (hpops : s.client.putStatus hash = some pops) (hdone : pops.done = true) :
      Effect N s (.returned (.put hash srlPdu) none)
        ⟨{ s.client with putStatus := Function.update s.client.putStatus hash none }, none⟩
  | getReturned (hash : Bytes) (opt : DCGetOptions) (gops : GetStatus)
      (hwait : s.waiting = some (.get hash opt))
      (hgops : s.client.getStatus (hash, opt.isMetaonlyReq) = some gops) (hdone : gops.done = true) :
      Effect N s (.returned (.get hash opt) (if gops.ret = 0 then gops.srlPdu else none))
        ⟨s.client, none⟩
  | ackCounted (msg : Bytes)
      (hne : s.client.recvAckMap (N.parse msg).headerHash + 1 ≠ N.writeThreshold) :
      Effect N s (.ack msg)
        ⟨{ s.client with
            recvAckMap := Function.update s.client.recvAckMap (N.parse msg).headerHash
              (s.client.recvAckMap (N.parse msg).headerHash + 1) }, s.waiting⟩
  | ackCommitted (msg : Bytes)
      (heq : s.client.recvAckMap (N.parse msg).headerHash + 1 = N.writeThreshold) :
      Effect N s (.ack msg)
        ⟨{ s.client with
            recvAckMap := Function.update s.client.recvAckMap (N.parse msg).headerHash
              (s.client.recvAckMap (N.parse msg).headerHash + 1)
            commits := (N.parse msg).headerHash :: s.client.commits }.markPut
          (N.parse msg).headerHash, s.waiting⟩
  | response (msg : Bytes) :
      Effect N s (.getResp msg)
        ⟨s.client.markGet ((N.parseGetResponse msg).answer N), s.waiting⟩

section Effects

variable {N : Network} {s t : Node}

theorem outcome_eq_some {α : Type} {m : ClientM α} {c d : DCClient} {a : α} :
    outcome m c = some (a, d) ↔ m c = .ok a d := by
  unfold outcome
  cases m c <;> simp

theorem step_getResp (N : Network) (s : Node) (msg : Bytes) :
    s.step N (.getResp msg) =
      some ⟨s.client.markGet ((N.parseGetResponse msg).answer N), s.waiting⟩ := by
  obtain ⟨u, c, hrun, rfl⟩ := exists_ok (wp_handleGetResp N msg s.client)
  have hout := outcome_eq_some.mpr hrun
  simp [Node.step, hout]

theorem wp_enter (c : ClientCall) (rand : Nat) (hidle : s.waiting = none) :
    wp (c.enter N rand) (fun _ d => s.Effect N (.call c rand) ⟨d, some c⟩) (fun _ _ => True)
      s.client := by
  cases c with
  | put hash srlPdu =>
      simp only [ClientCall.enter, DCClient.putBegin, wp_bind, wp_get]
      cases hst : s.client.putStatus hash with
      | none =>
          simp only [Option.isNone_none, if_true, wp_bind, wp_set, ClientComm.mcastDc,
            Exec.wp_modify]
          exact .putNew hash srlPdu rand hidle hst
      | some pops =>
          simp only [Option.isNone_some, Bool.false_eq_true, if_false, wp_pure]
          exact .putKnown hash srlPdu rand pops hidle hst
  | get hash opt =>
      simp only [ClientCall.enter, DCClient.getBegin, wp_bind, wp_check, wp_get, implies_true,
        and_true]
      intro hhash hmeta
      have hfresh : opt.isFreshReq = true → hash = [] ∧ opt.isMetaonlyReq = false := by
        intro hf
        simp only [hf, Bool.not_true, Bool.false_or, beq_iff_eq, List.length_eq_zero_iff,
          Bool.true_and, Bool.not_eq_eq_eq_not] at hhash hmeta
        exact ⟨hhash, hmeta⟩
      cases hst : s.client.getStatus (hash, opt.isMetaonlyReq) with
      | none =>
          simp only [Option.isNone_none, if_true, wp_bind, wp_set, ClientComm.sendGetReq,
            wp_orAbort, Exec.wp_modify, implies_true, and_true]
          intro addr haddr
          exact .getNew hash opt rand addr hidle hfresh hst (List.mem_of_getElem? haddr)
      | some gops =>
          simp only [Option.isNone_some, Bool.false_eq_true, if_false, wp_pure]
          exact .getKnown hash opt rand gops hidle hfresh hst

theorem wp_leave (c : ClientCall) (hwait : s.waiting = some c) (hawake : c.awake s.client = true) :
    wp c.leave (fun v d => s.Effect N (.returned c v) ⟨d, none⟩) (fun _ _ => True) s.client := by
  cases c with
  | put hash srlPdu =>
      simp only [ClientCall.leave, DCClient.putEnd, wp_bind, wp_get, wp_orAbort, wp_set, wp_pure,
        implies_true, and_true]
      intro pops hpops
      have hdone : pops.done = true := by simpa [ClientCall.awake, hpops] using hawake
      exact .putReturned hash srlPdu pops hwait hpops hdone
  | get hash opt =>
      simp only [ClientCall.leave, DCClient.getEnd, wp_bind, wp_get, wp_orAbort, wp_pure,
        implies_true, and_true]
      intro gops hgops
      have hdone : gops.done = true := by simpa [ClientCall.awake, hgops] using hawake
      exact .getReturned hash opt gops hwait hgops hdone

theorem ack_effect {msg : Bytes} {d : DCClient}
    (h : ClientComm.handleAck N msg s.client = .ok () d) :
    s.Effect N (.ack msg) ⟨d, s.waiting⟩ := by
  obtain ⟨-, -, rfl⟩ := wp_ok (wp_handleAck N msg s.client) h
  split
  next heq => exact .ackCommitted msg heq
  next hne => exact .ackCounted msg hne

theorem step_effect {ev : ClientEvent} (h : s.step N ev = some t) : s.Effect N ev t := by
  cases ev with
  | call c rand =>
      simp only [Node.step, Option.bind_eq_bind, Option.bind_eq_some_iff, Option.guard_eq_some',
        Option.pure_def, Option.some.injEq, Prod.exists] at h
      obtain ⟨-, hidle, _, d, hrun, rfl⟩ := h
      have hspec := @wp_enter N s c rand hidle
      have heffect := wp_ok hspec (outcome_eq_some.mp hrun)
      exact heffect
  | returned c value =>
      simp only [Node.step, Option.bind_eq_bind, Option.bind_eq_some_iff, Option.guard_eq_some',
        Option.pure_def, Option.some.injEq, Prod.exists] at h
      obtain ⟨-, ⟨hwait, hawake⟩, v, d, hrun, -, rfl, rfl⟩ := h
      have hspec := @wp_leave N s c hwait hawake
      have heffect := wp_ok hspec (outcome_eq_some.mp hrun)
      exact heffect
  | ack msg =>
      simp only [Node.step, Option.bind_eq_bind, Option.bind_eq_some_iff,
        Option.pure_def, Option.some.injEq, Prod.exists] at h
      obtain ⟨_, d, hrun, rfl⟩ := h
      exact ack_effect (outcome_eq_some.mp hrun)
  | getResp msg =>
      rw [step_getResp, Option.some.injEq] at h
      rw [← h]
      exact .response msg

end Effects

/-! ## What holds in every run -/

def ClientEvent.isAck (N : Network) (hash : Bytes) : ClientEvent → Bool
  | .ack msg => (N.parse msg).headerHash == hash
  | _ => false

def acks (N : Network) (hash : Bytes) (evs : List ClientEvent) : Nat := evs.countP (·.isAck N hash)

def Delivered (N : Network) (evs : List ClientEvent) (gk : Bytes × Bool) (srlPdu : Bytes) : Prop :=
  ∃ msg, .getResp msg ∈ evs ∧ (N.parseGetResponse msg).answer N = some (gk, srlPdu)

structure NodeInv (N : Network) (evs : List ClientEvent) (s : Node) : Prop where
  counted : ∀ hash, s.client.recvAckMap hash = acks N hash evs
  putDone : ∀ hash pops, s.client.putStatus hash = some pops → pops.done = true →
    N.writeThreshold ≤ acks N hash evs
  committed : ∀ hash ∈ s.client.commits, N.writeThreshold ≤ acks N hash evs
  commits_nodup : s.client.commits.Nodup
  delivered : ∀ gk gops srlPdu, s.client.getStatus gk = some gops → gops.srlPdu = some srlPdu →
    Delivered N evs gk srlPdu
  getWaiting : ∀ hash opt, s.waiting = some (.get hash opt) →
    (s.client.getStatus (hash, opt.isMetaonlyReq)).isSome = true

section Invariant

variable {N : Network} {evs : List ClientEvent} {s t : Node} {ev : ClientEvent}

theorem acks_cons (hash : Bytes) :
    acks N hash (ev :: evs) = acks N hash evs + if ev.isAck N hash then 1 else 0 :=
  List.countP_cons

theorem acks_le_cons (hash : Bytes) : acks N hash evs ≤ acks N hash (ev :: evs) := by
  rw [acks_cons]
  exact Nat.le_add_right _ _

theorem acks_cons_ack (msg hash : Bytes) :
    acks N hash (.ack msg :: evs) =
      Function.update (acks N · evs) (N.parse msg).headerHash
        (acks N (N.parse msg).headerHash evs + 1) hash := by
  rw [acks_cons]
  by_cases h : hash = (N.parse msg).headerHash
  · subst h
    simp [ClientEvent.isAck]
  · rw [Function.update_of_ne h]
    simp [ClientEvent.isAck, Ne.symm h]

theorem Delivered.cons {gk : Bytes × Bool} {srlPdu : Bytes} (h : Delivered N evs gk srlPdu) :
    Delivered N (ev :: evs) gk srlPdu := by
  obtain ⟨msg, hmem, hanswer⟩ := h
  exact ⟨msg, List.mem_cons_of_mem ev hmem, hanswer⟩

/-- An entry after a response is an old one, or it holds what the response brought. -/
theorem markGet_cases {c : DCClient} {a : Option ((Bytes × Bool) × Bytes)} {gk : Bytes × Bool}
    {gops : GetStatus} (h : (c.markGet a).getStatus gk = some gops) :
    c.getStatus gk = some gops ∨
      ∃ srlPdu, a = some (gk, srlPdu) ∧ gops.done = true ∧ gops.ret = 0 ∧
        gops.srlPdu = some srlPdu := by
  cases a with
  | none => exact .inl h
  | some a =>
      obtain ⟨gk', srlPdu⟩ := a
      simp only [DCClient.markGet, Function.update_apply] at h
      split at h
      next heq =>
        subst heq
        obtain ⟨old, -, rfl⟩ := Option.map_eq_some_iff.mp h
        exact .inr ⟨srlPdu, rfl, rfl, rfl, rfl⟩
      next => exact .inl h

theorem markGet_isSome (c : DCClient) (a : Option ((Bytes × Bool) × Bytes)) (gk : Bytes × Bool) :
    ((c.markGet a).getStatus gk).isSome = (c.getStatus gk).isSome := by
  cases a with
  | none => rfl
  | some a =>
      simp only [DCClient.markGet, Function.update_apply]
      split
      next heq => simp [heq]
      next => rfl

theorem markGet_rest (c : DCClient) (a : Option ((Bytes × Bool) × Bytes)) :
    (c.markGet a).recvAckMap = c.recvAckMap ∧ (c.markGet a).commits = c.commits ∧
      (c.markGet a).putStatus = c.putStatus := by
  cases a <;> exact ⟨rfl, rfl, rfl⟩

theorem nodeInv_start : NodeInv N [] {} where
  counted _ := rfl
  putDone _ _ h := by cases h
  committed _ h := by cases h
  commits_nodup := List.nodup_nil
  delivered _ _ _ h := by cases h
  getWaiting _ _ h := by cases h

/-- Any event but an ack: the acks and the commits are as before, and a new answer in a `Get` entry has
been delivered. -/
theorem NodeInv.quiet (h : NodeInv N evs s) (hack : ∀ hash, ev.isAck N hash = false)
    (hacks : t.client.recvAckMap = s.client.recvAckMap) (hcommits : t.client.commits = s.client.commits)
    (hput : ∀ hash pops, t.client.putStatus hash = some pops → pops.done = true →
      s.client.putStatus hash = some pops)
    (hget : ∀ gk gops srlPdu, t.client.getStatus gk = some gops → gops.srlPdu = some srlPdu →
      s.client.getStatus gk = some gops ∨ Delivered N (ev :: evs) gk srlPdu)
    (hwait : ∀ hash opt, t.waiting = some (.get hash opt) →
      (t.client.getStatus (hash, opt.isMetaonlyReq)).isSome = true) : NodeInv N (ev :: evs) t := by
  have hsame : ∀ hash, acks N hash (ev :: evs) = acks N hash evs := by
    intro hash
    simp [acks_cons, hack hash]
  constructor
  · intro hash
    rw [hacks, hsame]
    exact h.counted hash
  · intro hash pops hpops hdone
    rw [hsame]
    exact h.putDone hash pops (hput hash pops hpops hdone) hdone
  · intro hash hmem
    rw [hsame]
    exact h.committed hash (hcommits ▸ hmem)
  · exact hcommits ▸ h.commits_nodup
  · intro gk gops srlPdu hgops hsrl
    rcases hget gk gops srlPdu hgops hsrl with hold | hnew
    · exact (h.delivered gk gops srlPdu hold hsrl).cons
    · exact hnew
  · exact hwait

/-- An ack is counted; a `Put` that is done since then, or a name that is new in the commits, has its
acks. -/
theorem NodeInv.ack {msg : Bytes} (h : NodeInv N evs s)
    (hacks : t.client.recvAckMap = Function.update s.client.recvAckMap (N.parse msg).headerHash
      (s.client.recvAckMap (N.parse msg).headerHash + 1))
    (hput : ∀ hash pops, t.client.putStatus hash = some pops → pops.done = true →
      s.client.putStatus hash = some pops ∨ N.writeThreshold ≤ acks N hash (.ack msg :: evs))
    (hcommits : ∀ hash ∈ t.client.commits,
      hash ∈ s.client.commits ∨ N.writeThreshold ≤ acks N hash (.ack msg :: evs))
    (hnodup : t.client.commits.Nodup) (hget : t.client.getStatus = s.client.getStatus)
    (hwait : t.waiting = s.waiting) : NodeInv N (.ack msg :: evs) t := by
  constructor
  · intro hash
    simp only [hacks, acks_cons_ack, ← h.counted]
  · intro hash pops hpops hdone
    rcases hput hash pops hpops hdone with hold | hreached
    · exact (h.putDone hash pops hold hdone).trans (acks_le_cons hash)
    · exact hreached
  · intro hash hmem
    rcases hcommits hash hmem with hold | hreached
    · exact (h.committed hash hold).trans (acks_le_cons hash)
    · exact hreached
  · exact hnodup
  · intro gk gops srlPdu hgops hsrl
    rw [hget] at hgops
    exact (h.delivered gk gops srlPdu hgops hsrl).cons
  · rw [hwait, hget]
    exact h.getWaiting

theorem NodeInv.response {msg : Bytes} (h : NodeInv N evs s) :
    NodeInv N (.getResp msg :: evs)
      ⟨s.client.markGet ((N.parseGetResponse msg).answer N), s.waiting⟩ := by
  obtain ⟨hmap, hcommits, hput⟩ := markGet_rest s.client ((N.parseGetResponse msg).answer N)
  refine h.quiet (fun _ => rfl) hmap hcommits ?_ ?_ ?_
  · intro hash pops hpops _
    rw [hput] at hpops
    exact hpops
  · intro gk gops srlPdu hgops hsrl
    cases markGet_cases hgops with
    | inl hold => exact .inl hold
    | inr hnew =>
        obtain ⟨srlPdu', hanswer, -, -, hsrl'⟩ := hnew
        rw [hsrl] at hsrl'
        cases hsrl'
        exact .inr ⟨msg, List.mem_cons_self, hanswer⟩
  · intro hash opt hwait
    rw [markGet_isSome]
    exact h.getWaiting hash opt hwait

theorem NodeInv.step (h : NodeInv N evs s) (hstep : s.step N ev = some t) :
    NodeInv N (ev :: evs) t := by
  cases step_effect hstep with
  | putNew hash srlPdu rand hidle hnew =>
      refine h.quiet (fun _ => rfl) rfl rfl ?_ ?_ ?_
      · intro hash' pops hpops hdone
        simp only [Function.update_apply] at hpops
        split at hpops
        next =>
          cases hpops
          cases hdone
        next => exact hpops
      · exact fun _ _ _ hgops _ => .inl hgops
      · exact fun _ _ hwait => by cases hwait
  | putKnown hash srlPdu rand pops hidle hknown =>
      refine h.quiet (fun _ => rfl) rfl rfl (fun _ _ hpops _ => hpops)
        (fun _ _ _ hgops _ => .inl hgops) ?_
      exact fun _ _ hwait => by cases hwait
  | getNew hash opt rand addr hidle hfresh hnew haddr =>
      refine h.quiet (fun _ => rfl) rfl rfl (fun _ _ hpops _ => hpops) ?_ ?_
      · intro gk gops srlPdu hgops hsrl
        simp only [Function.update_apply] at hgops
        split at hgops
        next =>
          cases hgops
          cases hsrl
        next => exact .inl hgops
      · intro hash' opt' hwait
        cases hwait
        simp
  | getKnown hash opt rand gops hidle hfresh hknown =>
      refine h.quiet (fun _ => rfl) rfl rfl (fun _ _ hpops _ => hpops)
        (fun _ _ _ hgops _ => .inl hgops) ?_
      intro hash' opt' hwait
      cases hwait
      simp [hknown]
  | putReturned hash srlPdu pops hwait hpops hdone =>
      refine h.quiet (fun _ => rfl) rfl rfl ?_ ?_ ?_
      · intro hash' pops' hpops' _
        simp only [Function.update_apply] at hpops'
        split at hpops'
        next => cases hpops'
        next => exact hpops'
      · exact fun _ _ _ hgops _ => .inl hgops
      · exact fun _ _ hwait => by cases hwait
  | getReturned hash opt gops hwait hgops hdone =>
      refine h.quiet (fun _ => rfl) rfl rfl (fun _ _ hpops _ => hpops)
        (fun _ _ _ hgops _ => .inl hgops) ?_
      exact fun _ _ hwait => by cases hwait
  | ackCounted msg hne =>
      exact h.ack rfl (fun _ _ hpops _ => .inl hpops) (fun _ hmem => .inl hmem) h.commits_nodup rfl rfl
  | ackCommitted msg heq =>
      have hreached : N.writeThreshold ≤ acks N (N.parse msg).headerHash (.ack msg :: evs) := by
        rw [acks_cons_ack, Function.update_self, ← h.counted, heq]
      have hnew : (N.parse msg).headerHash ∉ s.client.commits := by
        intro hmem
        have hle := h.committed _ hmem
        rw [← h.counted] at hle
        omega
      refine h.ack rfl ?_ ?_ (List.nodup_cons.mpr ⟨hnew, h.commits_nodup⟩) rfl rfl
      · intro hash pops hpops _
        by_cases hhash : hash = (N.parse msg).headerHash
        · rw [hhash]
          exact .inr hreached
        · simp only [DCClient.markPut, Function.update_of_ne hhash] at hpops
          exact .inl hpops
      · intro hash hmem
        cases List.mem_cons.mp hmem with
        | inl hhash =>
            rw [hhash]
            exact .inr hreached
        | inr hmem => exact .inl hmem
  | response msg => exact h.response

theorem IsClientRun.inv (h : IsClientRun N evs s) : NodeInv N evs s :=
  replay_induction nodeInv_start (fun _ _ _ _ hinv hstep => hinv.step hstep) h

end Invariant

end DcfsClient
