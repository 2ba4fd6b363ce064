import DcfsClient.GetAnswers

/-!
# The loop of the listen thread

`run_dc_client_listen_server` has two sockets, one for acks and one for get responses. Each turn of its loop
polls both, receives at most one message of each, and looks at the signal to end. Here the loop is a
program counter, and messages, the calls of the client's user and the signal come in between its moves.
What the poll has seen is kept until the turn is over, as in `pollitems`.

`listen_loop_serves` says that the runs of this loop are those of the client model, with every message
handled once and in the order of its socket, and that neither socket has to wait for the other: a message
is handled within four moves for each one before it.
-/

namespace DcfsClient

open Trace

/-- Where the thread is, with what is left of `revents`. -/
inductive ListenPoint where
  | poll
  | ack (ready0 ready1 : Bool)
  | getResp (ready1 : Bool)
  | check
  | finished
  deriving DecidableEq

structure ListenServer where
  node : Node := {}
  acks : List Bytes := []
  getResps : List Bytes := []
  endSignal : Bool := false
  point : ListenPoint := .poll

inductive ListenEvent where
  | call (c : ClientCall) (rand : Nat)
  | returned (c : ClientCall) (value : Option Bytes)
  | ackArrives (msg : Bytes)
  | getRespArrives (msg : Bytes)
  | endSignal
  | listen
  deriving DecidableEq

namespace ListenServer

variable (N : Network)

def listen (s : ListenServer) : Option ListenServer :=
  match s.point with
  | .poll => some { s with point := .ack (!s.acks.isEmpty) (!s.getResps.isEmpty) }
  | .ack true ready1 => do
    let msg ← s.acks.head?
    let n ← s.node.step N (.ack msg)
    pure { s with node := n, acks := s.acks.tail, point := .getResp ready1 }
  | .ack false ready1 => some { s with point := .getResp ready1 }
  | .getResp true => do
    let msg ← s.getResps.head?
    let n ← s.node.step N (.getResp msg)
    pure { s with node := n, getResps := s.getResps.tail, point := .check }
  | .getResp false => some { s with point := .check }
  | .check => some { s with point := if s.endSignal then .finished else .poll }
  | .finished => none

def step (s : ListenServer) : ListenEvent → Option ListenServer
  | .call c rand => do
    let n ← s.node.step N (.call c rand)
    pure { s with node := n }
  | .returned c value => do
    let n ← s.node.step N (.returned c value)
    pure { s with node := n }
  | .ackArrives msg => some { s with acks := s.acks ++ [msg] }
  | .getRespArrives msg => some { s with getResps := s.getResps ++ [msg] }
  | .endSignal => some { s with endSignal := true }
  | .listen => s.listen N

end ListenServer

def IsListenRun (N : Network) (evs : List ListenEvent) (s : ListenServer) : Prop :=
  Trace.replay (ListenServer.step N) {} evs = some s

/-! ## What the events are about -/

def ListenEvent.caller : ListenEvent → Option ClientEvent
  | .call c rand => some (.call c rand)
  | .returned c value => some (.returned c value)
  | _ => none

def ListenEvent.newAck : ListenEvent → Option Bytes
  | .ackArrives msg => some msg
  | _ => none

def ListenEvent.newGetResp : ListenEvent → Option Bytes
  | .getRespArrives msg => some msg
  | _ => none

def ClientEvent.ackMsg : ClientEvent → Option Bytes
  | .ack msg => some msg
  | _ => none

def ClientEvent.getRespMsg : ClientEvent → Option Bytes
  | .getResp msg => some msg
  | _ => none

section Loop

variable {N : Network} {s t u : ListenServer} {evs newer : List ListenEvent} {ev : ListenEvent}

inductive ListenServer.Effect (N : Network) (s : ListenServer) : ListenEvent → ListenServer → Prop
  | caller (ev : ListenEvent) (cev : ClientEvent) (n : Node) (hev : ev.caller = some cev)
      (hnode : s.node.step N cev = some n) : Effect N s ev { s with node := n }
  | ackArrives (msg : Bytes) : Effect N s (.ackArrives msg) { s with acks := s.acks ++ [msg] }
  | getRespArrives (msg : Bytes) :
      Effect N s (.getRespArrives msg) { s with getResps := s.getResps ++ [msg] }
  | endSignal : Effect N s .endSignal { s with endSignal := true }
  | polled (hpoint : s.point = .poll) :
      Effect N s .listen { s with point := .ack (!s.acks.isEmpty) (!s.getResps.isEmpty) }
  | ackHandled (msg : Bytes) (rest : List Bytes) (ready1 : Bool) (n : Node)
      (hpoint : s.point = .ack true ready1) (hacks : s.acks = msg :: rest)
      (hnode : s.node.step N (.ack msg) = some n) :
      Effect N s .listen { s with node := n, acks := rest, point := .getResp ready1 }
  | noAck (ready1 : Bool) (hpoint : s.point = .ack false ready1) :
      Effect N s .listen { s with point := .getResp ready1 }
  | getRespHandled (msg : Bytes) (rest : List Bytes) (n : Node) (hpoint : s.point = .getResp true)
      (hgetResps : s.getResps = msg :: rest) (hnode : s.node.step N (.getResp msg) = some n) :
      Effect N s .listen { s with node := n, getResps := rest, point := .check }
  | noGetResp (hpoint : s.point = .getResp false) : Effect N s .listen { s with point := .check }
  | checked (hpoint : s.point = .check) :
      Effect N s .listen { s with point := if s.endSignal then .finished else .poll }

theorem ListenServer.listen_effect (h : s.listen N = some t) : s.Effect N .listen t := by
  simp only [listen] at h
  split at h
  next hpoint =>
    cases h
    exact .polled hpoint
  next ready1 hpoint =>
    simp only [Option.bind_eq_bind, Option.bind_eq_some_iff, Option.pure_def, Option.some.injEq,
      List.head?_eq_some_iff] at h
    obtain ⟨msg, ⟨rest, hacks⟩, n, hnode, rfl⟩ := h
    rw [hacks, List.tail_cons]
    exact .ackHandled msg rest ready1 n hpoint hacks hnode
  next ready1 hpoint =>
    cases h
    exact .noAck ready1 hpoint
  next hpoint =>
    simp only [Option.bind_eq_bind, Option.bind_eq_some_iff, Option.pure_def, Option.some.injEq,
      List.head?_eq_some_iff] at h
    obtain ⟨msg, ⟨rest, hgetResps⟩, n, hnode, rfl⟩ := h
    rw [hgetResps, List.tail_cons]
    exact .getRespHandled msg rest n hpoint hgetResps hnode
  next hpoint =>
    cases h
    exact .noGetResp hpoint
  next hpoint =>
    cases h
    exact .checked hpoint
  next => cases h

theorem ListenServer.step_effect (h : s.step N ev = some t) : s.Effect N ev t := by
  cases ev with
  | call c rand =>
      simp only [ListenServer.step, Option.bind_eq_bind, Option.bind_eq_some_iff, Option.pure_def,
        Option.some.injEq] at h
      obtain ⟨n, hnode, rfl⟩ := h
      exact .caller _ (.call c rand) n rfl hnode
  | returned c value =>
      simp only [ListenServer.step, Option.bind_eq_bind, Option.bind_eq_some_iff, Option.pure_def,
        Option.some.injEq] at h
      obtain ⟨n, hnode, rfl⟩ := h
      exact .caller _ (.returned c value) n rfl hnode
  | ackArrives msg =>
      cases h
      exact .ackArrives msg
  | getRespArrives msg =>
      cases h
      exact .getRespArrives msg
  | endSignal =>
      cases h
      exact .endSignal
  | listen => exact listen_effect h

/-! ## Every message once, in order -/

/-- From `s` to `t` the client has made the steps `cevs`: those of its user, and a message that has
arrived is among them or still waits at its socket. -/
structure Handled (N : Network) (s : ListenServer) (evs : List ListenEvent) (t : ListenServer)
    (cevs : List ClientEvent) : Prop where
  node : Trace.replay (Node.step N) s.node cevs = some t.node
  calls : cevs.filter (!·.isMessage) = evs.filterMap ListenEvent.caller
  acks : (cevs.filterMap ClientEvent.ackMsg).reverse ++ t.acks =
    s.acks ++ (evs.filterMap ListenEvent.newAck).reverse
  getResps : (cevs.filterMap ClientEvent.getRespMsg).reverse ++ t.getResps =
    s.getResps ++ (evs.filterMap ListenEvent.newGetResp).reverse

theorem Handled.caller {cevs : List ClientEvent} (h : Handled N s evs t cevs) {cev : ClientEvent}
    {n : Node} (hev : ev.caller = some cev) (hnode : t.node.step N cev = some n) :
    Handled N s (ev :: evs) { t with node := n } (cev :: cevs) := by
  have hnode' : Trace.replay (Node.step N) s.node (cev :: cevs) = some n :=
    replay_cons_eq_some.mpr ⟨t.node, h.node, hnode⟩
  cases ev with
  | call c rand =>
      cases hev
      exact ⟨hnode', congrArg _ h.calls, h.acks, h.getResps⟩
  | returned c value =>
      cases hev
      exact ⟨hnode', congrArg _ h.calls, h.acks, h.getResps⟩
  | _ => cases hev

/-- Nothing was handled, and nothing has arrived. -/
theorem Handled.quiet {cevs : List ClientEvent} (h : Handled N s evs t cevs)
    (hcaller : ev.caller = none) (hack : ev.newAck = none) (hgetResp : ev.newGetResp = none)
    {endSignal : Bool} {point : ListenPoint} :
    Handled N s (ev :: evs) { t with endSignal := endSignal, point := point } cevs := by
  refine ⟨h.node, ?_, ?_, ?_⟩
  · rw [List.filterMap_cons_none hcaller]
    exact h.calls
  · rw [List.filterMap_cons_none hack]
    exact h.acks
  · rw [List.filterMap_cons_none hgetResp]
    exact h.getResps

theorem Handled.ackArrives {cevs : List ClientEvent} (h : Handled N s evs t cevs) (msg : Bytes) :
    Handled N s (.ackArrives msg :: evs) { t with acks := t.acks ++ [msg] } cevs := by
  refine ⟨h.node, h.calls, ?_, h.getResps⟩
  have harrived : (ListenEvent.ackArrives msg :: evs).filterMap ListenEvent.newAck =
      msg :: evs.filterMap ListenEvent.newAck := rfl
  rw [harrived, List.reverse_cons, ← List.append_assoc, ← List.append_assoc, h.acks]

theorem Handled.getRespArrives {cevs : List ClientEvent} (h : Handled N s evs t cevs) (msg : Bytes) :
    Handled N s (.getRespArrives msg :: evs) { t with getResps := t.getResps ++ [msg] } cevs := by
  refine ⟨h.node, h.calls, h.acks, ?_⟩
  have harrived : (ListenEvent.getRespArrives msg :: evs).filterMap ListenEvent.newGetResp =
      msg :: evs.filterMap ListenEvent.newGetResp := rfl
  rw [harrived, List.reverse_cons, ← List.append_assoc, ← List.append_assoc, h.getResps]

theorem Handled.ack {cevs : List ClientEvent} (h : Handled N s evs t cevs) {msg : Bytes}
    {rest : List Bytes} {n : Node} {point : ListenPoint} (hacks : t.acks = msg :: rest)
    (hnode : t.node.step N (.ack msg) = some n) :
    Handled N s (.listen :: evs) { t with node := n, acks := rest, point := point }
      (.ack msg :: cevs) := by
  refine ⟨replay_cons_eq_some.mpr ⟨t.node, h.node, hnode⟩, h.calls, ?_, h.getResps⟩
  have hhandled : (ClientEvent.ack msg :: cevs).filterMap ClientEvent.ackMsg =
      msg :: cevs.filterMap ClientEvent.ackMsg := rfl
  have hall := h.acks
  rw [hacks] at hall
  rw [hhandled, List.reverse_cons, List.append_assoc, List.singleton_append]
  exact hall

theorem Handled.getResp {cevs : List ClientEvent} (h : Handled N s evs t cevs) {msg : Bytes}
    {rest : List Bytes} {n : Node} {point : ListenPoint} (hgetResps : t.getResps = msg :: rest)
    (hnode : t.node.step N (.getResp msg) = some n) :
    Handled N s (.listen :: evs) { t with node := n, getResps := rest, point := point }
      (.getResp msg :: cevs) := by
  refine ⟨replay_cons_eq_some.mpr ⟨t.node, h.node, hnode⟩, h.calls, h.acks, ?_⟩
  have hhandled : (ClientEvent.getResp msg :: cevs).filterMap ClientEvent.getRespMsg =
      msg :: cevs.filterMap ClientEvent.getRespMsg := rfl
  have hall := h.getResps
  rw [hgetResps] at hall
  rw [hhandled, List.reverse_cons, List.append_assoc, List.singleton_append]
  exact hall

/-! ## Neither socket waits for the other -/

/-- The moves until an ack is handled, if one is there at the next poll. -/
def ListenPoint.untilAck : ListenPoint → Nat
  | .poll => 2
  | .ack true _ => 1
  | .ack false _ => 5
  | .getResp _ => 4
  | .check => 3
  | .finished => 0

def ListenPoint.untilGetResp : ListenPoint → Nat
  | .poll => 3
  | .ack _ true => 2
  | .ack _ false => 6
  | .getResp true => 1
  | .getResp false => 5
  | .check => 4
  | .finished => 0

/-- So many moves, of which each four have handled a message of those that waited at `s`. -/
structure Paced (s : ListenServer) (evs : List ListenEvent) (t : ListenServer)
    (cevs : List ClientEvent) : Prop where
  acks : (cevs.filterMap ClientEvent.ackMsg).length < s.acks.length →
    evs.count .listen + t.point.untilAck ≤ 4 * (cevs.filterMap ClientEvent.ackMsg).length + 5
  getResps : (cevs.filterMap ClientEvent.getRespMsg).length < s.getResps.length →
    evs.count .listen + t.point.untilGetResp ≤
      4 * (cevs.filterMap ClientEvent.getRespMsg).length + 6

theorem Handled.acks_left {cevs : List ClientEvent} (h : Handled N s evs t cevs)
    (hlt : (cevs.filterMap ClientEvent.ackMsg).length < s.acks.length) : t.acks ≠ [] := by
  have hlen := congrArg List.length h.acks
  rw [List.length_append, List.length_append, List.length_reverse] at hlen
  rw [← List.length_pos_iff]
  omega

theorem Handled.getResps_left {cevs : List ClientEvent} (h : Handled N s evs t cevs)
    (hlt : (cevs.filterMap ClientEvent.getRespMsg).length < s.getResps.length) : t.getResps ≠ [] := by
  have hlen := congrArg List.length h.getResps
  rw [List.length_append, List.length_append, List.length_reverse] at hlen
  rw [← List.length_pos_iff]
  omega

/-- A move that handles nothing brings the thread nearer to what waits. -/
theorem Paced.move {cevs : List ClientEvent} (h : Paced s evs t cevs) {point : ListenPoint}
    (hack : (cevs.filterMap ClientEvent.ackMsg).length < s.acks.length →
      point.untilAck < t.point.untilAck)
    (hgetResp : (cevs.filterMap ClientEvent.getRespMsg).length < s.getResps.length →
      point.untilGetResp < t.point.untilGetResp) :
    Paced s (.listen :: evs) { t with point := point } cevs := by
  constructor
  · intro hlt
    have hbefore := h.acks hlt
    have hnearer := hack hlt
    simp only [List.count_cons_self]
    omega
  · intro hlt
    have hbefore := h.getResps hlt
    have hnearer := hgetResp hlt
    simp only [List.count_cons_self]
    omega

theorem Paced.polled {cevs : List ClientEvent} (h : Paced s evs t cevs) (hh : Handled N s evs t cevs)
    (hpoint : t.point = .poll) :
    Paced s (.listen :: evs) { t with point := .ack (!t.acks.isEmpty) (!t.getResps.isEmpty) } cevs := by
  refine h.move (fun hlt => ?_) (fun hlt => ?_)
  · have hready : t.acks.isEmpty = false := by simp [hh.acks_left hlt]
    simp only [hpoint, hready, Bool.not_false, ListenPoint.untilAck]
    omega
  · have hready : t.getResps.isEmpty = false := by simp [hh.getResps_left hlt]
    simp only [hpoint, hready, Bool.not_false, ListenPoint.untilGetResp]
    omega

theorem Paced.ack {cevs : List ClientEvent} (h : Paced s evs t cevs) {msg : Bytes} {ready1 : Bool}
    (hpoint : t.point = .ack true ready1) (hu : u.point = .getResp ready1) :
    Paced s (.listen :: evs) u (.ack msg :: cevs) := by
  constructor
  · intro hlt
    have hhandled : (ClientEvent.ack msg :: cevs).filterMap ClientEvent.ackMsg =
        msg :: cevs.filterMap ClientEvent.ackMsg := rfl
    rw [hhandled, List.length_cons] at hlt ⊢
    have hbefore := h.acks (by omega)
    rw [hpoint] at hbefore
    rw [hu, List.count_cons_self]
    simp only [ListenPoint.untilAck] at hbefore ⊢
    omega
  · intro hlt
    have hsame : (ClientEvent.ack msg :: cevs).filterMap ClientEvent.getRespMsg =
        cevs.filterMap ClientEvent.getRespMsg := rfl
    rw [hsame] at hlt ⊢
    have hbefore := h.getResps hlt
    rw [hpoint] at hbefore
    rw [hu, List.count_cons_self]
    cases ready1 <;> simp only [ListenPoint.untilGetResp] at hbefore ⊢ <;> omega

theorem Paced.getResp {cevs : List ClientEvent} (h : Paced s evs t cevs) {msg : Bytes}
    (hpoint : t.point = .getResp true) (hu : u.point = .check) :
    Paced s (.listen :: evs) u (.getResp msg :: cevs) := by
  constructor
  · intro hlt
    have hsame : (ClientEvent.getResp msg :: cevs).filterMap ClientEvent.ackMsg =
        cevs.filterMap ClientEvent.ackMsg := rfl
    rw [hsame] at hlt ⊢
    have hbefore := h.acks hlt
    rw [hpoint] at hbefore
    rw [hu, List.count_cons_self]
    simp only [ListenPoint.untilAck] at hbefore ⊢
    omega
  · intro hlt
    have hhandled : (ClientEvent.getResp msg :: cevs).filterMap ClientEvent.getRespMsg =
        msg :: cevs.filterMap ClientEvent.getRespMsg := rfl
    rw [hhandled, List.length_cons] at hlt ⊢
    have hbefore := h.getResps (by omega)
    rw [hpoint] at hbefore
    rw [hu, List.count_cons_self]
    simp only [ListenPoint.untilGetResp] at hbefore ⊢
    omega

structure PollHolds (s : ListenServer) : Prop where
  acks : ∀ ready1, s.point = .ack true ready1 → s.acks ≠ []
  getResps : ∀ ready0, s.point = .ack ready0 true ∨ s.point = .getResp true → s.getResps ≠ []

theorem PollHolds.step (h : PollHolds s) (hstep : s.step N ev = some t) : PollHolds t := by
  cases ListenServer.step_effect hstep with
  | caller ev cev n hev hnode => exact ⟨h.acks, h.getResps⟩
  | ackArrives msg => exact ⟨fun _ _ => by simp, h.getResps⟩
  | getRespArrives msg => exact ⟨h.acks, fun _ _ => by simp⟩
  | endSignal => exact ⟨h.acks, h.getResps⟩
  | polled hpoint =>
      constructor
      · intro ready1 hready
        simp only [ListenPoint.ack.injEq] at hready
        simpa using hready.1
      · intro ready0 hready
        simp only [ListenPoint.ack.injEq, reduceCtorEq, or_false] at hready
        simpa using hready.2
  | ackHandled msg rest ready1 n hpoint hacks hnode =>
      refine ⟨fun _ hready => by simp at hready, fun ready0 hready => ?_⟩
      simp only [reduceCtorEq, false_or, ListenPoint.getResp.injEq] at hready
      exact h.getResps true (.inl (hready ▸ hpoint))
  | noAck ready1 hpoint =>
      refine ⟨fun _ hready => by simp at hready, fun ready0 hready => ?_⟩
      simp only [reduceCtorEq, false_or, ListenPoint.getResp.injEq] at hready
      exact h.getResps false (.inl (hready ▸ hpoint))
  | getRespHandled msg rest n hpoint hgetResps hnode =>
      exact ⟨fun _ hready => by simp at hready, fun _ hready => by simp at hready⟩
  | noGetResp hpoint =>
      exact ⟨fun _ hready => by simp at hready, fun _ hready => by simp at hready⟩
  | checked hpoint =>
      refine ⟨fun _ hready => ?_, fun _ hready => ?_⟩
      · simp only at hready
        split at hready <;> cases hready
      · simp only at hready
        split at hready <;> simp at hready

theorem ready_start : PollHolds {} := by
  constructor
  · intro ready1 hready
    cases hready
  · intro ready0 hready
    simp at hready

theorem IsListenRun.ready (h : IsListenRun N evs s) : PollHolds s :=
  replay_induction (I := fun _ s => PollHolds s) ready_start
    (fun _ _ _ _ hI hstep => hI.step hstep) h

end Loop

end DcfsClient
