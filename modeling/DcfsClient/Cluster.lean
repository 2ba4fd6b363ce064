import DcfsClient.Channel
import DcfsClient.Completions

/-!
# The client among its servers

`DCServerNet` keeps every record on several servers. `mcast_dc` pushes the record to all of them, each
server that has stored it sends an ack with the record's name, and a get request goes to one server,
which answers with a record that it holds. The servers are not part of this repository. `Servers` is what
the client sees of them: how a server's state changes when a record arrives, the ack it sends, and its
answer to a request; `Servers.Lawful` is the behaviour that the client counts on.

A `Cluster` is the client, the servers and three channels between them. Its events are those of the
client and the arrival of a message at a server. Messages may be late, overtake each other and get lost,
and the servers run at any speed.
-/

namespace DcfsClient

open Trace Exec

instance : LawfulBEq Bytes := inferInstance

variable {η : Type}

/-- Servers with names in `η`. `host` is who listens at an address; `holds` are the records of a server. -/
structure Servers (η : Type) where
  State : Type
  host : Bytes → η
  start : State
  holds : State → CapsulePDU → Prop
  store : State → Bytes → State × Bytes
  serve : State → Bytes → Option Bytes

def ClientGetResponse.Carries (resp : ClientGetResponse) (pdu : CapsulePDU) : Prop :=
  resp.hash = pdu.headerHash ∧
    (resp.record = pdu ∨ resp.record = { pdu with payloadInTransit := [] })

/-- A server may replace a record by another one of that name, and forgets no other record. Every socket
for records is connected to a server of its own, and none of them is a socket for requests. -/
structure Servers.Lawful (N : Network) (S : Servers η) : Prop where
  start_empty : ∀ pdu, ¬ S.holds S.start pdu
  store_new : ∀ st msg, S.holds (S.store st msg).1 (N.parse msg)
  store_old : ∀ st msg pdu, S.holds st pdu → pdu.headerHash ≠ (N.parse msg).headerHash →
    S.holds (S.store st msg).1 pdu
  store_only : ∀ st msg pdu, S.holds (S.store st msg).1 pdu → S.holds st pdu ∨ pdu = N.parse msg
  ack_type : ∀ st msg, (N.parse (S.store st msg).2).header.msgtype = replicationAck
  ack_hash : ∀ st msg, (N.parse (S.store st msg).2).headerHash = (N.parse msg).headerHash
  serve_held : ∀ st req msg, S.serve st req = some msg → (N.parseGetResponse msg).success = true →
    (N.parseGetResponse msg).freshResp = false →
    ∃ pdu, S.holds st pdu ∧ (N.parseGetResponse msg).Carries pdu
  serve_fresh : ∀ st req msg, S.serve st req = some msg → (N.parseGetResponse msg).freshResp = true →
    (N.parseGetResponse msg).hash = []
  hosts_nodup : (N.dcServers.map S.host).Nodup
  apart : ∀ addr ∈ N.dcServers, addr ∉ N.serveServers

/-- Messages on their way to a server carry its address, those to the client the server's name. -/
structure Cluster (S : Servers η) where
  node : Node := {}
  requests : Channel (Bytes × Bytes) := {}
  servers : η → S.State := fun _ => S.start
  acks : Channel (η × Bytes) := {}
  responses : Channel (η × Bytes) := {}

inductive ClusterEvent (η : Type) where
  | call (c : ClientCall) (rand : Nat)
  | returned (c : ClientCall) (value : Option Bytes)
  | store (addr msg : Bytes)
  | serve (addr msg : Bytes)
  | ack (host : η) (msg : Bytes)
  | getResp (host : η) (msg : Bytes)
  deriving DecidableEq

def ClusterEvent.client : ClusterEvent η → Option ClientEvent
  | .call c rand => some (.call c rand)
  | .returned c value => some (.returned c value)
  | .ack _ msg => some (.ack msg)
  | .getResp _ msg => some (.getResp msg)
  | _ => none

def handedOver (c d : DCClient) : List (Bytes × Bytes) := d.sent.take (d.sent.length - c.sent.length)

namespace Cluster

variable [DecidableEq η] (N : Network) {S : Servers η}

def step (s : Cluster S) : ClusterEvent η → Option (Cluster S)
  | .call c rand => do
    let n ← s.node.step N (.call c rand)
    let msgs := handedOver s.node.client n.client
    pure { s with node := n, requests := s.requests.send msgs }
  | .returned c value => do
    let n ← s.node.step N (.returned c value)
    pure { s with node := n }
  | .store addr msg => do
    guard (addr ∈ N.dcServers)
    let requests ← s.requests.deliver (addr, msg)
    let (st, ack) := S.store (s.servers (S.host addr)) msg
    pure { s with
      requests := requests
      servers := Function.update s.servers (S.host addr) st
      acks := s.acks.send {(S.host addr, ack)} }
  | .serve addr msg => do
    guard (addr ∈ N.serveServers)
    let requests ← s.requests.deliver (addr, msg)
    let answer := S.serve (s.servers (S.host addr)) msg
    pure { s with
      requests := requests
      responses := s.responses.send (answer.elim 0 fun resp => {(S.host addr, resp)}) }
  | .ack host msg => do
    let acks ← s.acks.deliver (host, msg)
    let n ← s.node.step N (.ack msg)
    pure { s with node := n, acks := acks }
  | .getResp host msg => do
    let responses ← s.responses.deliver (host, msg)
    let n ← s.node.step N (.getResp msg)
    pure { s with node := n, responses := responses }

end Cluster

def IsClusterRun [DecidableEq η] (N : Network) (S : Servers η) (evs : List (ClusterEvent η))
    (s : Cluster S) : Prop :=
  Trace.replay (Cluster.step N) {} evs = some s

structure PutsNamed (N : Network) (evs : List (ClusterEvent η)) : Prop where
  named : ∀ hash srlPdu rand, .call (.put hash srlPdu) rand ∈ evs → (N.parse srlPdu).headerHash = hash
  single : ∀ hash srlPdu srlPdu' rand rand', .call (.put hash srlPdu) rand ∈ evs →
    .call (.put hash srlPdu') rand' ∈ evs → srlPdu = srlPdu'

/-! ## The wait of the caller -/

section Waiting

variable {N : Network} {n n' : Node} {c : ClientCall} {msg : Bytes}

theorem step_call_waiting {rand : Nat} (h : n.step N (.call c rand) = some n') :
    n.waiting = none ∧ n'.waiting = some c := by
  cases step_effect h with
  | putNew hash srlPdu rand hidle hnew => exact ⟨hidle, rfl⟩
  | putKnown hash srlPdu rand pops hidle hknown => exact ⟨hidle, rfl⟩
  | getNew hash opt rand addr hidle hfresh hnew haddr => exact ⟨hidle, rfl⟩
  | getKnown hash opt rand gops hidle hfresh hknown => exact ⟨hidle, rfl⟩

theorem step_returned_waiting {value : Option Bytes} (h : n.step N (.returned c value) = some n') :
    n.waiting = some c ∧ n'.waiting = none := by
  cases step_effect h with
  | putReturned hash srlPdu pops hwait hpops hdone => exact ⟨hwait, rfl⟩
  | getReturned hash opt gops hwait hgops hdone => exact ⟨hwait, rfl⟩

theorem step_ack_waiting (h : n.step N (.ack msg) = some n') : n'.waiting = n.waiting := by
  cases step_effect h with
  | ackCounted msg hne => rfl
  | ackCommitted msg heq => rfl

theorem step_getResp_waiting (h : n.step N (.getResp msg) = some n') : n'.waiting = n.waiting := by
  cases step_effect h with
  | response msg => rfl

end Waiting

/-! ## What an event can do -/

section Effects

variable {N : Network} {evs : List (ClusterEvent η)} {ev : ClusterEvent η}

theorem PutsNamed.tail (h : PutsNamed N (ev :: evs)) : PutsNamed N evs where
  named hash srlPdu rand hmem := h.named hash srlPdu rand (List.mem_cons_of_mem ev hmem)
  single hash srlPdu srlPdu' rand rand' hmem hmem' :=
    h.single hash srlPdu srlPdu' rand rand' (List.mem_cons_of_mem ev hmem)
      (List.mem_cons_of_mem ev hmem')

/-- Records as the middleware composes them, named by the hash of their header. -/
theorem putsNamed_of_drafts (hN : N.toPlatform.Lawful) {l : List Bytes}
    (hl : N.toPlatform.CollisionFree l)
    (hdrafts : ∀ hash srlPdu rand, .call (.put hash srlPdu) rand ∈ evs →
      ∃ r : Draft, hash = r.name N.toPlatform ∧ srlPdu = r.bytes N.toPlatform ∧
        r.strings N.toPlatform ⊆ l) : PutsNamed N evs := by
  constructor
  · intro hash srlPdu rand hmem
    obtain ⟨r, rfl, rfl, -⟩ := hdrafts hash srlPdu rand hmem
    rw [Draft.bytes, hN.parse_serialize]
    rfl
  · intro hash srlPdu srlPdu' rand rand' hmem hmem'
    obtain ⟨r, hname, rfl, hr⟩ := hdrafts hash srlPdu rand hmem
    obtain ⟨r', hname', rfl, hr'⟩ := hdrafts hash srlPdu' rand' hmem'
    rw [Draft.eq_of_name_eq hN hl hr hr' (hname.symm.trans hname')]

theorem handedOver_append {c d : DCClient} {msgs : List (Bytes × Bytes)}
    (h : d.sent = msgs ++ c.sent) : handedOver c d = msgs := by
  rw [handedOver, h, List.length_append, Nat.add_sub_cancel, List.take_left]

/-- A call hands over one record for all servers, or one request, or nothing. -/
theorem handedOver_call {c : ClientCall} {rand : Nat} {a b : Node}
    (h : a.step N (.call c rand) = some b) :
    (∃ hash srlPdu, c = .put hash srlPdu ∧ a.client.putStatus hash = none ∧
        handedOver a.client b.client = N.dcServers.map (·, srlPdu)) ∨
      ∀ m ∈ handedOver a.client b.client, m.1 ∈ N.serveServers := by
  cases DcfsClient.step_effect h with
  | putNew hash srlPdu rand hidle hnew =>
      exact .inl ⟨hash, srlPdu, rfl, hnew, handedOver_append rfl⟩
  | putKnown hash srlPdu rand pops hidle hknown => simp [handedOver]
  | getNew hash opt rand addr hidle hfresh hnew haddr =>
      refine .inr ?_
      rw [handedOver_append List.singleton_append.symm]
      intro m hm
      rw [List.mem_singleton.mp hm]
      exact haddr
  | getKnown hash opt rand gops hidle hfresh hknown => simp [handedOver]

variable [DecidableEq η] {S : Servers η} {s t : Cluster S}

inductive Cluster.Effect (N : Network) (s : Cluster S) : ClusterEvent η → Cluster S → Prop
  | call (c : ClientCall) (rand : Nat) (n : Node) (hnode : s.node.step N (.call c rand) = some n) :
      Effect N s (.call c rand)
        { s with
          node := n
          requests := s.requests.send (handedOver s.node.client n.client) }
  | returned (c : ClientCall) (value : Option Bytes) (n : Node)
      (hnode : s.node.step N (.returned c value) = some n) :
      Effect N s (.returned c value) { s with node := n }
  | store (addr msg : Bytes) (requests : Channel (Bytes × Bytes)) (haddr : addr ∈ N.dcServers)
      (hdel : s.requests.deliver (addr, msg) = some requests) :
      Effect N s (.store addr msg)
        { s with
          requests := requests
          servers := Function.update s.servers (S.host addr)
            (S.store (s.servers (S.host addr)) msg).1
          acks := s.acks.send {(S.host addr, (S.store (s.servers (S.host addr)) msg).2)} }
  | serve (addr msg : Bytes) (requests : Channel (Bytes × Bytes)) (haddr : addr ∈ N.serveServers)
      (hdel : s.requests.deliver (addr, msg) = some requests) :
      Effect N s (.serve addr msg)
        { s with
          requests := requests
          responses := s.responses.send
            ((S.serve (s.servers (S.host addr)) msg).elim 0 fun resp => {(S.host addr, resp)}) }
  | ack (host : η) (msg : Bytes) (acks : Channel (η × Bytes)) (n : Node)
      (hdel : s.acks.deliver (host, msg) = some acks) (hnode : s.node.step N (.ack msg) = some n) :
      Effect N s (.ack host msg) { s with node := n, acks := acks }
  | getResp (host : η) (msg : Bytes) (responses : Channel (η × Bytes)) (n : Node)
      (hdel : s.responses.deliver (host, msg) = some responses)
      (hnode : s.node.step N (.getResp msg) = some n) :
      Effect N s (.getResp host msg) { s with node := n, responses := responses }

theorem Cluster.step_effect (h : s.step N ev = some t) : s.Effect N ev t := by
  cases ev with
  | call c rand =>
      simp only [Cluster.step, Option.bind_eq_bind, Option.bind_eq_some_iff, Option.pure_def,
        Option.some.injEq] at h
      obtain ⟨n, hnode, rfl⟩ := h
      exact .call c rand n hnode
  | returned c value =>
      simp only [Cluster.step, Option.bind_eq_bind, Option.bind_eq_some_iff, Option.pure_def,
        Option.some.injEq] at h
      obtain ⟨n, hnode, rfl⟩ := h
      exact .returned c value n hnode
  | store addr msg =>
      simp only [Cluster.step, Option.bind_eq_bind, Option.bind_eq_some_iff, Option.guard_eq_some',
        Option.pure_def, Option.some.injEq] at h
      obtain ⟨-, haddr, requests, hdel, rfl⟩ := h
      exact .store addr msg requests haddr hdel
  | serve addr msg =>
      simp only [Cluster.step, Option.bind_eq_bind, Option.bind_eq_some_iff, Option.guard_eq_some',
        Option.pure_def, Option.some.injEq] at h
      obtain ⟨-, haddr, requests, hdel, rfl⟩ := h
      exact .serve addr msg requests haddr hdel
  | ack host msg =>
      simp only [Cluster.step, Option.bind_eq_bind, Option.bind_eq_some_iff, Option.pure_def,
        Option.some.injEq] at h
      obtain ⟨acks, hdel, n, hnode, rfl⟩ := h
      exact .ack host msg acks n hdel hnode
  | getResp host msg =>
      simp only [Cluster.step, Option.bind_eq_bind, Option.bind_eq_some_iff, Option.pure_def,
        Option.some.injEq] at h
      obtain ⟨responses, hdel, n, hnode, rfl⟩ := h
      exact .getResp host msg responses n hdel hnode

/-- The client among its servers is a client: what holds in every run of a client holds here. -/
theorem IsClusterRun.client (h : IsClusterRun N S evs s) :
    IsClientRun N (evs.filterMap ClusterEvent.client) s.node := by
  have hstart : IsClientRun N (([] : List (ClusterEvent η)).filterMap ClusterEvent.client)
      ({} : Cluster S).node := rfl
  refine replay_induction (I := fun evs s => IsClientRun N (evs.filterMap ClusterEvent.client) s.node)
    hstart ?_ h
  intro older s ev t hs hstep
  cases Cluster.step_effect hstep with
  | call c rand n hnode => exact replay_cons_eq_some.mpr ⟨s.node, hs, hnode⟩
  | returned c value n hnode => exact replay_cons_eq_some.mpr ⟨s.node, hs, hnode⟩
  | store addr msg requests haddr hdel => exact hs
  | serve addr msg requests haddr hdel => exact hs
  | ack host msg acks n hdel hnode => exact replay_cons_eq_some.mpr ⟨s.node, hs, hnode⟩
  | getResp host msg responses n hdel hnode => exact replay_cons_eq_some.mpr ⟨s.node, hs, hnode⟩

end Effects

end DcfsClient
