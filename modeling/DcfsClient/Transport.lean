import DcfsClient.Cluster

/-!
# What the channels and the servers keep

`Transport` is the invariant of the channels between the client and its servers. A record on its way was
put, an ack answers one arrival of a record of that name, the counted acks are those delivered, what has
arrived at a server is stored there, and no server holds or answers with a record that was not pushed.
-/

namespace DcfsClient

open Trace Exec

variable {η : Type} {N : Network}

def WasPut (evs : List (ClusterEvent η)) (srlPdu : Bytes) : Prop :=
  ∃ hash rand, .call (.put hash srlPdu) rand ∈ evs

section Puts

variable {evs : List (ClusterEvent η)} {ev : ClusterEvent η} {b b' : Bytes}

theorem WasPut.cons (h : WasPut evs b) : WasPut (ev :: evs) b := by
  obtain ⟨hash, rand, hmem⟩ := h
  exact ⟨hash, rand, List.mem_cons_of_mem ev hmem⟩

theorem PutsNamed.eq_of_hash (h : PutsNamed N evs) (hb : WasPut evs b) (hb' : WasPut evs b')
    (hhash : (N.parse b).headerHash = (N.parse b').headerHash) : b = b' := by
  obtain ⟨hash, rand, hmem⟩ := hb
  obtain ⟨hash', rand', hmem'⟩ := hb'
  rw [h.named _ _ _ hmem, h.named _ _ _ hmem'] at hhash
  subst hhash
  exact h.single _ _ _ _ _ hmem hmem'

end Puts

/-! ## What the channels and the servers keep -/

section Channels

variable {S : Servers η} {s t : Cluster S} {evs : List (ClusterEvent η)} {ev : ClusterEvent η}

def Cluster.records (N : Network) (s : Cluster S) : Multiset (Bytes × Bytes) :=
  s.requests.sent.filter (·.1 ∈ N.dcServers)

structure Transport (N : Network) (evs : List (ClusterEvent η)) (s : Cluster S) : Prop where
  recordPut : ∀ m ∈ s.records N, WasPut evs m.2
  relayed : s.acks.sent.map (fun a => (a.1, (N.parse a.2).headerHash)) =
    (s.requests.delivered.filter (·.1 ∈ N.dcServers)).map fun m =>
      (S.host m.1, (N.parse m.2).headerHash)
  ackTyped : ∀ a ∈ s.acks.sent, (N.parse a.2).header.msgtype = replicationAck
  counted : ∀ hash, s.acks.delivered.countP (fun a => (N.parse a.2).headerHash = hash) =
    acks N hash (evs.filterMap ClusterEvent.client)
  stored : ∀ m ∈ s.requests.delivered, m.1 ∈ N.dcServers →
    S.holds (s.servers (S.host m.1)) (N.parse m.2)
  heldSent : ∀ i pdu, S.holds (s.servers i) pdu → ∃ m ∈ s.records N, N.parse m.2 = pdu
  answered : ∀ host msg, .getResp host msg ∈ evs → (host, msg) ∈ s.responses.sent
  truthful : ∀ r ∈ s.responses.sent, (N.parseGetResponse r.2).success = true →
    (N.parseGetResponse r.2).freshResp = false →
    ∃ m ∈ s.records N, (N.parseGetResponse r.2).Carries (N.parse m.2)
  freshEmpty : ∀ r ∈ s.responses.sent, (N.parseGetResponse r.2).freshResp = true →
    (N.parseGetResponse r.2).hash = []

theorem transport_start (hS : S.Lawful N) : Transport N [] ({} : Cluster S) where
  recordPut m hm := by simp [Cluster.records] at hm
  relayed := rfl
  ackTyped a ha := by simp at ha
  counted hash := rfl
  stored m hm := by simp at hm
  heldSent i pdu h := absurd h (hS.start_empty pdu)
  answered host msg h := by cases h
  truthful r hr := by simp at hr
  freshEmpty r hr := by simp at hr

/-- Nothing is new but the state of the client: what it has sent and what it has been sent are as
before. -/
theorem Transport.client (h : Transport N evs s) (n : Node)
    (hacks : ∀ hash, acks N hash ((ev :: evs).filterMap ClusterEvent.client) =
      acks N hash (evs.filterMap ClusterEvent.client)) (hresp : ∀ host msg, ev ≠ .getResp host msg) :
    Transport N (ev :: evs) { s with node := n } where
  recordPut m hm := (h.recordPut m hm).cons
  relayed := h.relayed
  ackTyped := h.ackTyped
  counted hash := (h.counted hash).trans (hacks hash).symm
  stored := h.stored
  heldSent := h.heldSent
  answered host msg hmem := h.answered host msg (List.mem_of_ne_of_mem (hresp host msg).symm hmem)
  truthful := h.truthful
  freshEmpty := h.freshEmpty

theorem records_send (msgs : List (Bytes × Bytes)) (n : Node) :
    ({ s with node := n, requests := s.requests.send msgs } : Cluster S).records N =
      (msgs : Multiset (Bytes × Bytes)).filter (·.1 ∈ N.dcServers) + s.records N := by
  simp [Cluster.records, Multiset.filter_add]

theorem Transport.call (hS : S.Lawful N) (h : Transport N evs s)
    (c : ClientCall) (rand : Nat) (n : Node) (hnode : s.node.step N (.call c rand) = some n) :
    Transport N (.call c rand :: evs)
      { s with node := n, requests := s.requests.send (handedOver s.node.client n.client) } := by
  have hacks : ∀ hash, acks N hash ((ClusterEvent.call c rand :: evs).filterMap ClusterEvent.client) =
      acks N hash (evs.filterMap ClusterEvent.client) := by
    intro hash
    simp [ClusterEvent.client, acks_cons, ClientEvent.isAck]
  have hold := h.client n hacks (fun _ _ => by simp)
  have hmono : ∀ m ∈ s.records N, m ∈ ({ s with
      node := n
      requests := s.requests.send (handedOver s.node.client n.client) } : Cluster S).records N := by
    intro m hm
    rw [records_send]
    exact Multiset.mem_add.mpr (.inr hm)
  have hnew : ∀ m ∈ handedOver s.node.client n.client, m.1 ∈ N.dcServers →
      WasPut (.call c rand :: evs) m.2 := by
    intro m hm haddr
    rcases handedOver_call hnode with ⟨hash, srlPdu, rfl, -, hmsgs⟩ | hserve
    · rw [hmsgs] at hm
      obtain ⟨addr, -, rfl⟩ := List.mem_map.mp hm
      exact ⟨hash, rand, List.mem_cons_self⟩
    · exact absurd (hserve m hm) (hS.apart m.1 haddr)
  constructor
  · intro m hm
    rw [records_send] at hm
    rcases Multiset.mem_add.mp hm with hm | hm
    · obtain ⟨hm, haddr⟩ := Multiset.mem_filter.mp hm
      exact hnew m hm haddr
    · exact hold.recordPut m hm
  · exact hold.relayed
  · exact hold.ackTyped
  · exact hold.counted
  · exact hold.stored
  · intro i pdu hheld
    obtain ⟨m, hm, hpdu⟩ := hold.heldSent i pdu hheld
    exact ⟨m, hmono m hm, hpdu⟩
  · exact hold.answered
  · intro r hr hsuccess hfresh
    obtain ⟨m, hm, hcarries⟩ := hold.truthful r hr hsuccess hfresh
    exact ⟨m, hmono m hm, hcarries⟩
  · exact hold.freshEmpty

theorem Transport.serve (hS : S.Lawful N) (h : Transport N evs s)
    {addr msg : Bytes} {requests : Channel (Bytes × Bytes)} (haddr : addr ∈ N.serveServers)
    (hdel : s.requests.deliver (addr, msg) = some requests) :
    Transport N (.serve addr msg :: evs)
      { s with
        requests := requests
        responses := s.responses.send
          ((S.serve (s.servers (S.host addr)) msg).elim 0 fun resp => {(S.host addr, resp)}) } := by
  have hsent := Channel.sent_of_deliver hdel
  have hdc : addr ∉ N.dcServers := fun hdc => hS.apart addr hdc haddr
  have hresp : ∀ r ∈ (S.serve (s.servers (S.host addr)) msg).elim (0 : Multiset (η × Bytes))
      (fun resp => {(S.host addr, resp)}), S.serve (s.servers (S.host addr)) msg = some r.2 := by
    intro r hr
    cases hserve : S.serve (s.servers (S.host addr)) msg with
    | none => simp [hserve] at hr
    | some resp =>
        rw [hserve] at hr
        rw [Multiset.mem_singleton.mp hr]
  constructor
  · intro m hm
    rw [Cluster.records, hsent] at hm
    exact (h.recordPut m hm).cons
  · rw [h.relayed, Channel.delivered_of_deliver hdel, 
      Multiset.filter_cons_of_neg (p := fun m : Bytes × Bytes => m.1 ∈ N.dcServers) _ hdc]
  · exact h.ackTyped
  · exact h.counted
  · intro m hm haddr'
    rw [Channel.delivered_of_deliver hdel] at hm
    rcases Multiset.mem_cons.mp hm with rfl | hm
    · exact absurd haddr' hdc
    · exact h.stored m hm haddr'
  · intro i pdu hheld
    rw [Cluster.records, hsent]
    exact h.heldSent i pdu hheld
  · intro host resp hmem
    rw [Channel.sent_send]
    exact Multiset.mem_add.mpr (.inr (h.answered host resp (by simpa using hmem)))
  · intro r hr hsuccess hfresh
    rw [Cluster.records, hsent]
    rw [Channel.sent_send] at hr
    rcases Multiset.mem_add.mp hr with hr | hr
    · obtain ⟨pdu, hheld, hcarries⟩ := hS.serve_held _ _ _ (hresp r hr) hsuccess hfresh
      obtain ⟨m, hm, rfl⟩ := h.heldSent _ pdu hheld
      exact ⟨m, hm, hcarries⟩
    · exact h.truthful r hr hsuccess hfresh
  · intro r hr hfresh
    rw [Channel.sent_send] at hr
    rcases Multiset.mem_add.mp hr with hr | hr
    · exact hS.serve_fresh _ _ _ (hresp r hr) hfresh
    · exact h.freshEmpty r hr hfresh

variable [DecidableEq η]

/-- A record that was put stays where it is stored, whatever record arrives. -/
theorem Transport.holds_store (hS : S.Lawful N) (hputs : PutsNamed N evs) {b msg addr : Bytes}
    {i : η} (hb : WasPut evs b) (hmsg : WasPut evs msg) (h : S.holds (s.servers i) (N.parse b)) :
    S.holds (Function.update s.servers (S.host addr) (S.store (s.servers (S.host addr)) msg).1 i)
      (N.parse b) := by
  by_cases hi : i = S.host addr
  · subst hi
    rw [Function.update_self]
    by_cases hhash : (N.parse b).headerHash = (N.parse msg).headerHash
    · rw [hputs.eq_of_hash hb hmsg hhash]
      exact hS.store_new _ _
    · exact hS.store_old _ _ _ h hhash
  · rw [Function.update_of_ne hi]
    exact h

theorem Transport.store (hS : S.Lawful N) (hputs : PutsNamed N evs) (h : Transport N evs s)
    {addr msg : Bytes} {requests : Channel (Bytes × Bytes)} (haddr : addr ∈ N.dcServers)
    (hdel : s.requests.deliver (addr, msg) = some requests) :
    Transport N (.store addr msg :: evs)
      { s with
        requests := requests
        servers := Function.update s.servers (S.host addr) (S.store (s.servers (S.host addr)) msg).1
        acks := s.acks.send {(S.host addr, (S.store (s.servers (S.host addr)) msg).2)} } := by
  have hsent := Channel.sent_of_deliver hdel
  have hm : (addr, msg) ∈ s.records N := Multiset.mem_filter.mpr
    ⟨Channel.mem_sent_of_pending (Channel.pending_of_deliver hdel), haddr⟩
  have hmsg : WasPut evs msg := h.recordPut _ hm
  constructor
  · intro m hm
    rw [Cluster.records, hsent] at hm
    exact (h.recordPut m hm).cons
  · rw [Channel.sent_send, Multiset.map_add, h.relayed, Channel.delivered_of_deliver hdel,
      Multiset.filter_cons_of_pos (p := fun m : Bytes × Bytes => m.1 ∈ N.dcServers) _ haddr, Multiset.map_cons,
      Multiset.map_singleton, hS.ack_hash, Multiset.singleton_add]
  · intro a ha
    rw [Channel.sent_send] at ha
    rcases Multiset.mem_add.mp ha with ha | ha
    · rw [Multiset.mem_singleton.mp ha]
      exact hS.ack_type _ _
    · exact h.ackTyped a ha
  · exact h.counted
  · intro m hm haddr'
    rw [Channel.delivered_of_deliver hdel] at hm
    rcases Multiset.mem_cons.mp hm with rfl | hm
    · simp only [Function.update_self]
      exact hS.store_new _ _
    · have hput : WasPut evs m.2 := h.recordPut m
        (Multiset.mem_filter.mpr ⟨Channel.mem_sent_of_delivered hm, haddr'⟩)
      exact Transport.holds_store hS hputs hput hmsg (h.stored m hm haddr')
  · intro i pdu hheld
    rw [Cluster.records, hsent]
    by_cases hi : i = S.host addr
    · subst hi
      simp only [Function.update_self] at hheld
      rcases hS.store_only _ _ _ hheld with hheld | hpdu
      · exact h.heldSent _ pdu hheld
      · exact ⟨_, hm, hpdu.symm⟩
    · simp only [Function.update_of_ne hi] at hheld
      exact h.heldSent i pdu hheld
  · intro host resp hmem
    exact h.answered host resp (by simpa using hmem)
  · intro r hr hsuccess hfresh
    rw [Cluster.records, hsent]
    exact h.truthful r hr hsuccess hfresh
  · exact h.freshEmpty

theorem Transport.ack (h : Transport N evs s) {host : η} {msg : Bytes} {acks : Channel (η × Bytes)}
    {n : Node} (hdel : s.acks.deliver (host, msg) = some acks) :
    Transport N (.ack host msg :: evs) { s with node := n, acks := acks } where
  recordPut m hm := (h.recordPut m hm).cons
  relayed := by rw [Channel.sent_of_deliver hdel, h.relayed]
  ackTyped a ha := h.ackTyped a (Channel.sent_of_deliver hdel ▸ ha)
  counted hash := by
    rw [Channel.delivered_of_deliver hdel, Multiset.countP_cons, h.counted hash]
    simp only [ClusterEvent.client, List.filterMap_cons, acks_cons, ClientEvent.isAck, beq_iff_eq]
  stored := h.stored
  heldSent := h.heldSent
  answered host resp hmem := h.answered host resp (by simpa using hmem)
  truthful := h.truthful
  freshEmpty := h.freshEmpty

theorem Transport.getResp (h : Transport N evs s) {host : η} {msg : Bytes}
    {responses : Channel (η × Bytes)} {n : Node}
    (hdel : s.responses.deliver (host, msg) = some responses) :
    Transport N (.getResp host msg :: evs) { s with node := n, responses := responses } where
  recordPut m hm := (h.recordPut m hm).cons
  relayed := h.relayed
  ackTyped := h.ackTyped
  counted hash := by
    rw [h.counted hash]
    simp [ClusterEvent.client, acks_cons, ClientEvent.isAck]
  stored := h.stored
  heldSent := h.heldSent
  answered host' resp hmem := by
    simp only [Channel.sent_of_deliver hdel]
    rcases List.mem_cons.mp hmem with heq | hmem
    · cases heq
      exact Channel.mem_sent_of_pending (Channel.pending_of_deliver hdel)
    · exact h.answered host' resp hmem
  truthful r hr := h.truthful r (Channel.sent_of_deliver hdel ▸ hr)
  freshEmpty r hr := h.freshEmpty r (Channel.sent_of_deliver hdel ▸ hr)

theorem Transport.step (hS : S.Lawful N) (hputs : PutsNamed N evs) (h : Transport N evs s)
    (hstep : s.step N ev = some t) : Transport N (ev :: evs) t := by
  cases Cluster.step_effect hstep with
  | call c rand n hnode => exact h.call hS c rand n hnode
  | returned c value n hnode =>
      refine h.client n ?_ (fun _ _ => by simp)
      intro hash
      simp [ClusterEvent.client, acks_cons, ClientEvent.isAck]
  | store addr msg requests haddr hdel => exact h.store hS hputs haddr hdel
  | serve addr msg requests haddr hdel => exact h.serve hS haddr hdel
  | ack host msg acks n hdel hnode => exact h.ack hdel
  | getResp host msg responses n hdel hnode => exact h.getResp hdel

end Channels

end DcfsClient
