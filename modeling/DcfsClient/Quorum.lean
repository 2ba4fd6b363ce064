import DcfsClient.Transport

/-!
# A returned `Put` is replicated

The ack counter of the client counts messages and not servers. It comes to the same: the caller waits
while the counter is below the threshold, so until then the record was pushed once to every server; a
server acks a record once for each time it arrives, and no channel duplicates.

`PutPhase` is what becomes of one name: it is untouched, waited for, has reached the threshold, or its
`Put` has returned. The steps from one phase to the next are the call, the ack that reaches the
threshold and the return; nothing else concerns the name, and `PutPhase.frame` is about that.
-/

namespace DcfsClient

open Trace Exec

variable {η : Type} {N : Network}

/-! ## What becomes of a name -/

def Cluster.pushes {S : Servers η} (N : Network) (s : Cluster S) (hash : Bytes) :
    Multiset (Bytes × Bytes) :=
  (s.records N).filter fun m => (N.parse m.2).headerHash = hash

/-- As many servers as the threshold asks for hold the record. -/
def Cluster.Replicated {S : Servers η} (N : Network) (s : Cluster S) (srlPdu : Bytes) : Prop :=
  ∃ Q : Finset η, N.writeThreshold ≤ Q.card ∧
    ∀ i ∈ Q, (∃ addr ∈ N.dcServers, S.host addr = i) ∧ S.holds (s.servers i) (N.parse srlPdu)

inductive PutPhase {S : Servers η} (N : Network) (evs : List (ClusterEvent η)) (s : Cluster S)
    (hash : Bytes) : Prop
  | untouched (hpushes : s.pushes N hash = 0) (hentry : s.node.client.putStatus hash = none)
      (hcommits : hash ∉ s.node.client.commits)
      (hwait : ∀ b, s.node.waiting ≠ some (.put hash b))
  | waiting (b : Bytes) (pops : PutStatus) (hpushes : s.pushes N hash = (N.dcServers.map (·, b) : List _))
      (hentry : s.node.client.putStatus hash = some pops) (hdone : pops.done = false)
      (hcommits : hash ∉ s.node.client.commits) (hwait : s.node.waiting = some (.put hash b))
  | reached (b : Bytes) (pops : PutStatus) (hentry : s.node.client.putStatus hash = some pops)
      (hdone : pops.done = true) (hcommits : hash ∈ s.node.client.commits)
      (hwait : s.node.waiting = some (.put hash b)) (hreplicated : s.Replicated N b)
  | returned (b : Bytes) (value : Option Bytes) (hev : .returned (.put hash b) value ∈ evs)
      (hentry : ∀ pops, s.node.client.putStatus hash = some pops → pops.done = false)
      (hcommits : hash ∈ s.node.client.commits)

structure QuorumInv {S : Servers η} (N : Network) (evs : List (ClusterEvent η)) (s : Cluster S) :
    Prop where
  transport : Transport N evs s
  called : ∀ c, s.node.waiting = some c → ∃ rand, .call c rand ∈ evs
  phase : ∀ hash, PutPhase N evs s hash
  replicated : ∀ hash b value, .returned (.put hash b) value ∈ evs →
    WasPut evs b ∧ s.Replicated N b

section Phases

variable {S : Servers η} {s t : Cluster S} {evs : List (ClusterEvent η)} {ev : ClusterEvent η}
  {hash b : Bytes}

theorem pushes_congr (h : t.requests.sent = s.requests.sent) : t.pushes N hash = s.pushes N hash := by
  rw [Cluster.pushes, Cluster.pushes, Cluster.records, Cluster.records, h]

/-- Nothing that concerns `hash` has changed. -/
theorem PutPhase.frame (h : PutPhase N evs s hash) (hpushes : t.pushes N hash = s.pushes N hash)
    (hentry : t.node.client.putStatus hash = s.node.client.putStatus hash)
    (hcommits : hash ∈ t.node.client.commits ↔ hash ∈ s.node.client.commits)
    (hwait : ∀ b, t.node.waiting = some (.put hash b) ↔ s.node.waiting = some (.put hash b))
    (hreplicated : ∀ b, s.node.waiting = some (.put hash b) → s.Replicated N b → t.Replicated N b) :
    PutPhase N (ev :: evs) t hash := by
  cases h with
  | untouched hpushes' hentry' hcommits' hwait' =>
      refine .untouched (hpushes.trans hpushes') (hentry.trans hentry') ?_ ?_
      · exact fun hmem => hcommits' (hcommits.mp hmem)
      · exact fun b hb => hwait' b ((hwait b).mp hb)
  | waiting b pops hpushes' hentry' hdone hcommits' hwait' =>
      refine .waiting b pops (hpushes.trans hpushes') (hentry.trans hentry') hdone ?_ ?_
      · exact fun hmem => hcommits' (hcommits.mp hmem)
      · exact (hwait b).mpr hwait'
  | reached b pops hentry' hdone hcommits' hwait' hrep =>
      exact .reached b pops (hentry.trans hentry') hdone (hcommits.mpr hcommits')
        ((hwait b).mpr hwait') (hreplicated b hwait' hrep)
  | returned b value hev hentry' hcommits' =>
      refine .returned b value (List.mem_cons_of_mem ev hev) ?_ (hcommits.mpr hcommits')
      intro pops hpops
      exact hentry' pops (hentry.symm.trans hpops)

/-- Acks for a record that was pushed once to every server come from as many servers as there are
acks. -/
theorem Transport.replicated [DecidableEq η] (hS : S.Lawful N) (h : Transport N evs s)
    (hpushes : s.pushes N hash = (N.dcServers.map (·, b) : List _))
    (hacks : N.writeThreshold ≤ s.acks.delivered.countP fun a => (N.parse a.2).headerHash = hash) :
    s.Replicated N b := by
  have hrelayed : (s.acks.sent.filter fun a => (N.parse a.2).headerHash = hash).map Prod.fst =
      ((s.requests.delivered.filter (·.1 ∈ N.dcServers)).filter
        fun m => (N.parse m.2).headerHash = hash).map fun m => S.host m.1 := by
    have hkeys := congrArg (fun keys => (keys.filter (·.2 = hash)).map Prod.fst) h.relayed
    simpa only [Multiset.filter_map, Multiset.map_map, Function.comp_def] using hkeys
  have hle : (s.acks.sent.filter fun a => (N.parse a.2).headerHash = hash).map Prod.fst ≤
      (N.dcServers.map S.host : List η) := by
    have hdel : (s.requests.delivered.filter (·.1 ∈ N.dcServers)).filter
        (fun m => (N.parse m.2).headerHash = hash) ≤ s.pushes N hash :=
      Multiset.filter_le_filter _ (Multiset.filter_le_filter _ Channel.delivered_le)
    have hhosts := Multiset.map_le_map (f := fun m => S.host m.1) (hpushes ▸ hdel)
    rw [Multiset.map_coe, List.map_map] at hhosts
    rw [hrelayed]
    exact hhosts
  have hnodup := Multiset.nodup_of_le hle (Multiset.coe_nodup.mpr hS.hosts_nodup)
  refine ⟨((s.acks.delivered.filter fun a => (N.parse a.2).headerHash = hash).map
    Prod.fst).toFinset, ?_, ?_⟩
  · rw [Channel.card_senders hnodup]
    exact hacks
  · intro i hi
    have hi : i ∈ (s.acks.sent.filter fun a => (N.parse a.2).headerHash = hash).map Prod.fst :=
      Multiset.mem_of_le (Multiset.map_le_map (Multiset.filter_le_filter _ Channel.delivered_le))
        (Multiset.mem_toFinset.mp hi)
    rw [hrelayed] at hi
    obtain ⟨m, hm, rfl⟩ := Multiset.mem_map.mp hi
    obtain ⟨hm, hhash⟩ := Multiset.mem_filter.mp hm
    obtain ⟨hm, haddr⟩ := Multiset.mem_filter.mp hm
    have hpush : m ∈ s.pushes N hash := Multiset.mem_filter.mpr
      ⟨Multiset.mem_filter.mpr ⟨Channel.mem_sent_of_delivered hm, haddr⟩, hhash⟩
    rw [hpushes] at hpush
    obtain ⟨addr, -, rfl⟩ := List.mem_map.mp (Multiset.mem_coe.mp hpush)
    exact ⟨⟨addr, haddr, rfl⟩, h.stored _ hm haddr⟩

theorem Cluster.Replicated.of_servers (h : s.Replicated N b) (hservers : t.servers = s.servers) :
    t.Replicated N b := by
  obtain ⟨Q, hcard, hQ⟩ := h
  refine ⟨Q, hcard, fun i hi => ?_⟩
  rw [hservers]
  exact hQ i hi

theorem pushes_send (msgs : List (Bytes × Bytes)) (n : Node) :
    ({ s with node := n, requests := s.requests.send msgs } : Cluster S).pushes N hash =
      ((msgs : Multiset (Bytes × Bytes)).filter (·.1 ∈ N.dcServers)).filter
        (fun m => (N.parse m.2).headerHash = hash) + s.pushes N hash := by
  rw [Cluster.pushes, records_send, Multiset.filter_add]
  rfl

/-- A request to a server is no push. -/
theorem pushes_request (hS : S.Lawful N) (n : Node) {msgs : List (Bytes × Bytes)}
    (hserve : ∀ m ∈ msgs, m.1 ∈ N.serveServers) :
    ({ s with node := n, requests := s.requests.send msgs } : Cluster S).pushes N hash =
      s.pushes N hash := by
  have hnone : (msgs : Multiset (Bytes × Bytes)).filter (·.1 ∈ N.dcServers) = 0 := by
    rw [Multiset.filter_eq_nil]
    exact fun m hm haddr => hS.apart m.1 haddr (hserve m hm)
  rw [pushes_send, hnone, Multiset.filter_zero, zero_add]

/-- A record that is handed to every server is pushed under its own name. -/
theorem pushes_record (n : Node) :
    ({ s with node := n, requests := s.requests.send (N.dcServers.map (·, b) : List _) } :
      Cluster S).pushes N hash =
      if (N.parse b).headerHash = hash then ((N.dcServers.map (·, b) : List _) : Multiset _) +
        s.pushes N hash else s.pushes N hash := by
  have hall : ((N.dcServers.map (·, b) : List _) : Multiset (Bytes × Bytes)).filter
      (·.1 ∈ N.dcServers) = (N.dcServers.map (·, b) : List _) := by
    rw [Multiset.filter_eq_self]
    intro m hm
    obtain ⟨addr, haddr, rfl⟩ := List.mem_map.mp (Multiset.mem_coe.mp hm)
    exact haddr
  rw [pushes_send, hall]
  split
  next hhash =>
    congr 1
    rw [Multiset.filter_eq_self]
    intro m hm
    obtain ⟨addr, -, rfl⟩ := List.mem_map.mp (Multiset.mem_coe.mp hm)
    exact hhash
  next hhash =>
    have hnone : ((N.dcServers.map (·, b) : List _) : Multiset (Bytes × Bytes)).filter
        (fun m => (N.parse m.2).headerHash = hash) = 0 := by
      rw [Multiset.filter_eq_nil]
      intro m hm hm'
      obtain ⟨addr, -, rfl⟩ := List.mem_map.mp (Multiset.mem_coe.mp hm)
      exact hhash hm'
    rw [hnone, zero_add]

theorem PutPhase.call (hS : S.Lawful N) (h : PutPhase N evs s hash) {c : ClientCall} {rand : Nat}
    {n : Node} (hnamed : ∀ hash' b, c = .put hash' b → (N.parse b).headerHash = hash')
    (hnode : s.node.step N (.call c rand) = some n) :
    PutPhase N (.call c rand :: evs)
      { s with node := n, requests := s.requests.send (handedOver s.node.client n.client) } hash := by
  cases DcfsClient.step_effect hnode with
  | putNew hash' b rand hidle hnew =>
      rw [handedOver_append rfl]
      have hname := hnamed hash' b rfl
      by_cases hhash : hash' = hash
      · subst hhash
        cases h with
        | untouched hpushes hentry hcommits hwait =>
            refine .waiting b {} ?_ (Function.update_self _ _ _) rfl hcommits rfl
            rw [pushes_record, if_pos hname, hpushes, add_zero]
        | waiting b' pops hpushes hentry hdone hcommits hwait =>
            rw [hnew] at hentry
            cases hentry
        | reached b' pops hentry hdone hcommits hwait hrep =>
            rw [hnew] at hentry
            cases hentry
        | returned b' value hev hentry hcommits =>
            refine .returned b' value (List.mem_cons_of_mem _ hev) ?_ hcommits
            intro pops hpops
            simp only [Function.update_self, Option.some.injEq] at hpops
            rw [← hpops]
      · refine h.frame ?_ (Function.update_of_ne (Ne.symm hhash) _ _) Iff.rfl ?_ ?_
        · rw [pushes_record, hname, if_neg hhash]
        · simp [hidle, hhash]
        · intro b' hwait
          rw [hidle] at hwait
          cases hwait
  | putKnown hash' b rand pops hidle hknown =>
      rw [handedOver_append (List.nil_append _).symm]
      by_cases hhash : hash' = hash
      · subst hhash
        cases h with
        | untouched hpushes hentry hcommits hwait =>
            rw [hknown] at hentry
            cases hentry
        | waiting b' pops hpushes hentry hdone hcommits hwait =>
            rw [hidle] at hwait
            cases hwait
        | reached b' pops hentry hdone hcommits hwait hrep =>
            rw [hidle] at hwait
            cases hwait
        | returned b' value hev hentry hcommits =>
            exact .returned b' value (List.mem_cons_of_mem _ hev) hentry hcommits
      · refine h.frame (pushes_request hS _ (by simp)) rfl Iff.rfl ?_ ?_
        · simp [hidle, hhash]
        · intro b' hwait
          rw [hidle] at hwait
          cases hwait
  | getNew hash' opt rand addr hidle hfresh hnew haddr =>
      rw [handedOver_append List.singleton_append.symm]
      refine h.frame (pushes_request hS _ (by simpa using haddr)) rfl Iff.rfl (by simp [hidle]) ?_
      intro b' hwait
      rw [hidle] at hwait
      cases hwait
  | getKnown hash' opt rand gops hidle hfresh hknown =>
      rw [handedOver_append (List.nil_append _).symm]
      refine h.frame (pushes_request hS _ (by simp)) rfl Iff.rfl (by simp [hidle]) ?_
      intro b' hwait
      rw [hidle] at hwait
      cases hwait

theorem PutPhase.leave (h : PutPhase N evs s hash) {c : ClientCall} {value : Option Bytes} {n : Node}
    (hnode : s.node.step N (.returned c value) = some n) :
    PutPhase N (.returned c value :: evs) { s with node := n } hash := by
  cases DcfsClient.step_effect hnode with
  | putReturned hash' b pops hwait hpops hdone =>
      by_cases hhash : hash' = hash
      · subst hhash
        have hgone : ∀ pops, Function.update s.node.client.putStatus hash' none hash' = some pops →
            pops.done = false := by simp
        cases h with
        | untouched hpushes hentry hcommits hwait' =>
            rw [hpops] at hentry
            cases hentry
        | waiting b' pops' hpushes hentry hdone' hcommits hwait' =>
            rw [hpops, Option.some.injEq] at hentry
            rw [hentry, hdone'] at hdone
            cases hdone
        | reached b' pops' hentry hdone' hcommits hwait' hrep =>
            exact .returned b none List.mem_cons_self hgone hcommits
        | returned b' value hev hentry hcommits =>
            exact .returned b' value (List.mem_cons_of_mem _ hev) hgone hcommits
      · refine h.frame rfl (Function.update_of_ne (Ne.symm hhash) _ _) Iff.rfl ?_ ?_
        · simp [hwait, hhash]
        · intro b' hwait'
          rw [hwait] at hwait'
          cases hwait'
          exact absurd rfl hhash
  | getReturned hash' opt gops hwait hgops hdone =>
      refine h.frame rfl rfl Iff.rfl (by simp [hwait]) ?_
      intro b' hwait'
      rw [hwait] at hwait'
      cases hwait'

theorem markPut_entry (c : DCClient) {hash' : Bytes} (hne : hash ≠ hash') :
    (c.markPut hash').putStatus hash = c.putStatus hash := Function.update_of_ne hne _ _

theorem PutPhase.getResp (h : PutPhase N evs s hash) {host : η} {msg : Bytes}
    {responses : Channel (η × Bytes)} {n : Node} (hnode : s.node.step N (.getResp msg) = some n) :
    PutPhase N (.getResp host msg :: evs) { s with node := n, responses := responses } hash := by
  cases DcfsClient.step_effect hnode with
  | response _ =>
      obtain ⟨-, hcommits, hput⟩ := markGet_rest s.node.client ((N.parseGetResponse msg).answer N)
      refine h.frame rfl (by rw [hput]) (by rw [hcommits]) (fun _ => Iff.rfl) ?_
      exact fun b _ hrep => hrep.of_servers rfl

/-- The servers and what has returned are as before, and a call that the caller waits in is in the
trace. -/
theorem QuorumInv.quiet (h : QuorumInv N evs s) (htr : Transport N (ev :: evs) t)
    (hphase : ∀ hash, PutPhase N (ev :: evs) t hash) (hservers : t.servers = s.servers)
    (hcalled : ∀ c, t.node.waiting = some c → s.node.waiting = some c ∨ ∃ rand, ev = .call c rand)
    (hreturned : ∀ c value, ev ≠ .returned c value) : QuorumInv N (ev :: evs) t := by
  refine ⟨htr, ?_, hphase, ?_⟩
  · intro c hc
    rcases hcalled c hc with hc | ⟨rand, rfl⟩
    · obtain ⟨rand, hmem⟩ := h.called c hc
      exact ⟨rand, List.mem_cons_of_mem _ hmem⟩
    · exact ⟨rand, List.mem_cons_self⟩
  · intro hash b value hmem
    have hmem := List.mem_of_ne_of_mem (hreturned _ _).symm hmem
    obtain ⟨hput, hrep⟩ := h.replicated hash b value hmem
    exact ⟨hput.cons, hrep.of_servers hservers⟩

theorem QuorumInv.leave (htr : Transport N (ev :: evs) t) (h : QuorumInv N evs s) {c : ClientCall}
    {value : Option Bytes} {n : Node} (hev : ev = .returned c value) (ht : t = { s with node := n })
    (hnode : s.node.step N (.returned c value) = some n) : QuorumInv N (ev :: evs) t := by
  subst hev ht
  have hidle : n.waiting = none := by
    cases DcfsClient.step_effect hnode with
    | putReturned _ _ _ _ _ _ => rfl
    | getReturned _ _ _ _ _ _ => rfl
  refine ⟨htr, ?_, fun hash => (h.phase hash).leave hnode, ?_⟩
  · intro c hc
    rw [hidle] at hc
    cases hc
  · intro hash b value' hmem
    rcases List.mem_cons.mp hmem with heq | hmem
    · cases heq
      cases DcfsClient.step_effect hnode with
      | putReturned _ _ pops hwait hpops hdone =>
          obtain ⟨rand, hcall⟩ := h.called _ hwait
          refine ⟨WasPut.cons ⟨hash, rand, hcall⟩, ?_⟩
          cases h.phase hash with
          | untouched hpushes hentry hcommits hwait' =>
              rw [hpops] at hentry
              cases hentry
          | waiting b' pops' hpushes hentry hdone' hcommits hwait' =>
              rw [hpops, Option.some.injEq] at hentry
              rw [hentry, hdone'] at hdone
              cases hdone
          | reached b' pops' hentry hdone' hcommits hwait' hrep =>
              rw [hwait, Option.some.injEq, ClientCall.put.injEq] at hwait'
              rw [hwait'.2]
              exact hrep.of_servers rfl
          | returned b' value hev hentry hcommits =>
              rw [hentry pops hpops] at hdone
              cases hdone
    · obtain ⟨hput, hrep⟩ := h.replicated hash b value' hmem
      exact ⟨hput.cons, hrep.of_servers rfl⟩

theorem quorumInv_start (hS : S.Lawful N) : QuorumInv N [] ({} : Cluster S) where
  transport := transport_start hS
  called c h := by cases h
  phase hash := .untouched rfl rfl List.not_mem_nil (fun b h => by cases h)
  replicated hash b value h := by cases h

theorem mem_client_getResp {msg : Bytes} (h : .getResp msg ∈ evs.filterMap ClusterEvent.client) :
    ∃ host, .getResp host msg ∈ evs := by
  obtain ⟨ev, hmem, hev⟩ := List.mem_filterMap.mp h
  cases ev with
  | getResp host msg' =>
      cases hev
      exact ⟨host, hmem⟩
  | call c rand => cases hev
  | returned c value => cases hev
  | store addr msg' => cases hev
  | serve addr msg' => cases hev
  | ack host msg' => cases hev

/-- A response that the client has handled is about a record that was put before. -/
theorem Transport.brought_wasPut {older : List (ClusterEvent η)} {s : Cluster S}
    (h : Transport N older s) {opt : DCGetOptions} {srlPdu : Bytes}
    (hbrought : BroughtRecord N (older.filterMap ClusterEvent.client) hash opt srlPdu) :
    ∃ b, WasPut older b ∧ (N.parse b).headerHash = hash ∧
      srlPdu = N.serialize (if opt.isMetaonlyReq then { N.parse b with payloadInTransit := [] }
        else N.parse b) := by
  obtain ⟨msg, hmem, hsuccess, hfresh, hhash, hkind, rfl⟩ := hbrought
  obtain ⟨host, hmem⟩ := mem_client_getResp hmem
  obtain ⟨m, hm, hname, hrecord⟩ := h.truthful _ (h.answered host msg hmem) hsuccess hfresh
  refine ⟨m.2, h.recordPut m hm, hname.symm.trans hhash, ?_⟩
  congr 1
  split
  next hmeta =>
    have hempty := hkind.mpr hmeta
    rcases hrecord with hrecord | hrecord
    · rw [hrecord] at hempty ⊢
      rw [← hempty]
    · exact hrecord
  next hmeta =>
    rcases hrecord with hrecord | hrecord
    · exact hrecord
    · exact absurd (hkind.mp (by rw [hrecord])) hmeta

theorem Transport.freshEmpty_client {older : List (ClusterEvent η)} {s : Cluster S}
    (h : Transport N older s) : FreshEmpty N (older.filterMap ClusterEvent.client) := by
  intro msg hmem hfresh
  obtain ⟨host, hmem⟩ := mem_client_getResp hmem
  exact h.freshEmpty _ (h.answered host msg hmem) hfresh

variable [DecidableEq η]

/-- The ack that reaches the threshold is for a record that the caller waits for. -/
theorem PutPhase.ack (hS : S.Lawful N) (htr : Transport N evs s)
    (hinv : NodeInv N (evs.filterMap ClusterEvent.client) s.node) (h : PutPhase N evs s hash)
    {host : η} {msg : Bytes} {acks : Channel (η × Bytes)} {n : Node}
    (hdel : s.acks.deliver (host, msg) = some acks) (hnode : s.node.step N (.ack msg) = some n) :
    PutPhase N (.ack host msg :: evs) { s with node := n, acks := acks } hash := by
  have htr' := htr.ack (n := n) hdel
  cases DcfsClient.step_effect hnode with
  | ackCounted _ hne =>
      refine h.frame rfl rfl Iff.rfl (fun _ => Iff.rfl) ?_
      exact fun b _ hrep => hrep.of_servers rfl
  | ackCommitted _ heq =>
      by_cases hhash : (N.parse msg).headerHash = hash
      · subst hhash
        have hfresh : (N.parse msg).headerHash ∉ s.node.client.commits := by
          intro hmem
          have hle := hinv.committed _ hmem
          rw [← hinv.counted] at hle
          omega
        cases h with
        | untouched hpushes hentry hcommits hwait =>
            -- such an ack answers a push
            have hack : (host, (N.parse msg).headerHash) ∈
                s.acks.sent.map fun a => (a.1, (N.parse a.2).headerHash) :=
              Multiset.mem_map_of_mem (fun a => (a.1, (N.parse a.2).headerHash))
                (Channel.mem_sent_of_pending (Channel.pending_of_deliver hdel))
            rw [htr.relayed] at hack
            obtain ⟨m, hm, hkey⟩ := Multiset.mem_map.mp hack
            obtain ⟨hm, haddr⟩ := Multiset.mem_filter.mp hm
            have hpush : m ∈ s.pushes N (N.parse msg).headerHash := Multiset.mem_filter.mpr
              ⟨Multiset.mem_filter.mpr ⟨Channel.mem_sent_of_delivered hm, haddr⟩,
                congrArg Prod.snd hkey⟩
            rw [hpushes] at hpush
            exact absurd hpush (Multiset.notMem_zero m)
        | waiting b pops hpushes hentry hdone hcommits hwait =>
            have hentry' : ∃ pops, (({ s.node.client with
                recvAckMap := Function.update s.node.client.recvAckMap (N.parse msg).headerHash
                  (s.node.client.recvAckMap (N.parse msg).headerHash + 1)
                commits := (N.parse msg).headerHash :: s.node.client.commits } : DCClient).markPut
                (N.parse msg).headerHash).putStatus (N.parse msg).headerHash = some pops ∧
                pops.done = true := by
              simp [DCClient.markPut, hentry]
            obtain ⟨pops', hentry', hdone'⟩ := hentry'
            refine .reached b pops' hentry' hdone' List.mem_cons_self hwait ?_
            refine htr'.replicated hS hpushes ?_
            rw [Channel.delivered_of_deliver hdel, Multiset.countP_cons, htr.counted,
              ← hinv.counted, if_pos rfl, heq]
        | reached b pops hentry hdone hcommits hwait hrep => exact absurd hcommits hfresh
        | returned b value hev hentry hcommits => exact absurd hcommits hfresh
      · refine h.frame rfl (markPut_entry _ (Ne.symm hhash)) ?_ (fun _ => Iff.rfl) ?_
        · simp [DCClient.markPut, Ne.symm hhash]
        · exact fun b _ hrep => hrep.of_servers rfl

theorem QuorumInv.store (hS : S.Lawful N) (hputs : PutsNamed N evs) (h : QuorumInv N evs s)
    {addr msg : Bytes} {requests : Channel (Bytes × Bytes)} (haddr : addr ∈ N.dcServers)
    (hdel : s.requests.deliver (addr, msg) = some requests) :
    QuorumInv N (.store addr msg :: evs)
      { s with
        requests := requests
        servers := Function.update s.servers (S.host addr) (S.store (s.servers (S.host addr)) msg).1
        acks := s.acks.send {(S.host addr, (S.store (s.servers (S.host addr)) msg).2)} } := by
  have hmsg : WasPut evs msg := h.transport.recordPut (addr, msg) (Multiset.mem_filter.mpr
    ⟨Channel.mem_sent_of_pending (Channel.pending_of_deliver hdel), haddr⟩)
  have hkeeps : ∀ b, WasPut evs b → s.Replicated N b → ({ s with
      requests := requests
      servers := Function.update s.servers (S.host addr) (S.store (s.servers (S.host addr)) msg).1
      acks := s.acks.send {(S.host addr, (S.store (s.servers (S.host addr)) msg).2)} } :
      Cluster S).Replicated N b := by
    intro b hb hrep
    obtain ⟨Q, hcard, hQ⟩ := hrep
    refine ⟨Q, hcard, fun i hi => ⟨(hQ i hi).1, ?_⟩⟩
    exact Transport.holds_store hS hputs hb hmsg (hQ i hi).2
  constructor
  · exact h.transport.store hS hputs haddr hdel
  · intro c hc
    obtain ⟨rand, hmem⟩ := h.called c hc
    exact ⟨rand, List.mem_cons_of_mem _ hmem⟩
  · intro hash
    refine (h.phase hash).frame (pushes_congr (Channel.sent_of_deliver hdel)) rfl Iff.rfl
      (fun _ => Iff.rfl) ?_
    intro b hwait hrep
    obtain ⟨rand, hmem⟩ := h.called _ hwait
    exact hkeeps b ⟨hash, rand, hmem⟩ hrep
  · intro hash b value hmem
    obtain ⟨hput, hrep⟩ := h.replicated hash b value (by simpa using hmem)
    exact ⟨hput.cons, hkeeps b hput hrep⟩

theorem QuorumInv.step (hS : S.Lawful N) (hputs : PutsNamed N (ev :: evs))
    (hinv : NodeInv N (evs.filterMap ClusterEvent.client) s.node) (h : QuorumInv N evs s)
    (hstep : s.step N ev = some t) : QuorumInv N (ev :: evs) t := by
  have htr := h.transport.step hS hputs.tail hstep
  cases Cluster.step_effect hstep with
  | call c rand n hnode =>
      have hnamed : ∀ hash b, c = .put hash b → (N.parse b).headerHash = hash := by
        intro hash b hc
        exact hputs.named hash b rand (hc ▸ List.mem_cons_self)
      have hwait : n.waiting = some c := by
        cases DcfsClient.step_effect hnode with
        | putNew _ _ _ _ _ => rfl
        | putKnown _ _ _ _ _ _ => rfl
        | getNew _ _ _ _ _ _ _ _ => rfl
        | getKnown _ _ _ _ _ _ _ => rfl
      refine h.quiet htr (fun hash => (h.phase hash).call hS hnamed hnode) rfl ?_ (by simp)
      intro c' hc'
      rw [hwait] at hc'
      cases hc'
      exact .inr ⟨rand, rfl⟩
  | returned c value n hnode => exact h.leave htr rfl rfl hnode
  | store addr msg requests haddr hdel => exact h.store hS hputs.tail haddr hdel
  | serve addr msg requests haddr hdel =>
      refine h.quiet htr ?_ rfl (fun _ hc => .inl hc) (by simp)
      intro hash
      refine (h.phase hash).frame (pushes_congr (Channel.sent_of_deliver hdel)) rfl Iff.rfl
        (fun _ => Iff.rfl) ?_
      exact fun b _ hrep => hrep.of_servers rfl
  | ack host msg acks n hdel hnode =>
      have hwait : n.waiting = s.node.waiting := step_ack_waiting hnode
      refine h.quiet htr ?_ rfl (fun c hc => .inl (hwait ▸ hc)) (by simp)
      exact fun hash => (h.phase hash).ack hS h.transport hinv hdel hnode
  | getResp host msg responses n hdel hnode =>
      have hwait : n.waiting = s.node.waiting := step_getResp_waiting hnode
      refine h.quiet htr ?_ rfl (fun c hc => .inl (hwait ▸ hc)) (by simp)
      exact fun hash => (h.phase hash).getResp hnode

theorem IsClusterRun.inv (hS : S.Lawful N) (hrun : IsClusterRun N S evs s) (hputs : PutsNamed N evs) :
    QuorumInv N evs s := by
  have hinv : IsClusterRun N S evs s ∧ (PutsNamed N evs → QuorumInv N evs s) := by
    have hstart : IsClusterRun N S [] {} ∧ (PutsNamed N ([] : List (ClusterEvent η)) →
        QuorumInv N [] ({} : Cluster S)) :=
      ⟨rfl, fun _ => quorumInv_start hS⟩
    refine replay_induction (I := fun evs s => IsClusterRun N S evs s ∧
      (PutsNamed N evs → QuorumInv N evs s)) hstart ?_ hrun
    intro older s ev t hI hstep
    refine ⟨replay_cons_eq_some.mpr ⟨s, hI.1, hstep⟩, fun hputs => ?_⟩
    exact (hI.2 hputs.tail).step hS hputs hI.1.client.inv hstep
  exact hinv.2 hputs

/-- A record whose `Put` has returned is on as many servers as the threshold asks for, then and for
ever. -/
theorem returned_put_replicated (hS : S.Lawful N) (hrun : IsClusterRun N S evs s)
    (hputs : PutsNamed N evs) {srlPdu : Bytes} {value : Option Bytes}
    (hreturned : .returned (.put hash srlPdu) value ∈ evs) : s.Replicated N srlPdu :=
  ((hrun.inv hS hputs).replicated hash srlPdu value hreturned).2

theorem IsClusterRun.get_brings (hS : S.Lawful N) (hrun : IsClusterRun N S evs s)
    (hputs : PutsNamed N evs) {opt : DCGetOptions} {srlPdu : Bytes}
    (hstep : s.step N (.returned (.get hash opt) (some srlPdu)) = some t) (hne : hash ≠ []) :
    ∃ b rand, .call (.put hash b) rand ∈ evs ∧
      srlPdu = N.serialize (if opt.isMetaonlyReq then { N.parse b with payloadInTransit := [] }
        else N.parse b) := by
  have htr := (hrun.inv hS hputs).transport
  cases Cluster.step_effect hstep with
  | returned _ _ n hnode =>
      have hdelivered := hrun.client.inv.get_returned hnode
      have hbrought := hdelivered.broughtRecord htr.freshEmpty_client hne
      obtain ⟨b, hput, hname, hsrl⟩ := htr.brought_wasPut hbrought
      obtain ⟨hash', rand, hmem⟩ := hput
      have hnamed := hputs.named hash' b rand hmem
      rw [hname] at hnamed
      subst hnamed
      exact ⟨b, rand, hmem, hsrl⟩

end Phases

/-! ## Three servers to compute with -/

namespace Reference

def clusterNetwork : Network :=
  { network 2 with dcServers := [[3], [4], [5]], serveServers := [[6], [7], [8]] }

def servers : Servers Nat where
  State := List CapsulePDU
  host addr := (addr.headD 0).toNat % 3
  start := []
  holds st pdu := pdu ∈ st
  store st msg := (decPDU msg :: st, ackOf (decPDU msg).headerHash)
  serve st req :=
    let hash := (decBytes (req.drop 2)).1
    some (encGetResponse ((st.find? (·.headerHash == hash)).elim { hash := hash } fun pdu =>
      { success := true, hash := hash,
        record := if req[1]? == some 1 then { pdu with payloadInTransit := [] } else pdu }))

theorem servers_lawful : servers.Lawful clusterNetwork where
  start_empty _ := List.not_mem_nil
  store_new _ _ := List.mem_cons_self
  store_old _ _ _ h _ := List.mem_cons_of_mem _ h
  store_only _ _ _ h := (List.mem_cons.mp h).symm
  ack_type st msg := congrArg (·.header.msgtype) (decPDU_encPDU _)
  ack_hash st msg := congrArg (·.headerHash) (decPDU_encPDU _)
  serve_held st req msg h hsuccess _ := by
    obtain rfl := Option.some.inj h
    simp only [clusterNetwork, network, decGetResponse_encGetResponse] at hsuccess ⊢
    cases hfind : st.find? (·.headerHash == (decBytes (req.drop 2)).1) with
    | none =>
        rw [hfind] at hsuccess
        cases hsuccess
    | some pdu =>
        have hname : pdu.headerHash = (decBytes (req.drop 2)).1 := by
          simpa using List.find?_some hfind
        refine ⟨pdu, List.mem_of_find?_eq_some hfind, hname.symm, ?_⟩
        simp only [Option.elim_some]
        split
        next => exact .inr rfl
        next => exact .inl rfl
  serve_fresh st req msg h hfresh := by
    obtain rfl := Option.some.inj h
    simp only [clusterNetwork, network, decGetResponse_encGetResponse] at hfresh ⊢
    cases hfind : st.find? (·.headerHash == (decBytes (req.drop 2)).1) with
    | none =>
        rw [hfind] at hfresh
        cases hfresh
    | some pdu =>
        rw [hfind] at hfresh
        cases hfresh
  hosts_nodup := by decide
  apart := by decide

end Reference

def sentDraft : Draft := ⟨.datablock, [Reference.fileAt 5], some [8], 6⟩

def sentName : Bytes := sentDraft.name Reference.platform

def sentRecord : Bytes := sentDraft.bytes Reference.platform

/-- Two of three servers store and ack a record, and a third time it is read from one of them. -/
def putTwoGet : List (ClusterEvent Nat) :=
  [ .returned (.get sentName ⟨false, false⟩) (some sentRecord),
    .getResp 1 (Reference.encGetResponse
      { success := true, hash := sentName, record := sentDraft.pdu Reference.platform }),
    .serve [7] (Reference.clusterNetwork.serializeGetRequest ⟨sentName, [2], false, false⟩),
    .call (.get sentName ⟨false, false⟩) 1,
    .returned (.put sentName sentRecord) none,
    .ack 0 (Reference.ackOf sentName),
    .ack 1 (Reference.ackOf sentName),
    .store [3] sentRecord,
    .store [4] sentRecord,
    .call (.put sentName sentRecord) 0 ]

theorem putTwoGet_collisionFree :
    Reference.platform.CollisionFree (sentDraft.strings Reference.platform) :=
  .of_nodup (by decide +kernel)

theorem putTwoGet_drafts (hash srlPdu : Bytes) (rand : Nat)
    (h : .call (.put hash srlPdu) rand ∈ putTwoGet) :
    ∃ r : Draft, hash = r.name Reference.platform ∧ srlPdu = r.bytes Reference.platform ∧
      r.strings Reference.platform ⊆ sentDraft.strings Reference.platform := by
  simp only [putTwoGet, List.mem_cons, ClusterEvent.call.injEq, ClientCall.put.injEq, reduceCtorEq,
    false_and, false_or, List.not_mem_nil, or_false] at h
  exact ⟨sentDraft, h.1.1, h.1.2, List.Subset.refl _⟩

theorem putTwoGet_named : PutsNamed Reference.clusterNetwork putTwoGet :=
  putsNamed_of_drafts Reference.lawful putTwoGet_collisionFree putTwoGet_drafts

theorem putTwoGet_run : ∃ s,
    IsClusterRun Reference.clusterNetwork Reference.servers putTwoGet s := by
  have hsome : (Trace.replay (Cluster.step Reference.clusterNetwork (S := Reference.servers)) {}
      putTwoGet).isSome = true := by decide +kernel
  obtain ⟨s, hs⟩ := Option.isSome_iff_exists.mp hsome
  exact ⟨s, hs⟩

theorem returned_put_replicated_putTwoGet : ∃ s,
    IsClusterRun Reference.clusterNetwork Reference.servers putTwoGet s ∧
    s.Replicated Reference.clusterNetwork sentRecord := by
  have hreturned : .returned (.put sentName sentRecord) none ∈ putTwoGet := by
    simp [putTwoGet]
  obtain ⟨s, hs⟩ := putTwoGet_run
  exact ⟨s, hs, returned_put_replicated Reference.servers_lawful hs putTwoGet_named hreturned⟩

end DcfsClient
