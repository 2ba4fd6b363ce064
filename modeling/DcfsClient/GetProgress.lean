import DcfsClient.PutProgress
import DcfsClient.GetAnswers

/-!
# Which `Get`s can still return

A `Get` sends one request to one server, once, and responses without success are dropped. So unlike
a `Put` it depends on a single message: while its caller waits, nobody asks again.
`Cluster.Answerable` says what is left to hope for: the entry is done, a response for it is on its
way, or a request is on its way to a server that has such a response after some of the records that
are on their way to it.
`get_can_return_iff` says that this is exact.
-/

namespace DcfsClient

open Trace Exec

variable {η : Type} {N : Network} {S : Servers η}

def Completes (N : Network) (gk : Bytes × Bool) (msg : Bytes) : Prop :=
  ((N.parseGetResponse msg).answer N).map Prod.fst = some gk

instance (gk : Bytes × Bool) (msg : Bytes) : Decidable (Completes N gk msg) :=
  inferInstanceAs (Decidable (_ = _))

def Servers.storeAll (S : Servers η) (st : S.State) (l : List (Bytes × Bytes)) : S.State :=
  l.foldl (fun st m => (S.store st m.2).1) st

inductive Cluster.Answerable (N : Network) (s : Cluster S) (gk : Bytes × Bool) : Prop
  | answered (gops : GetStatus) (hentry : s.node.client.getStatus gk = some gops)
      (hdone : gops.done = true)
  | response (a : η × Bytes) (ha : a ∈ s.responses.pending) (hanswers : Completes N gk a.2)
  | request (m : Bytes × Bytes) (l : List (Bytes × Bytes)) (resp : Bytes)
      (hm : m ∈ s.requests.pending) (haddr : m.1 ∈ N.serveServers)
      (hl : (l : Multiset (Bytes × Bytes)) ≤ s.requests.pending)
      (hrecords : ∀ r ∈ l, r.1 ∈ N.dcServers ∧ S.host r.1 = S.host m.1)
      (hserve : S.serve (S.storeAll (s.servers (S.host m.1)) l) m.2 = some resp)
      (hanswers : Completes N gk resp)

section Node

variable {n n' : Node} {gk : Bytes × Bool} {gops : GetStatus} {hash : Bytes} {opt : DCGetOptions}

theorem step_ack_getStatus {msg : Bytes} (h : n.step N (.ack msg) = some n') :
    n'.client.getStatus = n.client.getStatus := by
  cases step_effect h with
  | ackCounted msg hne => rfl
  | ackCommitted msg heq => rfl

theorem returned_get_done {c : ClientCall} {value : Option Bytes}
    (hwait : n.waiting = some (.get hash opt)) (h : n.step N (.returned c value) = some n') :
    ∃ gops, n.client.getStatus (hash, opt.isMetaonlyReq) = some gops ∧ gops.done = true := by
  cases step_effect h with
  | putReturned hash' srlPdu pops hwait' hpops hdone =>
      rw [hwait] at hwait'
      cases hwait'
  | getReturned hash' opt' gops hwait' hgops hdone =>
      rw [hwait] at hwait'
      cases hwait'
      exact ⟨gops, hgops, hdone⟩

end Node

namespace Cluster

variable {s t : Cluster S} {evs : List (ClusterEvent η)} {ev : ClusterEvent η}
  {hash : Bytes} {opt : DCGetOptions} {gk : Bytes × Bool}

/-! ## There is no hope that comes later -/

theorem Answerable.of_serve {addr msg : Bytes} {requests : Channel (Bytes × Bytes)}
    (haddr : addr ∈ N.serveServers) (hdel : s.requests.deliver (addr, msg) = some requests)
    (h : Answerable N { s with
      requests := requests
      responses := s.responses.send
        ((S.serve (s.servers (S.host addr)) msg).elim 0 fun resp => {(S.host addr, resp)}) } gk) :
    s.Answerable N gk := by
  have hpending := Channel.pending_eq_of_deliver hdel
  have hle : requests.pending ≤ s.requests.pending := by
    rw [hpending]
    exact Multiset.le_cons_self _ _
  cases h with
  | answered gops hentry hdone => exact .answered gops hentry hdone
  | response a ha hanswers =>
      rw [Channel.pending_send] at ha
      rcases Multiset.mem_add.mp ha with hnew | hold
      · cases hserve : S.serve (s.servers (S.host addr)) msg with
        | none =>
            rw [hserve] at hnew
            cases hnew
        | some resp =>
            rw [hserve, Option.elim_some, Multiset.mem_singleton] at hnew
            rw [hnew] at hanswers
            exact .request (addr, msg) [] resp (Channel.pending_of_deliver hdel) haddr
              (Multiset.zero_le _) (by simp) hserve hanswers
      · exact .response a hold hanswers
  | request m l resp hm haddr' hl hrecords hserve hanswers =>
      exact .request m l resp (Multiset.mem_of_le hle hm) haddr' (hl.trans hle) hrecords hserve hanswers

theorem Answerable.of_ack {n : Node} {acks : Channel (η × Bytes)}
    (hentries : n.client.getStatus = s.node.client.getStatus)
    (h : Answerable N { s with node := n, acks := acks } gk) : s.Answerable N gk := by
  cases h with
  | answered gops hentry hdone => exact .answered gops (hentries ▸ hentry) hdone
  | response a ha hanswers => exact .response a ha hanswers
  | request m l resp hm haddr hl hrecords hserve hanswers =>
      exact .request m l resp hm haddr hl hrecords hserve hanswers

variable [DecidableEq η]

theorem Answerable.of_store {addr msg : Bytes} {requests : Channel (Bytes × Bytes)}
    (haddr : addr ∈ N.dcServers) (hdel : s.requests.deliver (addr, msg) = some requests)
    {acks : Channel (η × Bytes)}
    (h : Answerable N { s with
      requests := requests
      servers := Function.update s.servers (S.host addr) (S.store (s.servers (S.host addr)) msg).1
      acks := acks } gk) : s.Answerable N gk := by
  have hpending := Channel.pending_eq_of_deliver hdel
  have hle : requests.pending ≤ s.requests.pending := by
    rw [hpending]
    exact Multiset.le_cons_self _ _
  cases h with
  | answered gops hentry hdone => exact .answered gops hentry hdone
  | response a ha hanswers => exact .response a ha hanswers
  | request m l resp hm haddr' hl hrecords hserve hanswers =>
      by_cases hhost : S.host m.1 = S.host addr
      · -- the record that has arrived is one of those that the server may have by then
        refine .request m ((addr, msg) :: l) resp (Multiset.mem_of_le hle hm) haddr' ?_ ?_ ?_ hanswers
        · rw [hpending, ← Multiset.cons_coe]
          exact Multiset.cons_le_cons _ hl
        · intro r hr
          rcases List.mem_cons.mp hr with rfl | hr
          · exact ⟨haddr, hhost.symm⟩
          · exact hrecords r hr
        · simpa only [hhost, Function.update_self, Servers.storeAll, List.foldl_cons] using hserve
      · refine .request m l resp (Multiset.mem_of_le hle hm) haddr' (hl.trans hle) hrecords ?_ hanswers
        simpa only [Function.update_of_ne hhost] using hserve

theorem Answerable.of_getResp {host : η} {msg : Bytes} {responses : Channel (η × Bytes)} {n : Node}
    (hdel : s.responses.deliver (host, msg) = some responses)
    (hnode : s.node.step N (.getResp msg) = some n)
    (h : Answerable N { s with node := n, responses := responses } gk) : s.Answerable N gk := by
  have hpending := Channel.pending_eq_of_deliver hdel
  cases h with
  | answered gops hentry hdone =>
      rw [step_getResp, Option.some.injEq] at hnode
      rw [← hnode] at hentry
      rcases markGet_cases hentry with hold | ⟨srlPdu, hanswer, -⟩
      · exact .answered gops hold hdone
      · refine .response (host, msg) (Channel.pending_of_deliver hdel) ?_
        rw [Completes, hanswer]
        rfl
  | response a ha hanswers =>
      refine .response a ?_ hanswers
      rw [hpending]
      exact Multiset.mem_cons_of_mem ha
  | request m l resp hm haddr hl hrecords hserve hanswers =>
      exact .request m l resp hm haddr hl hrecords hserve hanswers

/-- While the caller waits, an event either ends the wait or leaves it, and brings no new hope. -/
theorem Answerable.of_step (hwait : s.node.waiting = some (.get hash opt))
    (hstep : s.step N ev = some t) : s.Answerable N (hash, opt.isMetaonlyReq) ∨
      t.node.waiting = some (.get hash opt) ∧
        (t.Answerable N (hash, opt.isMetaonlyReq) → s.Answerable N (hash, opt.isMetaonlyReq)) := by
  cases Cluster.step_effect hstep with
  | call c rand n hnode =>
      rw [(step_call_waiting hnode).1] at hwait
      cases hwait
  | returned c value n hnode =>
      obtain ⟨gops, hgops, hdone⟩ := returned_get_done hwait hnode
      exact .inl (.answered gops hgops hdone)
  | store addr msg requests haddr hdel => exact .inr ⟨hwait, .of_store haddr hdel⟩
  | serve addr msg requests haddr hdel => exact .inr ⟨hwait, .of_serve haddr hdel⟩
  | ack host msg acks n hdel hnode =>
      exact .inr ⟨(step_ack_waiting hnode).trans hwait, .of_ack (step_ack_getStatus hnode)⟩
  | getResp host msg responses n hdel hnode =>
      exact .inr ⟨(step_getResp_waiting hnode).trans hwait, .of_getResp hdel hnode⟩

/-- Hope at a later state of the same wait was there before. -/
theorem Answerable.of_later {later : List (ClusterEvent η)}
    (hwait : s.node.waiting = some (.get hash opt)) (hs : IsClusterRun N S evs s)
    (ht : IsClusterRun N S (later ++ evs) t) : s.Answerable N (hash, opt.isMetaonlyReq) ∨
      t.node.waiting = some (.get hash opt) ∧
        (t.Answerable N (hash, opt.isMetaonlyReq) → s.Answerable N (hash, opt.isMetaonlyReq)) := by
  induction later generalizing t with
  | nil =>
      have heq : some s = some t := hs.symm.trans ht
      cases heq
      exact .inr ⟨hwait, id⟩
  | cons ev later ih =>
      obtain ⟨u, hu, hstep⟩ := replay_cons_eq_some.mp ht
      rcases ih hu with hope | ⟨hwait', hback⟩
      · exact .inl hope
      · rcases Answerable.of_step hwait' hstep with hope | ⟨hwait'', hback'⟩
        · exact .inl (hback hope)
        · exact .inr ⟨hwait'', fun hope => hback (hback' hope)⟩

/-! ## Every hope can come true -/

def Returns (N : Network) (s : Cluster S) (evs : List (ClusterEvent η)) (c : ClientCall) : Prop :=
  ∃ arrivals value t, (∀ ev ∈ arrivals, ev.isArrival = true) ∧
    (IsClusterRun N S evs s → IsClusterRun N S (.returned c value :: (arrivals ++ evs)) t)

theorem Returns.of_step {c : ClientCall} (hev : ev.isArrival = true) (hstep : s.step N ev = some t)
    (h : t.Returns N (ev :: evs) c) : s.Returns N evs c := by
  obtain ⟨arrivals, value, u, harrivals, hrun⟩ := h
  refine ⟨arrivals ++ [ev], value, u, ?_, fun hs => ?_⟩
  · intro ev' hmem
    rcases List.mem_append.mp hmem with hmem | hmem
    · exact harrivals ev' hmem
    · rw [List.mem_singleton.mp hmem]
      exact hev
  · rw [List.append_assoc]
    exact hrun (replay_cons_eq_some.mpr ⟨s, hs, hstep⟩)

theorem returns_of_answered (hwait : s.node.waiting = some (.get hash opt)) {gops : GetStatus}
    (hgops : s.node.client.getStatus (hash, opt.isMetaonlyReq) = some gops) (hdone : gops.done = true) :
    s.Returns N evs (.get hash opt) := by
  have hnode := step_returned_get (N := N) hwait hgops hdone
  refine ⟨[], if gops.ret = 0 then gops.srlPdu else none,
    { s with node := ⟨s.node.client, none⟩ }, by simp,
    fun hs => replay_cons_eq_some.mpr ⟨s, hs, ?_⟩⟩
  simp [Cluster.step, hnode]

theorem returns_of_response (hwait : s.node.waiting = some (.get hash opt))
    (hentry : (s.node.client.getStatus (hash, opt.isMetaonlyReq)).isSome = true) {a : η × Bytes}
    (ha : a ∈ s.responses.pending) (hanswers : Completes N (hash, opt.isMetaonlyReq) a.2) :
    s.Returns N evs (.get hash opt) := by
  obtain ⟨responses, hdel⟩ := Channel.exists_deliver ha
  obtain ⟨⟨gk, srlPdu⟩, hanswer, hgk⟩ := Option.map_eq_some_iff.mp hanswers
  simp only at hgk
  subst hgk
  obtain ⟨gops, hgops, hdone, -⟩ := markGet_self srlPdu hentry
  have hnode := step_getResp N s.node a.2
  rw [hanswer] at hnode
  have hstep : s.step N (.getResp a.1 a.2) = some { s with
      node := ⟨s.node.client.markGet (some ((hash, opt.isMetaonlyReq), srlPdu)), s.node.waiting⟩
      responses := responses } := by
    simp [Cluster.step, hdel, hnode]
  exact .of_step rfl hstep (returns_of_answered hwait hgops hdone)

theorem returns_of_request {m : Bytes × Bytes} {l : List (Bytes × Bytes)} {resp : Bytes}
    (hwait : s.node.waiting = some (.get hash opt))
    (hentry : (s.node.client.getStatus (hash, opt.isMetaonlyReq)).isSome = true)
    (haddr : m.1 ∈ N.serveServers) (hl : m ::ₘ (l : Multiset (Bytes × Bytes)) ≤ s.requests.pending)
    (hrecords : ∀ r ∈ l, r.1 ∈ N.dcServers ∧ S.host r.1 = S.host m.1)
    (hserve : S.serve (S.storeAll (s.servers (S.host m.1)) l) m.2 = some resp)
    (hanswers : Completes N (hash, opt.isMetaonlyReq) resp) : s.Returns N evs (.get hash opt) := by
  induction l generalizing s evs with
  | nil =>
      have hm : m ∈ s.requests.pending := Multiset.mem_of_le hl (Multiset.mem_cons_self _ _)
      obtain ⟨requests, hdel⟩ := Channel.exists_deliver hm
      have hserve' : S.serve (s.servers (S.host m.1)) m.2 = some resp := hserve
      have hstep : s.step N (.serve m.1 m.2) = some { s with
          requests := requests
          responses := s.responses.send {(S.host m.1, resp)} } := by
        simp [Cluster.step, haddr, hdel, hserve']
      refine .of_step rfl hstep (returns_of_response hwait hentry (a := (S.host m.1, resp)) ?_ hanswers)
      rw [Channel.pending_send]
      exact Multiset.mem_add.mpr (.inl (Multiset.mem_singleton_self _))
  | cons r l ih =>
      obtain ⟨hr, hhost⟩ := hrecords r List.mem_cons_self
      have hrm : r ∈ s.requests.pending :=
        Multiset.mem_of_le hl (Multiset.mem_cons_of_mem (by simp))
      obtain ⟨requests, hdel⟩ := Channel.exists_deliver hrm
      have hstep : s.step N (.store r.1 r.2) = some { s with
          requests := requests
          servers := Function.update s.servers (S.host r.1) (S.store (s.servers (S.host r.1)) r.2).1
          acks := s.acks.send {(S.host r.1, (S.store (s.servers (S.host r.1)) r.2).2)} } := by
        simp [Cluster.step, hr, hdel]
      refine .of_step rfl hstep (ih hwait hentry ?_ ?_ ?_)
      · rw [← Multiset.cons_coe, Multiset.cons_swap, Channel.pending_eq_of_deliver hdel] at hl
        exact (Multiset.cons_le_cons_iff r).mp hl
      · exact fun r' hr' => hrecords r' (List.mem_cons_of_mem _ hr')
      · simpa only [hhost, Function.update_self, Servers.storeAll, List.foldl_cons] using hserve

theorem Answerable.returns (hS : S.Lawful N) (hwait : s.node.waiting = some (.get hash opt))
    (hentry : (s.node.client.getStatus (hash, opt.isMetaonlyReq)).isSome = true)
    (h : s.Answerable N (hash, opt.isMetaonlyReq)) : s.Returns N evs (.get hash opt) := by
  cases h with
  | answered gops hgops hdone => exact returns_of_answered hwait hgops hdone
  | response a ha hanswers => exact returns_of_response hwait hentry ha hanswers
  | request m l resp hm haddr hl hrecords hserve hanswers =>
      refine returns_of_request hwait hentry haddr ?_ hrecords hserve hanswers
      have hout : m ∉ (l : Multiset (Bytes × Bytes)) :=
        fun hmem => hS.apart m.1 (hrecords m (Multiset.mem_coe.mp hmem)).1 haddr
      exact (Multiset.cons_le_of_notMem hout).mpr ⟨hm, hl⟩

end Cluster

/-- A `Get` that waits can return if and only if there is still something to hope for, and then arrivals
of messages are enough. If there is not, no order of events ends the wait: the request is not repeated,
and a failed or lost answer is never made up for. -/
theorem get_can_return_iff [DecidableEq η] (hS : S.Lawful N) {evs : List (ClusterEvent η)}
    {s : Cluster S} {hash : Bytes} {opt : DCGetOptions} (hrun : IsClusterRun N S evs s)
    (hwait : s.node.waiting = some (.get hash opt)) :
    ((∃ later value t, IsClusterRun N S (.returned (.get hash opt) value :: (later ++ evs)) t) ↔
      s.Answerable N (hash, opt.isMetaonlyReq)) ∧
    (s.Answerable N (hash, opt.isMetaonlyReq) → ∃ arrivals value t,
      (∀ ev ∈ arrivals, ev.isArrival = true) ∧
      IsClusterRun N S (.returned (.get hash opt) value :: (arrivals ++ evs)) t) := by
  have hentry := hrun.client.inv.getWaiting hash opt hwait
  have hreturns : s.Answerable N (hash, opt.isMetaonlyReq) → ∃ arrivals value t,
      (∀ ev ∈ arrivals, ev.isArrival = true) ∧
      IsClusterRun N S (.returned (.get hash opt) value :: (arrivals ++ evs)) t := by
    intro hope
    have hback : s.Returns N evs (.get hash opt) := hope.returns hS hwait hentry
    obtain ⟨arrivals, value, t, harrivals, ht⟩ := hback
    exact ⟨arrivals, value, t, harrivals, ht hrun⟩
  refine ⟨⟨?_, fun hope => ?_⟩, hreturns⟩
  · rintro ⟨later, value, t, ht⟩
    obtain ⟨u, hu, hstep⟩ := replay_cons_eq_some.mp ht
    rcases Cluster.Answerable.of_later hwait hrun hu with hope | ⟨hwait', hback⟩
    · exact hope
    · cases Cluster.step_effect hstep with
      | returned c value n hnode =>
          obtain ⟨gops, hgops, hdone⟩ := returned_get_done hwait' hnode
          exact hback (.answered gops hgops hdone)
  · obtain ⟨arrivals, value, t, -, ht⟩ := hreturns hope
    exact ⟨arrivals, value, t, ht⟩

/-- The third server, which has not got the record yet, is asked for it. -/
def getTooEarly : List (ClusterEvent Nat) :=
  [ .serve [8] (Reference.clusterNetwork.serializeGetRequest ⟨sentName, [2], false, false⟩),
    .call (.get sentName ⟨false, false⟩) 2 ] ++ putTwoGet.drop 4

/-- The record reaches that server later, but the `Get` waits for ever. -/
theorem get_can_return_iff_getTooEarly : ∃ s,
    IsClusterRun Reference.clusterNetwork Reference.servers getTooEarly s ∧
    (∃ m ∈ s.requests.pending, m.1 ∈ Reference.clusterNetwork.dcServers) ∧
    ¬ ∃ later value t, IsClusterRun Reference.clusterNetwork Reference.servers
      (.returned (.get sentName ⟨false, false⟩) value :: (later ++ getTooEarly)) t := by
  have hend : ((Trace.replay (Cluster.step Reference.clusterNetwork (S := Reference.servers)) {}
      getTooEarly).any fun s =>
        decide (s.node.waiting = some (.get sentName ⟨false, false⟩) ∧
        (s.node.client.getStatus (sentName, false)).map GetStatus.done = some false ∧
        (∀ a ∈ s.responses.pending, ¬ Completes Reference.clusterNetwork (sentName, false) a.2) ∧
        (∀ m ∈ s.requests.pending, m.1 ∉ Reference.clusterNetwork.serveServers) ∧
        0 < s.requests.pending.countP fun m => m.1 ∈ Reference.clusterNetwork.dcServers)) = true := by
    decide +kernel
  obtain ⟨s, hs, hdecide⟩ := (Option.any_eq_true _ _).mp hend
  obtain ⟨hwait, hundone, hresponses, hrequests, hrecord⟩ := of_decide_eq_true hdecide
  refine ⟨s, hs, Multiset.countP_pos.mp hrecord, fun hreturns => ?_⟩
  cases (get_can_return_iff Reference.servers_lawful hs hwait).1.mp hreturns with
  | answered gops hentry hdone =>
      rw [hentry, Option.map_some, hdone] at hundone
      cases hundone
  | response a ha hanswers => exact hresponses a ha hanswers
  | request m l resp hm haddr hl hrecords hserve hanswers => exact hrequests m hm haddr

end DcfsClient
