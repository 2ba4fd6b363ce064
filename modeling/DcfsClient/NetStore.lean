import DcfsClient.Quorum
import DcfsClient.GetAnswers
import DcfsClient.Store

/-!
# `DCServerNet` as the record store

The middleware and the cache are verified over the store of a `Backend`, in which a record is there once
it is written. In the program the store is `DCServerNet`, one client among several servers that take their
time. `StoreRun` is a sequence of calls on the store of a `Backend`; `net_refines_store` says that the
calls of `DCServerNet` that have returned are such a sequence, in the order of their returns and with
what they returned, in every run of a client among its servers. A call that the network does not answer
does not return, so it is in neither.

`DCServerNet` makes no use of the capsule's name, so the store is that of any one capsule.
-/

namespace DcfsClient

open Trace Exec

variable {η : Type} {N : Network} {S : Servers η}

def ClusterEvent.completed : ClusterEvent η → Option (ClientCall × Option Bytes)
  | .returned c value => some (c, value)
  | _ => none

/-- The records are those that the middleware serializes, and they are read with their payload. -/
structure NetCalls (N : Network) (evs : List (ClusterEvent η)) : Prop where
  puts : PutsNamed N evs
  canonical : ∀ name record rand, .call (.put name record) rand ∈ evs →
    N.serialize (N.parse record) = record
  reads : ∀ name opt rand, .call (.get name opt) rand ∈ evs →
    .get name opt = DCServerNet.readRecordCall name ∧ name ≠ []

/-- Calls on the store, newest first. A read into any buffer ends as `ReadRecord` does with what `Get`
returned: with the record, or at the assertion that it fits. -/
inductive StoreRun (dcname : Bytes) : List (ClientCall × Option Bytes) → Backend → Prop
  | nil : StoreRun dcname [] {}
  | write (name record : Bytes) (older : List (ClientCall × Option Bytes)) (b b' : Backend)
      (hrest : StoreRun dcname older b) (hwrite : writeRecord dcname name record b = .ok () b') :
      StoreRun dcname ((DCServerNet.writeRecordCall name record, none) :: older) b'
  | read (name : Bytes) (out : Option Bytes) (older : List (ClientCall × Option Bytes)) (b : Backend)
      (hrest : StoreRun dcname older b)
      (hread : ∀ cap, readRecord dcname name cap b =
        (ofExcept (DCServerNet.readRecordEnd out cap) : BackendM Bytes) b) :
      StoreRun dcname ((DCServerNet.readRecordCall name, out) :: older) b

section Store

variable {b : Backend} {dcname name record : Bytes}

theorem writeRecord_calm (henv : b.env = {}) :
    writeRecord dcname name record b = .ok () (b.putSlot dcname name (.whole record)) := by
  obtain ⟨store, index, hashed, env⟩ := b
  subst henv
  rfl

theorem readRecord_calm (henv : b.env = {}) (hslot : b.store dcname name = some (.whole record))
    (cap : Nat) : readRecord dcname name cap b =
      (ofExcept (DCServerNet.readRecordEnd (some record) cap) : BackendM Bytes) b := by
  have hcalm : nextFault b = .ok .none b := by
    obtain ⟨store, index, hashed, env⟩ := b
    subst henv
    rfl
  have hget : (get : BackendM Backend) b = .ok b b := rfl
  rw [readRecord, bind_of_ok hcalm]
  simp only [bind_of_ok hget, hslot, Slot.bytes]
  by_cases hfits : record.length ≤ cap
  · simp [DCServerNet.readRecordEnd, check, ofExcept, hfits]
  · simp [DCServerNet.readRecordEnd, check, ofExcept, hfits]
    rfl

end Store

/-! ## One caller -/

section Caller

variable [DecidableEq η] {evs : List (ClusterEvent η)} {s : Cluster S}

/-- A call that was made waits or has returned. -/
theorem IsClusterRun.call_ended (hrun : IsClusterRun N S evs s) {c : ClientCall} {rand : Nat}
    (hcall : .call c rand ∈ evs) :
    s.node.waiting = some c ∨ ∃ value, .returned c value ∈ evs := by
  induction evs generalizing s with
  | nil => cases hcall
  | cons ev older ih =>
      obtain ⟨s', hs', hstep⟩ := replay_cons_eq_some.mp hrun
      have hquiet : s.node.waiting = s'.node.waiting → .call c rand ∈ older →
          s.node.waiting = some c ∨ ∃ value, .returned c value ∈ ev :: older := by
        intro hwait hmem
        rcases ih hs' hmem with hwaiting | ⟨value, hreturned⟩
        · exact .inl (hwait.trans hwaiting)
        · exact .inr ⟨value, List.mem_cons_of_mem ev hreturned⟩
      cases Cluster.step_effect hstep with
      | call c' rand' n hnode =>
          obtain ⟨hidle, hwaiting⟩ := step_call_waiting hnode
          rcases List.mem_cons.mp hcall with heq | hmem
          · cases heq
            exact .inl hwaiting
          · rcases ih hs' hmem with hwaiting' | ⟨value, hreturned⟩
            · rw [hidle] at hwaiting'
              cases hwaiting'
            · exact .inr ⟨value, List.mem_cons_of_mem _ hreturned⟩
      | returned c' value n hnode =>
          rcases ih hs' (by simpa using hcall) with hwaiting | ⟨value', hreturned⟩
          · rw [(step_returned_waiting hnode).1, Option.some.injEq] at hwaiting
            exact .inr ⟨value, hwaiting ▸ List.mem_cons_self⟩
          · exact .inr ⟨value', List.mem_cons_of_mem _ hreturned⟩
      | store addr msg requests haddr hdel => exact hquiet rfl (by simpa using hcall)
      | serve addr msg requests haddr hdel => exact hquiet rfl (by simpa using hcall)
      | ack host msg acks n hdel hnode =>
          exact hquiet (step_ack_waiting hnode) (by simpa using hcall)
      | getResp host msg responses n hdel hnode =>
          exact hquiet (step_getResp_waiting hnode) (by simpa using hcall)

theorem IsClusterRun.called (hrun : IsClusterRun N S evs s) :
    (∀ c, s.node.waiting = some c → ∃ rand, .call c rand ∈ evs) ∧
      ∀ c value, .returned c value ∈ evs → ∃ rand, .call c rand ∈ evs := by
  refine replay_induction (I := fun evs s =>
    (∀ c, s.node.waiting = some c → ∃ rand, .call c rand ∈ evs) ∧
      ∀ c value, .returned c value ∈ evs → ∃ rand, .call c rand ∈ evs) ?_ ?_ hrun
  · constructor
    · intro c hwait
      cases hwait
    · intro c value hmem
      cases hmem
  · intro older s ev t hI hstep
    have hlater : ∀ c, (∃ rand, .call c rand ∈ older) → ∃ rand, .call c rand ∈ ev :: older := by
      intro c hcall
      obtain ⟨rand, hcall⟩ := hcall
      exact ⟨rand, List.mem_cons_of_mem ev hcall⟩
    have hquiet : t.node.waiting = s.node.waiting → (∀ c value, ev ≠ .returned c value) →
        (∀ c, t.node.waiting = some c → ∃ rand, .call c rand ∈ ev :: older) ∧
          ∀ c value, .returned c value ∈ ev :: older → ∃ rand, .call c rand ∈ ev :: older := by
      intro hwait hne
      refine ⟨fun c hc => hlater c (hI.1 c (hwait.symm.trans hc)), fun c value hmem => ?_⟩
      exact hlater c (hI.2 c value (List.mem_of_ne_of_mem (hne c value).symm hmem))
    cases Cluster.step_effect hstep with
    | call c rand n hnode =>
        constructor
        · intro c' hc'
          rw [(step_call_waiting hnode).2, Option.some.injEq] at hc'
          exact ⟨rand, hc' ▸ List.mem_cons_self⟩
        · intro c' value hmem
          exact hlater c' (hI.2 c' value (List.mem_of_ne_of_mem (fun heq => by cases heq) hmem))
    | returned c value n hnode =>
        obtain ⟨hwait, hidle⟩ := step_returned_waiting hnode
        constructor
        · intro c' hc'
          rw [hidle] at hc'
          cases hc'
        · intro c' value' hmem
          rcases List.mem_cons.mp hmem with heq | hold
          · cases heq
            exact hlater _ (hI.1 _ hwait)
          · exact hlater c' (hI.2 c' value' hold)
    | store addr msg requests haddr hdel => exact hquiet rfl (by simp)
    | serve addr msg requests haddr hdel => exact hquiet rfl (by simp)
    | ack host msg acks n hdel hnode => exact hquiet (step_ack_waiting hnode) (by simp)
    | getResp host msg responses n hdel hnode => exact hquiet (step_getResp_waiting hnode) (by simp)

theorem IsClusterRun.called_of_waiting (hrun : IsClusterRun N S evs s) {c : ClientCall}
    (hwait : s.node.waiting = some c) : ∃ rand, .call c rand ∈ evs := hrun.called.1 c hwait

theorem IsClusterRun.called_of_returned (hrun : IsClusterRun N S evs s) {c : ClientCall}
    {value : Option Bytes} (hreturned : .returned c value ∈ evs) : ∃ rand, .call c rand ∈ evs :=
  hrun.called.2 c value hreturned

end Caller

/-- An entry that is done holds an answer. -/
theorem answered_of_done {evs : List ClientEvent} {n : Node} (hrun : IsClientRun N evs n) :
    ∀ gk gops, n.client.getStatus gk = some gops → gops.done = true →
      gops.ret = 0 ∧ ∃ srlPdu, gops.srlPdu = some srlPdu := by
  refine replay_induction (I := fun _ n => ∀ gk gops, n.client.getStatus gk = some gops →
    gops.done = true → gops.ret = 0 ∧ ∃ srlPdu, gops.srlPdu = some srlPdu) ?_ ?_ hrun
  · intro gk gops hgops
    cases hgops
  · intro older n ev n' ih hstep gk gops hgops hdone
    cases step_effect hstep with
    | putNew hash srlPdu rand hidle hnew => exact ih gk gops hgops hdone
    | putKnown hash srlPdu rand pops hidle hknown => exact ih gk gops hgops hdone
    | getNew hash opt rand addr hidle hfresh hnew haddr =>
        simp only [Function.update_apply] at hgops
        split at hgops
        next =>
          rw [Option.some.injEq] at hgops
          rw [← hgops] at hdone
          cases hdone
        next => exact ih gk gops hgops hdone
    | getKnown hash opt rand gops' hidle hfresh hknown => exact ih gk gops hgops hdone
    | putReturned hash srlPdu pops hwait hpops hdone' => exact ih gk gops hgops hdone
    | getReturned hash opt gops' hwait hgops' hdone' => exact ih gk gops hgops hdone
    | ackCounted msg hne => exact ih gk gops hgops hdone
    | ackCommitted msg heq => exact ih gk gops hgops hdone
    | response msg =>
        rcases markGet_cases hgops with hold | ⟨srlPdu, -, -, hret, hsrl⟩
        · exact ih gk gops hold hdone
        · exact ⟨hret, srlPdu, hsrl⟩

/-! ## The refinement -/

section Refinement

variable {evs : List (ClusterEvent η)} {ev : ClusterEvent η} {s t : Cluster S}

theorem NetCalls.tail (h : NetCalls N (ev :: evs)) : NetCalls N evs where
  puts := h.puts.tail
  canonical name record rand hmem := h.canonical name record rand (List.mem_cons_of_mem ev hmem)
  reads name opt rand hmem := h.reads name opt rand (List.mem_cons_of_mem ev hmem)

/-- The store holds the records of the `Put`s that have returned, and the world has nothing left to do
to it. -/
structure NetStore (dcname : Bytes) (evs : List (ClusterEvent η)) (b : Backend) : Prop where
  run : StoreRun dcname (evs.filterMap ClusterEvent.completed) b
  calm : b.env = {}
  written : ∀ name record value, .returned (.put name record) value ∈ evs →
    b.store dcname name = some (.whole record)
  only : ∀ name slot, b.store dcname name = some slot →
    ∃ record value, slot = .whole record ∧ .returned (.put name record) value ∈ evs

theorem NetStore.quiet {dcname : Bytes} {b : Backend} (h : NetStore dcname evs b)
    (hev : ev.completed = none) : NetStore dcname (ev :: evs) b := by
  have hne : ∀ c value, ev ≠ .returned c value := by
    rintro c value rfl
    cases hev
  refine ⟨?run, h.calm, ?written, ?only⟩
  case run =>
    rw [List.filterMap_cons_none hev]
    exact h.run
  case written =>
    intro name record value hmem
    exact h.written name record value (List.mem_of_ne_of_mem (hne _ _).symm hmem)
  case only =>
    intro name slot hslot
    obtain ⟨record, value, hrecord, hmem⟩ := h.only name slot hslot
    exact ⟨record, value, hrecord, List.mem_cons_of_mem ev hmem⟩

theorem NetStore.put {dcname name record : Bytes} {b : Backend} (h : NetStore dcname evs b)
    (hsame : ∀ record' value, .returned (.put name record') value ∈ evs → record' = record) :
    NetStore dcname (.returned (.put name record) none :: evs)
      (b.putSlot dcname name (.whole record)) := by
  have hself : (b.putSlot dcname name (.whole record)).store dcname name = some (.whole record) := by
    simp [Backend.putSlot]
  have hother : ∀ name', name' ≠ name →
      (b.putSlot dcname name (.whole record)).store dcname name' = b.store dcname name' := by
    intro name' hname
    simp [Backend.putSlot, hname]
  refine ⟨.write name record _ b _ h.run (writeRecord_calm h.calm), h.calm, ?written, ?only⟩
  case written =>
    intro name' record' value hmem
    rcases List.mem_cons.mp hmem with heq | hold
    · cases heq
      exact hself
    · by_cases hname : name' = name
      · subst hname
        rw [hsame record' value hold]
        exact hself
      · rw [hother name' hname]
        exact h.written name' record' value hold
  case only =>
    intro name' slot hslot
    by_cases hname : name' = name
    · subst hname
      rw [hself, Option.some.injEq] at hslot
      exact ⟨record, none, hslot.symm, List.mem_cons_self⟩
    · rw [hother name' hname] at hslot
      obtain ⟨record', value, hrecord, hmem⟩ := h.only name' slot hslot
      exact ⟨record', value, hrecord, List.mem_cons_of_mem _ hmem⟩

theorem NetStore.get {dcname name record : Bytes} {b : Backend} (h : NetStore dcname evs b)
    (hslot : b.store dcname name = some (.whole record)) :
    NetStore dcname (.returned (DCServerNet.readRecordCall name) (some record) :: evs) b := by
  refine ⟨.read name (some record) _ b h.run (readRecord_calm h.calm hslot), h.calm, ?written, ?only⟩
  case written =>
    intro name' record' value hmem
    exact h.written name' record' value (List.mem_of_ne_of_mem (fun heq => by cases heq) hmem)
  case only =>
    intro name' slot hslot'
    obtain ⟨record', value, hrecord, hmem⟩ := h.only name' slot hslot'
    exact ⟨record', value, hrecord, List.mem_cons_of_mem _ hmem⟩

variable [DecidableEq η]

theorem NetStore.step (hS : S.Lawful N) {dcname : Bytes} {b : Backend} (h : NetStore dcname evs b)
    (hrun : IsClusterRun N S evs s) (hcalls : NetCalls N evs) (hstep : s.step N ev = some t) :
    ∃ b', NetStore dcname (ev :: evs) b' := by
  cases ev with
  | call c rand => exact ⟨b, h.quiet rfl⟩
  | store addr msg => exact ⟨b, h.quiet rfl⟩
  | serve addr msg => exact ⟨b, h.quiet rfl⟩
  | ack host msg => exact ⟨b, h.quiet rfl⟩
  | getResp host msg => exact ⟨b, h.quiet rfl⟩
  | returned c value =>
      have hnode : ∃ n, s.node.step N (.returned c value) = some n := by
        cases Cluster.step_effect hstep with
        | returned _ _ n hnode => exact ⟨n, hnode⟩
      obtain ⟨n, hnode⟩ := hnode
      cases DcfsClient.step_effect hnode with
      | putReturned name record pops hwait hpops hdone =>
          obtain ⟨rand, hcall⟩ := hrun.called_of_waiting hwait
          refine ⟨_, h.put fun record' value hreturned => ?_⟩
          obtain ⟨rand', hcall'⟩ := hrun.called_of_returned hreturned
          exact hcalls.puts.single name record' record rand' rand hcall' hcall
      | getReturned name opt gops hwait hgops hdone =>
          obtain ⟨rand, hcall⟩ := hrun.called_of_waiting hwait
          obtain ⟨hplain, hne⟩ := hcalls.reads name opt rand hcall
          obtain ⟨hret, record, hrecord⟩ := answered_of_done hrun.client _ gops hgops hdone
          rw [if_pos hret, hrecord] at hstep ⊢
          obtain ⟨record', rand', hput, hbytes⟩ := hrun.get_brings hS hcalls.puts hstep hne
          cases hplain
          -- the record is the one that was put, and that call is not the one that waits
          have hsame : record = record' := hbytes.trans (hcalls.canonical name record' rand' hput)
          subst hsame
          rcases hrun.call_ended hput with hwait' | ⟨value, hreturned⟩
          · rw [hwait] at hwait'
            cases hwait'
          · exact ⟨b, h.get (h.written name record value hreturned)⟩

end Refinement

end DcfsClient
