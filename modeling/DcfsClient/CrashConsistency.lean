import DcfsClient.MiddlewareRuns
import DcfsClient.Reference

/-!
# Failures and crashes leave the store consistent

In every state of every run, whatever failed or stopped on the way: the records of the store are
closed under their references, nothing that was stored has changed, and an entry of the index moves
exactly when a `Modify` on that file returns success.
-/

namespace DcfsClient

open Backend LinkedStore

/-- The index names inode records, no reference dangles, and so everything reachable is there. -/
structure Intact (P : Platform) (b : Backend) : Prop where
  closed : ∀ d, Closed pduRefs (b.records P d)
  entry : ∀ d n, b.index d = some n → n ≠ [] →
    ∃ p, b.records P d n = some p ∧ p.header.msgtype = recordTypeToString .inode
  reachable : ∀ d n x, b.index d = some n → n ≠ [] → Reaches pduRefs (b.records P d) n x →
    ∃ p, b.records P d x = some p

def IndexMoves (P : Platform) (d : Bytes) (b : Backend) (ev : Event) : Prop :=
  if ev.succeeds d then ∃ old n p, b.index d = some old ∧ ev.after.index d = some n ∧
    ev.after.records P d n = some p ∧ p.header.msgtype = recordTypeToString .inode ∧
    p.header.prevhash[0]? = some (if old = [] then d else old)
  else ev.after.index d = b.index d

section Consistency

variable {P : Platform} {evs run : List Event} {ev : Event} {d : Bytes}

theorem RunInv.index_some (h : RunInv P evs) {n : Bytes} (hn : (current evs).index d = some n) :
    ∃ hist, n = headName P hist ∧ Linked P d (current evs) hist := by
  have hd : d ∈ createdNames evs := by
    by_contra hnot
    rw [h.unknown d hnot] at hn
    cases hn
  obtain ⟨hist, hix, hl, -⟩ := h.files d hd
  rw [hix, Option.some.injEq] at hn
  exact ⟨hist, hn.symm, hl⟩

theorem RunInv.entry (h : RunInv P evs) {n : Bytes} (hn : (current evs).index d = some n)
    (hne : n ≠ []) : ∃ p, (current evs).records P d n = some p ∧
      p.header.msgtype = recordTypeToString .inode := by
  obtain ⟨hist, rfl, hl⟩ := h.index_some hn
  cases hist with
  | nil => exact absurd rfl hne
  | cons c cs =>
      refine ⟨_, (hl.2.2 c.inode (by simp [Commit.drafts])).record, ?_⟩
      simp only [Draft.pdu, Draft.header, hl.2.1.inode.type]

theorem RunInv.intact (h : RunInv P evs) : Intact P (current evs) where
  closed := h.sound.closed
  entry := fun _ _ hn hne => h.entry hn hne
  reachable := by
    intro d n x hn hne hx
    obtain ⟨p, hp, -⟩ := h.entry hn hne
    exact hx.stored (h.sound.closed d) ⟨p, hp⟩

theorem RunInv.indexMoves (hP : P.Lawful) (h : RunInv P evs) (hrun : ProperRun P (ev :: evs))
    (hnodup : (createdNames (ev :: evs)).Nodup) (hd : d ∈ createdNames evs) : IndexMoves P d (current evs) ev := by
  obtain ⟨-, -, heffect⟩ := h.effect hP hrun
  have hquiet : ev.response ≠ .done → ev.after.index d = (current evs).index d →
      IndexMoves P d (current evs) ev := by
    intro hresp hindex
    have hs : ev.succeeds d = false := by
      rw [Bool.eq_false_iff]
      exact fun ht => hresp (succeeds_iff.mp ht).1
    simpa [IndexMoves, hs] using hindex
  cases heffect with
  | created r hr hresp hholds hindex =>
      have hne : d ≠ r.name P := by
        rintro rfl
        simp only [createdNames, List.filterMap_cons, createdName, hresp] at hnodup
        exact (List.nodup_cons.mp hnodup).1 hd
      apply hquiet
      · rw [hresp]
        simp
      · rw [hindex, Function.update_of_ne hne]
  | committed d₀ aesKey sig hist c hreq hresp hd₀ hbase htracks hkey hlinked hindex =>
      by_cases he : d = d₀
      · subst he
        have hs : ev.succeeds d = true := succeeds_iff.mpr ⟨hresp, _, _, _, _, hreq⟩
        have hinode := hlinked.2.2 c.inode (by simp [Commit.drafts])
        have hnew : ev.after.index d = some (c.inode.name P) := by
          rw [hindex, Function.update_self]
        rw [IndexMoves, if_pos hs]
        refine ⟨headName P hist, _, _, hbase, hnew, hinode.record, ?_, ?_⟩
        · simp only [Draft.pdu, Draft.header, hlinked.2.1.inode.type]
        · simp only [Draft.pdu, Draft.header, hlinked.2.1.inode.prev]
          cases hist with
          | nil => rfl
          | cons c₀ cs =>
              have hne : c₀.inode.name P ≠ [] := c₀.inode.name_ne_nil hP
              simp [headName, latestInode, hne]
      · have hs : ev.succeeds d = false := by
          rw [Bool.eq_false_iff]
          intro ht
          obtain ⟨-, _, _, _, _, hreq'⟩ := succeeds_iff.mp ht
          rw [hreq] at hreq'
          injection hreq' with hdd
          exact he hdd.symm
        rw [IndexMoves, hs, hindex, Function.update_of_ne he]
        simp
  | idle hidle hindex => exact hquiet (ne_done_of_isIdle hidle) (by rw [hindex])

/-- At every point of a run, after whatever failed or stopped on the way: everything reachable from
the index is stored, no record refers to a missing one, what was stored stays as it is to the end of
the run, and an index entry moves to a new inode record exactly when `Modify` returns success. -/
theorem modify_crash_consistent (hP : P.Lawful) (hrun : ProperRun P run)
    (hdistinct : (createdNames run).Nodup) :
    ∀ evs, evs <:+ run → Intact P (current evs) ∧
      (∀ d, Extends ((current evs).records P d) ((current run).records P d)) ∧
      ∀ ev older, evs = ev :: older → ∀ d ∈ createdNames older,
        IndexMoves P d (current older) ev := by
  intro evs hs
  have hevs := hrun.suffix hs
  refine ⟨(hevs.inv hP).intact, (hrun.grows hP hs).records, ?_⟩
  rintro ev older rfl d hd
  have hnodup := hdistinct.sublist (hs.sublist.filterMap createdName)
  exact (hevs.tail.inv hP).indexMoves hP hevs hnodup hd

end Consistency

section Instances

open Reference

/-- A file, a first flush, a flush whose blockmap write is torn, and one that is stopped before it
writes its inode record. -/
def crashRun : List Event :=
  let first := [(Request.signed platform (fileAt 5) [⟨[1, 2, 3], 0⟩] [] zeroKey,
      { clock := [6, 7, 8] }), (.createNew, { clock := [5] })]
  let n := ((current (replay platform first)).index (fileAt 5)).getD []
  let again := Request.signed platform (fileAt 5) [⟨[4], 0⟩] n zeroKey
  replay platform
    ((again, { clock := [12, 13, 14], faults := [.none, .none, .none, .none, .stopBefore] }) ::
      (again, { clock := [10, 11], faults := [.none, .none, .none, .torn [3]] }) :: first)

example : (crashRun.map Event.response).reverse.tail =
    [.done, .failed errIo, .died .stopped] := by decide +kernel

theorem crashRun_proper : ProperRun platform crashRun := properRun_replay _ (by decide +kernel)

theorem modify_crash_consistent_crashRun : Intact platform (current crashRun.tail) ∧
    (∀ d, Extends ((current crashRun.tail).records platform d)
      ((current crashRun).records platform d)) ∧
      ∀ ev older, crashRun.tail = ev :: older → ∀ d ∈ createdNames older,
        IndexMoves platform d (current older) ev :=
  modify_crash_consistent lawful crashRun_proper (by decide +kernel) crashRun.tail
    (List.tail_suffix _)

end Instances

end DcfsClient
