import Mathlib.Tactic

/-!
# Traces of a partial transition function

A machine is a start state and a partial function that takes a state and an event to the next state.
A trace is a list of events, newest first. `replay` runs it, and gives nothing as soon as one event is
not possible where it stands.

`replay_induction` is the rule for invariants that speak about the state and about what happened so
far. `EachStep C` says that every event of a trace met the condition `C` when it led from one state to
the next; `replay_induction_of` is the rule for invariants that need such a condition, and
`EachStep.of_invariant` turns an invariant into a fact about every step.
-/

namespace DcfsClient

namespace Trace

variable {σ ε : Type} (step : σ → ε → Option σ) (start : σ)

def replay : List ε → Option σ
  | [] => some start
  | ev :: older => (replay older).bind fun s => step s ev

/-- Every event of the trace met `C`, which sees what was before the event and the state after it. -/
def EachStep (C : List ε → σ → ε → σ → Prop) : List ε → Prop
  | [] => True
  | ev :: older => EachStep C older ∧
      ∀ s t, replay step start older = some s → step s ev = some t → C older s ev t

variable {step start} {evs older : List ε} {ev : ε} {s t : σ}

theorem replay_nil_eq_some : replay step start [] = some s ↔ start = s := by simp [replay]

theorem replay_cons_eq_some :
    replay step start (ev :: older) = some t ↔
      ∃ s, replay step start older = some s ∧ step s ev = some t := Option.bind_eq_some_iff

/-- A trace that continues another is replayed from where the other stopped. -/
theorem replay_append (newer : List ε) :
    replay step start (newer ++ older) =
      (replay step start older).bind fun s => replay step s newer := by
  induction newer with
  | nil => simp [replay]
  | cons ev newer ih =>
      simp only [List.cons_append, replay, ih]
      cases replay step start older <;> rfl

theorem replay_of_append {newer : List ε} (h : replay step start (newer ++ older) = some t) :
    ∃ s, replay step start older = some s := by
  rw [replay_append] at h
  obtain ⟨s, hs, -⟩ := Option.bind_eq_some_iff.mp h
  exact ⟨s, hs⟩

theorem replay_induction_of {C : List ε → σ → ε → σ → Prop} {I : List ε → σ → Prop}
    (hstart : I [] start)
    (hstep : ∀ older s ev t, I older s → C older s ev t → step s ev = some t → I (ev :: older) t)
    (hC : EachStep step start C evs) (h : replay step start evs = some t) : I evs t := by
  induction evs generalizing t with
  | nil =>
      obtain rfl := replay_nil_eq_some.mp h
      exact hstart
  | cons ev older ih =>
      obtain ⟨s, hs, hev⟩ := replay_cons_eq_some.mp h
      exact hstep older s ev t (ih hC.1 hs) (hC.2 s t hs hev) hev

theorem EachStep.of_forall {C : List ε → σ → ε → σ → Prop} (h : ∀ older s ev t, C older s ev t) :
    EachStep step start C evs := by
  induction evs with
  | nil => trivial
  | cons ev older ih => exact ⟨ih, fun s t _ _ => h older s ev t⟩

theorem replay_induction {I : List ε → σ → Prop} (hstart : I [] start)
    (hstep : ∀ older s ev t, I older s → step s ev = some t → I (ev :: older) t)
    (h : replay step start evs = some t) : I evs t :=
  replay_induction_of hstart (fun older s ev t hI _ => hstep older s ev t hI)
    (.of_forall fun _ _ _ _ => trivial) h

/-- What an invariant and the condition say about one step holds of every step. -/
theorem EachStep.of_invariant {C D : List ε → σ → ε → σ → Prop} {I : List ε → σ → Prop}
    (hI : ∀ {evs t}, EachStep step start C evs → replay step start evs = some t → I evs t)
    (hD : ∀ older s ev t, I older s → C older s ev t → step s ev = some t → D older s ev t)
    (hC : EachStep step start C evs) : EachStep step start D evs := by
  induction evs with
  | nil => trivial
  | cons ev older ih =>
      refine ⟨ih hC.1, ?_⟩
      intro s t hs hev
      exact hD older s ev t (hI hC.1 hs) (hC.2 s t hs hev) hev

end Trace

end DcfsClient
