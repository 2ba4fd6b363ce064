import DcfsClient.Trace

/-!
# Critical sections under one lock

A `Section` is code that looks at shared state, is told things by the world and writes the shared
state, one access at a time. `Locked` is a set of threads that call such sections and take one lock
around each of them; the steps of the threads interleave in any order.

`serialized` is the reason for the lock: the sections that have been left can be run one after the
other, in the order in which they were left, with the same results, and the state is what they and the
thread inside have made of it. `finished_grows` relates this order to real time.
-/

namespace DcfsClient

open Trace

inductive Section (σ ω α : Type) where
  | done (a : α)
  | look (next : σ → Section σ ω α)
  | ask (next : ω → Section σ ω α)
  | write (f : σ → σ) (next : Section σ ω α)

namespace Section

variable {σ ω α : Type}

def run : Section σ ω α → σ → List ω → Option (α × σ)
  | .done a, s, ws => if ws.isEmpty then some (a, s) else none
  | .look next, s, ws => run (next s) s ws
  | .ask next, s, ws => ws.head?.bind fun w => run (next w) s ws.tail
  | .write f next, s, ws => run next (f s) ws

/-- If the world answers, a section comes to its end. -/
theorem exists_run [Nonempty ω] (c : Section σ ω α) (s : σ) : ∃ ws r, c.run s ws = some r := by
  induction c generalizing s with
  | done a => exact ⟨[], (a, s), rfl⟩
  | look next ih => exact ih s s
  | ask next ih =>
      obtain ⟨w⟩ := ‹Nonempty ω›
      obtain ⟨ws, r, hrun⟩ := ih w s
      exact ⟨w :: ws, r, hrun⟩
  | write f next ih => exact ih (f s)

end Section

inductive Thread (κ σ ω α : Type) where
  | idle
  | blocked (c : κ)
  | inside (c : κ) (ws : List ω) (rest : Section σ ω α)
  | leaving (c : κ) (a : α)

structure Finished (ι κ ω α : Type) where
  thread : ι
  call : κ
  answers : List ω
  result : α

structure Locked (ι κ σ ω α : Type) where
  shared : σ
  holder : Option ι := none
  threads : ι → Thread κ σ ω α := fun _ => .idle
  finished : List (Finished ι κ ω α) := []

inductive LockEvent (ι κ ω : Type) where
  | call (i : ι) (c : κ)
  | lock (i : ι)
  | work (i : ι)
  | told (i : ι) (w : ω)
  | unlock (i : ι)
  | returned (i : ι)

namespace Locked

variable {ι κ σ ω α : Type} [DecidableEq ι]

def setThread (s : Locked ι κ σ ω α) (i : ι) (t : Thread κ σ ω α) : Locked ι κ σ ω α :=
  { s with threads := Function.update s.threads i t }

def step (body : κ → Section σ ω α) (s : Locked ι κ σ ω α) :
    LockEvent ι κ ω → Option (Locked ι κ σ ω α)
  | .call i c =>
    match s.threads i with
    | .idle => some (s.setThread i (.blocked c))
    | _ => none
  | .lock i =>
    match s.threads i with
    | .blocked c =>
      if s.holder.isNone then some ({ s with holder := some i }.setThread i (.inside c [] (body c)))
      else none
    | _ => none
  | .work i =>
    match s.threads i with
    | .inside c ws (.look next) => some (s.setThread i (.inside c ws (next s.shared)))
    | .inside c ws (.write f next) =>
      some ({ s with shared := f s.shared }.setThread i (.inside c ws next))
    | _ => none
  | .told i w =>
    match s.threads i with
    | .inside c ws (.ask next) => some (s.setThread i (.inside c (ws ++ [w]) (next w)))
    | _ => none
  | .unlock i =>
    match s.threads i with
    | .inside c ws (.done a) =>
      let finished := ⟨i, c, ws, a⟩ :: s.finished
      some ({ s with holder := none, finished := finished }.setThread i (.leaving c a))
    | _ => none
  | .returned i =>
    match s.threads i with
    | .leaving _ _ => some (s.setThread i .idle)
    | _ => none

def IsRun (body : κ → Section σ ω α) (start : σ) (evs : List (LockEvent ι κ ω))
    (s : Locked ι κ σ ω α) : Prop :=
  Trace.replay (step body) { shared := start } evs = some s

inductive Effect (body : κ → Section σ ω α) (s : Locked ι κ σ ω α) :
    LockEvent ι κ ω → Locked ι κ σ ω α → Prop
  | call (i : ι) (c : κ) (hidle : s.threads i = .idle) :
      Effect body s (.call i c) (s.setThread i (.blocked c))
  | lock (i : ι) (c : κ) (hblocked : s.threads i = .blocked c) (hfree : s.holder = none) :
      Effect body s (.lock i) ({ s with holder := some i }.setThread i (.inside c [] (body c)))
  | look (i : ι) (c : κ) (ws : List ω) (next : σ → Section σ ω α)
      (hinside : s.threads i = .inside c ws (.look next)) :
      Effect body s (.work i) (s.setThread i (.inside c ws (next s.shared)))
  | write (i : ι) (c : κ) (ws : List ω) (f : σ → σ) (next : Section σ ω α)
      (hinside : s.threads i = .inside c ws (.write f next)) :
      Effect body s (.work i) ({ s with shared := f s.shared }.setThread i (.inside c ws next))
  | told (i : ι) (w : ω) (c : κ) (ws : List ω) (next : ω → Section σ ω α)
      (hinside : s.threads i = .inside c ws (.ask next)) :
      Effect body s (.told i w) (s.setThread i (.inside c (ws ++ [w]) (next w)))
  | unlock (i : ι) (c : κ) (ws : List ω) (a : α) (hinside : s.threads i = .inside c ws (.done a)) :
      Effect body s (.unlock i)
        ({ s with holder := none, finished := ⟨i, c, ws, a⟩ :: s.finished }.setThread i
          (.leaving c a))
  | returned (i : ι) (c : κ) (a : α) (hleaving : s.threads i = .leaving c a) :
      Effect body s (.returned i) (s.setThread i .idle)

section Effects

variable {body : κ → Section σ ω α} {start : σ} {s t : Locked ι κ σ ω α}
  {evs newer older : List (LockEvent ι κ ω)} {ev : LockEvent ι κ ω}

theorem step_effect (h : s.step body ev = some t) : s.Effect body ev t := by
  cases ev with
  | call i c =>
      simp only [step] at h
      split at h
      next hidle =>
        cases h
        exact .call i c hidle
      next => cases h
  | lock i =>
      simp only [step] at h
      split at h
      next c hblocked =>
        split at h
        next hfree =>
          cases h
          exact .lock i c hblocked (Option.isNone_iff_eq_none.mp hfree)
        next => cases h
      next => cases h
  | work i =>
      simp only [step] at h
      split at h
      next c ws next hinside =>
        cases h
        exact .look i c ws next hinside
      next c ws f next hinside =>
        cases h
        exact .write i c ws f next hinside
      next => cases h
  | told i w =>
      simp only [step] at h
      split at h
      next c ws next hinside =>
        cases h
        exact .told i w c ws next hinside
      next => cases h
  | unlock i =>
      simp only [step] at h
      split at h
      next c ws a hinside =>
        cases h
        exact .unlock i c ws a hinside
      next => cases h
  | returned i =>
      simp only [step] at h
      split at h
      next c a hleaving =>
        cases h
        exact .returned i c a hleaving
      next => cases h

end Effects

end Locked

/-- One section after the other, newest first, each from where the one before it has left the state. -/
inductive Serial {ι κ σ ω α : Type} (body : κ → Section σ ω α) (start : σ) :
    List (Finished ι κ ω α) → σ → Prop
  | nil : Serial body start [] start
  | cons (e : Finished ι κ ω α) (log : List (Finished ι κ ω α)) (s s' : σ)
      (hlog : Serial body start log s)
      (hrun : (body e.call).run s e.answers = some (e.result, s')) : Serial body start (e :: log) s'

namespace Serial

variable {ι κ σ ω α : Type} {body : κ → Section σ ω α} {start s : σ}
  {log newer : List (Finished ι κ ω α)} {e : Finished ι κ ω α}

/-- What every section keeps, whatever it is told, holds after all of them. -/
theorem invariant {I : σ → Prop} (h : Serial body start log s) (hstart : I start)
    (hrun : ∀ c s ws a s', (body c).run s ws = some (a, s') → I s → I s') : I s := by
  induction h with
  | nil => exact hstart
  | cons e log s s' hlog hrun' ih => exact hrun _ _ _ _ _ hrun' ih

/-- A section in the log ran from the state that those before it have left. -/
theorem before (h : Serial body start (newer ++ e :: log) s) :
    ∃ t t', Serial body start log t ∧ (body e.call).run t e.answers = some (e.result, t') ∧
      Serial body start (e :: log) t' := by
  induction newer generalizing s with
  | nil =>
      cases h with
      | cons _ _ t t' hlog hrun => exact ⟨t, s, hlog, hrun, .cons e log t s hlog hrun⟩
  | cons e' newer ih =>
      cases h with
      | cons _ _ t t' hlog hrun => exact ih hlog

end Serial

namespace Locked

variable {ι κ σ ω α : Type} [DecidableEq ι] {body : κ → Section σ ω α} {start : σ}
  {s t : Locked ι κ σ ω α} {evs newer older : List (LockEvent ι κ ω)} {ev : LockEvent ι κ ω}

/-- `entry` is the state in which the lock was last taken; what is left of the section inside would
end as the whole section would from there. -/
structure Serialized (body : κ → Section σ ω α) (start : σ) (s : Locked ι κ σ ω α) (entry : σ) :
    Prop where
  serial : Serial body start s.finished entry
  free : s.holder = none → s.shared = entry
  inside : ∀ i c ws rest, s.threads i = .inside c ws rest → s.holder = some i ∧
    ∀ ws', (body c).run entry (ws ++ ws') = rest.run s.shared ws'
  left : ∀ i c a, s.threads i = .leaving c a → ∃ ws, ⟨i, c, ws, a⟩ ∈ s.finished

@[simp] theorem setThread_same (i : ι) (t : Thread κ σ ω α) : (s.setThread i t).threads i = t :=
  Function.update_self _ _ _

theorem setThread_other {i j : ι} (hij : j ≠ i) (t : Thread κ σ ω α) :
    (s.setThread i t).threads j = s.threads j := Function.update_of_ne hij _ _

/-- A thread outside its section changes what it waits for. -/
theorem Serialized.outside {entry : σ} (h : Serialized body start s entry) (i : ι)
    {t : Thread κ σ ω α} (ht : ∀ c ws rest, t ≠ .inside c ws rest) (ht' : ∀ c a, t ≠ .leaving c a) :
    Serialized body start (s.setThread i t) entry where
  serial := h.serial
  free := h.free
  inside j c ws rest hj := by
    by_cases hij : j = i
    · subst hij
      rw [setThread_same] at hj
      exact absurd hj (ht c ws rest)
    · rw [setThread_other hij] at hj
      exact h.inside j c ws rest hj
  left j c a hj := by
    by_cases hij : j = i
    · subst hij
      rw [setThread_same] at hj
      exact absurd hj (ht' c a)
    · rw [setThread_other hij] at hj
      exact h.left j c a hj

/-- The thread inside makes one step of its section. -/
theorem Serialized.within {entry shared : σ} (h : Serialized body start s entry) {i : ι} {c : κ}
    {ws ws' : List ω} {rest rest' : Section σ ω α} (hi : s.threads i = .inside c ws rest)
    (hrest : ∀ ws'', (body c).run entry (ws' ++ ws'') = rest'.run shared ws'') :
    Serialized body start ({ s with shared := shared }.setThread i (.inside c ws' rest')) entry where
  serial := h.serial
  free hfree := by
    have hheld := (h.inside i c ws rest hi).1
    have hnone : s.holder = none := hfree
    rw [hnone] at hheld
    cases hheld
  inside j c' ws'' rest'' hj := by
    have hheld := (h.inside i c ws rest hi).1
    by_cases hij : j = i
    · subst hij
      rw [setThread_same] at hj
      cases hj
      exact ⟨hheld, hrest⟩
    · rw [setThread_other hij] at hj
      have hheld' := (h.inside j c' ws'' rest'' hj).1
      rw [hheld, Option.some.injEq] at hheld'
      exact absurd hheld'.symm hij
  left j c' a hj := by
    by_cases hij : j = i
    · subst hij
      rw [setThread_same] at hj
      cases hj
    · rw [setThread_other hij] at hj
      exact h.left j c' a hj

theorem Serialized.enter {entry : σ} (h : Serialized body start s entry) {i : ι} (c : κ)
    (hfree : s.holder = none) :
    Serialized body start ({ s with holder := some i }.setThread i (.inside c [] (body c))) entry where
  serial := h.serial
  free hheld := by cases hheld
  inside j c' ws rest hj := by
    by_cases hij : j = i
    · subst hij
      rw [setThread_same] at hj
      cases hj
      refine ⟨rfl, fun ws' => ?_⟩
      rw [List.nil_append]
      exact congrArg (fun shared => (body c).run shared ws') (h.free hfree).symm
    · rw [setThread_other hij] at hj
      have hheld := (h.inside j c' ws rest hj).1
      rw [hfree] at hheld
      cases hheld
  left j c' a hj := by
    by_cases hij : j = i
    · subst hij
      rw [setThread_same] at hj
      cases hj
    · rw [setThread_other hij] at hj
      exact h.left j c' a hj

/-- The section that is left ran from `entry` to its end. -/
theorem Serialized.leave {entry : σ} (h : Serialized body start s entry) {i : ι} {c : κ} {ws : List ω}
    {a : α} (hi : s.threads i = .inside c ws (.done a)) :
    Serialized body start
      ({ s with holder := none, finished := ⟨i, c, ws, a⟩ :: s.finished }.setThread i (.leaving c a))
      s.shared where
  serial := by
    have hrun := (h.inside i c ws _ hi).2 []
    rw [List.append_nil] at hrun
    exact .cons _ _ _ _ h.serial hrun
  free _ := rfl
  inside j c' ws' rest hj := by
    by_cases hij : j = i
    · subst hij
      rw [setThread_same] at hj
      cases hj
    · rw [setThread_other hij] at hj
      have hheld := (h.inside j c' ws' rest hj).1
      rw [(h.inside i c ws _ hi).1, Option.some.injEq] at hheld
      exact absurd hheld.symm hij
  left j c' a' hj := by
    by_cases hij : j = i
    · subst hij
      rw [setThread_same] at hj
      cases hj
      exact ⟨ws, List.mem_cons_self⟩
    · rw [setThread_other hij] at hj
      obtain ⟨ws', hmem⟩ := h.left j c' a' hj
      exact ⟨ws', List.mem_cons_of_mem _ hmem⟩

theorem Serialized.step {entry : σ} (h : Serialized body start s entry)
    (hstep : s.step body ev = some t) : ∃ entry', Serialized body start t entry' := by
  cases step_effect hstep with
  | call i c hidle => exact ⟨entry, h.outside i (by simp) (by simp)⟩
  | lock i c hblocked hfree => exact ⟨entry, h.enter c hfree⟩
  | look i c ws next hinside =>
      exact ⟨entry, h.within hinside (h.inside i c ws _ hinside).2⟩
  | write i c ws f next hinside =>
      exact ⟨entry, h.within hinside (h.inside i c ws _ hinside).2⟩
  | told i w c ws next hinside =>
      refine ⟨entry, h.within hinside ?_⟩
      intro ws'
      rw [List.append_assoc]
      exact (h.inside i c ws _ hinside).2 (w :: ws')
  | unlock i c ws a hinside => exact ⟨s.shared, h.leave hinside⟩
  | returned i c a hleaving => exact ⟨entry, h.outside i (by simp) (by simp)⟩

theorem serialized (h : IsRun body start evs s) : ∃ entry, Serialized body start s entry := by
  refine replay_induction (I := fun _ s => ∃ entry, Serialized body start s entry) ?_ ?_ h
  · exact ⟨start, .nil, fun _ => rfl, fun _ _ _ _ hi => (by cases hi), fun _ _ _ hi => (by cases hi)⟩
  · intro older s ev t hI hstep
    obtain ⟨entry, hentry⟩ := hI
    exact hentry.step hstep

/-- A section that was left by some time stays before all that are left later. -/
theorem finished_grows (hs : IsRun body start older s) (h : IsRun body start (newer ++ older) t) :
    ∃ later, t.finished = later ++ s.finished := by
  induction newer generalizing t with
  | nil =>
      have heq : some s = some t := hs.symm.trans h
      cases heq
      exact ⟨[], rfl⟩
  | cons ev newer ih =>
      obtain ⟨u, hu, hstep⟩ := replay_cons_eq_some.mp h
      obtain ⟨later, hlater⟩ := ih hu
      cases step_effect hstep with
      | call i c hidle => exact ⟨later, hlater⟩
      | lock i c hblocked hfree => exact ⟨later, hlater⟩
      | look i c ws next hinside => exact ⟨later, hlater⟩
      | write i c ws f next hinside => exact ⟨later, hlater⟩
      | told i w c ws next hinside => exact ⟨later, hlater⟩
      | unlock i c ws a hinside => exact ⟨⟨i, c, ws, a⟩ :: later, congrArg (_ :: ·) hlater⟩
      | returned i c a hleaving => exact ⟨later, hlater⟩

end Locked

end DcfsClient
