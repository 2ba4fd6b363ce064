import Mathlib.Tactic

/-!
# Append-only stores of records that name each other

A store maps names to records. A record refers to others by name (`refs`), and some of these
references form chains (`next`). Nothing here says where names come from: the facts are about any
store that only grows, which is what naming records by their own hash provides.

`Extends` is growth, `Closed` says that no reference dangles, `Reaches` is the closure of `refs`, and
`Follows next s stop k ns` says that the chain from `k` visits `ns` in this order and ends at `stop`.
-/

namespace DcfsClient.LinkedStore

variable {K V : Type}

def Extends (s s' : K → Option V) : Prop := ∀ k v, s k = some v → s' k = some v

def Closed (refs : V → List K) (s : K → Option V) : Prop :=
  ∀ k v, s k = some v → ∀ r ∈ refs v, ∃ w, s r = some w

inductive Reaches (refs : V → List K) (s : K → Option V) (k : K) : K → Prop where
  | refl : Reaches refs s k k
  | tail {l r : K} {v : V} : Reaches refs s k l → s l = some v → r ∈ refs v → Reaches refs s k r

def Follows (next : V → Option K) (s : K → Option V) (stop : K) : K → List K → Prop
  | k, [] => k = stop
  | k, n :: ns => k = n ∧ ∃ v m, s n = some v ∧ next v = some m ∧ Follows next s stop m ns

theorem Extends.refl (s : K → Option V) : Extends s s := fun _ _ h => h

theorem Extends.trans {s t u : K → Option V} (h : Extends s t) (h' : Extends t u) : Extends s u :=
  fun k v hk => h' k v (h k v hk)

theorem Extends.of_forall_eq {s s' : K → Option V} (h : ∀ k, s' k = s k) : Extends s s' :=
  fun k v hk => by rw [h k, hk]

section Put

variable [DecidableEq K] {s : K → Option V} {k : K} {v : V}

theorem Extends.put (h : s k = none ∨ s k = some v) : Extends s (Function.update s k (some v)) := by
  intro l w hl
  by_cases he : l = k
  · subst l
    rcases h with h | h
    · rw [h] at hl; cases hl
    · rw [Function.update_self, ← h, hl]
  · rwa [Function.update_of_ne he]

theorem Closed.put {refs : V → List K} (hs : Closed refs s)
    (hv : ∀ r ∈ refs v, ∃ w, s r = some w) (h : s k = none ∨ s k = some v) :
    Closed refs (Function.update s k (some v)) := by
  have hgrow := Extends.put h
  intro l w hl r hr
  by_cases he : l = k
  · subst l
    rw [Function.update_self, Option.some.injEq] at hl
    subst w
    obtain ⟨x, hx⟩ := hv r hr
    exact ⟨x, hgrow r x hx⟩
  · rw [Function.update_of_ne he] at hl
    obtain ⟨x, hx⟩ := hs l w hl r hr
    exact ⟨x, hgrow r x hx⟩

end Put

/-! ## Reachability -/

section Reachability

variable {refs : V → List K} {s s' : K → Option V} {k r : K}

/-- In a closed store everything reachable from a stored name is stored. -/
theorem Reaches.stored (hs : Closed refs s) (hk : ∃ v, s k = some v) (h : Reaches refs s k r) :
    ∃ w, s r = some w := by
  induction h with
  | refl => exact hk
  | tail _ hl hr _ => exact hs _ _ hl _ hr

/-- Two closed stores that never disagree about a name hold the same records at everything reachable
from a record they share. -/
theorem Reaches.shared (hs : Closed refs s) (hs' : Closed refs s')
    (hagree : ∀ l v w, s l = some v → s' l = some w → v = w)
    (hk : ∃ v, s k = some v ∧ s' k = some v) (h : Reaches refs s k r) :
    ∃ v, s r = some v ∧ s' r = some v := by
  induction h with
  | refl => exact hk
  | tail _ hl hr ih =>
      obtain ⟨v, hv, hv'⟩ := ih
      rw [hl, Option.some.injEq] at hv
      subst hv
      obtain ⟨w, hw⟩ := hs _ _ hl _ hr
      obtain ⟨w', hw'⟩ := hs' _ _ hv' _ hr
      have he := hagree _ w w' hw hw'
      subst he
      exact ⟨w, hw, hw'⟩

end Reachability

/-! ## Chains -/

section Chains

variable {next : V → Option K} {s s' : K → Option V} {stop k : K} {ns ms : List K}

theorem Follows.cons {n : K} {v : V} (hv : s n = some v) (hn : next v = some k)
    (h : Follows next s stop k ns) : Follows next s stop n (n :: ns) :=
  ⟨rfl, v, k, hv, hn, h⟩

theorem Follows.tail {n : K} (h : Follows next s stop k (n :: ns)) :
    ∃ m, Follows next s stop m ns := by
  obtain ⟨-, -, m, -, -, hrest⟩ := h
  exact ⟨m, hrest⟩

theorem Follows.head_eq {n : K} (h : Follows next s stop k (n :: ns)) : k = n := h.1

/-- A chain whose end has no successor is determined by its start. -/
theorem Follows.unique (hstop : ∀ v, s stop = some v → next v = none)
    (h : Follows next s stop k ns) (h' : Follows next s stop k ms) : ns = ms := by
  induction ns generalizing k ms with
  | nil =>
      cases ms with
      | nil => rfl
      | cons m ms =>
          obtain ⟨rfl, v, l, hv, hl, -⟩ := h'
          change k = stop at h
          subst h
          rw [hstop v hv] at hl
          cases hl
  | cons n ns ih =>
      obtain ⟨rfl, v, l, hv, hl, hrest⟩ := h
      cases ms with
      | nil =>
          change k = stop at h'
          subst h'
          rw [hstop v hv] at hl
          cases hl
      | cons m ms =>
          obtain ⟨rfl, v', l', hv', hl', hrest'⟩ := h'
          rw [hv, Option.some.injEq] at hv'
          subst hv'
          rw [hl, Option.some.injEq] at hl'
          subst hl'
          rw [ih hrest hrest']

/-- A chain whose links are references reaches its end. -/
theorem Follows.reaches {refs : V → List K} (hnext : ∀ v m, next v = some m → m ∈ refs v) {l : K}
    (hl : Reaches refs s l k) (h : Follows next s stop k ns) : Reaches refs s l stop := by
  induction ns generalizing k with
  | nil =>
      change k = stop at h
      rwa [h] at hl
  | cons n ns ih =>
      obtain ⟨rfl, v, m, hv, hm, hrest⟩ := h
      exact ih (hl.tail hv (hnext v m hm)) hrest

theorem Follows.suffix {pre : List K} {n : K} (h : Follows next s stop k (pre ++ n :: ns)) :
    Follows next s stop n (n :: ns) := by
  induction pre generalizing k with
  | nil =>
      have he : k = n := h.head_eq
      subst he
      exact h
  | cons p pre ih =>
      obtain ⟨m, hm⟩ := Follows.tail h
      exact ih hm

/-- No name occurs twice on a chain: from its second visit on the chain would repeat itself. -/
theorem Follows.nodup (hstop : ∀ v, s stop = some v → next v = none)
    (h : Follows next s stop k ns) : ns.Nodup := by
  induction ns generalizing k with
  | nil => exact List.nodup_nil
  | cons n ns ih =>
      obtain ⟨m, hm⟩ := Follows.tail h
      refine List.nodup_cons.mpr ⟨?_, ih hm⟩
      intro hmem
      obtain ⟨a, b, rfl⟩ := List.append_of_mem hmem
      have hk : k = n := h.head_eq
      subst hk
      have he := Follows.unique hstop (Follows.suffix hm) h
      have hlen := congrArg List.length he
      simp only [List.length_cons, List.length_append] at hlen
      omega

end Chains

end DcfsClient.LinkedStore
