import Mathlib.Tactic

/-!
# Stateful calls that return, fail with a code, or take the process down

A call reads and writes a state. It ends in one of three ways: it returns a value, it returns an
error code to its caller, or the process is gone (a failed assertion, undefined behaviour, a kill).
The state is kept in all three, because what a failed call leaves behind is what the next call sees.

`wp m Q E s` says that running `m` from `s` ends in `Q` if it returns and in `E` otherwise. Every
rule is an equivalence, so a program is verified by rewriting with the rules until only facts about
states are left. `attempt` turns error codes into values and `zoom` runs a call on a part of the
state. `Moves R m` is the frame rule: whatever happens, `m` moves the state along the preorder `R`.
`Spares k m` says that `m` does not contain the assertion `k`, or that it holds.
-/

namespace DcfsClient

inductive Exit (ε κ : Type) where
  | err (e : ε)
  | abort (k : κ)
  deriving DecidableEq

abbrev Exec (ε κ σ : Type) := EStateM (Exit ε κ) σ

namespace Exec

variable {ε κ σ τ α β : Type}

def fail (e : ε) : Exec ε κ σ α := throw (.err e)

def abort (k : κ) : Exec ε κ σ α := throw (.abort k)

def failIf (c : Bool) (e : ε) : Exec ε κ σ Unit := bif c then fail e else pure ()

/-- The process dies at `k` unless `c` holds. -/
def check (c : Bool) (k : κ) : Exec ε κ σ Unit := bif c then pure () else abort k

def orAbort (o : Option α) (k : κ) : Exec ε κ σ α := o.elim (abort k) pure

/-- Error codes become values; a death stays a death. -/
def attempt (m : Exec ε κ σ α) : Exec ε κ σ (Except ε α) := fun s =>
  match m s with
  | .ok a s' => .ok (.ok a) s'
  | .error (.err e) s' => .ok (.error e) s'
  | .error (.abort k) s' => .error (.abort k) s'

def zoom (get : σ → τ) (put : τ → σ → σ) (m : Exec ε κ τ α) : Exec ε κ σ α := fun s =>
  match m (get s) with
  | .ok a t => .ok a (put t s)
  | .error e t => .error e (put t s)

def wp (m : Exec ε κ σ α) (Q : α → σ → Prop) (E : Exit ε κ → σ → Prop) (s : σ) : Prop :=
  match m s with
  | .ok a s' => Q a s'
  | .error e s' => E e s'

/-- However the call ends, the state has moved along `R`. -/
def Moves (R : σ → σ → Prop) (m : Exec ε κ σ α) : Prop :=
  ∀ s, wp m (fun _ t => R s t) (fun _ t => R s t) s

section Rules

variable {Q : α → σ → Prop} {E : Exit ε κ → σ → Prop} {s : σ}

@[simp] theorem wp_pure (a : α) : wp (pure a : Exec ε κ σ α) Q E s ↔ Q a s := Iff.rfl

@[simp] theorem wp_bind (m : Exec ε κ σ β) (f : β → Exec ε κ σ α) :
    wp (m >>= f) Q E s ↔ wp m (fun b t => wp (f b) Q E t) E s := by
  simp only [wp, bind, EStateM.bind]
  cases m s <;> rfl

@[simp] theorem wp_map (m : Exec ε κ σ β) (f : β → α) :
    wp (f <$> m) Q E s ↔ wp m (fun b t => Q (f b) t) E s := by
  simp only [wp, Functor.map, EStateM.map]
  cases m s <;> rfl

@[simp] theorem wp_get {Q : σ → σ → Prop} : wp (get : Exec ε κ σ σ) Q E s ↔ Q s s := Iff.rfl

@[simp] theorem wp_set {Q : PUnit → σ → Prop} (t : σ) :
    wp (set t : Exec ε κ σ PUnit) Q E s ↔ Q ⟨⟩ t := Iff.rfl

@[simp] theorem wp_modify {Q : PUnit → σ → Prop} (f : σ → σ) :
    wp (modify f : Exec ε κ σ PUnit) Q E s ↔ Q ⟨⟩ (f s) := Iff.rfl

@[simp] theorem wp_modifyGet (f : σ → α × σ) :
    wp (modifyGet f : Exec ε κ σ α) Q E s ↔ Q (f s).1 (f s).2 := Iff.rfl

@[simp] theorem wp_fail (e : ε) : wp (fail e : Exec ε κ σ α) Q E s ↔ E (.err e) s := Iff.rfl

@[simp] theorem wp_abort (k : κ) : wp (abort k : Exec ε κ σ α) Q E s ↔ E (.abort k) s := Iff.rfl

@[simp] theorem wp_failIf {Q : Unit → σ → Prop} (c : Bool) (e : ε) :
    wp (failIf c e : Exec ε κ σ Unit) Q E s ↔
      (c = true → E (.err e) s) ∧ (c = false → Q () s) := by
  cases c <;> simp [failIf]

@[simp] theorem wp_check {Q : Unit → σ → Prop} (c : Bool) (k : κ) :
    wp (check c k : Exec ε κ σ Unit) Q E s ↔
      (c = true → Q () s) ∧ (c = false → E (.abort k) s) := by
  cases c <;> simp [check]

@[simp] theorem wp_orAbort (o : Option α) (k : κ) :
    wp (orAbort o k : Exec ε κ σ α) Q E s ↔
      (∀ a, o = some a → Q a s) ∧ (o = none → E (.abort k) s) := by
  cases o <;> simp [orAbort]

@[simp] theorem wp_attempt {Q : Except ε α → σ → Prop} (m : Exec ε κ σ α) :
    wp (attempt m) Q E s ↔ wp m (fun a => Q (.ok a)) (fun x t => match x with
      | .err e => Q (.error e) t
      | .abort k => E (.abort k) t) s := by
  simp only [wp, attempt]
  rcases m s with ⟨a, t⟩ | ⟨e | k, t⟩ <;> rfl

@[simp] theorem wp_zoom (get : σ → τ) (put : τ → σ → σ) (m : Exec ε κ τ α) :
    wp (zoom get put m) Q E s ↔
      wp m (fun a t => Q a (put t s)) (fun e t => E e (put t s)) (get s) := by
  simp only [wp, zoom]
  cases m (get s) <;> rfl

theorem wp_ite (c : Prop) [Decidable c] (m m' : Exec ε κ σ α) :
    wp (if c then m else m') Q E s ↔ (c → wp m Q E s) ∧ (¬ c → wp m' Q E s) := by
  by_cases h : c <;> simp [h]

theorem wp_mono {Q' : α → σ → Prop} {E' : Exit ε κ → σ → Prop} {m : Exec ε κ σ α}
    (h : wp m Q E s) (hQ : ∀ a t, Q a t → Q' a t) (hE : ∀ e t, E e t → E' e t) :
    wp m Q' E' s := by
  simp only [wp] at h ⊢
  cases hm : m s with
  | ok a t => exact hQ a t (by simpa [hm] using h)
  | error e t => exact hE e t (by simpa [hm] using h)

theorem wp_and {Q' : α → σ → Prop} {E' : Exit ε κ → σ → Prop} {m : Exec ε κ σ α}
    (h : wp m Q E s) (h' : wp m Q' E' s) :
    wp m (fun a t => Q a t ∧ Q' a t) (fun e t => E e t ∧ E' e t) s := by
  simp only [wp] at h h' ⊢
  cases hm : m s with
  | ok a t => exact ⟨by simpa [hm] using h, by simpa [hm] using h'⟩
  | error e t => exact ⟨by simpa [hm] using h, by simpa [hm] using h'⟩

theorem wp_ok {m : Exec ε κ σ α} {a : α} {t : σ} (h : wp m Q E s) (hm : m s = .ok a t) :
    Q a t := by simpa [wp, hm] using h

theorem wp_error {m : Exec ε κ σ α} {e : Exit ε κ} {t : σ} (h : wp m Q E s)
    (hm : m s = .error e t) : E e t := by simpa [wp, hm] using h

/-- What is known of the result by running the call. -/
theorem wp_run (m : Exec ε κ σ α) (s : σ) :
    wp m (fun a t => m s = .ok a t) (fun e t => m s = .error e t) s := by
  simp only [wp]
  cases m s <;> rfl

/-- A call whose exits are all excluded returns. -/
theorem exists_ok {m : Exec ε κ σ α} (h : wp m Q (fun _ _ => False) s) :
    ∃ a t, m s = .ok a t ∧ Q a t := by
  simp only [wp] at h
  cases hm : m s with
  | ok a t => exact ⟨a, t, rfl, by simpa [hm] using h⟩
  | error e t => simp [hm] at h

theorem wp_of_ok {m : Exec ε κ σ α} {a : α} {t : σ} (h : m s = .ok a t) : wp m Q E s ↔ Q a t := by
  simp only [wp, h]

theorem wp_of_error {m : Exec ε κ σ α} {x : Exit ε κ} {t : σ} (h : m s = .error x t) :
    wp m Q E s ↔ E x t := by
  simp only [wp, h]

/-- What follows however the call ends is a fact. -/
theorem of_wp_const {R : Prop} {m : Exec ε κ σ α} (h : wp m (fun _ _ => R) (fun _ _ => R) s) : R := by
  simp only [wp] at h
  cases hm : m s with
  | ok a t => simpa [hm] using h
  | error x t => simpa [hm] using h

/-- A sequence goes on from where its first call returned. -/
theorem bind_of_ok {m : Exec ε κ σ β} {f : β → Exec ε κ σ α} {b : β} {t : σ} (h : m s = .ok b t) :
    (m >>= f) s = f b t := by simp only [bind, EStateM.bind, h]

theorem bind_of_error {m : Exec ε κ σ β} {f : β → Exec ε κ σ α} {x : Exit ε κ} {t : σ}
    (h : m s = .error x t) : (m >>= f) s = .error x t := by simp only [bind, EStateM.bind, h]

/-- A sequence that returns has returned from each of its calls. -/
theorem bind_eq_ok {m : Exec ε κ σ β} {f : β → Exec ε κ σ α} {a : α} {u : σ}
    (h : (m >>= f) s = .ok a u) : ∃ b t, m s = .ok b t ∧ f b t = .ok a u := by
  cases hm : m s with
  | ok b t =>
      rw [bind_of_ok hm] at h
      exact ⟨b, t, rfl, h⟩
  | error x t =>
      rw [bind_of_error hm] at h
      cases h

theorem check_eq_ok {c : Bool} {k : κ} {t : σ} (h : (check c k : Exec ε κ σ Unit) s = .ok () t) :
    c = true ∧ s = t := by
  cases c with
  | true =>
      cases h
      exact ⟨rfl, rfl⟩
  | false => cases h

theorem failIf_eq_ok {c : Bool} {e : ε} {t : σ} (h : (failIf c e : Exec ε κ σ Unit) s = .ok () t) :
    c = false ∧ s = t := by
  cases c with
  | true => cases h
  | false =>
      cases h
      exact ⟨rfl, rfl⟩

theorem attempt_eq_ok {m : Exec ε κ σ α} {r : Except ε α} {t : σ} (h : attempt m s = .ok r t) :
    (∃ a, r = .ok a ∧ m s = .ok a t) ∨ ∃ e, r = .error e ∧ m s = .error (.err e) t := by
  unfold attempt at h
  split at h
  · rename_i a t' hm
    cases h
    exact .inl ⟨a, rfl, hm⟩
  · rename_i e t' hm
    cases h
    exact .inr ⟨e, rfl, hm⟩
  · cases h

def after (m : Exec ε κ σ α) (s : σ) : Option σ :=
  match m s with
  | .ok _ t => some t
  | .error _ _ => none

theorem after_eq_some {m : Exec ε κ σ α} {t : σ} : after m s = some t ↔ ∃ a, m s = .ok a t := by
  unfold after
  cases hm : m s with
  | ok a t' => simp
  | error x t' => simp

def returns (m : Exec ε κ σ α) (s : σ) : Bool :=
  match m s with
  | .ok _ _ => true
  | .error _ _ => false

theorem exists_of_returns {m : Exec ε κ σ α} (h : returns m s = true) : ∃ a t, m s = .ok a t := by
  unfold returns at h
  cases hm : m s with
  | ok a t => exact ⟨a, t, rfl⟩
  | error e t => rw [hm] at h; cases h

end Rules

/-! ## Moving along a preorder -/

namespace Moves

section Plain

variable {R : σ → σ → Prop}

theorem mono {R' : σ → σ → Prop} {m : Exec ε κ σ α} (h : Moves R m) (hR : ∀ s t, R s t → R' s t) :
    Moves R' m :=
  fun s => wp_mono (h s) (fun _ t => hR s t) (fun _ t => hR s t)

theorem ite {c : Prop} [Decidable c] {m m' : Exec ε κ σ α} (h : Moves R m) (h' : Moves R m') :
    Moves R (if c then m else m') := by
  split
  · exact h
  · exact h'

theorem modify {f : σ → σ} (h : ∀ s, R s (f s)) :
    Moves R (modify f : Exec ε κ σ PUnit) := fun s => h s

theorem modifyGet {f : σ → α × σ} (h : ∀ s, R s (f s).2) :
    Moves R (modifyGet f : Exec ε κ σ α) := fun s => h s

theorem attempt {m : Exec ε κ σ α} (h : Moves R m) : Moves R (attempt m) := by
  intro s
  rw [wp_attempt]
  refine wp_mono (h s) (fun _ _ ht => ht) (fun e t ht => ?_)
  cases e <;> exact ht

theorem zoom {T : τ → τ → Prop} {get : σ → τ} {put : τ → σ → σ} {m : Exec ε κ τ α}
    (h : Moves T m) (hput : ∀ s t, T (get s) t → R s (put t s)) : Moves R (zoom get put m) := by
  intro s
  rw [wp_zoom]
  exact wp_mono (h (get s)) (fun _ t ht => hput s t ht) (fun _ t ht => hput s t ht)

end Plain

section Preorder

variable {R : σ → σ → Prop} [IsPreorder σ R]

theorem pure (a : α) : Moves R (pure a : Exec ε κ σ α) := fun s => refl_of R s

theorem get : Moves R (get : Exec ε κ σ σ) := fun s => refl_of R s

theorem fail (e : ε) : Moves R (fail e : Exec ε κ σ α) := fun s => refl_of R s

theorem abort (k : κ) : Moves R (abort k : Exec ε κ σ α) := fun s => refl_of R s

theorem failIf (c : Bool) (e : ε) : Moves R (failIf c e : Exec ε κ σ Unit) := by
  intro s
  simp [refl_of R s]

theorem check (c : Bool) (k : κ) : Moves R (check c k : Exec ε κ σ Unit) := by
  intro s
  simp [refl_of R s]

theorem orAbort (o : Option α) (k : κ) : Moves R (orAbort o k : Exec ε κ σ α) := by
  intro s
  simp [refl_of R s]

theorem bind {m : Exec ε κ σ β} {f : β → Exec ε κ σ α} (hm : Moves R m)
    (hf : ∀ b, Moves R (f b)) : Moves R (m >>= f) := by
  intro s
  rw [wp_bind]
  refine wp_mono (hm s) (fun b t ht => ?_) (fun _ _ h => h)
  exact wp_mono (hf b t) (fun _ _ h => trans_of R ht h) (fun _ _ h => trans_of R ht h)

theorem forM {l : List β} {f : β → Exec ε κ σ PUnit} (h : ∀ b ∈ l, Moves R (f b)) :
    Moves R (l.forM f) := by
  induction l with
  | nil => exact pure _
  | cons b l ih => exact bind (h b (by simp)) (fun _ => ih (fun b' hb' => h b' (by simp [hb'])))

end Preorder

end Moves

/-! ## Deaths that a call excludes -/

def Spares (k : κ) (m : Exec ε κ σ α) : Prop :=
  ∀ s, wp m (fun _ _ => True) (fun x _ => x ≠ .abort k) s

namespace Spares

variable {k : κ}

theorem pure (a : α) : Spares k (pure a : Exec ε κ σ α) := fun _ => trivial

theorem get : Spares k (get : Exec ε κ σ σ) := fun _ => trivial

theorem modify (f : σ → σ) : Spares k (modify f : Exec ε κ σ PUnit) := fun _ => trivial

theorem modifyGet (f : σ → α × σ) : Spares k (modifyGet f : Exec ε κ σ α) := fun _ => trivial

theorem fail (e : ε) : Spares k (fail e : Exec ε κ σ α) := by
  intro s
  simp

theorem failIf (c : Bool) (e : ε) : Spares k (failIf c e : Exec ε κ σ Unit) := by
  intro s
  simp

theorem abort {k' : κ} (h : k' ≠ k) : Spares k (abort k' : Exec ε κ σ α) := by
  intro s
  simp [h]

theorem check {k' : κ} (c : Bool) (h : k' ≠ k) : Spares k (check c k' : Exec ε κ σ Unit) := by
  intro s
  simp [h]

theorem orAbort {k' : κ} (o : Option α) (h : k' ≠ k) :
    Spares k (orAbort o k' : Exec ε κ σ α) := by
  intro s
  simp [h]

theorem ite {c : Prop} [Decidable c] {m m' : Exec ε κ σ α} (h : Spares k m) (h' : Spares k m') :
    Spares k (if c then m else m') := by
  split
  · exact h
  · exact h'

theorem bind {m : Exec ε κ σ β} {f : β → Exec ε κ σ α} (hm : Spares k m)
    (hf : ∀ b, Spares k (f b)) : Spares k (m >>= f) := by
  intro s
  rw [wp_bind]
  exact wp_mono (hm s) (fun b t _ => hf b t) (fun _ _ h => h)

theorem attempt {m : Exec ε κ σ α} (h : Spares k m) : Spares k (attempt m) := by
  intro s
  rw [wp_attempt]
  refine wp_mono (h s) (fun _ _ ht => ht) (fun x t hx => ?_)
  cases x with
  | err e => trivial
  | abort k' => exact hx

theorem zoom {get : σ → τ} {put : τ → σ → σ} {m : Exec ε κ τ α} (h : Spares k m) :
    Spares k (zoom get put m) := by
  intro s
  rw [wp_zoom]
  exact h (get s)

theorem forM {l : List β} {f : β → Exec ε κ σ PUnit} (h : ∀ b ∈ l, Spares k (f b)) :
    Spares k (l.forM f) := by
  induction l with
  | nil => exact pure _
  | cons b l ih => exact bind (h b (by simp)) (fun _ => ih (fun b' hb' => h b' (by simp [hb'])))

end Spares

end Exec

end DcfsClient
