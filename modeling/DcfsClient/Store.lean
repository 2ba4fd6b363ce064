import DcfsClient.Exec
import DcfsClient.Capsule

/-!
# The record store and the state behind the middleware

`Backend` is what a `StorageBackend` owns: the records a DCServer holds and the middleware's `index_`.
The store is keyed as `DCServer::ReadRecord` and `WriteRecord` are, by capsule and record name.

What the outside world contributes to one call is its `Env`: the clock readings, the random key, and
one `Fault` for each fallible call made, in program order. A failed write may leave a torn record
behind, but not over a record that was stored before; the process may be stopped right before or
right after any of these calls. `hashed` lists the strings that went through SHA-256 to make records
and their names; no call reads it.
-/

namespace DcfsClient

inductive Fault where
  | none
  | fail
  | torn (b : Bytes)
  | stopBefore
  | stopAfter
  deriving DecidableEq

structure Env where
  clock : List (BitVec 64) := []
  aesKey : Mem := fun _ => 0
  faults : List Fault := []

inductive Slot where
  | whole (b : Bytes)
  | torn (b : Bytes)
  deriving DecidableEq

def Slot.bytes : Slot → Bytes
  | .whole b => b
  | .torn b => b

structure Backend where
  store : Bytes → Bytes → Option Slot := fun _ _ => none
  index : Bytes → Option Bytes := fun _ => none
  hashed : List Bytes := []
  env : Env := {}

abbrev BackendM := Exec ErrT Abort Backend

namespace Backend

def putSlot (b : Backend) (dcname recordname : Bytes) (slot : Slot) : Backend :=
  let records := Function.update (b.store dcname) recordname (some slot)
  { b with store := Function.update b.store dcname records }

def tear (b : Backend) (dcname recordname c : Bytes) : Backend :=
  match b.store dcname recordname with
  | some (.whole _) => b
  | _ => b.putSlot dcname recordname (.torn c)

def setIndex (b : Backend) (dcname recordname : Bytes) : Backend :=
  { b with index := Function.update b.index dcname (some recordname) }

end Backend

def nextFault : BackendM Fault :=
  modifyGet fun b => (b.env.faults.headD .none,
    { b with env := { b.env with faults := b.env.faults.tail } })

def now : BackendM (BitVec 64) :=
  modifyGet fun b => (b.env.clock.headD 0,
    { b with env := { b.env with clock := b.env.clock.tail } })

/-- A record into a buffer of `cap` bytes, as `ReadRecord` of either server: the record must fit. -/
def readRecord (dcname recordname : Bytes) (cap : Nat) : BackendM Bytes := do
  match ← nextFault with
  | .none =>
    let b ← get
    match b.store dcname recordname with
    | some slot => do
      Exec.check (slot.bytes.length ≤ cap) .recordFits
      pure slot.bytes
    | none => Exec.fail errNotFound
  | .stopBefore => Exec.abort .stopped
  | .stopAfter => Exec.abort .stopped
  | _ => Exec.fail errIo

def writeRecord (dcname recordname record : Bytes) : BackendM Unit := do
  match ← nextFault with
  | .none => modify (·.putSlot dcname recordname (.whole record))
  | .fail => Exec.fail errIo
  | .torn c => do
    modify (·.tear dcname recordname c)
    Exec.fail errIo
  | .stopBefore => Exec.abort .stopped
  | .stopAfter => do
    modify (·.putSlot dcname recordname (.whole record))
    Exec.abort .stopped

def hashPart (P : Platform) (b : Bytes) : BackendM Bytes :=
  modifyGet fun s => (P.hash256 b, { s with hashed := b :: s.hashed })

def fallible (e : ErrT) : BackendM Unit := do
  match ← nextFault with
  | .none => pure ()
  | .stopBefore => Exec.abort .stopped
  | .stopAfter => Exec.abort .stopped
  | _ => Exec.fail e

/-! ## What a call can do to the backend -/

/-- Nothing but the world's contribution was consumed. -/
structure Backend.Same (b b' : Backend) : Prop where
  store : b'.store = b.store
  index : b'.index = b.index
  hashed : b'.hashed = b.hashed

namespace Backend.Same

theorem refl (b : Backend) : b.Same b := ⟨rfl, rfl, rfl⟩

theorem trans {a b c : Backend} (h : a.Same b) (h' : b.Same c) : a.Same c :=
  ⟨h'.store.trans h.store, h'.index.trans h.index, h'.hashed.trans h.hashed⟩

theorem withEnv (b : Backend) (e : Env) : b.Same { b with env := e } := ⟨rfl, rfl, rfl⟩

end Backend.Same

instance : IsPreorder Backend Backend.Same where
  refl := Backend.Same.refl
  trans := fun _ _ _ => Backend.Same.trans

structure Backend.Remembers (b b' : Backend) : Prop where
  hashed : b.hashed ⊆ b'.hashed
  index : ∀ d, b'.index d = none → b.index d = none

instance : IsPreorder Backend Backend.Remembers where
  refl := fun b => ⟨List.Subset.refl b.hashed, fun _ h => h⟩
  trans := fun _ _ _ h h' =>
    ⟨List.Subset.trans h.hashed h'.hashed, fun d hd => h.index d (h'.index d hd)⟩

theorem Backend.Same.remembers {b b' : Backend} (h : b.Same b') : b.Remembers b' := by
  constructor
  · rw [h.hashed]
    exact List.Subset.refl _
  · intro d hd
    rwa [h.index] at hd

theorem Backend.remembers_setIndex (b : Backend) (d n : Bytes) : b.Remembers (b.setIndex d n) := by
  refine ⟨List.Subset.refl _, fun d' hd' => ?_⟩
  change Function.update b.index d (some n) d' = none at hd'
  by_cases he : d' = d
  · rw [he, Function.update_self] at hd'
    cases hd'
  · rwa [Function.update_of_ne he] at hd'

structure Backend.Touches (d : Bytes) (b b' : Backend) : Prop where
  remembers : b.Remembers b'
  index : ∀ d', d' ≠ d → b'.index d' = b.index d'
  store : ∀ d', d' ≠ d → b'.store d' = b.store d'

instance (d : Bytes) : IsPreorder Backend (Backend.Touches d) where
  refl := fun b => ⟨refl_of Backend.Remembers b, fun _ _ => rfl, fun _ _ => rfl⟩
  trans := fun _ _ _ h h' => ⟨trans_of Backend.Remembers h.remembers h'.remembers,
    fun d' hd => (h'.index d' hd).trans (h.index d' hd),
    fun d' hd => (h'.store d' hd).trans (h.store d' hd)⟩

theorem Backend.Same.touches {b b' : Backend} (h : b.Same b') (d : Bytes) : b.Touches d b' :=
  ⟨h.remembers, fun d' _ => by rw [h.index], fun d' _ => by rw [h.store]⟩

theorem Backend.touches_setIndex (b : Backend) (d n : Bytes) : b.Touches d (b.setIndex d n) :=
  ⟨b.remembers_setIndex d n, fun _ hd => Function.update_of_ne hd _ _, fun _ _ => rfl⟩

theorem Backend.touches_putSlot (b : Backend) (d name : Bytes) (slot : Slot) :
    b.Touches d (b.putSlot d name slot) :=
  ⟨⟨List.Subset.refl _, fun _ h => h⟩, fun _ _ => rfl, fun _ hd => Function.update_of_ne hd _ _⟩

section Rules

variable {b : Backend}

theorem wp_nextFault {Q : Fault → Backend → Prop} {E : Exit ErrT Abort → Backend → Prop}
    (h : ∀ b', b.Same b' → Q (b.env.faults.headD .none) b') : Exec.wp nextFault Q E b := by
  simp only [nextFault, Exec.wp_modifyGet]
  exact h _ ⟨rfl, rfl, rfl⟩

/-- Reading a record consumes a fault and changes nothing; if it returns, the bytes are those under
the name and they fit the buffer. -/
theorem wp_readRecord (dcname recordname : Bytes) (cap : Nat) :
    Exec.wp (readRecord dcname recordname cap)
      (fun r b' => b.Same b' ∧ r.length ≤ cap ∧
        ∃ slot, b.store dcname recordname = some slot ∧ r = slot.bytes)
      (fun _ b' => b.Same b') b := by
  simp only [readRecord, Exec.wp_bind]
  apply wp_nextFault
  intro b' hs
  cases b.env.faults.headD .none with
  | none =>
      simp only [Exec.wp_bind, Exec.wp_get]
      cases hst : b'.store dcname recordname with
      | none => simpa using hs
      | some slot =>
          have hst' : b.store dcname recordname = some slot := by rw [← hs.store, hst]
          simp only [Exec.wp_bind, Exec.wp_check, Exec.wp_pure, decide_eq_true_eq]
          exact ⟨fun hlen => ⟨hs, hlen, slot, hst', rfl⟩, fun _ => hs⟩
  | fail => exact hs
  | torn c => exact hs
  | stopBefore => exact hs
  | stopAfter => exact hs

theorem wp_fallible (e : ErrT) :
    Exec.wp (fallible e) (fun _ b' => b.Same b') (fun _ b' => b.Same b') b := by
  simp only [fallible, Exec.wp_bind]
  apply wp_nextFault
  intro b' hs
  cases b.env.faults.headD .none with
  | none => exact hs
  | fail => exact hs
  | torn c => exact hs
  | stopBefore => exact hs
  | stopAfter => exact hs

end Rules

/-! ## Calls that do not fail -/

def Backend.Calm (b : Backend) : Prop := ∀ f ∈ b.env.faults, f = .none

section Calm

variable {b : Backend}

theorem Backend.Calm.headD (h : b.Calm) : b.env.faults.headD .none = .none := by
  unfold Calm at h
  cases hf : b.env.faults with
  | nil => rfl
  | cons f fs => exact h f (by simp [hf])

theorem wp_nextFault_calm {Q : Fault → Backend → Prop} {E : Exit ErrT Abort → Backend → Prop}
    (h : b.Calm) (hQ : ∀ b', b.Same b' → b'.Calm → Q .none b') : Exec.wp nextFault Q E b := by
  simp only [nextFault, Exec.wp_modifyGet, h.headD]
  exact hQ _ ⟨rfl, rfl, rfl⟩ (fun f hf => h f (List.mem_of_mem_tail hf))

theorem wp_fallible_calm (h : b.Calm) (e : ErrT) :
    Exec.wp (fallible e) (fun _ b' => b.Same b' ∧ b'.Calm) (fun _ _ => False) b := by
  simp only [fallible, Exec.wp_bind]
  apply wp_nextFault_calm h
  intro b' hs hc
  exact ⟨hs, hc⟩

theorem wp_readRecord_calm (h : b.Calm) {dcname recordname : Bytes} {cap : Nat} {slot : Slot}
    (hslot : b.store dcname recordname = some slot) (hfits : slot.bytes.length ≤ cap) :
    Exec.wp (readRecord dcname recordname cap)
      (fun out b' => out = slot.bytes ∧ b.Same b' ∧ b'.Calm) (fun _ _ => False) b := by
  simp only [readRecord, Exec.wp_bind]
  apply wp_nextFault_calm h
  intro b' hs hc
  have hslot' : b'.store dcname recordname = some slot := by rw [hs.store, hslot]
  simp only [Exec.wp_bind, Exec.wp_get, hslot', Exec.wp_check, Exec.wp_pure, decide_eq_true_eq,
    decide_eq_false_iff_not]
  exact ⟨fun _ => ⟨trivial, hs, hc⟩, fun hn => hn hfits⟩

/-- Both rules at once: a read that does not return has met a failure, or a record that is missing or
too long. -/
theorem wp_readRecord_cases (dcname recordname : Bytes) (cap : Nat) :
    Exec.wp (readRecord dcname recordname cap)
      (fun r b' => b.Same b' ∧ (b.Calm → b'.Calm) ∧
        ∃ slot, b.store dcname recordname = some slot ∧ r = slot.bytes ∧ slot.bytes.length ≤ cap)
      (fun _ b' => b.Same b' ∧ ∀ slot, b.store dcname recordname = some slot →
        slot.bytes.length ≤ cap → ¬ b.Calm) b := by
  by_cases h : b.Calm ∧ ∃ slot, b.store dcname recordname = some slot ∧ slot.bytes.length ≤ cap
  · obtain ⟨hc, slot, hslot, hfits⟩ := h
    refine Exec.wp_mono (wp_readRecord_calm hc hslot hfits) ?_ (fun _ _ h => h.elim)
    rintro _ b' ⟨rfl, hs, hc'⟩
    exact ⟨hs, fun _ => hc', slot, hslot, rfl, hfits⟩
  · apply Exec.wp_mono (wp_readRecord dcname recordname cap)
    · rintro _ b' ⟨hs, hlen, slot, hslot, rfl⟩
      exact ⟨hs, fun hc => absurd ⟨hc, slot, hslot, hlen⟩ h, slot, hslot, rfl, hlen⟩
    · intro _ b' hs
      exact ⟨hs, fun slot hslot hfits hc => h ⟨hc, slot, hslot, hfits⟩⟩

theorem wp_fallible_cases (e : ErrT) :
    Exec.wp (fallible e) (fun _ b' => b.Same b' ∧ (b.Calm → b'.Calm))
      (fun _ b' => b.Same b' ∧ ¬ b.Calm) b := by
  by_cases h : b.Calm
  · exact Exec.wp_mono (wp_fallible_calm h e) (fun _ _ hs => ⟨hs.1, fun _ => hs.2⟩)
      (fun _ _ hf => hf.elim)
  · exact Exec.wp_mono (wp_fallible e) (fun _ _ hs => ⟨hs, fun hc => absurd hc h⟩)
      (fun _ _ hs => ⟨hs, h⟩)

theorem wp_writeRecord_calm (h : b.Calm) (dcname recordname record : Bytes) :
    Exec.wp (writeRecord dcname recordname record) (fun _ b' => b'.Calm) (fun _ _ => False) b := by
  simp only [writeRecord, Exec.wp_bind]
  apply wp_nextFault_calm h
  intro b' _ hc
  exact hc

theorem wp_readRecord_present (h : b.Calm) {dcname recordname : Bytes} (cap : Nat) {slot : Slot}
    (hslot : b.store dcname recordname = some slot) :
    Exec.wp (readRecord dcname recordname cap)
      (fun out b' => out = slot.bytes ∧ b.Same b' ∧ b'.Calm) (fun x _ => ∃ k, x = .abort k) b := by
  simp only [readRecord, Exec.wp_bind]
  apply wp_nextFault_calm h
  intro b' hs hc
  have hslot' : b'.store dcname recordname = some slot := by rw [hs.store, hslot]
  simp only [Exec.wp_bind, Exec.wp_get, hslot', Exec.wp_check, Exec.wp_pure]
  exact ⟨fun _ => ⟨trivial, hs, hc⟩, fun _ => ⟨_, rfl⟩⟩

end Calm

/-- Without failures of the world the call returns no error code: it returns a value or an assertion
ends the process. -/
def Steady {α : Type} (m : BackendM α) : Prop :=
  ∀ b, b.Calm → Exec.wp m (fun _ b' => b'.Calm) (fun x _ => ∃ k, x = .abort k) b

namespace Steady

variable {α β : Type}

theorem pure (a : α) : Steady (pure a) := fun _ h => h

theorem check (c : Bool) (k : Abort) : Steady (Exec.check c k) := by
  intro b h
  rw [Exec.wp_check]
  exact ⟨fun _ => h, fun _ => ⟨k, rfl⟩⟩

theorem orAbort (o : Option α) (k : Abort) : Steady (Exec.orAbort o k) := by
  intro b h
  rw [Exec.wp_orAbort]
  exact ⟨fun _ _ => h, fun _ => ⟨k, rfl⟩⟩

theorem bind {m : BackendM β} {f : β → BackendM α} (hm : Steady m) (hf : ∀ a, Steady (f a)) :
    Steady (m >>= f) := by
  intro b h
  rw [Exec.wp_bind]
  exact Exec.wp_mono (hm b h) (fun a t ht => hf a t ht) (fun _ _ hx => hx)

theorem writeRecord (dcname recordname record : Bytes) :
    Steady (writeRecord dcname recordname record) := fun _ h =>
  Exec.wp_mono (wp_writeRecord_calm h dcname recordname record) (fun _ _ hc => hc)
    (fun _ _ hf => hf.elim)

theorem hashPart (P : Platform) (c : Bytes) : Steady (hashPart P c) := fun _ h => h

theorem now : Steady now := fun _ h => h

end Steady

section Moves

open Exec

theorem nextFault_moves : Moves Backend.Same nextFault := .modifyGet fun _ => ⟨rfl, rfl, rfl⟩

theorem readRecord_moves (dcname recordname : Bytes) (cap : Nat) :
    Moves Backend.Same (readRecord dcname recordname cap) :=
  fun _ => wp_mono (wp_readRecord dcname recordname cap) (fun _ _ h => h.1) (fun _ _ h => h)

theorem fallible_moves (e : ErrT) : Moves Backend.Same (fallible e) := fun _ => wp_fallible e

theorem tear_touches (b : Backend) (dcname recordname c : Bytes) :
    b.Touches dcname (b.tear dcname recordname c) := by
  unfold Backend.tear
  split
  · exact refl_of (Backend.Touches dcname) b
  · exact b.touches_putSlot dcname recordname _

theorem writeRecord_touches (dcname recordname record : Bytes) :
    Moves (Backend.Touches dcname) (writeRecord dcname recordname record) := by
  refine .bind (nextFault_moves.mono fun _ _ h => h.touches dcname) fun fault => ?_
  have hput : Moves (ε := ErrT) (κ := Abort) (Backend.Touches dcname)
      (modify (·.putSlot dcname recordname (.whole record))) :=
    .modify fun b => b.touches_putSlot dcname recordname _
  cases fault with
  | none => exact hput
  | fail => exact .fail _
  | torn c => exact .bind (.modify fun b => tear_touches b _ _ c) fun _ => .fail _
  | stopBefore => exact .abort _
  | stopAfter => exact .bind hput fun _ => .abort _

theorem hashPart_touches (P : Platform) (c d : Bytes) :
    Moves (Backend.Touches d) (hashPart P c) :=
  .modifyGet fun _ =>
    ⟨⟨List.subset_cons_self _ _, fun _ h => h⟩, fun _ _ => rfl, fun _ _ => rfl⟩

theorem now_touches (d : Bytes) : Moves (Backend.Touches d) now :=
  .modifyGet fun _ => ⟨⟨List.Subset.refl _, fun _ h => h⟩, fun _ _ => rfl, fun _ _ => rfl⟩

end Moves

/-! ## Which assertions a call contains

All that the calls to the server can end with, apart from an error code, is a stop of the process or a
record that does not fit.
-/

section Spares

open Exec

variable {k : Abort}

theorem nextFault_spares : Spares k nextFault := .modifyGet _

theorem fallible_spares (hk : .stopped ≠ k) (e : ErrT) : Spares k (fallible e) := by
  refine .bind nextFault_spares fun fault => ?_
  cases fault with
  | none => exact .pure _
  | fail => exact .fail _
  | torn c => exact .fail _
  | stopBefore => exact .abort hk
  | stopAfter => exact .abort hk

theorem readRecord_spares (hk : .stopped ≠ k) (hfits : .recordFits ≠ k) (dcname recordname : Bytes)
    (cap : Nat) : Spares k (readRecord dcname recordname cap) := by
  refine .bind nextFault_spares fun fault => ?_
  cases fault with
  | none =>
      refine .bind .get fun b => ?_
      cases b.store dcname recordname with
      | none => exact .fail _
      | some slot => exact .bind (.check _ hfits) fun _ => .pure _
  | fail => exact .fail _
  | torn c => exact .fail _
  | stopBefore => exact .abort hk
  | stopAfter => exact .abort hk

theorem writeRecord_spares (hk : .stopped ≠ k) (dcname recordname record : Bytes) :
    Spares k (writeRecord dcname recordname record) := by
  refine .bind nextFault_spares fun fault => ?_
  cases fault with
  | none => exact .modify _
  | fail => exact .fail _
  | torn c => exact .bind (.modify _) fun _ => .fail _
  | stopBefore => exact .abort hk
  | stopAfter => exact .bind (.modify _) fun _ => .abort hk

end Spares

end DcfsClient
