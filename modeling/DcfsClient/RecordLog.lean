import DcfsClient.LinkedStore
import DcfsClient.Middleware

/-!
# Adding records to the store

`Pushed` and `Dropped` are the two things that composing and writing one record can do to the
backend: the record is stored under its name, or it is not and at most a torn remainder appears where
no record was. `Pushes` is a sequence of the first kind. The rules below show that these are the only
effects of the middleware's pushes, and `Sound` that they keep the store well formed: every record is
stored under the hash of its own header, and, as long as records refer only to what is already there
(`Grounded`), no reference dangles. Without collisions nothing stored ever changes.
-/

namespace DcfsClient

/-- The names a record mentions: its previous hashes and, in a blockmap, its entries. -/
def pduRefs (p : CapsulePDU) : List Bytes :=
  p.header.prevhash ++
    if p.header.msgtype = recordTypeToString .blockmap then chunks hashLen p.payloadInTransit else []

def prev0 (p : CapsulePDU) : Option Bytes := p.header.prevhash[0]?

def prev1 (p : CapsulePDU) : Option Bytes := p.header.prevhash[1]?

namespace Backend

variable (P : Platform)

def records (b : Backend) (d : Bytes) : Bytes → Option CapsulePDU := fun name =>
  match b.store d name with
  | some (.whole c) => some (P.parse c)
  | _ => none

structure Holds (b : Backend) (d : Bytes) (r : Draft) : Prop where
  record : b.records P d (r.name P) = some (r.pdu P)
  strings : r.strings P ⊆ b.hashed

structure Pushed (d : Bytes) (r : Draft) (b b' : Backend) : Prop where
  store : b'.store = (b.putSlot d (r.name P) (.whole (r.bytes P))).store
  index : b'.index = b.index
  hashed : b'.hashed = r.strings P ++ b.hashed

structure Dropped (d : Bytes) (r : Draft) (b b' : Backend) : Prop where
  store : b'.store = b.store ∨ ∃ c, b'.store = (b.tear d (r.name P) c).store
  index : b'.index = b.index
  hashed : b'.hashed = r.strings P ++ b.hashed

inductive Pushes (d : Bytes) : Backend → List Draft → Backend → Prop where
  | nil {b b' : Backend} : b.Same b' → Pushes d b [] b'
  | cons {b b₁ b' : Backend} {r : Draft} {rs : List Draft} :
      Pushed P d r b b₁ → Pushes d b₁ rs b' → Pushes d b (r :: rs) b'

def Stuck (d : Bytes) (b : Backend) (rs : List Draft) (b' : Backend) : Prop :=
  ∃ b₁, Pushes P d b rs b₁ ∧ (b₁.Same b' ∨ ∃ r, Dropped P d r b₁ b')

end Backend

open Backend

def Grounded (P : Platform) (s : Bytes → Prop) : List Draft → Prop
  | [] => True
  | r :: rs => (∀ x ∈ pduRefs (r.pdu P), s x) ∧ Grounded P (fun x => s x ∨ x = r.name P) rs

theorem Grounded.mono {P : Platform} {s s' : Bytes → Prop} {rs : List Draft}
    (h : Grounded P s rs) (hs : ∀ x, s x → s' x) : Grounded P s' rs := by
  induction rs generalizing s s' with
  | nil => trivial
  | cons r rs ih => exact ⟨fun x hx => hs x (h.1 x hx), ih h.2 (fun x hx => hx.imp (hs x) id)⟩

theorem Grounded.append {P : Platform} {s : Bytes → Prop} {rs rs' : List Draft}
    (h : Grounded P s rs) (h' : Grounded P (fun x => s x ∨ ∃ r ∈ rs, x = r.name P) rs') :
    Grounded P s (rs ++ rs') := by
  induction rs generalizing s with
  | nil => exact h'.mono (by simp)
  | cons r rs ih =>
      refine ⟨h.1, ih h.2 (h'.mono ?_)⟩
      intro x hx
      simpa [or_assoc] using hx

/-! ## The effect of the middleware's pushes -/

section Effects

variable {P : Platform} {b b' b₁ : Backend} {d : Bytes}

theorem Backend.Pushes.same_left {rs : List Draft} (hs : b.Same b₁) (h : Pushes P d b₁ rs b') :
    Pushes P d b rs b' := by
  cases h with
  | nil h => exact .nil (hs.trans h)
  | cons hr h =>
      refine .cons ⟨?_, hr.index.trans hs.index, by rw [hr.hashed, hs.hashed]⟩ h
      rw [hr.store]
      simp only [putSlot, hs.store]

theorem Backend.Pushes.append {rs rs' : List Draft} (h : Pushes P d b rs b₁)
    (h' : Pushes P d b₁ rs' b') : Pushes P d b (rs ++ rs') b' := by
  induction h with
  | nil hs => exact h'.same_left hs
  | cons hr _ ih => exact .cons hr (ih h')

theorem Backend.Pushes.index {rs : List Draft} (h : Pushes P d b rs b') : b'.index = b.index := by
  induction h with
  | nil hs => exact hs.index
  | cons hr _ ih => exact ih.trans hr.index

theorem Backend.Pushes.mem_hashed {rs : List Draft} (h : Pushes P d b rs b') (x : Bytes) :
    x ∈ b'.hashed ↔ (∃ r ∈ rs, x ∈ r.strings P) ∨ x ∈ b.hashed := by
  induction h with
  | nil hs => simp [hs.hashed]
  | cons hr _ ih =>
      rw [ih, hr.hashed, List.mem_append]
      simp only [List.mem_cons, exists_eq_or_imp]
      rw [or_left_comm, or_assoc]

theorem Backend.Pushes.hashed_subset {rs : List Draft} (h : Pushes P d b rs b') :
    b.hashed ⊆ b'.hashed := fun x hx => (h.mem_hashed x).mpr (.inr hx)

theorem wp_composeRecord (type : RecordType) (hashes : List Bytes) (payload : Option Bytes)
    {E : Exit ErrT Abort → Backend → Prop} :
    Exec.wp (DCFSMidSim.composeRecord P type hashes payload)
      (fun out b' => let r : Draft := ⟨type, hashes, payload, b.env.clock.headD 0⟩
        out = (r.bytes P, r.name P) ∧ b'.store = b.store ∧ b'.index = b.index ∧
          b'.hashed = r.strings P ++ b.hashed ∧ b'.env.aesKey = b.env.aesKey) E b := by
  cases payload with
  | none =>
      simp only [DCFSMidSim.composeRecord, Exec.wp_bind, hashPart, now, Exec.wp_modifyGet,
        Exec.wp_pure, Option.elim_none]
      exact ⟨rfl, trivial, trivial, rfl, trivial⟩
  | some c =>
      simp only [DCFSMidSim.composeRecord, Exec.wp_bind, hashPart, now, Exec.wp_modifyGet,
        Exec.wp_pure, Option.elim_some]
      exact ⟨rfl, trivial, trivial, rfl, trivial⟩

/-- Writing a composed record pushes it; a failure drops it, unless the stop came after the write. -/
theorem wp_writeComposed (r : Draft) (hstore : b₁.store = b.store) (hindex : b₁.index = b.index)
    (hhashed : b₁.hashed = r.strings P ++ b.hashed) :
    Exec.wp (writeRecord d (r.name P) (r.bytes P))
      (fun _ b' => Pushed P d r b b' ∧ b'.env.aesKey = b₁.env.aesKey)
      (fun _ b' => Pushed P d r b b' ∨ Dropped P d r b b') b₁ := by
  simp only [writeRecord, Exec.wp_bind, nextFault, Exec.wp_modifyGet]
  cases b₁.env.faults.headD .none with
  | none =>
      simp only [Exec.wp_modify]
      exact ⟨⟨by simp only [putSlot, hstore], hindex, hhashed⟩, rfl⟩
  | fail => exact Or.inr ⟨Or.inl hstore, hindex, hhashed⟩
  | torn c =>
      simp only [Exec.wp_bind, Exec.wp_modify, Exec.wp_fail]
      refine Or.inr ⟨Or.inr ⟨c, ?_⟩, ?_, ?_⟩
      · simp only [tear, hstore]
        split
        · rfl
        · simp only [putSlot]
      · simp only [tear]
        split <;> exact hindex
      · simp only [tear]
        split <;> exact hhashed
  | stopBefore => exact Or.inr ⟨Or.inl hstore, hindex, hhashed⟩
  | stopAfter =>
      simp only [Exec.wp_bind, Exec.wp_modify, Exec.wp_abort]
      exact Or.inl ⟨by simp only [putSlot, hstore], hindex, hhashed⟩

theorem wp_pushRecord (type : RecordType) (hashes : List Bytes) (payload : Bytes) :
    Exec.wp (DCFSMidSim.pushRecord P d type hashes payload)
      (fun name b' => ∃ t, name = (Draft.mk type hashes (some payload) t).name P ∧
        Pushed P d ⟨type, hashes, some payload, t⟩ b b')
      (fun _ b' => ∃ t, Pushed P d ⟨type, hashes, some payload, t⟩ b b' ∨
        Dropped P d ⟨type, hashes, some payload, t⟩ b b') b := by
  simp only [DCFSMidSim.pushRecord, Exec.wp_bind]
  refine Exec.wp_mono (wp_composeRecord type hashes (some payload)) ?_ (fun _ _ he => he)
  rintro _ b₁ ⟨rfl, hstore, hindex, hhashed, -⟩
  apply Exec.wp_mono (wp_writeComposed _ hstore hindex hhashed)
  · intro _ b' h
    exact ⟨_, rfl, h.1⟩
  · intro _ b' h
    exact ⟨_, h⟩

end Effects

/-! ## Sound stores -/

/-- Every record lies under the hash of its header, no record mentions an unknown name, and nothing
lies under the empty name, which stands for a missing record. -/
structure Backend.Sound (P : Platform) (b : Backend) : Prop where
  noEmpty : ∀ d, b.store d [] = none
  named : ∀ d name p, b.records P d name = some p →
    ∃ r : Draft, b.Holds P d r ∧ r.name P = name ∧ r.pdu P = p ∧
      b.store d name = some (.whole (r.bytes P))
  closed : ∀ d, LinkedStore.Closed pduRefs (b.records P d)

section Sound

variable {P : Platform} {b b' : Backend} {d : Bytes} {r : Draft}

theorem Backend.records_congr (h : b'.store = b.store) (d : Bytes) :
    b'.records P d = b.records P d := by
  unfold records
  rw [h]

theorem Backend.Holds.mono (h : b.Holds P d r)
    (hrec : LinkedStore.Extends (b.records P d) (b'.records P d)) (hh : b.hashed ⊆ b'.hashed) :
    b'.Holds P d r :=
  ⟨hrec _ _ h.record, fun _ hx => hh (h.strings hx)⟩

/-- Neither a name without a record nor one with a torn remainder is a record. -/
theorem Backend.records_putTorn {name c : Bytes} (hslot : ∀ w, b.store d name ≠ some (.whole w))
    (d' : Bytes) : (b.putSlot d name (.torn c)).records P d' = b.records P d' := by
  funext name'
  by_cases hd : d' = d
  · subst hd
    by_cases hn : name' = name
    · subst hn
      rcases hs : b.store d' name' with _ | w | w
      · simp [Backend.records, putSlot, hs]
      · exact absurd hs (hslot w)
      · simp [Backend.records, putSlot, hs]
    · simp [Backend.records, putSlot, hn]
  · simp [Backend.records, putSlot, hd]

theorem Backend.tear_eq (b : Backend) (d name c : Bytes) :
    b.tear d name c = b ∨
      (∀ w, b.store d name ≠ some (.whole w)) ∧ b.tear d name c = b.putSlot d name (.torn c) := by
  rcases hs : b.store d name with _ | w | w
  · exact Or.inr ⟨by simp, by simp only [tear, hs]⟩
  · exact Or.inl (by simp only [tear, hs])
  · exact Or.inr ⟨by simp, by simp only [tear, hs]⟩

theorem Backend.Dropped.records (h : Dropped P d r b b') (d' : Bytes) :
    b'.records P d' = b.records P d' := by
  rcases h.store with hs | ⟨c, hs⟩
  · exact records_congr hs d'
  · rw [records_congr hs]
    rcases b.tear_eq d (r.name P) c with he | ⟨hslot, he⟩
    · rw [he]
    · rw [he, records_putTorn hslot]

theorem Backend.Pushed.records (hP : P.Lawful) (h : Pushed P d r b b') (d' : Bytes) :
    b'.records P d' = if d' = d then
      Function.update (b.records P d) (r.name P) (some (r.pdu P)) else b.records P d' := by
  funext name
  by_cases hd : d' = d
  · subst hd
    by_cases hn : name = r.name P
    · subst hn
      simp [Backend.records, h.store, putSlot, Draft.bytes, hP.parse_serialize]
    · simp [Backend.records, h.store, putSlot, hn]
  · simp [Backend.records, h.store, putSlot, hd]

/-- Where a record is pushed there was no other: the only candidate is the record itself. -/
theorem Backend.Pushed.slot_free (hP : P.Lawful) (hb : b.Sound P) (h : Pushed P d r b b')
    (hfree : P.CollisionFree b'.hashed) :
    b.records P d (r.name P) = none ∨ b.records P d (r.name P) = some (r.pdu P) := by
  cases hrec : b.records P d (r.name P) with
  | none => exact Or.inl rfl
  | some p =>
      obtain ⟨r', hr', hname, rfl, -⟩ := hb.named d _ p hrec
      have hstr : r.strings P ⊆ b'.hashed := by
        rw [h.hashed]; exact List.subset_append_left _ _
      have hstr' : r'.strings P ⊆ b'.hashed := by
        rw [h.hashed]; exact fun x hx => List.mem_append_right _ (hr'.strings hx)
      rw [Draft.eq_of_name_eq hP hfree hstr' hstr hname]
      exact Or.inr rfl

theorem Backend.Pushed.extends (hP : P.Lawful) (hb : b.Sound P) (h : Pushed P d r b b')
    (hfree : P.CollisionFree b'.hashed) (d' : Bytes) :
    LinkedStore.Extends (b.records P d') (b'.records P d') := by
  rw [h.records hP]
  by_cases hd : d' = d
  · subst hd
    rw [if_pos rfl]
    exact LinkedStore.Extends.put (h.slot_free hP hb hfree)
  · rw [if_neg hd]
    exact LinkedStore.Extends.refl _

theorem Backend.Pushed.holds (hP : P.Lawful) (h : Pushed P d r b b') : b'.Holds P d r := by
  constructor
  · rw [h.records hP, if_pos rfl, Function.update_self]
  · rw [h.hashed]; exact List.subset_append_left _ _

theorem Backend.putSlot_nil {name : Bytes} {slot : Slot} (hn : name ≠ []) (d' : Bytes) :
    (b.putSlot d name slot).store d' [] = b.store d' [] := by
  by_cases hd : d' = d
  · subst hd
    simp [putSlot, Ne.symm hn]
  · simp [putSlot, hd]

theorem Backend.Pushed.sound (hP : P.Lawful) (hb : b.Sound P) (h : Pushed P d r b b')
    (hfree : P.CollisionFree b'.hashed)
    (hrefs : ∀ x ∈ pduRefs (r.pdu P), ∃ w, b.records P d x = some w) : b'.Sound P := by
  have hgrow := h.extends hP hb hfree
  have hsub : b.hashed ⊆ b'.hashed := by rw [h.hashed]; exact List.subset_append_right _ _
  constructor
  · intro d'
    rw [h.store, putSlot_nil (r.name_ne_nil hP)]
    exact hb.noEmpty d'
  · intro d' name p hrec
    by_cases hd : d' = d ∧ name = r.name P
    · obtain ⟨rfl, rfl⟩ := hd
      refine ⟨r, h.holds hP, rfl, ?_, ?_⟩
      · rw [(h.holds hP).record, Option.some.injEq] at hrec
        exact hrec
      · simp [h.store, putSlot]
    · have hold : b.records P d' name = some p := by
        rw [h.records hP] at hrec
        by_cases hd' : d' = d
        · subst hd'
          rwa [if_pos rfl, Function.update_of_ne (fun hn => hd ⟨rfl, hn⟩)] at hrec
        · rwa [if_neg hd'] at hrec
      obtain ⟨r', hr', hname, hpdu, hslot⟩ := hb.named d' name p hold
      refine ⟨r', hr'.mono (hgrow d') hsub, hname, hpdu, ?_⟩
      by_cases hd' : d' = d
      · subst hd'
        simpa [h.store, putSlot, show ¬ name = r.name P from fun hn => hd ⟨rfl, hn⟩] using hslot
      · simpa [h.store, putSlot, hd'] using hslot
  · intro d'
    rw [h.records hP]
    by_cases hd : d' = d
    · subst hd
      rw [if_pos rfl]
      exact LinkedStore.Closed.put (hb.closed d') hrefs (h.slot_free hP hb hfree)
    · rw [if_neg hd]
      exact hb.closed d'

/-- A held record lies under its name as it was composed. -/
theorem Backend.Sound.slot (hb : b.Sound P) (h : b.Holds P d r) :
    b.store d (r.name P) = some (.whole (r.bytes P)) := by
  obtain ⟨r', -, -, hpdu, hslot⟩ := hb.named d _ _ h.record
  rw [hslot, Draft.bytes, hpdu]
  rfl

structure Backend.Grows (P : Platform) (b b' : Backend) : Prop where
  records : ∀ d, LinkedStore.Extends (b.records P d) (b'.records P d)
  hashed : b.hashed ⊆ b'.hashed

theorem Backend.Grows.refl (b : Backend) : b.Grows P b :=
  ⟨fun _ => LinkedStore.Extends.refl _, List.Subset.refl _⟩

theorem Backend.Grows.trans {b₁ b₂ b₃ : Backend} (h : b₁.Grows P b₂) (h' : b₂.Grows P b₃) :
    b₁.Grows P b₃ :=
  ⟨fun d => (h.records d).trans (h'.records d), fun _ hx => h'.hashed (h.hashed hx)⟩

theorem Backend.Grows.of_eq (hs : b'.store = b.store) (hh : b'.hashed = b.hashed) :
    b.Grows P b' :=
  ⟨fun d => LinkedStore.Extends.of_forall_eq (fun k => by rw [records_congr hs]),
    by rw [hh]; exact List.Subset.refl _⟩

theorem Backend.Same.grows (h : b.Same b') : b.Grows P b' := .of_eq h.store h.hashed

theorem Backend.Holds.grows (h : b.Holds P d r) (hg : b.Grows P b') : b'.Holds P d r :=
  h.mono (hg.records d) hg.hashed

theorem Backend.Sound.of_eq (hb : b.Sound P) (hs : b'.store = b.store)
    (hh : b'.hashed = b.hashed) : b'.Sound P := by
  constructor
  · intro d
    rw [hs]
    exact hb.noEmpty d
  · intro d name p hrec
    rw [records_congr hs] at hrec
    obtain ⟨r, hr, hname, hpdu, hslot⟩ := hb.named d name p hrec
    exact ⟨r, hr.grows (.of_eq hs hh), hname, hpdu, by rw [hs, hslot]⟩
  · intro d
    rw [records_congr hs]
    exact hb.closed d

theorem Backend.Sound.same (hb : b.Sound P) (h : b.Same b') : b'.Sound P :=
  hb.of_eq h.store h.hashed

theorem Backend.sound_empty (P : Platform) : ({} : Backend).Sound P :=
  ⟨fun _ => rfl, fun _ _ _ h => (by cases h), fun _ _ _ h => (by cases h)⟩

theorem Backend.Dropped.grows (h : Dropped P d r b b') : b.Grows P b' :=
  ⟨fun d' => LinkedStore.Extends.of_forall_eq (fun k => by rw [h.records d']),
    by rw [h.hashed]; exact List.subset_append_right _ _⟩

theorem Backend.Dropped.sound (hP : P.Lawful) (hb : b.Sound P) (h : Dropped P d r b b') :
    b'.Sound P := by
  constructor
  · intro d'
    rcases h.store with hs | ⟨c, hs⟩
    · rw [hs]
      exact hb.noEmpty d'
    · rw [hs]
      rcases b.tear_eq d (r.name P) c with he | ⟨-, he⟩
      · rw [he]
        exact hb.noEmpty d'
      · rw [he, putSlot_nil (r.name_ne_nil hP)]
        exact hb.noEmpty d'
  · intro d' name p hrec
    rw [h.records d'] at hrec
    obtain ⟨r', hr', hname, hpdu, hslot⟩ := hb.named d' name p hrec
    refine ⟨r', hr'.grows h.grows, hname, hpdu, ?_⟩
    rcases h.store with hs | ⟨c, hs⟩
    · rw [hs, hslot]
    · rw [hs]
      rcases b.tear_eq d (r.name P) c with he | ⟨hfree, he⟩
      · rw [he, hslot]
      · rw [he]
        by_cases hd : d' = d
        · subst hd
          have hn : name ≠ r.name P := by rintro rfl; exact hfree _ hslot
          simpa [putSlot, hn] using hslot
        · simpa [putSlot, hd] using hslot
  · intro d'
    rw [h.records d']
    exact hb.closed d'

/-- Grounded pushes keep the store sound, change nothing that is stored, and store their records. -/
theorem Backend.Pushes.sound (hP : P.Lawful) {rs : List Draft} (h : Pushes P d b rs b')
    (hb : b.Sound P) (hfree : P.CollisionFree b'.hashed)
    (hgr : Grounded P (fun x => ∃ w, b.records P d x = some w) rs) :
    b'.Sound P ∧ b.Grows P b' ∧ ∀ r ∈ rs, b'.Holds P d r := by
  induction h with
  | nil hs => exact ⟨hb.same hs, hs.grows, by simp⟩
  | @cons b b₁ b' r rs hr hrest ih =>
      have hfree₁ := hfree.of_subset hrest.hashed_subset
      have hgrow₁ : b.Grows P b₁ :=
        ⟨hr.extends hP hb hfree₁, by rw [hr.hashed]; exact List.subset_append_right _ _⟩
      have hgr₁ : Grounded P (fun x => ∃ w, b₁.records P d x = some w) rs := by
        apply hgr.2.mono
        rintro x (⟨w, hw⟩ | rfl)
        · exact ⟨w, hgrow₁.records d x w hw⟩
        · exact ⟨_, (hr.holds hP).record⟩
      obtain ⟨hsound, hgrow, hall⟩ := ih (hr.sound hP hb hfree₁ hgr.1) hfree hgr₁
      refine ⟨hsound, hgrow₁.trans hgrow, ?_⟩
      intro r' hr'
      rcases List.mem_cons.mp hr' with rfl | hr'
      · exact (hr.holds hP).grows hgrow
      · exact hall r' hr'

theorem Backend.Stuck.sound (hP : P.Lawful) {rs : List Draft} (h : Stuck P d b rs b')
    (hb : b.Sound P) (hfree : P.CollisionFree b'.hashed)
    (hgr : Grounded P (fun x => ∃ w, b.records P d x = some w) rs) :
    b'.Sound P ∧ b.Grows P b' ∧ b'.index = b.index := by
  obtain ⟨b₁, hpush, hlast⟩ := h
  rcases hlast with hs | ⟨r, hr⟩
  · obtain ⟨hsound, hgrow, -⟩ := hpush.sound hP hb (by rw [← hs.hashed]; exact hfree) hgr
    exact ⟨hsound.same hs, hgrow.trans hs.grows, hs.index.trans hpush.index⟩
  · have hsub : b₁.hashed ⊆ b'.hashed := by rw [hr.hashed]; exact List.subset_append_right _ _
    obtain ⟨hsound, hgrow, -⟩ := hpush.sound hP hb (hfree.of_subset hsub) hgr
    exact ⟨hr.sound hP hsound, hgrow.trans hr.grows, hr.index.trans hpush.index⟩

end Sound

end DcfsClient
