import DcfsClient.CriticalSection
import DcfsClient.CallbackCases

/-!
# The inode table under `inode_table_mutex`

FUSE serves requests on several threads, and `allocate_inode`, `get_inode` and `release_inode` hold
one mutex from their first line to their return. Here their bodies are sections: they look at the
table, are told by the backend what a new capsule or the metadata of a file is, and write the table.
The backend may answer anything; its own state is not guarded by this mutex. The table holds
pointers, a pointer is the number of the object, and an object is what its constructor made.

The comment in the source gives the purpose of the long critical section: no file is to be requested
twice while it is being read from the backend. `one_object` is that for every interleaving.
-/

namespace DcfsClient

open Locked Exec

structure InodeTable where
  entries : Bytes → Option Nat := fun _ => none
  objects : List Inode := []
  freed : List Nat := []

inductive InodeCall where
  | allocate
  | get (hashname : Bytes)
  | release (hashname : Bytes)
  deriving DecidableEq

inductive BackendAnswer where
  | created (ret : Except ErrT (Bytes × Bytes))
  | fileMeta (ret : Except ErrT FileMeta)

abbrev InodeSection := Section InodeTable BackendAnswer (Option Nat)

abbrev InodeFinished (ι : Type) := Finished ι InodeCall BackendAnswer (Option Nat)

namespace InodeTable

def put (t : InodeTable) (hashname : Bytes) (ino : Inode) : InodeTable :=
  { t with
    entries := Function.update t.entries hashname (some t.objects.length)
    objects := t.objects ++ [ino] }

def drop (t : InodeTable) (hashname : Bytes) (ptr : Nat) : InodeTable :=
  { t with
    entries := Function.update t.entries hashname none
    freed := ptr :: t.freed }

/-- The end of the two functions that make an inode. -/
def insert (hashname : Bytes) (ino : Inode) : InodeSection :=
  .look fun t => .write (·.put hashname ino) (.done (some t.objects.length))

/-- After the call of the backend; an answer to another call does not come. -/
def allocated (blockSizeInKb : Nat) : BackendAnswer → InodeSection
  | .created (.ok r) => insert r.1 (Inode.fresh r.1 blockSizeInKb blockmapCover r.2)
  | _ => .done none

def loaded (blockSizeInKb : Nat) (hashname : Bytes) : BackendAnswer → InodeSection
  | .fileMeta (.ok m) =>
    insert hashname (Inode.load hashname m.recordname m.blockmapHash blockSizeInKb blockmapCover
      m.isize m.aesKey)
  | _ => .done none

def body (blockSizeInKb : Nat) : InodeCall → InodeSection
  | .allocate => .ask (allocated blockSizeInKb)
  | .get hashname =>
    .look fun t => (t.entries hashname).elim (.ask (loaded blockSizeInKb hashname)) fun ptr =>
      .done (some ptr)
  | .release hashname =>
    .look fun t => (t.entries hashname).elim (.done none) fun ptr =>
      .write (·.drop hashname ptr) (.done none)

end InodeTable

/-! ## What a section does -/

inductive InodeCall.Does (blockSizeInKb : Nat) (t : InodeTable) :
    InodeCall → List BackendAnswer → Option Nat → InodeTable → Prop
  | created (hashname aesKey : Bytes) :
      Does blockSizeInKb t .allocate [.created (.ok (hashname, aesKey))] (some t.objects.length)
        (t.put hashname (Inode.fresh hashname blockSizeInKb blockmapCover aesKey))
  | notCreated (w : BackendAnswer) (hw : ∀ r, w ≠ .created (.ok r)) :
      Does blockSizeInKb t .allocate [w] none t
  | cached (hashname : Bytes) (ptr : Nat) (hentry : t.entries hashname = some ptr) :
      Does blockSizeInKb t (.get hashname) [] (some ptr) t
  | loaded (hashname : Bytes) (m : FileMeta) (hentry : t.entries hashname = none) :
      Does blockSizeInKb t (.get hashname) [.fileMeta (.ok m)] (some t.objects.length)
        (t.put hashname (Inode.load hashname m.recordname m.blockmapHash blockSizeInKb blockmapCover
          m.isize m.aesKey))
  | notLoaded (hashname : Bytes) (w : BackendAnswer) (hentry : t.entries hashname = none)
      (hw : ∀ m, w ≠ .fileMeta (.ok m)) :
      Does blockSizeInKb t (.get hashname) [w] none t
  | released (hashname : Bytes) (ptr : Nat) (hentry : t.entries hashname = some ptr) :
      Does blockSizeInKb t (.release hashname) [] none (t.drop hashname ptr)
  | notHeld (hashname : Bytes) (hentry : t.entries hashname = none) :
      Does blockSizeInKb t (.release hashname) [] none t

namespace InodeTable

variable {blockSizeInKb : Nat} {t t' : InodeTable} {ws : List BackendAnswer} {a : Option Nat}

theorem run_insert {hashname : Bytes} {ino : Inode}
    (h : (insert hashname ino).run t ws = some (a, t')) :
    ws = [] ∧ a = some t.objects.length ∧ t' = t.put hashname ino := by
  simp only [insert, Section.run, List.isEmpty_iff] at h
  split at h
  next hws =>
    cases h
    exact ⟨hws, rfl, rfl⟩
  next => cases h

theorem run_done {o : Option Nat} (h : (.done o : InodeSection).run t ws = some (a, t')) :
    ws = [] ∧ a = o ∧ t' = t := by
  simp only [Section.run, List.isEmpty_iff] at h
  split at h
  next hws =>
    cases h
    exact ⟨hws, rfl, rfl⟩
  next => cases h

theorem run_ask {next : BackendAnswer → InodeSection}
    (h : (.ask next : InodeSection).run t ws = some (a, t')) :
    ∃ w ws', ws = w :: ws' ∧ (next w).run t ws' = some (a, t') := by
  cases ws with
  | nil => cases h
  | cons w ws' => exact ⟨w, ws', rfl, h⟩

theorem does_of_run {c : InodeCall} (h : (body blockSizeInKb c).run t ws = some (a, t')) :
    c.Does blockSizeInKb t ws a t' := by
  cases c with
  | allocate =>
      obtain ⟨w, ws', rfl, hrun⟩ := run_ask h
      cases w with
      | created ret =>
          cases ret with
          | error e =>
              obtain ⟨rfl, rfl, rfl⟩ := run_done hrun
              exact .notCreated _ (by simp)
          | ok r =>
              obtain ⟨rfl, rfl, rfl⟩ := run_insert hrun
              exact .created r.1 r.2
      | fileMeta ret =>
          obtain ⟨rfl, rfl, rfl⟩ := run_done hrun
          exact .notCreated _ (by simp)
  | get hashname =>
      simp only [body, Section.run] at h
      cases hentry : t.entries hashname with
      | some ptr =>
          rw [hentry] at h
          obtain ⟨rfl, rfl, rfl⟩ := run_done h
          exact .cached hashname ptr hentry
      | none =>
          rw [hentry] at h
          obtain ⟨w, ws', rfl, hrun⟩ := run_ask h
          cases w with
          | created ret =>
              obtain ⟨rfl, rfl, rfl⟩ := run_done hrun
              exact .notLoaded hashname _ hentry (by simp)
          | fileMeta ret =>
              cases ret with
              | error e =>
                  obtain ⟨rfl, rfl, rfl⟩ := run_done hrun
                  exact .notLoaded hashname _ hentry (by simp)
              | ok m =>
                  obtain ⟨rfl, rfl, rfl⟩ := run_insert hrun
                  exact .loaded hashname m hentry
  | release hashname =>
      simp only [body, Section.run] at h
      cases hentry : t.entries hashname with
      | some ptr =>
          rw [hentry] at h
          obtain ⟨rfl, rfl, rfl⟩ := run_done h
          exact .released hashname ptr hentry
      | none =>
          rw [hentry] at h
          obtain ⟨rfl, rfl, rfl⟩ := run_done h
          exact .notHeld hashname hentry

/-! ## Invariants of the table -/

@[simp] theorem put_entries_same (hashname : Bytes) (ino : Inode) :
    (t.put hashname ino).entries hashname = some t.objects.length := Function.update_self _ _ _

theorem put_entries_other {hashname hashname' : Bytes} (hname : hashname' ≠ hashname) (ino : Inode) :
    (t.put hashname ino).entries hashname' = t.entries hashname' := Function.update_of_ne hname _ _

@[simp] theorem drop_entries_same (hashname : Bytes) (ptr : Nat) :
    (t.drop hashname ptr).entries hashname = none := Function.update_self _ _ _

theorem drop_entries_other {hashname hashname' : Bytes} (hname : hashname' ≠ hashname) (ptr : Nat) :
    (t.drop hashname ptr).entries hashname' = t.entries hashname' := Function.update_of_ne hname _ _

structure Sound (t : InodeTable) : Prop where
  named : ∀ hashname ptr, t.entries hashname = some ptr →
    ∃ ino, t.objects[ptr]? = some ino ∧ ino.hashname = hashname
  live : ∀ hashname ptr, t.entries hashname = some ptr → ptr ∉ t.freed
  bounded : ∀ ptr ∈ t.freed, ptr < t.objects.length
  once : t.freed.Nodup

theorem Sound.empty : ({} : InodeTable).Sound where
  named _ _ hentry := by cases hentry
  live _ _ hentry := by cases hentry
  bounded _ hmem := by cases hmem
  once := List.nodup_nil

/-- A new object is not one of those that were deleted. -/
theorem Sound.put (h : t.Sound) (ino : Inode) : (t.put ino.hashname ino).Sound where
  named hashname ptr hentry := by
    by_cases hname : hashname = ino.hashname
    · subst hname
      rw [put_entries_same, Option.some.injEq] at hentry
      subst hentry
      exact ⟨ino, List.getElem?_concat_length, rfl⟩
    · rw [put_entries_other hname] at hentry
      obtain ⟨ino', hino', hnamed⟩ := h.named hashname ptr hentry
      obtain ⟨hlt, _⟩ := List.getElem?_eq_some_iff.mp hino'
      exact ⟨ino', (List.getElem?_append_left hlt).trans hino', hnamed⟩
  live hashname ptr hentry := by
    by_cases hname : hashname = ino.hashname
    · subst hname
      rw [put_entries_same, Option.some.injEq] at hentry
      subst hentry
      intro hmem
      exact absurd (h.bounded _ hmem) (Nat.lt_irrefl _)
    · rw [put_entries_other hname] at hentry
      exact h.live hashname ptr hentry
  bounded ptr hmem := by
    have hlt : ptr < t.objects.length := h.bounded ptr hmem
    simp only [InodeTable.put, List.length_append]
    omega
  once := h.once

/-- The entry of another file points to another object. -/
theorem Sound.injective (h : t.Sound) {hashname hashname' : Bytes} {ptr : Nat}
    (hentry : t.entries hashname = some ptr) (hentry' : t.entries hashname' = some ptr) :
    hashname = hashname' := by
  obtain ⟨ino, hino, rfl⟩ := h.named hashname ptr hentry
  obtain ⟨ino', hino', rfl⟩ := h.named hashname' ptr hentry'
  rw [hino, Option.some.injEq] at hino'
  rw [hino']

theorem Sound.drop (h : t.Sound) {hashname : Bytes} {ptr : Nat}
    (hentry : t.entries hashname = some ptr) : (t.drop hashname ptr).Sound := by
  have hkept : ∀ hashname' ptr', (t.drop hashname ptr).entries hashname' = some ptr' →
      hashname' ≠ hashname ∧ t.entries hashname' = some ptr' := by
    intro hashname' ptr' hentry'
    by_cases hname : hashname' = hashname
    · subst hname
      rw [drop_entries_same] at hentry'
      cases hentry'
    · rw [drop_entries_other hname] at hentry'
      exact ⟨hname, hentry'⟩
  refine ⟨?named, ?live, ?bounded, ?once⟩
  case named =>
    intro hashname' ptr' hentry'
    exact h.named hashname' ptr' (hkept hashname' ptr' hentry').2
  case live =>
    intro hashname' ptr' hentry' hmem
    obtain ⟨hname, hold⟩ := hkept hashname' ptr' hentry'
    rcases List.mem_cons.mp hmem with rfl | hfreed
    · exact hname (h.injective hold hentry)
    · exact h.live hashname' ptr' hold hfreed
  case bounded =>
    intro ptr' hmem
    rcases List.mem_cons.mp hmem with rfl | hfreed
    · obtain ⟨ino, hino, _⟩ := h.named hashname ptr' hentry
      exact (List.getElem?_eq_some_iff.mp hino).1
    · exact h.bounded ptr' hfreed
  case once => exact List.nodup_cons.mpr ⟨h.live hashname ptr hentry, h.once⟩

theorem Sound.does {c : InodeCall} (h : t.Sound) (hdoes : c.Does blockSizeInKb t ws a t') :
    t'.Sound := by
  cases hdoes with
  | created hashname aesKey => exact h.put (Inode.fresh hashname blockSizeInKb blockmapCover aesKey)
  | notCreated w hw => exact h
  | cached hashname ptr hentry => exact h
  | loaded hashname m hentry =>
      exact h.put (Inode.load hashname m.recordname m.blockmapHash blockSizeInKb blockmapCover
        m.isize m.aesKey)
  | notLoaded hashname w hentry hw => exact h
  | released hashname ptr hentry => exact h.drop hentry
  | notHeld hashname hentry => exact h

end InodeTable

/-! ## The entry of one file -/

def InodeFinished.Creates {ι : Type} (e : InodeFinished ι) (hashname : Bytes) : Prop :=
  e.call = .allocate ∧ ∃ aesKey, e.answers = [.created (.ok (hashname, aesKey))]

def InodeFinished.Gives {ι : Type} (e : InodeFinished ι) (hashname : Bytes) (ptr : Nat) : Prop :=
  e.result = some ptr ∧ (e.call = .get hashname ∨ e.Creates hashname)

def InodeFinished.Replaces {ι : Type} (e : InodeFinished ι) (hashname : Bytes) : Prop :=
  e.call = .release hashname ∨ e.Creates hashname

section Entries

variable {ι : Type} {blockSizeInKb : Nat} {t t' : InodeTable} {e : InodeFinished ι}
  {hashname : Bytes} {ptr : Nat} {mid older : List (InodeFinished ι)}

theorem InodeFinished.Gives.entry (hgives : e.Gives hashname ptr)
    (hdoes : e.call.Does blockSizeInKb t e.answers e.result t') :
    t'.entries hashname = some ptr := by
  obtain ⟨i, c, ws, a⟩ := e
  obtain ⟨rfl, rfl | ⟨rfl, aesKey, rfl⟩⟩ := hgives
  · cases hdoes with
    | cached _ _ hentry => exact hentry
    | loaded _ m hentry => exact InodeTable.put_entries_same _ _
  · cases hdoes with
    | created _ _ => exact InodeTable.put_entries_same _ _

theorem InodeFinished.keeps_entry (hkeeps : ¬ e.Replaces hashname)
    (hdoes : e.call.Does blockSizeInKb t e.answers e.result t')
    (hentry : t.entries hashname = some ptr) : t'.entries hashname = some ptr := by
  obtain ⟨i, c, ws, a⟩ := e
  cases hdoes with
  | created hashname' aesKey =>
      have hname : hashname ≠ hashname' := by
        rintro rfl
        exact hkeeps (.inr ⟨rfl, aesKey, rfl⟩)
      rw [InodeTable.put_entries_other hname, hentry]
  | notCreated w hw => exact hentry
  | cached hashname' ptr' hentry' => exact hentry
  | loaded hashname' m hentry' =>
      have hname : hashname ≠ hashname' := by
        rintro rfl
        rw [hentry] at hentry'
        cases hentry'
      rw [InodeTable.put_entries_other hname, hentry]
  | notLoaded hashname' w hentry' hw => exact hentry
  | released hashname' ptr' hentry' =>
      have hname : hashname ≠ hashname' := by
        rintro rfl
        exact hkeeps (.inl rfl)
      rw [InodeTable.drop_entries_other hname, hentry]
  | notHeld hashname' hentry' => exact hentry

/-- The pointer that a section has returned stays in the table until a section replaces it. -/
theorem InodeFinished.Gives.entry_after (hgives : e.Gives hashname ptr)
    (hkeep : ∀ x ∈ mid, ¬ x.Replaces hashname)
    (h : Serial (InodeTable.body blockSizeInKb) {} (mid ++ e :: older) t) :
    t.entries hashname = some ptr := by
  induction mid generalizing t with
  | nil =>
      cases h with
      | cons _ _ s _ hlog hrun => exact hgives.entry (InodeTable.does_of_run hrun)
  | cons x mid ih =>
      cases h with
      | cons _ _ s _ hlog hrun =>
          have hentry : s.entries hashname = some ptr :=
            ih (fun y hy => hkeep y (List.mem_cons_of_mem _ hy)) hlog
          exact InodeFinished.keeps_entry (hkeep x List.mem_cons_self)
            (InodeTable.does_of_run hrun) hentry

end Entries

/-! ## The sequential functions -/

namespace InodeTable

variable {P : Platform} {t : InodeTable} {fs fs' : Fs}

/-- The table holds a pointer for every inode of the sequential model. -/
def Agrees (t : InodeTable) (fs : Fs) : Prop :=
  ∀ hashname, (t.entries hashname).isSome = (fs.inodeTable hashname).isSome

theorem Agrees.put (h : t.Agrees fs) (hashname : Bytes) (ino ino' : Inode)
    (hfs' : fs'.inodeTable = Function.update fs.inodeTable hashname (some ino')) :
    (t.put hashname ino).Agrees fs' := by
  intro hashname'
  rw [hfs']
  by_cases hname : hashname' = hashname
  · rw [hname, put_entries_same, Function.update_self]
    rfl
  · rw [put_entries_other hname, Function.update_of_ne hname]
    exact h hashname'

theorem Agrees.of_eq (h : t.Agrees fs) (hfs' : fs'.inodeTable = fs.inodeTable) : t.Agrees fs' := by
  intro hashname
  rw [hfs']
  exact h hashname

/-- A call of `getInode` is a run of the section on the answer that the backend gave; the object
behind a new pointer is the inode that the call has made. -/
theorem getInode_run (hagree : t.Agrees fs) {hashname : Bytes} {out : Option Bytes}
    (h : Fs.getInode P hashname fs = .ok out fs') : ∃ ws a t',
    (body fs.blockSizeInKb (.get hashname)).run t ws = some (a, t') ∧ t'.Agrees fs' ∧
      a.isSome = out.isSome ∧ (a = some t.objects.length → t.entries hashname = none →
        t'.objects[t.objects.length]? = fs'.inodeTable hashname) := by
  have hentry := hagree hashname
  rcases wp_ok (wp_getInode hashname) h with ⟨rfl, hnone, hkeep⟩ | ⟨rfl, ino, hload⟩
  · rw [hnone, Option.isSome_none, Option.isSome_eq_false_iff, Option.isNone_iff_eq_none] at hentry
    refine ⟨[.fileMeta (.error 0)], none, t, ?_, hagree.of_eq hkeep.inodeTable, rfl,
      fun h => (by cases h)⟩
    simp only [body, Section.run, hentry]
    rfl
  · cases hload with
    | cached hlook hino =>
        rw [hino, Option.isSome_some] at hentry
        obtain ⟨ptr, hptr⟩ := Option.isSome_iff_exists.mp hentry
        refine ⟨[], some ptr, t, ?_, hagree.of_eq hlook.keeps.inodeTable, rfl, fun _ h => ?_⟩
        · simp only [body, Section.run, hptr]
          rfl
        · rw [hptr] at h
          cases h
    | loaded m b root hroot hnone hread hsame hino hfs =>
        rw [hnone, Option.isSome_none, Option.isSome_eq_false_iff, Option.isNone_iff_eq_none] at hentry
        refine ⟨[.fileMeta (.ok m)], some t.objects.length, t.put hashname ino, ?_,
          hagree.put hashname ino ino (by rw [hfs]; rfl), rfl, fun _ _ => ?_⟩
        · simp only [body, Section.run, hentry, hino]
          rfl
        · have hino' : fs'.inodeTable hashname = some ino := by
            rw [hfs]
            exact Function.update_self _ _ _
          rw [hino']
          exact List.getElem?_concat_length

theorem wp_allocateInode : wp (Fs.allocateInode P)
    (fun out fs' => (out = none ∧ fs'.inodeTable = fs.inodeTable) ∨
      ∃ hashname aesKey, out = some hashname ∧
        fs'.inodeTable = Function.update fs.inodeTable hashname
          (some (Inode.fresh hashname fs.blockSizeInKb blockmapCover aesKey)))
    (fun _ _ => True) fs := by
  simp only [Fs.allocateInode, wp_bind, wp_attempt, wp_onStorage]
  refine wp_mono (wp_run _ _) ?_ ?_
  · rintro ⟨hashname, aesKey⟩ b _
    exact Or.inr ⟨hashname, aesKey, rfl, rfl⟩
  · rintro x b _
    cases x with
    | err e => exact Or.inl ⟨rfl, rfl⟩
    | abort k => trivial

theorem allocateInode_run (hagree : t.Agrees fs) {out : Option Bytes}
    (h : Fs.allocateInode P fs = .ok out fs') : ∃ ws a t',
    (body fs.blockSizeInKb .allocate).run t ws = some (a, t') ∧ t'.Agrees fs' ∧
      a.isSome = out.isSome ∧ ∀ hashname, out = some hashname →
        t'.objects[t.objects.length]? = fs'.inodeTable hashname := by
  rcases wp_ok wp_allocateInode h with ⟨rfl, htable⟩ | ⟨hashname, aesKey, rfl, htable⟩
  · exact ⟨[.created (.error 0)], none, t, rfl, hagree.of_eq htable, rfl, fun _ h => (by cases h)⟩
  · refine ⟨[.created (.ok (hashname, aesKey))], some t.objects.length, _, rfl,
      hagree.put hashname (Inode.fresh hashname fs.blockSizeInKb blockmapCover aesKey) _ htable, rfl,
      ?_⟩
    intro hashname' hout
    cases hout
    rw [htable, Function.update_self]
    exact List.getElem?_concat_length

theorem releaseInode_run (hagree : t.Agrees fs) {hashname : Bytes}
    (h : Fs.releaseInode hashname fs = .ok () fs') : ∃ t',
    (body fs.blockSizeInKb (.release hashname)).run t [] = some (none, t') ∧ t'.Agrees fs' := by
  have htable : fs'.inodeTable = Function.update fs.inodeTable hashname none := by
    cases h
    rfl
  cases hentry : t.entries hashname with
  | none =>
      have hnone := hagree hashname
      rw [hentry, Option.isSome_none, eq_comm, Option.isSome_eq_false_iff,
        Option.isNone_iff_eq_none] at hnone
      refine ⟨t, ?_, hagree.of_eq (htable.trans (Function.update_eq_self_iff.mpr hnone.symm))⟩
      simp only [body, Section.run, hentry]
      rfl
  | some ptr =>
      refine ⟨t.drop hashname ptr, ?_, ?_⟩
      · simp only [body, Section.run, hentry]
        rfl
      · intro hashname'
        rw [htable]
        by_cases hname : hashname' = hashname
        · rw [hname, drop_entries_same, Function.update_self]
          rfl
        · rw [drop_entries_other hname, Function.update_of_ne hname]
          exact hagree hashname'

end InodeTable

/-! ## Every interleaving -/

abbrev InodeThreads (ι : Type) := Locked ι InodeCall InodeTable BackendAnswer (Option Nat)

instance : Nonempty BackendAnswer := ⟨.created (.error 0)⟩

section Threads

variable {ι : Type} {blockSizeInKb : Nat}

theorem InodeTable.Sound.of_serial {log : List (InodeFinished ι)} {t : InodeTable}
    (h : Serial (InodeTable.body blockSizeInKb) {} log t) : t.Sound :=
  h.invariant .empty fun _ _ _ _ _ hrun hsound => hsound.does (InodeTable.does_of_run hrun)

theorem InodeCall.Does.get_of_entry {t t' : InodeTable} {hashname : Bytes} {ptr : Nat}
    {ws : List BackendAnswer} {a : Option Nat}
    (hdoes : (InodeCall.get hashname).Does blockSizeInKb t ws a t')
    (hentry : t.entries hashname = some ptr) : a = some ptr ∧ ws = [] := by
  cases hdoes with
  | cached _ ptr' hentry' =>
      rw [hentry, Option.some.injEq] at hentry'
      exact ⟨congrArg some hentry'.symm, rfl⟩
  | loaded _ m hentry' =>
      rw [hentry] at hentry'
      cases hentry'
  | notLoaded _ w hentry' hw =>
      rw [hentry] at hentry'
      cases hentry'

/-- Inside a section that has the inode in the table: it has not asked the backend and will not. -/
theorem Section.get_of_entry {t shared : InodeTable} {hashname : Bytes} {ptr : Nat}
    {ws : List BackendAnswer} {rest : InodeSection} (hentry : t.entries hashname = some ptr)
    (hrest : ∀ ws', (InodeTable.body blockSizeInKb (.get hashname)).run t (ws ++ ws') =
      rest.run shared ws') : ws = [] ∧ ∀ next, rest ≠ .ask next := by
  obtain ⟨ws', r, hrun⟩ := rest.exists_run shared
  have hnil : ∀ us, (∃ r, rest.run shared us = some r) → ws ++ us = [] := by
    intro us hus
    obtain ⟨⟨a, t'⟩, hus⟩ := hus
    rw [← hrest us] at hus
    simp only [InodeTable.body, Section.run, hentry, Option.elim_some] at hus
    exact (InodeTable.run_done hus).1
  obtain ⟨hws, hws'⟩ := List.append_eq_nil_iff.mp (hnil ws' ⟨r, hrun⟩)
  refine ⟨hws, ?_⟩
  rintro next rfl
  rw [hws'] at hrun
  cases hrun

variable [DecidableEq ι] {s : InodeThreads ι} {evs : List (LockEvent ι InodeCall BackendAnswer)}

/-- The threads exclude each other. In the order in which they leave, the calls run one after the other
with the results that the threads get, and make the table of them; a call that begins after another has
returned comes after it. Every entry is the pointer to a live object of its file, and no object is
deleted twice. -/
theorem inode_table_serializable {newer : List (LockEvent ι InodeCall BackendAnswer)}
    {s' : InodeThreads ι} (h : Locked.IsRun (InodeTable.body blockSizeInKb) {} evs s)
    (h' : Locked.IsRun (InodeTable.body blockSizeInKb) {} (newer ++ evs) s') :
    (∀ i j c d ws us rest rest', s.threads i = .inside c ws rest →
      s.threads j = .inside d us rest' → i = j) ∧
    (∃ t, Serial (InodeTable.body blockSizeInKb) {} s.finished t ∧ t.Sound ∧
      (s.holder = none → s.shared = t)) ∧
    (∀ i c a, s.threads i = .leaving c a → ∃ ws, ⟨i, c, ws, a⟩ ∈ s.finished) ∧
    ∃ later, s'.finished = later ++ s.finished := by
  obtain ⟨entry, hserial⟩ := serialized h
  refine ⟨?_, ⟨entry, hserial.serial, .of_serial hserial.serial, hserial.free⟩, hserial.left,
    finished_grows h h'⟩
  intro i j c d ws us rest rest' hi hj
  have hholder := (hserial.inside i c ws rest hi).1
  rw [(hserial.inside j d us rest' hj).1, Option.some.injEq] at hholder
  exact hholder.symm

/-- As long as the pointer that a thread was given is not released or replaced, every other thread gets
the same one, without a request to the backend, also when it comes while the first is still waiting for
the backend. -/
theorem one_object (h : Locked.IsRun (InodeTable.body blockSizeInKb) {} evs s)
    {mid older : List (InodeFinished ι)} {e : InodeFinished ι} {hashname : Bytes} {ptr : Nat}
    (hgives : e.Gives hashname ptr) (hkeep : ∀ x ∈ mid, ¬ x.Replaces hashname) :
    (∀ newer (e' : InodeFinished ι), s.finished = newer ++ e' :: (mid ++ e :: older) →
      e'.call = .get hashname → e'.result = some ptr ∧ e'.answers = []) ∧
    ∀ i ws rest, s.finished = mid ++ e :: older → s.threads i = .inside (.get hashname) ws rest →
      ws = [] ∧ ∀ next, rest ≠ .ask next := by
  obtain ⟨entry, hserial⟩ := serialized h
  constructor
  · intro newer e' hfinished hcall
    have hlog := hserial.serial
    rw [hfinished] at hlog
    obtain ⟨t, t', ht, hrun, _⟩ := hlog.before
    have hentry := hgives.entry_after hkeep ht
    have hdoes := InodeTable.does_of_run hrun
    rw [hcall] at hdoes
    exact hdoes.get_of_entry hentry
  · intro i ws rest hfinished hi
    have hlog := hserial.serial
    rw [hfinished] at hlog
    exact Section.get_of_entry (hgives.entry_after hkeep hlog) (hserial.inside i _ ws rest hi).2

end Threads

def InodeTable.fileMeta : FileMeta :=
  { recordname := [1], blockmapHash := [2], isize := 5, aesKey := [3] }

/-- Thread 1 asks for the file while thread 0 is waiting for the backend. -/
def firstGet : List (LockEvent Nat InodeCall BackendAnswer) :=
  [ .unlock 0, .work 0, .work 0, .told 0 (.fileMeta (.ok InodeTable.fileMeta)),
    .call 1 (.get [7]), .work 0, .lock 0, .call 0 (.get [7]) ]

def concurrentGets : List (LockEvent Nat InodeCall BackendAnswer) :=
  [.unlock 1, .work 1, .lock 1] ++ firstGet

theorem concurrentGets_run : ∃ s : InodeThreads Nat,
    Locked.IsRun (InodeTable.body 4) {} concurrentGets s ∧
    s.finished = [⟨1, .get [7], [], some 0⟩,
      ⟨0, .get [7], [.fileMeta (.ok InodeTable.fileMeta)], some 0⟩] := ⟨_, rfl, rfl⟩

theorem inode_table_serializable_concurrentGets : ∃ s t : InodeThreads Nat,
    Locked.IsRun (InodeTable.body 4) {} firstGet s ∧
    Locked.IsRun (InodeTable.body 4) {} concurrentGets t ∧
    ∃ later, t.finished = later ++ s.finished := by
  obtain ⟨t, ht, -⟩ := concurrentGets_run
  rw [concurrentGets] at ht
  obtain ⟨s, hs⟩ := Trace.replay_of_append ht
  exact ⟨s, t, hs, ht, (inode_table_serializable hs ht).2.2.2⟩

theorem one_object_concurrentGets : ∃ (s : InodeThreads Nat) (e e' : InodeFinished Nat),
    Locked.IsRun (InodeTable.body 4) {} concurrentGets s ∧ s.finished = [e', e] ∧
      e.answers = [.fileMeta (.ok InodeTable.fileMeta)] ∧ e'.result = e.result ∧
      e'.answers = [] := by
  obtain ⟨s, hs, hfinished⟩ := concurrentGets_run
  have hgives : InodeFinished.Gives
      (⟨0, .get [7], [.fileMeta (.ok InodeTable.fileMeta)], some 0⟩ : InodeFinished Nat) [7] 0 :=
    ⟨rfl, .inl rfl⟩
  have hkeep : ∀ x ∈ ([] : List (InodeFinished Nat)), ¬ x.Replaces [7] := by simp
  have hsame := (one_object hs hgives hkeep).1 [] _ hfinished rfl
  exact ⟨s, _, _, hs, hfinished, rfl, hsame.1, hsame.2⟩

end DcfsClient
