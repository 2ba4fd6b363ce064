import DcfsClient.Filesystem
import DcfsClient.Trace

/-!
# Directory loops of several callbacks

`fuse_main` serves callbacks on several threads, and each of them walks the root directory with its
own `InitReaddir`/`Readdir` loop, but the iterator belongs to the directory. `DirLoops` is a directory
together with the loops of the callbacks that are being served; a `DirCall` is one call on the
directory, made by one of them. The calls come in any order that the loops themselves allow.

`DirLoop.Follows` says what a loop has seen of the directory. It is kept by every call that finds the
iterator where the loop's own last call left it, and by all calls of the other loops.
-/

namespace DcfsClient

/-- What a callback runs the loop for. `dcfs_getattr`, `dcfs_open` and the requests without a handle
look a name up, `dcfs_create` adds the name if there is none, and `dcfs_readdir` lists. -/
inductive LoopGoal where
  | find (name : Bytes)
  | create (name : Bytes)
  | list
  deriving DecidableEq

def LoopGoal.name : LoopGoal → Option Bytes
  | .find name => some name
  | .create name => some name
  | .list => none

def LoopGoal.stopsAt (goal : LoopGoal) (ent : DirectoryEntry) : Bool :=
  goal.name = some ent.filename

/-- The loop of one callback. `start` are the entries that were there at its `InitReaddir` and `seen`
those that `Readdir` has returned to it. `result` is the variable `ent` when the loop is left. -/
structure DirLoop where
  goal : LoopGoal
  start : List DirectoryEntry
  seen : List DirectoryEntry := []
  result : Option (Option DirectoryEntry) := none
  added : Bool := false
  deriving DecidableEq

structure DirLoops where
  dir : Directory
  loops : Nat → Option DirLoop := fun _ => none

inductive DirCall where
  | initReaddir (id : Nat) (goal : LoopGoal)
  | readdir (id : Nat)
  | addent (id : Nat) (hashname : Bytes)

def DirLoop.take (l : DirLoop) : Option DirectoryEntry → DirLoop
  | none => { l with result := some none }
  | some ent =>
    { l with seen := l.seen ++ [ent], result := if l.goal.stopsAt ent then some (some ent) else none }

def DirLoop.adds (l : DirLoop) : Option Bytes :=
  match l.goal with
  | .create name => if l.result = some none ∧ l.added = false then some name else none
  | _ => none

namespace DirLoops

def put (s : DirLoops) (dir : Directory) (id : Nat) (l : DirLoop) : DirLoops where
  dir := dir
  loops := Function.update s.loops id (some l)

/-- A callback runs its loop once, and one that creates a file adds its entry afterwards. -/
def step (s : DirLoops) : DirCall → Option DirLoops
  | .initReaddir id goal =>
    match s.loops id with
    | none => some (s.put s.dir.initReaddir id { goal := goal, start := s.dir.entries })
    | some _ => none
  | .readdir id =>
    match s.loops id with
    | none => none
    | some l =>
      if l.result = none then some (s.put s.dir.readdir.2 id (l.take s.dir.readdir.1)) else none
  | .addent id hashname =>
    match s.loops id with
    | none => none
    | some l =>
      l.adds.map fun name => s.put (s.dir.addent ⟨name, hashname⟩) id { l with added := true }

variable {s t : DirLoops} {c : DirCall}

/-- What a call does: the loop it belongs to goes on, and entries are only added at the end. -/
theorem step_cases (h : s.step c = some t) :
    (∃ id goal, c = .initReaddir id goal ∧ s.loops id = none ∧
      t = s.put s.dir.initReaddir id { goal := goal, start := s.dir.entries }) ∨
    (∃ id l, c = .readdir id ∧ s.loops id = some l ∧ l.result = none ∧
      t = s.put s.dir.readdir.2 id (l.take s.dir.readdir.1)) ∨
    ∃ id l hashname name, c = .addent id hashname ∧ s.loops id = some l ∧ l.adds = some name ∧
      t = s.put (s.dir.addent ⟨name, hashname⟩) id { l with added := true } := by
  cases c with
  | initReaddir id goal =>
      simp only [step] at h
      cases hl : s.loops id with
      | some l => simp [hl] at h
      | none =>
          simp only [hl, Option.some.injEq] at h
          exact .inl ⟨id, goal, rfl, hl, h.symm⟩
  | readdir id =>
      simp only [step] at h
      cases hl : s.loops id with
      | none => simp [hl] at h
      | some l =>
          simp only [hl, Option.ite_none_right_eq_some, Option.some.injEq] at h
          exact .inr (.inl ⟨id, l, rfl, hl, h.1, h.2.symm⟩)
  | addent id hashname =>
      simp only [step] at h
      cases hl : s.loops id with
      | none => simp [hl] at h
      | some l =>
          simp only [hl, Option.map_eq_some_iff] at h
          obtain ⟨name, hname, ht⟩ := h
          exact .inr (.inr ⟨id, l, hashname, name, rfl, hl, hname, ht.symm⟩)

end DirLoops

/-! ## What a loop has seen -/

structure DirLoop.Follows (entries : List DirectoryEntry) (l : DirLoop) : Prop where
  start : l.start <+: entries
  seen : l.seen <+: entries
  result : l.seen.find? l.goal.stopsAt = l.result.join
  done : l.result = some none → l.start <+: l.seen

namespace DirLoop.Follows

variable {d : Directory} {l : DirLoop}

theorem grow {entries entries' : List DirectoryEntry} (h : l.Follows entries)
    (hgrow : entries <+: entries') : l.Follows entries' :=
  ⟨h.start.trans hgrow, h.seen.trans hgrow, h.result, h.done⟩

/-- One `Readdir` that finds the iterator where the loop left it. -/
theorem readdir (h : l.Follows d.entries) (hrun : l.result = none) (hit : d.it = l.seen.length) :
    (l.take d.readdir.1).Follows d.entries := by
  have hfind : l.seen.find? l.goal.stopsAt = none := by
    rw [h.result, hrun]
    rfl
  unfold Directory.readdir
  split
  · -- the end of the directory
    rename_i hend
    have hall : l.seen = d.entries := h.seen.eq_of_length (hit.symm.trans hend)
    refine ⟨h.start, h.seen, hfind, ?_⟩
    intro _
    change l.start <+: l.seen
    rw [hall]
    exact h.start
  · rename_i hmore
    have hlt : d.it < d.entries.length := by
      have hle := h.seen.length_le
      omega
    have hsplit : l.seen ++ [d.entries[d.it]] <+: d.entries := by
      have htake : l.seen = d.entries.take d.it := by
        rw [hit]
        exact List.prefix_iff_eq_take.mp h.seen
      rw [htake, List.take_append_getElem hlt]
      exact List.take_prefix _ _
    rw [List.getElem?_eq_getElem hlt]
    refine ⟨h.start, hsplit, ?_, ?_⟩
    · change (l.seen ++ [d.entries[d.it]]).find? l.goal.stopsAt = _
      rw [List.find?_append, hfind, Option.none_or]
      cases hstop : l.goal.stopsAt d.entries[d.it] <;> simp [DirLoop.take, hstop]
    · intro hdone
      cases hstop : l.goal.stopsAt d.entries[d.it] <;> simp [DirLoop.take, hstop] at hdone

end DirLoop.Follows

namespace DirLoops

variable {s t : DirLoops} {c : DirCall}

def Following (s : DirLoops) : Prop := ∀ id l, s.loops id = some l → l.Follows s.dir.entries

def inPlace (s : DirLoops) : DirCall → Bool
  | .readdir id => (s.loops id).all fun l => s.dir.it = l.seen.length
  | _ => true

theorem Following.put (h : s.Following) {dir : Directory} {id : Nat} {l : DirLoop}
    (hgrow : s.dir.entries <+: dir.entries) (hl : l.Follows dir.entries) :
    (s.put dir id l).Following := by
  intro id' l' hl'
  simp only [DirLoops.put] at hl' ⊢
  by_cases he : id' = id
  · rw [he, Function.update_self, Option.some.injEq] at hl'
    rw [← hl']
    exact hl
  · rw [Function.update_of_ne he] at hl'
    exact (h id' l' hl').grow hgrow

theorem Following.step (h : s.Following) (hC : s.inPlace c = true) (hstep : s.step c = some t) :
    t.Following := by
  obtain ⟨id, goal, -, -, rfl⟩ | ⟨id, l, hc, hl, hrun, rfl⟩ | ⟨id, l, hashname, name, -, hl, -, rfl⟩ :=
    step_cases hstep
  · apply h.put (List.prefix_refl _)
    exact ⟨List.prefix_refl _, List.nil_prefix, rfl, fun hdone => by cases hdone⟩
  · have hentries : s.dir.readdir.2.entries = s.dir.entries := by
      unfold Directory.readdir
      split <;> rfl
    apply h.put
    · rw [hentries]
    · rw [hentries]
      refine (h id l hl).readdir hrun ?_
      simpa [inPlace, hc, hl] using hC
  · have hgrow : s.dir.entries <+: (s.dir.addent ⟨name, hashname⟩).entries := List.prefix_append _ _
    have hfollows := (h id l hl).grow hgrow
    exact h.put hgrow ⟨hfollows.start, hfollows.seen, hfollows.result, hfollows.done⟩

theorem following_of_replay {d : Directory} {calls : List DirCall}
    (hC : Trace.EachStep step { dir := d } (fun _ s c _ => s.inPlace c = true) calls)
    (h : Trace.replay step { dir := d } calls = some t) : t.Following := by
  refine Trace.replay_induction_of (I := fun _ s => s.Following) ?_ ?_ hC h
  · intro id l hl
    cases hl
  · intro older s c t hs hC hstep
    exact hs.step hC hstep

end DirLoops

/-! ## What a loop returns -/

/-- The loop does for its callback what it would do alone on the directory of its start. A lookup of
a name that was there ends before it has called `Readdir` once for each entry, and has found the
entry of that name. A listing passes over every entry of the directory once, from the first one on,
and has not ended before it has passed over those that were there at its start. -/
structure DirLoop.Served (entries : List DirectoryEntry) (l : DirLoop) : Prop where
  lookup : ∀ name ent, l.goal.name = some name →
    l.start.find? (fun e => decide (e.filename = name)) = some ent →
      (∀ r, l.result = some r → r = some ent) ∧ (l.result = none → l.seen.length < l.start.length)
  listing : l.goal = .list → l.seen <+: entries ∧ ∀ r, l.result = some r → l.start <+: l.seen ∧
    (entries.Nodup → ∀ ent ∈ l.start, l.seen.count ent = 1)

theorem DirLoop.Follows.served {entries : List DirectoryEntry} {l : DirLoop}
    (h : l.Follows entries) : l.Served entries := by
  constructor
  · intro name ent hname hent
    have hstops : l.goal.stopsAt = fun e => decide (e.filename = name) := by
      funext e
      simp only [LoopGoal.stopsAt, hname, Option.some.injEq, decide_eq_decide]
      exact eq_comm
    have hfirst : entries.find? l.goal.stopsAt = some ent := by
      rw [hstops]
      exact List.IsPrefix.find?_eq_some h.start hent
    constructor
    · intro r hr
      cases r with
      | none =>
          have hseen := List.IsPrefix.find?_eq_some (h.done hr) hent
          rw [← hstops, h.result, hr] at hseen
          cases hseen
      | some ent' =>
          have hseen : l.seen.find? l.goal.stopsAt = some ent' := by
            rw [h.result, hr]
            rfl
          rw [← hfirst, List.IsPrefix.find?_eq_some h.seen hseen]
    · intro hrun
      by_contra hge
      have hpre : l.start <+: l.seen :=
        List.prefix_of_prefix_length_le h.start h.seen (not_lt.mp hge)
      have hseen := List.IsPrefix.find?_eq_some hpre hent
      rw [← hstops, h.result, hrun] at hseen
      cases hseen
  · intro hlist
    refine ⟨h.seen, ?_⟩
    intro r hr
    have hstart : l.start <+: l.seen := by
      cases r with
      | none => exact h.done hr
      | some ent =>
          have hfind := h.result
          rw [hr] at hfind
          have hstop := List.find?_some hfind
          rw [LoopGoal.stopsAt, hlist] at hstop
          simp [LoopGoal.name] at hstop
    refine ⟨hstart, ?_⟩
    intro hnodup ent hent
    exact List.count_eq_one_of_mem (hnodup.sublist h.seen.sublist) (hstart.subset hent)

namespace DirLoops

/-- Whatever callbacks run their loops on a directory and however their calls are interleaved: as long
as every `Readdir` finds the iterator where its own loop left it, every loop is served. -/
theorem directory_loops_served (d : Directory) (calls : List DirCall) (t : DirLoops)
    (hC : Trace.EachStep step { dir := d } (fun _ s c _ => s.inPlace c = true) calls)
    (h : Trace.replay step { dir := d } calls = some t) (id : Nat) (l : DirLoop)
    (hl : t.loops id = some l) : l.Served t.dir.entries :=
  (following_of_replay hC h id l hl).served

def twoFiles : Directory where
  entries := [⟨[97], [1]⟩, ⟨[98], [2]⟩]

/-- While one callback creates `c`, another starts to list; the listing goes on from the wrapped
iterator when the first loop has ended. -/
def createThenList : List DirCall :=
  [.addent 0 [3], .readdir 1, .readdir 1, .readdir 1, .readdir 0, .readdir 0, .readdir 0,
    .initReaddir 1 .list, .initReaddir 0 (.create [99])]

theorem directory_loops_served_createThenList : ∃ t l,
    Trace.EachStep step { dir := twoFiles } (fun _ s c _ => s.inPlace c = true) createThenList ∧
    Trace.replay step { dir := twoFiles } createThenList = some t ∧ t.loops 1 = some l ∧
    l.result = some none ∧ l.Served t.dir.entries := by
  have hC : Trace.EachStep step { dir := twoFiles } (fun _ s c _ => s.inPlace c = true)
      createThenList := by
    simp only [createThenList, Trace.EachStep, true_and, and_assoc]
    refine ⟨?_, ?_, ?_, ?_, ?_, ?_, ?_, ?_, ?_⟩ <;> intro s t hs _ <;> cases hs <;> rfl
  obtain ⟨t, ht⟩ : ∃ t, Trace.replay step { dir := twoFiles } createThenList = some t := ⟨_, rfl⟩
  obtain ⟨l, hl, hresult⟩ : ∃ l, t.loops 1 = some l ∧ l.result = some none := by
    cases ht
    exact ⟨_, rfl, rfl⟩
  exact ⟨t, l, hC, ht, hl, hresult, directory_loops_served twoFiles createThenList t hC ht 1 l hl⟩

def crossedLoops : List DirCall :=
  [.readdir 1, .readdir 1, .readdir 1, .readdir 0, .readdir 1, .readdir 0, .initReaddir 1 .list,
    .initReaddir 0 (.find [98])]

/-- The lookup does not find `b`, and the listing passes over `b` twice. -/
theorem directory_loops_not_served_crossedLoops : ∃ t l l',
    Trace.replay step { dir := twoFiles } crossedLoops = some t ∧
    t.loops 0 = some l ∧ l.result = some none ∧ ¬ l.Served t.dir.entries ∧
    t.loops 1 = some l' ∧ l'.result = some none ∧ ¬ l'.Served t.dir.entries := by
  refine ⟨_, _, _, rfl, rfl, rfl, ?_, rfl, rfl, ?_⟩
  · intro h
    have hfound := (h.lookup [98] ⟨[98], [2]⟩ rfl (by decide)).1 none rfl
    cases hfound
  · intro h
    have hpre := (h.listing rfl).1
    revert hpre
    decide

end DirLoops

end DcfsClient
