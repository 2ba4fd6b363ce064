import DcfsClient.MountRefinement

/-!
# What a listing shows

The directory has one iterator, which lookups and listings share. Between callbacks nothing depends on
it: whatever was looked up, read or written before, and whatever failed, a listing of the root shows each
name that was created once, in the order of the creates.
-/

namespace DcfsClient

open Backend Exec

def FsEvent.created (ev : FsEvent) : Option Bytes :=
  match ev.callback, ev.answer with
  | .create path, .ok (.handle _) => some path.tail
  | _, _ => none

def createdFiles (evs : List FsEvent) : List Bytes := evs.reverse.filterMap FsEvent.created

section Listing

variable {P : Platform} {kb : Nat} {fs fs' : Fs} {ev : FsEvent} {evs : List FsEvent}

/-- One callback adds the name it has created, which was not there before. -/
theorem Fs.Effect.filenames {reply : Reply} (he : fs.Effect P ev.callback reply fs')
    (hok : ev.answer = .ok reply) :
    fs'.root.entries.map (·.filename) = fs.root.entries.map (·.filename) ++ ev.created.toList ∧
      ∀ name ∈ ev.created, name ∉ fs.root.entries.map (·.filename) := by
  have hkeep : fs'.root.entries = fs.root.entries → ev.created = none →
      fs'.root.entries.map (·.filename) = fs.root.entries.map (·.filename) ++ ev.created.toList ∧
        ∀ name ∈ ev.created, name ∉ fs.root.entries.map (·.filename) := by
    intro hentries hnone
    rw [hentries, hnone]
    exact ⟨(List.append_nil _).symm, fun name hname => by cases hname⟩
  have hnone : reply.isHandle = false → ev.created = none := by
    intro hno
    unfold FsEvent.created
    rw [hok]
    split
    · rename_i heq
      cases heq
      cases hno
    · rfl
  generalize hcb : ev.callback = cb at he
  cases he with
  | idle hkeeps hreply _ => exact hkeep hkeeps.entries (hnone hreply)
  | refused root hroot e b hnew => exact hkeep hroot (hnone rfl)
  | @created path root hroot hfresh h key b hnew hfd =>
      have hname : ev.created = some path.tail := by
        unfold FsEvent.created
        rw [hcb, hok]
      rw [hname]
      constructor
      · simp [Directory.addent, hroot]
      · intro name hmem
        rw [Option.mem_some_iff] at hmem
        subst hmem
        rw [Fs.target_zero, Option.map_eq_none_iff, List.find?_eq_none] at hfresh
        intro hin
        obtain ⟨ent, hent, hfile⟩ := List.mem_map.mp hin
        exact hfresh ent hent (decide_eq_true hfile.symm)
  | opened htarget hload hfd =>
      refine hkeep hload.entries ?_
      unfold FsEvent.created
      rw [hcb]
  | used s hload _ hreply _ => exact hkeep hload.entries (hnone hreply)
  | unreffed htarget hload _ => exact hkeep hload.entries (hnone rfl)
  | released s htarget hload _ _ => exact hkeep hload.entries (hnone rfl)

theorem createdFiles_cons (ev : FsEvent) (evs : List FsEvent) :
    createdFiles (ev :: evs) = createdFiles evs ++ ev.created.toList := by
  unfold createdFiles
  rw [List.reverse_cons, List.filterMap_append]
  cases hev : ev.created <;> simp [hev]

theorem IsMountRun.filenames (hrun : IsMountRun P kb evs) (halive : Alive evs) :
    (mounted kb evs).root.entries.map (·.filename) = createdFiles evs ∧ (createdFiles evs).Nodup := by
  induction evs with
  | nil => exact ⟨rfl, List.nodup_nil⟩
  | cons ev evs ih =>
      obtain ⟨reply, hok⟩ := halive ev (by simp)
      obtain ⟨hnames, hnodup⟩ := ih hrun.1 hrun.2.1
      obtain ⟨hadd, hnew⟩ := (hrun.effect hok).filenames hok
      have hbefore : ((mounted kb evs).withEnv ev.env).root.entries.map (·.filename) =
          createdFiles evs := hnames
      rw [hbefore] at hadd hnew
      rw [createdFiles_cons]
      refine ⟨hadd, ?_⟩
      cases hev : ev.created with
      | none => simpa using hnodup
      | some name =>
          rw [Option.toList_some, List.nodup_append]
          refine ⟨hnodup, List.nodup_singleton name, ?_⟩
          intro x hx y hy heq
          rw [List.mem_singleton.mp hy] at heq
          rw [heq] at hx
          exact hnew name hev hx

end Listing

/-- A listing of the root that replies shows the names that were created, each once and in their order,
whatever else the run did and whatever failed in it. -/
theorem listing_complete {P : Platform} {kb : Nat} {ev : FsEvent} {evs : List FsEvent}
    (hrun : IsMountRun P kb (ev :: evs)) (hcb : ev.callback = .readdir [47]) :
    ev.answer = .ok (.names ([46] :: [46, 46] :: createdFiles evs)) ∧ (createdFiles evs).Nodup := by
  obtain ⟨hnames, hnodup⟩ := hrun.1.filenames hrun.2.1
  refine ⟨?_, hnodup⟩
  have hlist := Directory.listLoop_eq (d := (mounted kb evs).root.initReaddir)
    ((mounted kb evs).root.entries.length + 1) (Nat.zero_le _) (by simp [Directory.initReaddir])
  have hserved : ev.answer = .ok (.names ([46] :: [46, 46] ::
      ((mounted kb evs).root.initReaddir.listLoop
        ((mounted kb evs).root.entries.length + 1)).1)) := by
    have hafter := congrArg Prod.fst hrun.2.2
    rw [hcb] at hafter
    exact hafter
  have hdrop : ((mounted kb evs).root.initReaddir.entries.drop
      (mounted kb evs).root.initReaddir.it) = (mounted kb evs).root.entries := rfl
  rw [hserved, hlist, hdrop, hnames]

section Instances

open Reference

@[irreducible] def twoFiles : List FsEvent :=
  replayMount platform 1 [(.getattr [47, 97], {}), (.create [47, 98], { clock := [6] }),
    (.create [47, 97], { clock := [5] })]

@[irreducible] def listingEvent : FsEvent := .next platform 1 twoFiles (.readdir [47]) {}

theorem twoFiles_leaves : twoFiles.all FsEvent.replied = true ∧ createdFiles twoFiles = [[97], [98]] := by
  decide +kernel

theorem listing_complete_twoFiles :
    listingEvent.answer = .ok (.names [[46], [46, 46], [97], [98]]) ∧
      ([[97], [98]] : List Bytes).Nodup := by
  obtain ⟨hreplied, hcreated⟩ := twoFiles_leaves
  have halive : Alive twoFiles := alive_of_all hreplied
  have hrun : IsMountRun platform 1 twoFiles := by
    unfold twoFiles at halive ⊢
    exact isMountRun_replay _ fun ev hev => halive ev (List.mem_of_mem_tail hev)
  have hnext : IsMountRun platform 1 (listingEvent :: twoFiles) := by
    unfold listingEvent
    exact hrun.next halive _ _
  have hlist := listing_complete hnext (by unfold listingEvent; rfl)
  rw [hcreated] at hlist
  exact hlist

end Instances

end DcfsClient
