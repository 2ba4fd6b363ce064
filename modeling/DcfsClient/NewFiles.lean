import DcfsClient.IndexKeys
import DcfsClient.LinearHistory
import DcfsClient.CallbackCases

/-!
# What creating a file does to the others

The name of a new file is the hash of a META record in which only the clock reading varies. A reading
that was used before gives an existing name, and then `CreateNew` empties the entry of that file and
`allocate_inode` replaces its inode. With a new reading nothing of another file is touched, unless
somebody has already sent a `Modify` for the name that is about to be created.
-/

namespace DcfsClient

open Backend Exec

/-- The name that the event created was not in the index, and in whichever mount `allocate_inode` made
the call, all that belongs to the files of the index is as it was. -/
def Event.CreatesApart (P : Platform) (b : Backend) (ev : Event) : Prop :=
  ∀ h, createdName ev = some h → ¬ b.Known h ∧
    ∀ fs : Fs, fs.be = { b with env := ev.env } → ∃ fs', Fs.allocateInode P fs = .ok (some h) fs' ∧
      fs'.be = ev.after ∧ ∀ d, b.Known d → fs'.be.index d = fs.be.index d ∧
        fs'.inodeTable d = fs.inodeTable d ∧ fs'.be.store d = fs.be.store d

/-- The clock reading of the new file made no file before, and its name is one that no accepted
`Modify` has asked for. -/
def Event.FreshReading (P : Platform) (evs : List Event) (ev : Event) : Prop :=
  ∀ t, createdClock ev = some t → t ∉ createdClocks evs ∧
    ∀ older ∈ evs, ¬ older.AsksFor P ((metaDraft t).name P)

def Throughout (Q : List Event → Event → Prop) : List Event → Prop
  | [] => True
  | ev :: evs => Throughout Q evs ∧ Q evs ev

section Create

variable {P : Platform} {evs run : List Event} {ev : Event} {h : Bytes}

/-- `allocate_inode` makes the request that the event records. -/
theorem allocateInode_of_served {b : Backend} {key : Bytes} {fs : Fs}
    (ho : (.created h key, ev.after) = serve P b .createNew ev.env)
    (hbe : fs.be = { b with env := ev.env }) :
    Fs.allocateInode P fs = .ok (some h) ({ fs with be := ev.after }.putInode h
      (Inode.fresh h fs.blockSizeInKb blockmapCover key)) := by
  have hnew : DCFSMidSim.createNew P fs.be = .ok (h, key) ev.after := by
    rw [hbe]
    have hspec : wp (Request.createNew.exec P)
        (fun out b' => ∃ n k, out = .created n k ∧
          DCFSMidSim.createNew P { b with env := ev.env } = .ok (n, k) b')
        (fun _ _ => True) { b with env := ev.env } := by
      simp only [Request.exec, wp_bind, wp_pure]
      refine wp_mono (wp_run _ _) ?_ (fun _ _ _ => trivial)
      intro out b' hrun
      exact ⟨out.1, out.2, rfl, hrun⟩
    rcases serve_spec ho hspec with ⟨n, k, he, hrun⟩ | ⟨x, hx, -⟩
    · injection he with hn hk
      rw [hrun, hn, hk]
    · cases x <;> cases hx
  have hspec : wp (Fs.allocateInode P)
      (fun out fs' => out = some h ∧ fs' = { fs with be := ev.after }.putInode h
        (Inode.fresh h fs.blockSizeInKb blockmapCover key)) (fun _ _ => False) fs := by
    simp only [Fs.allocateInode, StorageBackend.createNewFile, wp_bind, wp_attempt, wp_onStorage]
    unfold wp
    rw [hnew]
    exact ⟨rfl, rfl⟩
  obtain ⟨out, fs', hrun, rfl, rfl⟩ := exists_ok hspec
  exact hrun

/-- A served `CreateNew` writes to the capsule it creates and to no other. -/
theorem serve_createNew_touches {b b' : Backend} {e : Env} {key : Bytes}
    (ho : (.created h key, b') = serve P b .createNew e) :
    ∀ d, d ≠ h → b'.index d = b.index d ∧ b'.store d = b.store d := by
  have hspec : wp (Request.createNew.exec P)
      (fun out b' => ∃ n k, out = .created n k ∧
        ∀ d, d ≠ n → b'.index d = b.index d ∧ b'.store d = b.store d)
      (fun _ _ => True) { b with env := e } := by
    simp only [Request.exec, wp_bind, wp_pure]
    refine wp_mono (wp_createNew _) ?_ (fun _ _ _ => trivial)
    rintro _ b' ⟨rfl, b₁, hpush, hstore, -, hindex⟩
    refine ⟨_, _, rfl, fun d hd => ⟨?_, ?_⟩⟩
    · rw [hindex, Function.update_of_ne hd]
    · rw [hstore, hpush.store]
      exact (Backend.touches_putSlot _ _ _ _).store d hd
  rcases serve_spec ho hspec with ⟨n, k, he, htouch⟩ | ⟨x, hx, -⟩
  · injection he with hn hk
    rw [hn]
    exact htouch
  · cases x <;> cases hx

/-- The name of a reading is in the index if the reading was used or somebody has asked for it. -/
theorem IsRun.known_metaDraft (hP : P.Lawful) (hrun : IsRun P evs) {t : BitVec 64}
    {hashed : List Bytes} (hfree : P.CollisionFree hashed) (hsub : (current evs).hashed ⊆ hashed)
    (ht : (metaDraft t).strings P ⊆ hashed) :
    (current evs).Known ((metaDraft t).name P) ↔
      t ∈ createdClocks evs ∨ ∃ older ∈ evs, older.AsksFor P ((metaDraft t).name P) := by
  obtain ⟨hnames, hstrings⟩ := hrun.createdNames_eq
  have hmem : (metaDraft t).name P ∈ createdNames evs ↔ t ∈ createdClocks evs := by
    rw [hnames, List.mem_map]
    constructor
    · rintro ⟨t', ht', he⟩
      have hsub' := List.Subset.trans (hstrings t' ht') hsub
      have hdraft := Draft.eq_of_name_eq hP hfree hsub' ht he
      have htime : t' = t := congrArg Draft.timestamp hdraft
      rwa [← htime]
    · intro ht
      exact ⟨t, ht, rfl⟩
  rw [hrun.known_iff, hmem]

theorem IsRun.createsApart_iff (hP : P.Lawful) (hrun : IsRun P (ev :: evs))
    (hfree : P.CollisionFree ev.after.hashed) :
    ev.CreatesApart P (current evs) ↔ ev.FreshReading P evs := by
  obtain ⟨hname, hstrings⟩ := hrun.createdName_eq
  have hknown : ∀ t, createdClock ev = some t →
      ((current evs).Known ((metaDraft t).name P) ↔
        t ∈ createdClocks evs ∨ ∃ older ∈ evs, older.AsksFor P ((metaDraft t).name P)) :=
    fun t ht => hrun.tail.known_metaDraft hP hfree hrun.remembers.hashed (hstrings t ht)
  constructor
  · intro hapart t ht
    have hnew := (hapart ((metaDraft t).name P) (by rw [hname, ht]; rfl)).1
    rw [hknown t ht, not_or] at hnew
    exact ⟨hnew.1, fun older hold hask => hnew.2 ⟨older, hold, hask⟩⟩
  · intro hfresh h hh
    have ho := hrun.served
    have hreq : ev.request = .createNew := hrun.request_of_created hh
    obtain ⟨key, hresp⟩ := createdName_eq_some.mp hh
    rw [hreq, hresp] at ho
    have hnew : ¬ (current evs).Known h := by
      rw [hname] at hh
      obtain ⟨t, ht, rfl⟩ := Option.map_eq_some_iff.mp hh
      rw [hknown t ht, not_or]
      refine ⟨(hfresh t ht).1, ?_⟩
      rintro ⟨older, hold, hask⟩
      exact (hfresh t ht).2 older hold hask
    refine ⟨hnew, fun fs hbe => ⟨_, allocateInode_of_served ho hbe, rfl, fun d hd => ?_⟩⟩
    have hne : d ≠ h := by
      rintro rfl
      exact hnew hd
    obtain ⟨hindex, hstore⟩ := serve_createNew_touches ho d hne
    rw [hbe]
    exact ⟨hindex, Function.update_of_ne hne _ _, hstore⟩

/-- In every run, the calls of `CreateNew` disturb no existing file exactly when their readings are
fresh. -/
theorem createNew_apart_iff (hP : P.Lawful) (hrun : IsRun P run)
    (hfree : P.CollisionFree (current run).hashed) :
    Throughout (fun evs ev => ev.CreatesApart P (current evs)) run ↔
      Throughout (fun evs ev => ev.FreshReading P evs) run := by
  induction run with
  | nil => rfl
  | cons ev evs ih =>
      have htail := ih hrun.tail (hfree.of_subset hrun.remembers.hashed)
      have hev := hrun.createsApart_iff hP hfree
      exact and_congr htail hev

end Create

section Instances

open Reference

def apartRun : List Event :=
  replay platform [(.createNew, { clock := [9] }),
    (.signed platform (fileAt 5) [⟨[1, 2], 0⟩] [] zeroKey, { clock := [6, 7, 8] }),
    (.createNew, { clock := [5] })]

example : createdNames apartRun = [fileAt 9, fileAt 5] := by decide +kernel

theorem freshReading_of_created {P : Platform} {evs : List Event} {ev : Event} (t : BitVec 64)
    (ht : createdClock ev = some t) (hclock : t ∉ createdClocks evs)
    (htargets : some ((metaDraft t).name P) ∉ evs.map Event.target) : ev.FreshReading P evs := by
  intro t' ht'
  rw [ht, Option.some.injEq] at ht'
  subst ht'
  refine ⟨hclock, fun older hold hask => htargets ?_⟩
  rw [← hask.1]
  exact List.mem_map_of_mem hold

theorem freshReading_of_none {P : Platform} {evs : List Event} {ev : Event}
    (h : createdClock ev = none) : ev.FreshReading P evs := by
  intro t ht
  rw [h] at ht
  cases ht

theorem apartRun_fresh :
    Throughout (fun evs ev => ev.FreshReading platform evs) apartRun := by
  refine ⟨⟨⟨trivial, ?_⟩, ?_⟩, ?_⟩
  · exact freshReading_of_created 5 (by decide +kernel) (by decide +kernel) (by decide +kernel)
  · exact freshReading_of_none (by decide +kernel)
  · exact freshReading_of_created 9 (by decide +kernel) (by decide +kernel) (by decide +kernel)

theorem createNew_apart_apartRun :
    Throughout (fun evs ev => ev.CreatesApart platform (current evs)) apartRun :=
  (createNew_apart_iff lawful (isRun_replay _ (by decide +kernel))
    (.of_nodup (by decide +kernel))).mpr apartRun_fresh

/-- The second file is created at the reading of the first: its name is in the index already. -/
theorem createNew_apart_equalClocks : IsRun platform equalClocks ∧
    platform.CollisionFree (current equalClocks).hashed ∧
    createdNames equalClocks = [fileAt 5, fileAt 5] ∧
    ¬ Throughout (fun evs ev => ev.CreatesApart platform (current evs)) equalClocks := by
  refine ⟨equalClocks_proper.isRun, equalClocks_proper.free, by decide +kernel, ?_⟩
  rintro ⟨_, hlast⟩
  obtain ⟨hnew, -⟩ := hlast (fileAt 5) (by decide +kernel)
  apply hnew
  unfold Known
  decide +kernel

end Instances

end DcfsClient
