import DcfsClient.ModifyCases

/-!
# Runs of the middleware

Any number of clients send requests; each request is served to its end before the next, on whatever
clock readings, key and faults the world has for it. A run is the list of what happened, newest event
first, and it ends with the process: nothing follows an event whose response is `died`.

`ProperRun` is a run whose `Modify` requests name created files and in which nothing that was hashed
collides. `RunInv` is its invariant: each file's entry in the index is the newest commit of a history
in the store, and the history of a file that was created only once is that of its successful `Modify`
events.
-/

namespace DcfsClient

open Backend

inductive Request where
  | createNew
  | getInodeName (hashname sig : Bytes)
  | modify (dcname : Bytes) (descs : List BufDesc) (inodeHash aesKey sig : Bytes)

inductive Response where
  | created (hashname aesKey : Bytes)
  | inodeName (recordname : Bytes)
  | done
  | failed (e : ErrT)
  | died (k : Abort)
  deriving DecidableEq

def Response.ofExit : Exit ErrT Abort → Response
  | .err e => .failed e
  | .abort k => .died k

def Response.isDied : Response → Bool
  | .died _ => true
  | _ => false

def Request.exec (P : Platform) : Request → BackendM Response
  | .createNew => do
    let (hashname, aesKey) ← DCFSMidSim.createNew P
    pure (.created hashname aesKey)
  | .getInodeName hashname sig => do
    let recordname ← DCFSMidSim.getInodeName P hashname sig
    pure (.inodeName recordname)
  | .modify dcname descs inodeHash aesKey sig => do
    DCFSMidSim.modify P dcname descs inodeHash aesKey sig
    pure .done

def serve (P : Platform) (b : Backend) (rq : Request) (e : Env) : Response × Backend :=
  match rq.exec P { b with env := e } with
  | .ok r b' => (r, b')
  | .error x b' => (.ofExit x, b')

structure Event where
  request : Request
  env : Env
  response : Response
  after : Backend

def current : List Event → Backend
  | [] => {}
  | ev :: _ => ev.after

def IsRun (P : Platform) : List Event → Prop
  | [] => True
  | ev :: evs => IsRun P evs ∧ (∀ ev' ∈ evs, ev'.response.isDied = false) ∧
      (ev.response, ev.after) = serve P (current evs) ev.request ev.env

def replay (P : Platform) : List (Request × Env) → List Event
  | [] => []
  | (rq, e) :: older =>
    let evs := replay P older
    let out := serve P (current evs) rq e
    ⟨rq, e, out.1, out.2⟩ :: evs

/-- A `Modify` request as `StorageBackend::WriteRecord` signs it. -/
def Request.signed (P : Platform) (dcname : Bytes) (descs : List BufDesc)
    (inodeHash aesKey : Bytes) : Request :=
  .modify dcname descs inodeHash aesKey
    (P.sign (P.hash256 (DCFSMidSim.modifyArgs dcname descs inodeHash aesKey)))

def createdName (ev : Event) : Option Bytes :=
  match ev.response with
  | .created hashname _ => some hashname
  | _ => none

def createdNames (evs : List Event) : List Bytes := evs.filterMap createdName

def Event.target (ev : Event) : Option Bytes :=
  match ev.request with
  | .modify dcname _ _ _ _ => some dcname
  | _ => none

def OnCreated : List Event → Prop
  | [] => True
  | ev :: evs => OnCreated evs ∧ ∀ d ∈ ev.target, d ∈ createdNames evs

structure ProperRun (P : Platform) (evs : List Event) : Prop where
  isRun : IsRun P evs
  onCreated : OnCreated evs
  free : P.CollisionFree (current evs).hashed

def Event.succeeds (d : Bytes) (ev : Event) : Bool :=
  match ev.request, ev.response with
  | .modify dcname _ _ _ _, .done => dcname == d
  | _, _ => false

def succeeded (d : Bytes) (evs : List Event) : List Event := evs.filter (·.succeeds d)

def Event.descs (ev : Event) : List BufDesc :=
  match ev.request with
  | .modify _ descs _ _ _ => descs
  | _ => []

def Event.base (ev : Event) : Bytes :=
  match ev.request with
  | .modify _ _ inodeHash _ _ => inodeHash
  | _ => []

def Event.aesKey (ev : Event) : Bytes :=
  match ev.request with
  | .modify _ _ _ aesKey _ => aesKey
  | _ => []

def bases (P : Platform) : List Commit → List Bytes
  | [] => []
  | _ :: cs => headName P cs :: bases P cs

/-- The history consists of the successful `Modify` events on `d`. -/
structure Tracks (P : Platform) (d : Bytes) (evs : List Event) (hist : List Commit) : Prop where
  descs : (succeeded d evs).map Event.descs = hist.map Commit.descs
  names : (succeeded d evs).map (·.after.index d) = hist.map (fun c => some (c.inode.name P))
  bases : (succeeded d evs).map Event.base = bases P hist
  key : ∀ ev c, (succeeded d evs).getLast? = some ev → hist.getLast? = some c →
    c.key = ev.aesKey.take aesKeyLen

structure RunInv (P : Platform) (evs : List Event) : Prop where
  sound : (current evs).Sound P
  files : ∀ d ∈ createdNames evs, ∃ hist,
    (current evs).index d = some (headName P hist) ∧ Linked P d (current evs) hist ∧
      ((createdNames evs).count d = 1 → Tracks P d evs hist)
  unknown : ∀ d, d ∉ createdNames evs → (current evs).index d = none

section Serve

variable {P : Platform} {b b' : Backend} {rq : Request} {e : Env} {resp : Response}

theorem serve_spec {Q : Response → Backend → Prop} {E : Exit ErrT Abort → Backend → Prop}
    (ho : (resp, b') = serve P b rq e) (h : Exec.wp (rq.exec P) Q E { b with env := e }) :
    Q resp b' ∨ ∃ x, resp = .ofExit x ∧ E x b' := by
  unfold serve at ho
  cases hm : rq.exec P { b with env := e } with
  | ok r t =>
      rw [hm, Prod.mk.injEq] at ho
      obtain ⟨rfl, rfl⟩ := ho
      exact Or.inl (Exec.wp_ok h hm)
  | error x t =>
      rw [hm, Prod.mk.injEq] at ho
      obtain ⟨rfl, rfl⟩ := ho
      exact Or.inr ⟨x, rfl, Exec.wp_error h hm⟩

def Response.isIdle : Response → Bool
  | .created _ _ => false
  | .done => false
  | _ => true

theorem isIdle_ofExit (x : Exit ErrT Abort) : (Response.ofExit x).isIdle = true := by
  cases x <;> rfl

/-- `CreateNew` either creates the file named by the clock or leaves the index alone. -/
theorem serve_createNew (hP : P.Lawful) (hb : b.Sound P) (ho : (resp, b') = serve P b .createNew e)
    (hfree : P.CollisionFree b'.hashed) :
    b'.Sound P ∧ b.Grows P b' ∧
      ((∃ r : Draft, r = ⟨.capsuleMeta, [], none, e.clock.headD 0⟩ ∧
          resp = .created (r.name P) (Mem.bytesAt e.aesKey 0 aesKeyLen) ∧
          b'.Holds P (r.name P) r ∧ b'.index = Function.update b.index (r.name P) (some [])) ∨
        (resp.isIdle = true ∧ b'.index = b.index)) := by
  let r : Draft := ⟨.capsuleMeta, [], none, e.clock.headD 0⟩
  let b₀ : Backend := { b with env := e }
  have hsame : b.Same b₀ := Same.withEnv b e
  have hspec : Exec.wp (Request.createNew.exec P)
      (fun out b' => out = .created (r.name P) (Mem.bytesAt e.aesKey 0 aesKeyLen) ∧
        b'.index = Function.update b.index (r.name P) (some []) ∧
        (P.CollisionFree b'.hashed → b'.Sound P ∧ b₀.Grows P b' ∧ b'.Holds P (r.name P) r))
      (fun _ b' => b'.index = b.index ∧
        (P.CollisionFree b'.hashed → b'.Sound P ∧ b₀.Grows P b')) b₀ := by
    simp only [Request.exec, Exec.wp_bind, Exec.wp_pure]
    refine Exec.wp_mono (wp_createNew_sound hP (hb.same hsame)) ?_ (fun _ _ h => h)
    rintro _ b' ⟨rfl, h⟩
    exact ⟨rfl, h⟩
  rcases serve_spec ho hspec with ⟨rfl, hindex, h⟩ | ⟨x, rfl, hindex, h⟩
  · obtain ⟨hsound, hgrow, hholds⟩ := h hfree
    exact ⟨hsound, hsame.grows.trans hgrow, Or.inl ⟨r, rfl, rfl, hholds, hindex⟩⟩
  · obtain ⟨hsound, hgrow⟩ := h hfree
    exact ⟨hsound, hsame.grows.trans hgrow, Or.inr ⟨isIdle_ofExit x, hindex⟩⟩

/-- Asking for an inode name changes nothing. -/
theorem serve_getInodeName {hashname sig : Bytes}
    (ho : (resp, b') = serve P b (.getInodeName hashname sig) e) :
    b.Same b' ∧ resp.isIdle = true := by
  have hspec : Exec.wp ((Request.getInodeName hashname sig).exec P)
      (fun out b' => b.Same b' ∧ ∃ n, out = .inodeName n) (fun _ b' => b.Same b')
      { b with env := e } := by
    simp only [Request.exec, DCFSMidSim.getInodeName, Exec.wp_bind, Exec.wp_pure, Exec.wp_failIf,
      Exec.wp_get]
    refine ⟨fun _ => Same.withEnv b e, fun _ => ?_⟩
    cases b.index hashname with
    | none => exact Same.withEnv b e
    | some n => exact ⟨Same.withEnv b e, n, rfl⟩
  rcases serve_spec ho hspec with ⟨hs, n, rfl⟩ | ⟨x, rfl, hs⟩
  · exact ⟨hs, rfl⟩
  · exact ⟨hs, isIdle_ofExit x⟩

/-- A `Modify` on a linked file commits, or leaves the index alone. -/
theorem serve_modify (hP : P.Lawful) {d : Bytes} {hist : List Commit} (hb : b.Sound P)
    (hd : b.index d = some (headName P hist)) (hl : Linked P d b hist) {descs : List BufDesc}
    {inodeHash aesKey sig : Bytes}
    (ho : (resp, b') = serve P b (.modify d descs inodeHash aesKey sig) e)
    (hfree : P.CollisionFree b'.hashed) :
    b'.Sound P ∧ b.Grows P b' ∧
      ((resp = .done ∧ inodeHash = headName P hist ∧ ∃ c : Commit, c.descs = descs ∧
          c.key = (workingInode P aesKey hist).key ∧ Linked P d b' (c :: hist) ∧
          b'.index = Function.update b.index d (some (c.inode.name P))) ∨
        (resp.isIdle = true ∧ b'.index = b.index)) := by
  let b₀ : Backend := { b with env := e }
  have hsame : b.Same b₀ := Same.withEnv b e
  have hl₀ := hl.grows (hsame.grows (P := P))
  have hspec : Exec.wp ((Request.modify d descs inodeHash aesKey sig).exec P)
      (fun out b' => out = .done ∧ inodeHash = headName P hist ∧ ∃ c : Commit, c.descs = descs ∧
        c.key = (workingInode P aesKey hist).key ∧
        b'.index = Function.update b.index d (some (c.inode.name P)) ∧
        (P.CollisionFree b'.hashed → b'.Sound P ∧ b₀.Grows P b' ∧ Linked P d b' (c :: hist)))
      (fun _ b' => P.CollisionFree b'.hashed →
        b'.Sound P ∧ b₀.Grows P b' ∧ b'.index = b.index) b₀ := by
    simp only [Request.exec, Exec.wp_bind, Exec.wp_pure]
    refine Exec.wp_mono (wp_modify_sound hP (hb.same hsame) hd hl₀ _ _ _ _) ?_ (fun _ _ h => h)
    intro _ b' h
    exact ⟨trivial, h⟩
  rcases serve_spec ho hspec with ⟨rfl, hbase, c, hdescs, hkey, hindex, h⟩ | ⟨x, rfl, h⟩
  · obtain ⟨hsound, hgrow, hlinked⟩ := h hfree
    exact ⟨hsound, hsame.grows.trans hgrow,
      Or.inl ⟨rfl, hbase, c, hdescs, hkey, hlinked, hindex⟩⟩
  · obtain ⟨hsound, hgrow, hindex⟩ := h hfree
    exact ⟨hsound, hsame.grows.trans hgrow, Or.inr ⟨isIdle_ofExit x, hindex⟩⟩

end Serve

/-! ## The invariant of a run -/

/-- What one event did: made a file, added a commit to the history of one, or neither. -/
inductive Effect (P : Platform) (evs : List Event) (ev : Event) : Prop where
  | created (r : Draft) :
      r = ⟨.capsuleMeta, [], none, ev.env.clock.headD 0⟩ →
      ev.response = .created (r.name P) (Mem.bytesAt ev.env.aesKey 0 aesKeyLen) →
      ev.after.Holds P (r.name P) r →
      ev.after.index = Function.update (current evs).index (r.name P) (some []) → Effect P evs ev
  | committed (d aesKey sig : Bytes) (hist : List Commit) (c : Commit) :
      ev.request = .modify d c.descs (headName P hist) aesKey sig → ev.response = .done →
      d ∈ createdNames evs → (current evs).index d = some (headName P hist) →
      ((createdNames evs).count d = 1 → Tracks P d evs hist) → c.key = (workingInode P aesKey hist).key →
      Linked P d ev.after (c :: hist) →
      ev.after.index = Function.update (current evs).index d (some (c.inode.name P)) →
      Effect P evs ev
  | idle : ev.response.isIdle = true → ev.after.index = (current evs).index → Effect P evs ev

section Runs

variable {P : Platform} {evs : List Event} {ev : Event} {d : Bytes}

theorem IsRun.tail (h : IsRun P (ev :: evs)) : IsRun P evs := h.1

theorem IsRun.served (h : IsRun P (ev :: evs)) :
    (ev.response, ev.after) = serve P (current evs) ev.request ev.env := h.2.2

theorem isRun_replay (rqs : List (Request × Env))
    (h : ∀ ev ∈ (replay P rqs).tail, ev.response.isDied = false) : IsRun P (replay P rqs) := by
  induction rqs with
  | nil => trivial
  | cons rq rqs ih => exact ⟨ih fun ev hev => h ev (List.mem_of_mem_tail hev), h, rfl⟩

instance decidableOnCreated : DecidablePred OnCreated
  | [] => isTrue trivial
  | ev :: evs =>
    have := decidableOnCreated evs
    inferInstanceAs (Decidable (OnCreated evs ∧ ∀ d ∈ ev.target, d ∈ createdNames evs))

/-- A run that can be evaluated is checked at once. -/
theorem properRun_replay (rqs : List (Request × Env))
    (h : (∀ ev ∈ (replay P rqs).tail, ev.response.isDied = false) ∧ OnCreated (replay P rqs) ∧
      ((current (replay P rqs)).hashed.dedup.map P.hash256).Nodup) : ProperRun P (replay P rqs) :=
  ⟨isRun_replay rqs h.1, h.2.1, .of_nodup h.2.2⟩

theorem mem_createdNames_cons : d ∈ createdNames (ev :: evs) ↔
    createdName ev = some d ∨ d ∈ createdNames evs := by
  cases h : createdName ev <;> simp [createdNames, h, eq_comm]

theorem succeeds_iff : ev.succeeds d = true ↔
    ev.response = .done ∧ ∃ descs inodeHash aesKey sig,
      ev.request = .modify d descs inodeHash aesKey sig := by
  unfold Event.succeeds
  cases ev.request <;> cases ev.response <;> simp

theorem succeeded_cons_of_not (h : ev.response ≠ .done) :
    succeeded d (ev :: evs) = succeeded d evs := by
  have hs : ev.succeeds d = false := by
    rw [Bool.eq_false_iff]
    exact fun ht => h (succeeds_iff.mp ht).1
  simp [succeeded, hs]

/-- Nothing succeeds on a file before it is created. -/
theorem succeeded_eq_nil (hon : OnCreated evs) (hd : d ∉ createdNames evs) :
    succeeded d evs = [] := by
  induction evs with
  | nil => rfl
  | cons ev evs ih =>
      have hd' : d ∉ createdNames evs := fun h => hd (mem_createdNames_cons.mpr (Or.inr h))
      have hs : ev.succeeds d = false := by
        rw [Bool.eq_false_iff]
        intro ht
        obtain ⟨-, descs, inodeHash, aesKey, sig, hreq⟩ := succeeds_iff.mp ht
        exact hd' (hon.2 d (by simp [Event.target, hreq]))
      have htail := ih hon.1 hd'
      simpa [succeeded, hs] using htail

theorem Tracks.of_eq {evs' : List Event} {hist : List Commit} (h : Tracks P d evs hist)
    (he : succeeded d evs' = succeeded d evs) : Tracks P d evs' hist :=
  ⟨by rw [he]; exact h.descs, by rw [he]; exact h.names, by rw [he]; exact h.bases,
    by rw [he]; exact h.key⟩

theorem Tracks.empty (h : succeeded d evs = []) : Tracks P d evs [] := by
  constructor <;> simp [h, DcfsClient.bases]

theorem Tracks.length {hist : List Commit} (h : Tracks P d evs hist) :
    (succeeded d evs).length = hist.length := by
  have he := congrArg List.length h.descs
  simpa using he

theorem Tracks.commit {aesKey sig : Bytes} {hist : List Commit} {c : Commit}
    (h : Tracks P d evs hist) (hreq : ev.request = .modify d c.descs (headName P hist) aesKey sig)
    (hresp : ev.response = .done) (hkey : c.key = (workingInode P aesKey hist).key)
    (hindex : ev.after.index d = some (c.inode.name P)) : Tracks P d (ev :: evs) (c :: hist) := by
  have hs : succeeded d (ev :: evs) = ev :: succeeded d evs := by
    have ht : ev.succeeds d = true := succeeds_iff.mpr ⟨hresp, _, _, _, _, hreq⟩
    simp [succeeded, ht]
  have hdescs : ev.descs = c.descs := by simp [Event.descs, hreq]
  have hbase : ev.base = headName P hist := by simp [Event.base, hreq]
  have haes : ev.aesKey = aesKey := by simp [Event.aesKey, hreq]
  constructor
  · rw [hs, List.map_cons, List.map_cons, h.descs, hdescs]
  · rw [hs, List.map_cons, List.map_cons, h.names, hindex]
  · rw [hs, List.map_cons, h.bases, hbase]
    rfl
  · intro ev₀ c₀ hev hc
    rw [hs] at hev
    cases hist with
    | nil =>
        have hnil : succeeded d evs = [] := List.length_eq_zero_iff.mp h.length
        rw [hnil] at hev
        simp only [List.getLast?_singleton, Option.some.injEq] at hev hc
        subst hev
        subst hc
        rw [hkey, haes]
        rfl
    | cons c₁ cs =>
        have hne : succeeded d evs ≠ [] := by
          intro hnil
          have hlen := h.length
          rw [hnil] at hlen
          simp at hlen
        rw [List.getLast?_cons_of_ne_nil hne] at hev
        rw [List.getLast?_cons_of_ne_nil (by simp)] at hc
        exact h.key ev₀ c₀ hev hc

theorem RunInv.empty (P : Platform) : RunInv P [] :=
  ⟨sound_empty P, fun _ h => (by cases h), fun _ _ => rfl⟩

/-- The history of a file that was created only once. -/
theorem RunInv.tracks (h : RunInv P evs) (hd : (createdNames evs).count d = 1) : ∃ hist,
    (current evs).index d = some (headName P hist) ∧ Linked P d (current evs) hist ∧
      Tracks P d evs hist := by
  have hmem : d ∈ createdNames evs := List.count_pos_iff.mp (by omega)
  obtain ⟨hist, hindex, hl, ht⟩ := h.files d hmem
  exact ⟨hist, hindex, hl, ht hd⟩

/-- The cases of an event in a run with the invariant. -/
theorem RunInv.effect (hP : P.Lawful) (h : RunInv P evs) (hrun : ProperRun P (ev :: evs)) :
    ev.after.Sound P ∧ (current evs).Grows P ev.after ∧ Effect P evs ev := by
  have ho := hrun.isRun.served
  have hfree := hrun.free
  cases hreq : ev.request with
  | createNew =>
      rw [hreq] at ho
      obtain ⟨hsound, hgrow, ⟨r, hr, hresp, hholds, hindex⟩ | ⟨hidle, hindex⟩⟩ :=
        serve_createNew hP h.sound ho hfree
      · exact ⟨hsound, hgrow, .created r hr hresp hholds hindex⟩
      · exact ⟨hsound, hgrow, .idle hidle hindex⟩
  | getInodeName hashname sig =>
      rw [hreq] at ho
      obtain ⟨hsame, hidle⟩ := serve_getInodeName ho
      exact ⟨h.sound.same hsame, hsame.grows, .idle hidle hsame.index⟩
  | modify d descs inodeHash aesKey sig =>
      rw [hreq] at ho
      have hd := hrun.onCreated.2 d (by simp [Event.target, hreq])
      obtain ⟨hist, hindex, hl, htracks⟩ := h.files d hd
      obtain ⟨hsound, hgrow, hcase⟩ := serve_modify hP h.sound hindex hl ho hfree
      refine ⟨hsound, hgrow, ?_⟩
      rcases hcase with ⟨hresp, rfl, c, rfl, hkey, hlinked, hindex'⟩ | ⟨hidle, hindex'⟩
      · exact .committed d aesKey sig hist c hreq hresp hd hindex htracks hkey hlinked hindex'
      · exact .idle hidle hindex'

theorem createdName_of_isIdle (h : ev.response.isIdle = true) : createdName ev = none := by
  unfold createdName
  cases hr : ev.response <;> simp_all [Response.isIdle]

theorem ne_done_of_isIdle (h : ev.response.isIdle = true) : ev.response ≠ .done := by
  intro hr
  rw [hr] at h
  cases h

theorem serve_modify_response {b b' : Backend} {e : Env} {resp : Response} {descs : List BufDesc}
    {inodeHash aesKey sig : Bytes}
    (ho : (resp, b') = serve P b (.modify d descs inodeHash aesKey sig) e) :
    resp = .done ∨ ∃ x, resp = .ofExit x := by
  have hspec : Exec.wp ((Request.modify d descs inodeHash aesKey sig).exec P)
      (fun out _ => out = .done) (fun _ _ => True) { b with env := e } := by
    simp only [Request.exec, Exec.wp_bind, Exec.wp_pure]
    exact Exec.wp_mono (Exec.wp_run _ _) (fun _ _ _ => trivial) (fun _ _ _ => trivial)
  rcases serve_spec ho hspec with hresp | ⟨x, hresp, -⟩
  · exact Or.inl hresp
  · exact Or.inr ⟨x, hresp⟩

theorem createdName_of_target (h : IsRun P (ev :: evs)) (ht : ev.target = some d) :
    createdName ev = none := by
  have ho := h.served
  cases hreq : ev.request with
  | createNew => simp [Event.target, hreq] at ht
  | getInodeName hashname sig => simp [Event.target, hreq] at ht
  | modify n descs inodeHash aesKey sig =>
      rw [hreq] at ho
      rcases serve_modify_response ho with hresp | ⟨x, hresp⟩
      · simp [createdName, hresp]
      · exact createdName_of_isIdle (by rw [hresp]; exact isIdle_ofExit x)

theorem createdName_eq_some : createdName ev = some d ↔ ∃ key, ev.response = .created d key := by
  unfold createdName
  cases ev.response <;> simp

/-- Only `CreateNew` creates files. -/
theorem IsRun.request_of_created (h : IsRun P (ev :: evs)) (hd : createdName ev = some d) :
    ev.request = .createNew := by
  have ho := h.served
  cases hreq : ev.request with
  | createNew => rfl
  | getInodeName hashname sig =>
      rw [hreq] at ho
      rw [createdName_of_isIdle (serve_getInodeName ho).2] at hd
      cases hd
  | modify n descs inodeHash aesKey sig =>
      have htarget : ev.target = some n := by simp [Event.target, hreq]
      rw [createdName_of_target h htarget] at hd
      cases hd

theorem createdNames_cons_none (h : createdName ev = none) :
    createdNames (ev :: evs) = createdNames evs := by simp [createdNames, h]

theorem createdNames_cons_some (h : createdName ev = some d) :
    createdNames (ev :: evs) = d :: createdNames evs := by simp [createdNames, h]

theorem RunInv.step (hP : P.Lawful) (h : RunInv P evs) (hrun : ProperRun P (ev :: evs)) :
    RunInv P (ev :: evs) := by
  obtain ⟨hsound, hgrow, heffect⟩ := h.effect hP hrun
  cases heffect with
  | created r hr hresp hholds hindex =>
      have hname : createdName ev = some (r.name P) := by simp [createdName, hresp]
      have hs : ∀ d, succeeded d (ev :: evs) = succeeded d evs :=
        fun d => succeeded_cons_of_not (by rw [hresp]; simp)
      refine ⟨hsound, ?_, ?_⟩
      · intro d hd
        change ∃ hist, ev.after.index d = _ ∧ Linked P d ev.after hist ∧ _
        rw [createdNames_cons_some hname] at hd ⊢
        by_cases he : r.name P = d
        · subst he
          refine ⟨[], ?_, ⟨_, by rw [← hr], by rw [← hr]; exact hholds⟩, ?_⟩
          · rw [hindex, Function.update_self]
            rfl
          · intro hcount
            have hnew : r.name P ∉ createdNames evs := by
              rw [List.count_cons_self] at hcount
              exact List.count_eq_zero.mp (by omega)
            exact Tracks.empty (by rw [hs]; exact succeeded_eq_nil hrun.onCreated.1 hnew)
        · obtain ⟨hist, hix, hl, ht⟩ := h.files d ((List.mem_cons.mp hd).resolve_left (Ne.symm he))
          refine ⟨hist, ?_, hl.grows hgrow, ?_⟩
          · rw [hindex, Function.update_of_ne (Ne.symm he), hix]
          · intro hcount
            rw [List.count_cons_of_ne he] at hcount
            exact (ht hcount).of_eq (hs d)
      · intro d hd
        rw [createdNames_cons_some hname, List.mem_cons, not_or] at hd
        change ev.after.index d = none
        rw [hindex, Function.update_of_ne hd.1]
        exact h.unknown d hd.2
  | committed d₀ aesKey sig hist c hreq hresp hd₀ hbase htracks hkey hlinked hindex =>
      have hname : createdName ev = none := by simp [createdName, hresp]
      refine ⟨hsound, ?_, ?_⟩
      · intro d hd
        change ∃ hist, ev.after.index d = _ ∧ Linked P d ev.after hist ∧ _
        rw [createdNames_cons_none hname] at hd ⊢
        by_cases he : d = d₀
        · subst he
          have hix : ev.after.index d = some (c.inode.name P) := by
            rw [hindex, Function.update_self]
          exact ⟨c :: hist, hix, hlinked, fun hcount => (htracks hcount).commit hreq hresp hkey hix⟩
        · obtain ⟨hist', hix, hl, ht⟩ := h.files d hd
          have hs : ev.succeeds d = false := by
            rw [Bool.eq_false_iff]
            intro hsucc
            obtain ⟨-, _, _, _, _, hreq'⟩ := succeeds_iff.mp hsucc
            rw [hreq] at hreq'
            injection hreq' with hdd
            exact he hdd.symm
          refine ⟨hist', ?_, hl.grows hgrow, fun hcount => (ht hcount).of_eq (by simp [succeeded, hs])⟩
          rw [hindex, Function.update_of_ne he, hix]
      · intro d hd
        rw [createdNames_cons_none hname] at hd
        have hne : d ≠ d₀ := by rintro rfl; exact hd hd₀
        change ev.after.index d = none
        rw [hindex, Function.update_of_ne hne]
        exact h.unknown d hd
  | idle hidle hindex =>
      have hname := createdName_of_isIdle hidle
      refine ⟨hsound, ?_, ?_⟩
      · intro d hd
        change ∃ hist, ev.after.index d = _ ∧ Linked P d ev.after hist ∧ _
        rw [createdNames_cons_none hname] at hd ⊢
        obtain ⟨hist, hix, hl, ht⟩ := h.files d hd
        exact ⟨hist, by rw [hindex, hix], hl.grows hgrow, fun hcount =>
          (ht hcount).of_eq (succeeded_cons_of_not (ne_done_of_isIdle hidle))⟩
      · intro d hd
        rw [createdNames_cons_none hname] at hd
        change ev.after.index d = none
        rw [hindex]
        exact h.unknown d hd

theorem Request.exec_remembers (P : Platform) (rq : Request) :
    Exec.Moves Remembers (rq.exec P) := by
  cases rq with
  | createNew => exact .bind (DCFSMidSim.createNew_remembers P) fun _ => .pure _
  | getInodeName hashname sig =>
      have h := DCFSMidSim.getInodeName_moves P hashname sig
      exact .bind (h.mono fun _ _ h => h.remembers) fun _ => .pure _
  | modify d descs inodeHash aesKey sig =>
      exact .bind (DCFSMidSim.modify_remembers P d descs inodeHash aesKey sig) fun _ => .pure _

theorem IsRun.remembers (h : IsRun P (ev :: evs)) : (current evs).Remembers ev.after := by
  rcases serve_spec h.served (ev.request.exec_remembers P _) with hr | ⟨x, -, hr⟩
  · exact ⟨hr.hashed, hr.index⟩
  · exact ⟨hr.hashed, hr.index⟩

theorem ProperRun.tail (h : ProperRun P (ev :: evs)) : ProperRun P evs where
  isRun := h.isRun.tail
  onCreated := h.onCreated.1
  free := h.free.of_subset h.isRun.remembers.hashed

theorem ProperRun.inv (hP : P.Lawful) (h : ProperRun P evs) : RunInv P evs := by
  induction evs with
  | nil => exact RunInv.empty P
  | cons ev evs ih => exact (ih h.tail).step hP h

/-- A run that is proper up to its end was proper all along. -/
theorem ProperRun.suffix {run : List Event} (h : ProperRun P run) (hs : evs <:+ run) :
    ProperRun P evs := by
  induction run with
  | nil =>
      rw [List.suffix_nil] at hs
      rw [hs]
      exact h
  | cons ev run ih =>
      rcases List.suffix_cons_iff.mp hs with rfl | hs
      · exact h
      · exact ih h.tail hs

theorem ProperRun.grows (hP : P.Lawful) {run : List Event} (h : ProperRun P run)
    (hs : evs <:+ run) : (current evs).Grows P (current run) := by
  induction run with
  | nil =>
      rw [List.suffix_nil] at hs
      rw [hs]
      exact Grows.refl _
  | cons ev run ih =>
      rcases List.suffix_cons_iff.mp hs with rfl | hs
      · exact Grows.refl _
      · obtain ⟨-, hgrow, -⟩ := (h.tail.inv hP).effect hP h
        exact (ih h.tail hs).trans hgrow

end Runs

end DcfsClient
