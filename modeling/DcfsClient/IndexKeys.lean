import DcfsClient.MiddlewareRuns
import DcfsClient.Reference

/-!
# Which names the index knows

The index of the middleware should hold the files that were created and nothing else. `Modify` looks
its file up with `operator[]` and tests for its existence afterwards, when the lookup has inserted it:
the names in the index are the created ones and all those a validly signed `Modify` ever asked for.
-/

namespace DcfsClient

open Backend

def Backend.Known (b : Backend) (d : Bytes) : Prop := b.index d ≠ none

/-- `CreateNew` does not look at its signature. -/
def Request.ValidlySigned (P : Platform) : Request → Prop
  | .createNew => True
  | .getInodeName hashname sig => P.verify (P.hash256 hashname) sig = true
  | .modify dcname descs inodeHash aesKey sig =>
    P.verify (P.hash256 (DCFSMidSim.modifyArgs dcname descs inodeHash aesKey)) sig = true

def Event.AsksFor (P : Platform) (d : Bytes) (ev : Event) : Prop :=
  ev.target = some d ∧ ev.request.ValidlySigned P

/-- At every point of the run the index holds exactly the files created so far, and requests about
others are refused and change nothing. -/
structure ExactIndex (run : List Event) : Prop where
  keys : ∀ evs, evs <:+ run → ∀ d, (current evs).Known d ↔ d ∈ createdNames evs
  refused : ∀ ev evs, ev :: evs <:+ run → ∀ d, ev.target = some d → d ∉ createdNames evs →
    ev.response = .failed errNotFound ∧ ev.after.store = (current evs).store ∧
      ev.after.index = (current evs).index
  notFound : ∀ ev evs, ev :: evs <:+ run → ∀ d sig, ev.request = .getInodeName d sig →
    d ∉ createdNames evs → ev.response = .failed errNotFound

section Modify

variable {P : Platform} {b : Backend} {d : Bytes} {descs : List BufDesc}
  {inodeHash aesKey sig : Bytes}

theorem wp_modify_unsigned
    (hsig : P.verify (P.hash256 (DCFSMidSim.modifyArgs d descs inodeHash aesKey)) sig ≠ true) :
    Exec.wp (DCFSMidSim.modify P d descs inodeHash aesKey sig) (fun _ _ => False)
      (fun _ b' => b' = b) b := by
  simp [DCFSMidSim.modify, hsig]

/-- The lookup of an unknown file inserts it: `Modify` goes on as if it had been created. -/
theorem wp_modify_inserted {Q : Unit → Backend → Prop} {E : Exit ErrT Abort → Backend → Prop}
    (hsig : P.verify (P.hash256 (DCFSMidSim.modifyArgs d descs inodeHash aesKey)) sig = true)
    (hd : b.index d = none)
    (h : Exec.wp (DCFSMidSim.modify P d descs inodeHash aesKey sig) Q E (b.setIndex d [])) :
    Exec.wp (DCFSMidSim.modify P d descs inodeHash aesKey sig) Q E b := by
  have hnew : (b.setIndex d []).index d = some [] := Function.update_self _ _ _
  simp only [DCFSMidSim.modify, Exec.wp_bind, Exec.wp_failIf, indexAt, Exec.wp_modifyGet, hsig, hd,
    hnew, Bool.not_true, Bool.false_eq_true, false_implies, true_and] at h ⊢
  exact h

/-- Whatever becomes of a signed request, its file is in the index afterwards. -/
theorem wp_modify_known
    (hsig : P.verify (P.hash256 (DCFSMidSim.modifyArgs d descs inodeHash aesKey)) sig = true) :
    Exec.wp (DCFSMidSim.modify P d descs inodeHash aesKey sig)
      (fun _ b' => b'.Known d) (fun _ b' => b'.Known d) b := by
  have hkeep : ∀ b₀ : Backend, b₀.Known d → Exec.wp (DCFSMidSim.modify P d descs inodeHash aesKey sig)
      (fun _ b' => b'.Known d) (fun _ b' => b'.Known d) b₀ := by
    intro b₀ hb₀
    exact Exec.wp_mono (DCFSMidSim.modify_remembers P d descs inodeHash aesKey sig b₀)
      (fun _ _ hr hnone => hb₀ (hr.index d hnone)) (fun _ _ hr hnone => hb₀ (hr.index d hnone))
  cases hd : b.index d with
  | some n => exact hkeep b (by simp [Known, hd])
  | none =>
      apply wp_modify_inserted hsig hd
      exact hkeep _ (by simp [Known, setIndex])

end Modify

section Serve

variable {P : Platform} {b b' : Backend} {e : Env} {resp : Response} {d n : Bytes}
  {descs : List BufDesc} {inodeHash aesKey sig : Bytes}

theorem serve_createNew_known (ho : (resp, b') = serve P b .createNew e) :
    b'.Known d ↔ (∃ key, resp = .created d key) ∨ b.Known d := by
  have hspec : Exec.wp (Request.createNew.exec P)
      (fun out b' => ∃ n key, out = .created n key ∧
        b'.index = Function.update b.index n (some []))
      (fun _ b' => b'.index = b.index) { b with env := e } := by
    simp only [Request.exec, Exec.wp_bind, Exec.wp_pure]
    apply Exec.wp_mono (wp_createNew _)
    · rintro _ b' ⟨rfl, b₁, -, -, -, hindex⟩
      exact ⟨_, _, rfl, hindex⟩
    · rintro _ b' (hpush | hdrop)
      · exact hpush.index
      · exact hdrop.index
  rcases serve_spec ho hspec with ⟨n, key, rfl, hindex⟩ | ⟨x, rfl, hindex⟩
  · by_cases he : n = d
    · subst he
      simp [Known, hindex]
    · simp [Known, hindex, he, Function.update_of_ne (Ne.symm he)]
  · have hx : ¬ ∃ key, Response.ofExit x = .created d key := by
      rintro ⟨key, hx⟩
      cases x <;> cases hx
    simp [Known, hindex, hx]

theorem serve_modify_state {R : Backend → Prop}
    (ho : (resp, b') = serve P b (.modify n descs inodeHash aesKey sig) e)
    (h : Exec.wp (DCFSMidSim.modify P n descs inodeHash aesKey sig) (fun _ => R) (fun _ => R)
      { b with env := e }) : R b' := by
  have hspec : Exec.wp ((Request.modify n descs inodeHash aesKey sig).exec P)
      (fun _ => R) (fun _ => R) { b with env := e } := by
    simp only [Request.exec, Exec.wp_bind, Exec.wp_pure]
    exact h
  rcases serve_spec ho hspec with hb' | ⟨-, -, hb'⟩
  · exact hb'
  · exact hb'

theorem serve_modify_known
    (ho : (resp, b') = serve P b (.modify n descs inodeHash aesKey sig) e) :
    b'.Known d ↔ (n = d ∧ (Request.modify n descs inodeHash aesKey sig).ValidlySigned P) ∨
      b.Known d := by
  by_cases hsig : (Request.modify n descs inodeHash aesKey sig).ValidlySigned P
  · by_cases he : n = d
    · subst he
      have hknown := serve_modify_state ho (wp_modify_known hsig)
      exact ⟨fun _ => Or.inl ⟨rfl, hsig⟩, fun _ => hknown⟩
    · have htouch := serve_modify_state ho (DCFSMidSim.modify_touches P n descs inodeHash aesKey sig _)
      have hindex : b'.index d = b.index d := htouch.index d (Ne.symm he)
      simp [Known, hindex, he]
  · have hsame : b'.index = b.index := by
      refine serve_modify_state (R := fun b' => b'.index = b.index) ho ?_
      apply Exec.wp_mono (wp_modify_unsigned hsig)
      · exact fun _ _ hf => hf.elim
      · rintro _ _ rfl
        rfl
    simp [Known, hsame, hsig]

end Serve

section Runs

variable {P : Platform} {evs run : List Event} {ev : Event} {d : Bytes}

/-- What one event adds to the index. -/
theorem IsRun.known_cons (h : IsRun P (ev :: evs)) :
    ev.after.Known d ↔ createdName ev = some d ∨ ev.AsksFor P d ∨ (current evs).Known d := by
  have ho := h.served
  cases hreq : ev.request with
  | createNew =>
      rw [hreq] at ho
      rw [serve_createNew_known ho, createdName_eq_some]
      simp [Event.AsksFor, Event.target, hreq]
  | getInodeName hashname sig =>
      rw [hreq] at ho
      obtain ⟨hsame, hidle⟩ := serve_getInodeName ho
      simp [Known, hsame.index, createdName_of_isIdle hidle, Event.AsksFor, Event.target, hreq]
  | modify n descs inodeHash aesKey sig =>
      rw [hreq] at ho
      have htarget : ev.target = some n := by simp [Event.target, hreq]
      rw [serve_modify_known ho, createdName_of_target h htarget]
      simp [Event.AsksFor, htarget, hreq]

/-- The index of a run: what was created and what a signed `Modify` asked for. -/
theorem IsRun.known_iff (h : IsRun P evs) :
    (current evs).Known d ↔ d ∈ createdNames evs ∨ ∃ ev ∈ evs, ev.AsksFor P d := by
  induction evs with
  | nil => simp [Known, current, createdNames]
  | cons ev evs ih =>
      change ev.after.Known d ↔ _
      rw [h.known_cons, ih h.tail, mem_createdNames_cons]
      simp only [List.mem_cons, exists_eq_or_imp]
      tauto

theorem IsRun.suffix (h : IsRun P run) (hs : evs <:+ run) : IsRun P evs := by
  induction run with
  | nil =>
      rw [List.suffix_nil] at hs
      rw [hs]
      trivial
  | cons ev run ih =>
      rcases List.suffix_cons_iff.mp hs with rfl | hs
      · exact h
      · exact ih h.tail hs

theorem OnCreated.suffix (h : OnCreated run) (hs : evs <:+ run) : OnCreated evs := by
  induction run with
  | nil =>
      rw [List.suffix_nil] at hs
      rw [hs]
      trivial
  | cons ev run ih =>
      rcases List.suffix_cons_iff.mp hs with rfl | hs
      · exact h
      · exact ih h.1 hs

theorem OnCreated.mem_createdNames (h : OnCreated evs) (hev : ev ∈ evs) (htarget : ev.target = some d) :
    d ∈ createdNames evs := by
  induction evs with
  | nil => cases hev
  | cons ev₀ evs ih =>
      rw [mem_createdNames_cons]
      right
      rcases List.mem_cons.mp hev with rfl | hev
      · exact h.2 d htarget
      · exact ih h.1 hev

theorem IsRun.known_of_onCreated (h : IsRun P evs) (hon : OnCreated evs) :
    (current evs).Known d ↔ d ∈ createdNames evs := by
  rw [h.known_iff]
  constructor
  · rintro (hd | ⟨ev, hev, hask⟩)
    · exact hd
    · exact hon.mem_createdNames hev hask.1
  · exact Or.inl

/-- A signed lookup of a name that is not in the index. -/
theorem IsRun.lookup_unknown (h : IsRun P (ev :: evs)) {sig : Bytes}
    (hreq : ev.request = .getInodeName d sig) (hsig : ev.request.ValidlySigned P)
    (hd : ¬ (current evs).Known d) : ev.response = .failed errNotFound := by
  have ho := h.served
  rw [hreq] at ho hsig
  have hverify : P.verify (P.hash256 d) sig = true := hsig
  have hnone : (current evs).index d = none := not_not.mp hd
  have hspec : Exec.wp ((Request.getInodeName d sig).exec P) (fun _ _ => False)
      (fun x _ => x = .err errNotFound) { current evs with env := ev.env } := by
    simp [Request.exec, DCFSMidSim.getInodeName, hverify, hnone]
  rcases serve_spec ho hspec with hf | ⟨x, hresp, rfl⟩
  · exact hf.elim
  · exact hresp

/-- The index is exact in those runs in which no `Modify` asks for a file that was not created. -/
theorem exactIndex_iff (hrun : IsRun P run) (hsigned : ∀ ev ∈ run, ev.request.ValidlySigned P) :
    ExactIndex run ↔ OnCreated run := by
  constructor
  · intro hexact
    -- the signed `Modify` has put its file into the index, where only created ones belong
    have hon : ∀ evs, evs <:+ run → OnCreated evs := by
      intro evs hs
      induction evs with
      | nil => trivial
      | cons ev evs ih =>
          have htail : evs <:+ run := (List.suffix_cons ev evs).trans hs
          refine ⟨ih htail, ?_⟩
          intro d hd
          have hev := hrun.suffix hs
          have hmem : ev ∈ run := hs.mem (by simp)
          have hknown : (current (ev :: evs)).Known d :=
            hev.known_cons.mpr (Or.inr (Or.inl ⟨hd, hsigned ev hmem⟩))
          rw [hexact.keys _ hs, mem_createdNames_cons] at hknown
          rcases hknown with hname | hold
          · rw [createdName_of_target hev hd] at hname
            cases hname
          · exact hold
    exact hon run (List.suffix_refl run)
  · intro hon
    constructor
    · intro evs hs d
      exact (hrun.suffix hs).known_of_onCreated (hon.suffix hs)
    · intro ev evs hs d htarget hd
      exact absurd ((hon.suffix hs).2 d htarget) hd
    · intro ev evs hs d sig hreq hd
      have hev := hrun.suffix hs
      apply hev.lookup_unknown hreq (hsigned ev (hs.mem (by simp)))
      rw [hev.tail.known_of_onCreated (hon.suffix hs).1]
      exact hd

end Runs

section Instances

open Reference

def tidyRun : List Event :=
  replay platform [(.getInodeName [7] (platform.sign (platform.hash256 [7])), {}),
    (.signed platform (fileAt 5) [⟨[1, 2], 0⟩] [] zeroKey, { clock := [10, 11, 12] }),
    (.createNew, { clock := [6] }), (.createNew, { clock := [5] })]

theorem tidyRun_onCreated : OnCreated tidyRun := by decide

theorem tidyRun_signed : ∀ ev ∈ tidyRun, ev.request.ValidlySigned platform := by
  intro ev hev
  simp only [tidyRun, replay, List.mem_cons, List.not_mem_nil, or_false] at hev
  rcases hev with rfl | rfl | rfl | rfl
  · exact lawful.verify_sign _
  · exact lawful.verify_sign _
  · trivial
  · trivial

theorem exactIndex_tidyRun : OnCreated tidyRun ∧ ExactIndex tidyRun :=
  ⟨tidyRun_onCreated,
    (exactIndex_iff (isRun_replay _ (by decide +kernel)) tidyRun_signed).mpr tidyRun_onCreated⟩

/-- A `Modify` for a name nobody created, and then a lookup of it. -/
def strayRun : List Event :=
  replay platform [(.getInodeName [7] (platform.sign (platform.hash256 [7])), {}),
    (.signed platform [7] [⟨[1, 2], 0⟩] [1] zeroKey, {})]

/-- The refused `Modify` leaves its name in the index, and the lookup finds it there. -/
theorem exactIndex_strayRun : IsRun platform strayRun ∧
    (∀ ev ∈ strayRun, ev.request.ValidlySigned platform) ∧
    strayRun.map Event.response = [.inodeName [], .failed (-1)] ∧ ¬ ExactIndex strayRun := by
  have hsigned : ∀ ev ∈ strayRun, ev.request.ValidlySigned platform := by
    intro ev hev
    simp only [strayRun, replay, List.mem_cons, List.not_mem_nil, or_false] at hev
    rcases hev with rfl | rfl
    · exact lawful.verify_sign _
    · exact lawful.verify_sign _
  refine ⟨isRun_replay _ (by decide), hsigned, by decide +kernel, ?_⟩
  intro h
  have hkeys := h.keys strayRun (List.suffix_refl _) [7]
  have hindex : (current strayRun).index [7] = some [] := by decide
  have hcreated : createdNames strayRun = [] := by decide
  rw [Known, hindex, hcreated] at hkeys
  simp at hkeys

end Instances

end DcfsClient
