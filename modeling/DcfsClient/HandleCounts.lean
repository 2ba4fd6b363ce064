import DcfsClient.MountRuns
import DcfsClient.Reference

/-!
# Reference counts and handles

`Kernel` is the mount together with what the kernel knows about the handles it was given: which file
each belongs to and how many flushes it will still send for it. A handle gets one flush for each
descriptor that refers to it, so `dup` and `fork` raise the number; no callback uses a handle after its
last flush.

`dcfs_flush` drops a reference each time, while `dcfs_open` takes one for the handle as a whole. As long
as every flush is the last of its handle, and no new file takes the name of an old one, the count of an
inode is the number of its file's handles that still await their last flush.
-/

namespace DcfsClient

open Backend Exec

structure Kernel where
  fs : Fs
  awaiting : Nat → Nat := fun _ => 0
  file : Nat → Bytes := fun _ => []

inductive KernelOp where
  | call (cb : Callback) (e : Env)
  | dup (fh : Nat)

def Callback.handle : Callback → Option Nat
  | .read _ fh _ _ _ => some fh
  | .write _ fh _ _ _ => some fh
  | .flush _ fh => some fh
  | _ => none

namespace Kernel

variable (k : Kernel)

/-- No callback uses a handle after its last flush. -/
def Permits (cb : Callback) : Prop := ∀ fh ∈ cb.handle, 0 < k.awaiting fh

def after (cb : Callback) (reply : Reply) (fs' : Fs) : Kernel :=
  match cb, reply with
  | .flush _ fh, _ =>
    { k with fs := fs', awaiting := Function.update k.awaiting fh (k.awaiting fh - 1) }
  | _, .handle fd =>
    { fs := fs'
      awaiting := Function.update k.awaiting fd 1
      file := Function.update k.file fd (fs'.fdTable fd) }
  | _, _ => { k with fs := fs' }

def live (h : Bytes) : Finset Nat :=
  (Finset.range fdTableMax).filter fun fh => 0 < k.awaiting fh ∧ k.file fh = h

end Kernel

/-- The operations, newest first, lead to `k`; each was permitted and met the condition `C` in the
state it started from. -/
inductive KernelRun (P : Platform) (kb : Nat) (C : Kernel → KernelOp → Prop) :
    List KernelOp → Kernel → Prop where
  | start : KernelRun P kb C [] { fs := mounted kb [] }
  | call {ops : List KernelOp} {k : Kernel} {cb : Callback} {e : Env} {reply : Reply} {fs' : Fs} :
      KernelRun P kb C ops k → k.Permits cb → C k (.call cb e) →
      cb.run P (k.fs.withEnv e) = .ok reply fs' →
      KernelRun P kb C (.call cb e :: ops) (k.after cb reply fs')
  | dup {ops : List KernelOp} {k : Kernel} {fh : Nat} :
      KernelRun P kb C ops k → 0 < k.awaiting fh → C k (.dup fh) →
      KernelRun P kb C (.dup fh :: ops)
        { k with awaiting := Function.update k.awaiting fh (k.awaiting fh + 1) }

def newName (P : Platform) (e : Env) : Bytes :=
  (Draft.mk .capsuleMeta [] none (e.clock.headD 0)).name P

/-- Every flush is the last of its handle, and a new file gets a new name. -/
def Kernel.Careful (P : Platform) (k : Kernel) : KernelOp → Prop
  | .call (.flush _ fh) _ => k.awaiting fh = 1
  | .call (.create _) e => k.fs.be.index (newName P e) = none
  | _ => True

/-- Serving `cb` does not fail the assertion of `Unref`, and releases the inode of a file only if no
handle of that file but the flushed one awaits its last flush. -/
structure CountsHandles (P : Platform) (k : Kernel) (cb : Callback) (e : Env) : Prop where
  asserts : ∀ x fs', cb.run P (k.fs.withEnv e) = .error x fs' → x ≠ .abort .refCount
  releases : ∀ reply fs' h, cb.run P (k.fs.withEnv e) = .ok reply fs' →
    k.fs.inodeTable h ≠ none → fs'.inodeTable h = none →
    ∃ path fh, cb = .flush path fh ∧ k.file fh = h ∧
      ∀ fh', fh' ≠ fh → 0 < k.awaiting fh' → k.file fh' ≠ h

def refs (o : Option Inode) : Nat := o.elim 0 Inode.refCount

structure KernelInv (k : Kernel) : Prop where
  count : ∀ h, refs (k.fs.inodeTable h) = (k.live h).card
  known : ∀ h, k.fs.inodeTable h ≠ none → k.fs.be.index h ≠ none
  handles : ∀ fh, 0 < k.awaiting fh → 0 < fh ∧ fh ≤ k.fs.fdCnt ∧ fh < fdTableMax ∧
    k.fs.fdTable fh = k.file fh ∧ k.fs.be.index (k.file fh) ≠ none

section Live

variable {k k' : Kernel} {fd : Nat}

/-- One more handle counts for its file only. -/
theorem card_live_of_added (hlt : fd < fdTableMax) (hdead : k.awaiting fd = 0)
    (halive : 0 < k'.awaiting fd)
    (hother : ∀ fh, fh ≠ fd → k'.awaiting fh = k.awaiting fh ∧ k'.file fh = k.file fh) (h : Bytes) :
    (k'.live h).card = (k.live h).card + if k'.file fd = h then 1 else 0 := by
  have hmem : ∀ fh, fh ∈ k'.live h ↔ fh ∈ k.live h ∨ (fh = fd ∧ k'.file fd = h) := by
    intro fh
    simp only [Kernel.live, Finset.mem_filter, Finset.mem_range]
    by_cases he : fh = fd
    · subst he
      simp [hlt, hdead, halive]
    · obtain ⟨ha, hf⟩ := hother fh he
      simp [ha, hf, he]
  split
  · rename_i hfile
    have hins : k'.live h = insert fd (k.live h) := by
      ext fh
      rw [hmem, Finset.mem_insert]
      simp only [hfile, and_true]
      exact or_comm
    rw [hins, Finset.card_insert_of_notMem]
    simp [Kernel.live, hdead]
  · rename_i hfile
    have hsame : k'.live h = k.live h := by
      ext fh
      rw [hmem]
      simp [hfile]
    rw [hsame, Nat.add_zero]

theorem live_eq {h : Bytes}
    (hall : ∀ fh, (0 < k'.awaiting fh ↔ 0 < k.awaiting fh) ∧ k'.file fh = k.file fh) :
    k'.live h = k.live h := by
  ext fh
  obtain ⟨ha, hf⟩ := hall fh
  simp only [Kernel.live, Finset.mem_filter, ha, hf]

theorem mem_live {fh : Nat} {h : Bytes} :
    fh ∈ k.live h ↔ fh < fdTableMax ∧ 0 < k.awaiting fh ∧ k.file fh = h := by
  simp [Kernel.live]

end Live

section Invariant

variable {P : Platform} {kb : Nat} {k : Kernel} {cb : Callback} {e : Env} {reply : Reply} {fs fs' : Fs}
  {h : Bytes} {ino : Inode}

/-- `get_inode` makes inodes without references. -/
theorem Fs.Loads.refs (hload : fs.Loads P h ino fs') (h' : Bytes) :
    refs (fs'.inodeTable h') = DcfsClient.refs (fs.inodeTable h') := by
  have htable := hload.inodeTable
  rw [htable]
  by_cases he : h' = h
  · subst he
    rw [Function.update_self]
    cases hload with
    | cached hlook hino => rw [hino]
    | loaded m b root hroot hnone hread hsame hino hfs =>
        rw [hnone, hino]
        rfl
  · rw [Function.update_of_ne he]

theorem refs_update (table : Bytes → Option Inode) (h h' : Bytes) (o : Option Inode) :
    refs (Function.update table h o h') = if h' = h then refs o else refs (table h') := by
  by_cases he : h' = h
  · rw [he, Function.update_self, if_pos rfl]
  · rw [Function.update_of_ne he, if_neg he]

/-- A live handle's inode is in the table. -/
theorem KernelInv.cached (hi : KernelInv k) {fh : Nat} (hlive : 0 < k.awaiting fh) :
    ∃ ino, k.fs.inodeTable (k.file fh) = some ino ∧ 0 < ino.refCount := by
  obtain ⟨-, -, hlt, -, -⟩ := hi.handles fh hlive
  have hmem : fh ∈ k.live (k.file fh) := mem_live.mpr ⟨hlt, hlive, rfl⟩
  have hpos : 0 < (k.live (k.file fh)).card := Finset.card_pos.mpr ⟨fh, hmem⟩
  rw [← hi.count] at hpos
  cases hino : k.fs.inodeTable (k.file fh) with
  | none =>
      rw [hino] at hpos
      exact absurd hpos (Nat.lt_irrefl 0)
  | some ino =>
      rw [hino] at hpos
      exact ⟨ino, rfl, hpos⟩

/-- The target of a flush through a live handle is the file of the handle, and its inode is used as it
is. -/
theorem KernelInv.flushes (hi : KernelInv k) {path : Bytes} {fh : Nat} (hlive : 0 < k.awaiting fh)
    (htarget : (k.fs.withEnv e).target path fh = some h) (hload : (k.fs.withEnv e).Loads P h ino fs') :
    h = k.file fh ∧ k.fs.inodeTable h = some ino ∧ 0 < ino.refCount := by
  obtain ⟨hpos, -, -, hfile, -⟩ := hi.handles fh hlive
  have hh : h = k.file fh := by
    rw [Fs.target, if_pos hpos, Option.some.injEq] at htarget
    rw [← htarget]
    exact hfile
  obtain ⟨ino₀, hino₀, hcount⟩ := hi.cached hlive
  rw [← hh] at hino₀
  have hcached : (k.fs.withEnv e).inodeTable h = some ino₀ := hino₀
  obtain ⟨hino, -⟩ := hload.of_cached hcached
  rw [hino]
  exact ⟨hh, hino₀, hcount⟩

/-- A file without an entry in the index has no references. -/
theorem KernelInv.refs_unknown (hi : KernelInv k) (hnone : k.fs.be.index h = none) :
    refs (k.fs.inodeTable h) = 0 := by
  cases hino : k.fs.inodeTable h with
  | none => rfl
  | some ino => exact absurd hnone (hi.known h (by rw [hino]; simp))

theorem after_quiet (hflush : cb.isFlush = false) (hreply : reply.isHandle = false) :
    k.after cb reply fs' = { k with fs := fs' } := by
  cases reply with
  | handle fd => cases hreply
  | _ =>
      cases cb with
      | flush path fh => cases hflush
      | _ => rfl

/-- Nothing that concerns handles has changed. -/
theorem KernelInv.quiet (hi : KernelInv k)
    (hrefs : ∀ h, refs (fs'.inodeTable h) = refs (k.fs.inodeTable h))
    (hknown : ∀ h, fs'.inodeTable h ≠ none → fs'.be.index h ≠ none)
    (hcnt : fs'.fdCnt = k.fs.fdCnt) (htable : fs'.fdTable = k.fs.fdTable)
    (hindex : ∀ d, fs'.be.index d = none → k.fs.be.index d = none) :
    KernelInv { k with fs := fs' } := by
  constructor
  · intro h
    exact (hrefs h).trans (hi.count h)
  · exact hknown
  · intro fh hlive
    obtain ⟨hpos, hle, hlt, hfile, hne⟩ := hi.handles fh hlive
    refine ⟨hpos, ?_, hlt, ?_, fun hnone => hne (hindex _ hnone)⟩
    · rw [hcnt]
      exact hle
    · rw [htable]
      exact hfile

/-- A new handle of file `h`, and one more reference to its inode. -/
theorem KernelInv.handle (hi : KernelInv k) (hlt : k.fs.fdCnt + 1 < fdTableMax)
    (hrefs : ∀ h', refs (fs'.inodeTable h') =
      refs (k.fs.inodeTable h') + if h = h' then 1 else 0)
    (hknown : ∀ h', fs'.inodeTable h' ≠ none → fs'.be.index h' ≠ none)
    (hcnt : fs'.fdCnt = k.fs.fdCnt + 1)
    (htable : fs'.fdTable = Function.update k.fs.fdTable (k.fs.fdCnt + 1) h)
    (hindex : ∀ d, fs'.be.index d = none → k.fs.be.index d = none)
    (hfound : fs'.inodeTable h ≠ none) :
    KernelInv
      { fs := fs'
        awaiting := Function.update k.awaiting (k.fs.fdCnt + 1) 1
        file := Function.update k.file (k.fs.fdCnt + 1) (fs'.fdTable (k.fs.fdCnt + 1)) } := by
  have hfd : fs'.fdTable (k.fs.fdCnt + 1) = h := by rw [htable, Function.update_self]
  have hdead : k.awaiting (k.fs.fdCnt + 1) = 0 := by
    by_contra hne
    obtain ⟨-, hle, -⟩ := hi.handles _ (Nat.pos_of_ne_zero hne)
    omega
  rw [hfd]
  let k' : Kernel :=
    { fs := fs'
      awaiting := Function.update k.awaiting (k.fs.fdCnt + 1) 1
      file := Function.update k.file (k.fs.fdCnt + 1) h }
  have hone : k'.awaiting (k.fs.fdCnt + 1) = 1 := Function.update_self _ _ _
  have hnew : k'.file (k.fs.fdCnt + 1) = h := Function.update_self _ _ _
  have hold : ∀ fh, fh ≠ k.fs.fdCnt + 1 →
      k'.awaiting fh = k.awaiting fh ∧ k'.file fh = k.file fh :=
    fun fh hne => ⟨Function.update_of_ne hne _ _, Function.update_of_ne hne _ _⟩
  change KernelInv k'
  constructor
  · intro h'
    have hcard := card_live_of_added hlt hdead (by omega) hold h'
    rw [hnew] at hcard
    rw [hcard, ← hi.count h']
    exact hrefs h'
  · exact hknown
  · intro fh hlive
    by_cases he : fh = k.fs.fdCnt + 1
    · rw [he, hnew]
      exact ⟨Nat.succ_pos _, le_of_eq hcnt.symm, hlt, hfd, hknown h hfound⟩
    · obtain ⟨hawait, hfile⟩ := hold fh he
      rw [hawait] at hlive
      obtain ⟨hpos, hle, hmax, hname, hne⟩ := hi.handles fh hlive
      rw [hfile]
      refine ⟨hpos, ?_, hmax, ?_, fun hnone => hne (hindex _ hnone)⟩
      · change fh ≤ fs'.fdCnt
        omega
      · change fs'.fdTable fh = k.file fh
        rw [htable, Function.update_of_ne he]
        exact hname

/-- The last flush of a handle, and one reference less to the inode of its file. -/
theorem KernelInv.flush (hi : KernelInv k) {fh : Nat} (hlast : k.awaiting fh = 1)
    (hrefs : ∀ h', refs (k.fs.inodeTable h') =
      refs (fs'.inodeTable h') + if k.file fh = h' then 1 else 0)
    (hknown : ∀ h', fs'.inodeTable h' ≠ none → fs'.be.index h' ≠ none)
    (hcnt : fs'.fdCnt = k.fs.fdCnt)
    (htable : ∀ fh', fh' ≠ fh → fs'.fdTable fh' = k.fs.fdTable fh')
    (hindex : ∀ d, fs'.be.index d = none → k.fs.be.index d = none) :
    KernelInv { k with fs := fs', awaiting := Function.update k.awaiting fh 0 } := by
  let k' : Kernel := { k with fs := fs', awaiting := Function.update k.awaiting fh 0 }
  have hzero : k'.awaiting fh = 0 := Function.update_self _ _ _
  have hold : ∀ fh', fh' ≠ fh → k'.awaiting fh' = k.awaiting fh' :=
    fun fh' hne => Function.update_of_ne hne _ _
  obtain ⟨-, -, hlt, -, -⟩ := hi.handles fh (by omega)
  change KernelInv k'
  constructor
  · intro h'
    have hcard := @card_live_of_added k' k fh hlt hzero (by omega)
      (fun fh' hne => ⟨(hold fh' hne).symm, rfl⟩) h'
    have hbefore := hi.count h'
    have hafter := hrefs h'
    change refs (fs'.inodeTable h') = (k'.live h').card
    omega
  · exact hknown
  · intro fh' hlive
    have hne : fh' ≠ fh := by
      intro he
      rw [he, hzero] at hlive
      omega
    rw [hold fh' hne] at hlive
    obtain ⟨hpos, hle, hmax, hname, hindexed⟩ := hi.handles fh' hlive
    refine ⟨hpos, ?_, hmax, ?_, fun hnone => hindexed (hindex _ hnone)⟩
    · change fh' ≤ fs'.fdCnt
      omega
    · change fs'.fdTable fh' = k.file fh'
      rw [htable fh' hne]
      exact hname

theorem KernelInv.dup (hi : KernelInv k) {fh : Nat} (hlive : 0 < k.awaiting fh) :
    KernelInv { k with awaiting := Function.update k.awaiting fh (k.awaiting fh + 1) } := by
  have hsame : ∀ fh', 0 < Function.update k.awaiting fh (k.awaiting fh + 1) fh' ↔
      0 < k.awaiting fh' := by
    intro fh'
    by_cases he : fh' = fh
    · rw [he, Function.update_self]
      omega
    · rw [Function.update_of_ne he]
  constructor
  · intro h
    have hlive : Kernel.live { k with
        awaiting := Function.update k.awaiting fh (k.awaiting fh + 1) } h = k.live h :=
      live_eq fun fh' => ⟨hsame fh', rfl⟩
    rw [hlive]
    exact hi.count h
  · exact hi.known
  · intro fh' hlive'
    exact hi.handles fh' ((hsame fh').mp hlive')

/-- Only files of the index are in the table after `get_inode`. -/
theorem KernelInv.known_put (hi : KernelInv k) (hload : (k.fs.withEnv e).Loads P h ino fs)
    {ino' : Inode} {h' : Bytes} (hne : Function.update fs.inodeTable h (some ino') h' ≠ none) :
    fs.be.index h' ≠ none := by
  rw [hload.be.index]
  by_cases he : h' = h
  · rw [he]
    cases hload with
    | cached hlook hino =>
        have hcached : k.fs.inodeTable h = some ino := hino
        apply hi.known h
        rw [hcached]
        exact Option.some_ne_none ino
    | loaded m b root hroot hnone hread hsame hino hfs => exact index_of_readFileMeta hread
  · rw [Function.update_of_ne he, hload.inodeTable, Function.update_of_ne he] at hne
    exact hi.known h' hne

/-- The references after the inode that `get_inode` gave was replaced. -/
theorem Fs.Loads.refs_put (hload : fs.Loads P h ino fs') (ino' : Inode) (h' : Bytes) :
    DcfsClient.refs (Function.update fs'.inodeTable h (some ino') h') =
      if h' = h then ino'.refCount else DcfsClient.refs (fs.inodeTable h') := by
  rw [refs_update, hload.refs]
  rfl

theorem Fs.Loads.refs_self (hload : fs.Loads P h ino fs') :
    DcfsClient.refs (fs.inodeTable h) = ino.refCount := by
  rw [← hload.refs, hload.found]
  rfl

/-- A live handle's inode is cached, so a flush through it cannot miss it. -/
theorem KernelInv.hits (hi : KernelInv k) {fh : Nat} (hlive : 0 < k.awaiting fh) (path : Bytes) :
    ¬ (k.fs.withEnv e).Misses path fh := by
  intro hmiss
  obtain ⟨hpos, -, -, hfile, -⟩ := hi.handles fh hlive
  obtain ⟨ino, hino, -⟩ := hi.cached hlive
  have htarget : (k.fs.withEnv e).target path fh = some (k.file fh) := by
    rw [Fs.target, if_pos hpos, ← hfile]
    rfl
  have hnone : k.fs.inodeTable (k.file fh) = none := hmiss _ htarget
  rw [hino] at hnone
  cases hnone

/-! ### One step lemma for each thing a callback can do -/

theorem KernelInv.keeps (hi : KernelInv k) (hkeep : (k.fs.withEnv e).Keeps fs') :
    KernelInv { k with fs := fs' } := by
  have hindex : ∀ d, fs'.be.index d = k.fs.be.index d := fun d => congrFun hkeep.be.index d
  refine hi.quiet ?_ ?_ hkeep.fdCnt hkeep.fdTable fun d hnone => (hindex d).symm.trans hnone
  · intro h
    rw [hkeep.inodeTable]
    rfl
  · intro h hne
    rw [hkeep.inodeTable] at hne
    rw [hindex]
    exact hi.known h hne

theorem KernelInv.created (hi : KernelInv k) (hnew : k.fs.be.index h = none)
    (hlt : k.fs.fdCnt + 1 < fdTableMax) (hone : ino.refCount = 1)
    (htable : fs'.inodeTable = Function.update k.fs.inodeTable h (some ino))
    (hindex : fs'.be.index = Function.update k.fs.be.index h (some []))
    (hcnt : fs'.fdCnt = k.fs.fdCnt + 1)
    (hfd : fs'.fdTable = Function.update k.fs.fdTable (k.fs.fdCnt + 1) h) :
    KernelInv
      { fs := fs'
        awaiting := Function.update k.awaiting (k.fs.fdCnt + 1) 1
        file := Function.update k.file (k.fs.fdCnt + 1) (fs'.fdTable (k.fs.fdCnt + 1)) } := by
  have hother : ∀ d, d ≠ h → fs'.be.index d = k.fs.be.index d := by
    intro d hne
    rw [hindex, Function.update_of_ne hne]
  have hself : fs'.be.index h ≠ none := by
    rw [hindex, Function.update_self]
    exact Option.some_ne_none []
  have hfound : fs'.inodeTable h ≠ none := by
    rw [htable, Function.update_self]
    exact Option.some_ne_none ino
  refine hi.handle hlt ?_ ?_ hcnt hfd ?_ hfound
  · intro h'
    rw [htable, refs_update]
    by_cases he : h' = h
    · rw [if_pos he, if_pos he.symm, he, hi.refs_unknown hnew]
      exact hone
    · rw [if_neg he, if_neg (Ne.symm he), Nat.add_zero]
  · intro h' hne
    by_cases he : h' = h
    · rw [he]
      exact hself
    · rw [htable, Function.update_of_ne he] at hne
      rw [hother h' he]
      exact hi.known h' hne
  · intro d hnone
    by_cases he : d = h
    · rw [he] at hnone
      exact absurd hnone hself
    · rw [← hother d he]
      exact hnone

theorem KernelInv.opened (hi : KernelInv k) (hload : (k.fs.withEnv e).Loads P h ino fs)
    (hlt : k.fs.fdCnt + 1 < fdTableMax)
    (htable : fs'.inodeTable = Function.update fs.inodeTable h (some ino.ref))
    (hbe : fs'.be = fs.be) (hcnt : fs'.fdCnt = k.fs.fdCnt + 1)
    (hfd : fs'.fdTable = Function.update k.fs.fdTable (k.fs.fdCnt + 1) h) :
    KernelInv
      { fs := fs'
        awaiting := Function.update k.awaiting (k.fs.fdCnt + 1) 1
        file := Function.update k.file (k.fs.fdCnt + 1) (fs'.fdTable (k.fs.fdCnt + 1)) } := by
  have hfound : fs'.inodeTable h ≠ none := by
    rw [htable, Function.update_self]
    exact Option.some_ne_none _
  refine hi.handle hlt ?_ ?_ hcnt hfd ?_ hfound
  · intro h'
    rw [htable, hload.refs_put]
    by_cases he : h' = h
    · have hself : refs (k.fs.inodeTable h) = ino.refCount := hload.refs_self
      rw [if_pos he, if_pos he.symm, he, hself]
      rfl
    · rw [if_neg he, if_neg (Ne.symm he), Nat.add_zero]
      rfl
  · intro h' hne
    rw [htable] at hne
    rw [hbe]
    exact hi.known_put hload hne
  · intro d hnone
    rw [hbe, hload.be.index] at hnone
    exact hnone

theorem KernelInv.used (hi : KernelInv k) (hload : (k.fs.withEnv e).Loads P h ino fs) {s : Session}
    (hwrites : Session.Writes ⟨ino, fs.be⟩ s) :
    KernelInv { k with fs := { fs with be := s.be }.putInode h s.ino } := by
  refine hi.quiet ?_ ?_ hload.rest.1 hload.rest.2.1 ?_
  · intro h'
    change refs (Function.update fs.inodeTable h _ h') = _
    rw [hload.refs_put]
    by_cases he : h' = h
    · have hself : refs (k.fs.inodeTable h) = ino.refCount := hload.refs_self
      rw [if_pos he, he, hself]
      exact hwrites.file.refCount
    · rw [if_neg he]
      rfl
  · intro h' hne
    change s.be.index h' ≠ none
    rw [hwrites.be.index]
    exact hi.known_put hload hne
  · intro d hnone
    change s.be.index d = none at hnone
    rw [hwrites.be.index, hload.be.index] at hnone
    exact hnone

theorem KernelInv.unreffed (hi : KernelInv k) {path : Bytes} {fh : Nat} (hlast : k.awaiting fh = 1)
    (htarget : (k.fs.withEnv e).target path fh = some h)
    (hload : (k.fs.withEnv e).Loads P h ino fs) :
    KernelInv { k with
      fs := fs.putInode h { ino with refCount := ino.refCount - 1 }
      awaiting := Function.update k.awaiting fh 0 } := by
  obtain ⟨hh, hino, hpos⟩ := hi.flushes (by omega) htarget hload
  refine hi.flush hlast ?_ ?_ hload.rest.1 (fun fh' _ => congrFun hload.rest.2.1 fh') ?_
  · intro h'
    change _ = refs (Function.update fs.inodeTable h _ h') + _
    rw [hload.refs_put, ← hh]
    by_cases he : h' = h
    · rw [if_pos he, if_pos he.symm, he, hino]
      change ino.refCount = ino.refCount - 1 + 1
      omega
    · rw [if_neg he, if_neg (Ne.symm he), Nat.add_zero]
      rfl
  · intro h' hne
    exact hi.known_put hload hne
  · intro d hnone
    change fs.be.index d = none at hnone
    rw [hload.be.index] at hnone
    exact hnone

theorem KernelInv.released (hi : KernelInv k) {path : Bytes} {fh : Nat} (hlast : k.awaiting fh = 1)
    (htarget : (k.fs.withEnv e).target path fh = some h)
    (hload : (k.fs.withEnv e).Loads P h ino fs) (hcount : ino.refCount = 1)
    (htable : fs'.inodeTable = Function.update fs.inodeTable h none)
    (hcnt : fs'.fdCnt = fs.fdCnt)
    (hfd : fs'.fdTable = if 0 < fh then Function.update k.fs.fdTable fh [] else k.fs.fdTable)
    (hindex : ∀ d, fs'.be.index d = none → k.fs.be.index d = none) :
    KernelInv { k with fs := fs', awaiting := Function.update k.awaiting fh 0 } := by
  obtain ⟨hh, hino, -⟩ := hi.flushes (by omega) htarget hload
  refine hi.flush hlast ?_ ?_ (hcnt.trans hload.rest.1) ?_ hindex
  · intro h'
    rw [htable, refs_update, ← hh]
    by_cases he : h' = h
    · rw [if_pos he, if_pos he.symm, he, hino]
      exact hcount
    · rw [if_neg he, if_neg (Ne.symm he), Nat.add_zero]
      exact (hload.refs h').symm
  · intro h' hne hnone
    rw [htable] at hne
    by_cases he : h' = h
    · rw [he, Function.update_self] at hne
      exact hne rfl
    · rw [Function.update_of_ne he, hload.inodeTable, Function.update_of_ne he] at hne
      exact hi.known h' hne (hindex h' hnone)
  · intro fh' hne
    rw [hfd]
    split
    · rw [Function.update_of_ne hne]
    · rfl

/-- The invariant along careful runs. -/
theorem KernelInv.call (hi : KernelInv k) (hpermit : k.Permits cb) (hcare : k.Careful P (.call cb e))
    (hrun : cb.run P (k.fs.withEnv e) = .ok reply fs') : KernelInv (k.after cb reply fs') := by
  have heffect := wp_ok (@wp_callback P (k.fs.withEnv e) cb) hrun
  have hindex := heffect.remembers.index
  cases heffect with
  | idle hkeep hreply hflush =>
      cases hcb : cb.isFlush with
      | false =>
          rw [after_quiet hcb hreply]
          exact hi.keeps hkeep
      | true =>
          cases cb with
          | flush path fh => exact absurd (hflush path fh rfl).2 (hi.hits (hpermit fh rfl) path)
          | _ => cases hcb
  | refused root hroot e b hnew =>
      rw [after_quiet rfl rfl]
      refine hi.quiet (fun _ => rfl) ?_ rfl rfl hindex
      intro h hne hnone
      exact hi.known h hne (hindex h hnone)
  | created root hroot hfresh h key b hnew hfd =>
      obtain ⟨hout, b₁, -, -, -, hupdate⟩ := wp_ok (wp_createNew (k.fs.withEnv e).be) hnew
      rw [Prod.mk.injEq] at hout
      have hunknown : k.fs.be.index h = none := by
        rw [hout.1]
        exact hcare
      rw [← hout.1] at hupdate
      exact hi.created hunknown hfd rfl rfl hupdate rfl rfl
  | opened htarget hload hfd => exact hi.opened hload hfd rfl rfl rfl rfl
  | used s hload hwrites hreply hflush =>
      rw [after_quiet hflush hreply]
      exact hi.used hload hwrites
  | unreffed htarget hload hcount =>
      simp only [Kernel.after, show k.awaiting _ = 1 from hcare, Nat.sub_self]
      exact hi.unreffed hcare htarget hload
  | released s htarget hload hcount hflush =>
      simp only [Kernel.after, show k.awaiting _ = 1 from hcare, Nat.sub_self]
      exact hi.released hcare htarget hload hcount rfl rfl rfl hindex

theorem KernelRun.inv {ops : List KernelOp} (hrun : KernelRun P kb (Kernel.Careful P) ops k) :
    KernelInv k := by
  induction hrun with
  | start =>
      constructor
      · intro h
        simp [Kernel.live, mounted, DcfsClient.refs]
      · intro h hne
        exact absurd rfl hne
      · intro fh hlive
        cases hlive
  | call _ hpermit hcare hok ih => exact ih.call hpermit hcare hok
  | dup _ hlive _ ih => exact ih.dup hlive

theorem update_some_ne_none {table : Bytes → Option Inode} {h h' : Bytes} (hne : table h ≠ none) :
    Function.update table h' (some ino) h ≠ none := by
  by_cases he : h = h'
  · rw [he, Function.update_self]
    simp
  · rwa [Function.update_of_ne he]

/-- An inode leaves the table only by the flush that drops its last reference. -/
theorem Fs.Effect.of_gone (heffect : fs.Effect P cb reply fs') (hbefore : fs.inodeTable h ≠ none)
    (hafter : fs'.inodeTable h = none) : ∃ path fh ino fs₁, cb = .flush path fh ∧
      fs.target path fh = some h ∧ fs.Loads P h ino fs₁ ∧ ino.refCount = 1 := by
  cases heffect with
  | idle hkeep _ _ =>
      rw [hkeep.inodeTable] at hafter
      exact absurd hafter hbefore
  | refused root hroot e b hnew => exact absurd hafter hbefore
  | created root hroot hfresh h' key b hnew hfd =>
      exact absurd hafter (update_some_ne_none hbefore)
  | opened htarget hload hfd =>
      refine absurd hafter (update_some_ne_none ?_)
      rw [hload.inodeTable]
      exact update_some_ne_none hbefore
  | used s hload hwrites _ _ =>
      refine absurd hafter (update_some_ne_none ?_)
      rw [hload.inodeTable]
      exact update_some_ne_none hbefore
  | unreffed htarget hload hcount =>
      refine absurd hafter (update_some_ne_none ?_)
      rw [hload.inodeTable]
      exact update_some_ne_none hbefore
  | @released path h' fh ino fs₁ s htarget hload hcount hflush =>
      by_cases he : h = h'
      · rw [he]
        exact ⟨path, fh, ino, fs₁, rfl, htarget, hload, hcount⟩
      · change Function.update fs₁.inodeTable h' none h = none at hafter
        rw [Function.update_of_ne he, hload.inodeTable] at hafter
        exact absurd hafter (update_some_ne_none hbefore)

/-- A handle that accounts for the only reference is the only live one of its file. -/
theorem KernelInv.only (hi : KernelInv k) {fh fh' : Nat} (hlive : 0 < k.awaiting fh)
    (hino : k.fs.inodeTable (k.file fh) = some ino) (hone : ino.refCount = 1) (hne : fh' ≠ fh)
    (hlive' : 0 < k.awaiting fh') : k.file fh' ≠ k.file fh := by
  intro hfile
  have hmem : fh ∈ k.live (k.file fh) :=
    mem_live.mpr ⟨(hi.handles fh hlive).2.2.1, hlive, rfl⟩
  have hmem' : fh' ∈ k.live (k.file fh) :=
    mem_live.mpr ⟨(hi.handles fh' hlive').2.2.1, hlive', hfile⟩
  have hcard := hi.count (k.file fh)
  rw [hino] at hcard
  change ino.refCount = _ at hcard
  rw [hone] at hcard
  exact hne (Finset.card_le_one.mp hcard.symm.le fh' hmem' fh hmem)

/-- In a careful run the reference counts track the live handles. -/
theorem careful_counts_handles {ops : List KernelOp}
    (hrun : KernelRun P kb (Kernel.Careful P) ops k) (hpermit : k.Permits cb)
    (hcare : k.Careful P (.call cb e)) : CountsHandles P k cb e := by
  have hi := hrun.inv
  have hspec := @wp_callback P (k.fs.withEnv e) cb
  constructor
  · intro x fs' herr hx
    have hfails := wp_error hspec herr hx
    cases cb with
    | flush path fh =>
        obtain ⟨h, ino, fs₁, htarget, hload, hzero⟩ := hfails
        obtain ⟨-, -, hpos⟩ := hi.flushes (hpermit fh rfl) htarget hload
        omega
    | _ => exact hfails
  · intro reply fs' h hok hbefore hafter
    have heffect := wp_ok hspec hok
    obtain ⟨path, fh, ino, fs₁, hcb, htarget, hload, hone⟩ := heffect.of_gone hbefore hafter
    have hlive : 0 < k.awaiting fh := hpermit fh (by rw [hcb]; rfl)
    obtain ⟨hh, hino, -⟩ := hi.flushes hlive htarget hload
    rw [hh] at hino
    refine ⟨path, fh, hcb, hh.symm, ?_⟩
    intro fh' hne hlive'
    rw [hh]
    exact hi.only hlive hino hone hne hlive'

end Invariant

/-! ## Two handles of one file -/

section Instances

open Reference

def Kernel.exec (P : Platform) (k : Kernel) : KernelOp → Kernel
  | .call cb e =>
    match cb.run P (k.fs.withEnv e) with
    | .ok reply fs' => k.after cb reply fs'
    | .error _ fs' => { k with fs := fs' }
  | .dup fh => { k with awaiting := Function.update k.awaiting fh (k.awaiting fh + 1) }

def Kernel.served (P : Platform) (k : Kernel) (cb : Callback) (e : Env) : Bool :=
  returns (cb.run P) (k.fs.withEnv e)

theorem KernelRun.exec_call {P : Platform} {kb : Nat} {C : Kernel → KernelOp → Prop}
    {ops : List KernelOp} {k : Kernel} {cb : Callback} {e : Env} (hrun : KernelRun P kb C ops k)
    (hpermit : k.Permits cb) (hc : C k (.call cb e)) (hserved : k.served P cb e = true) :
    KernelRun P kb C (.call cb e :: ops) (k.exec P (.call cb e)) := by
  obtain ⟨reply, fs', hok⟩ := exists_of_returns hserved
  have hexec : k.exec P (.call cb e) = k.after cb reply fs' := by rw [Kernel.exec, hok]
  rw [hexec]
  exact .call hrun hpermit hc hok

theorem Kernel.permits_of_handle {k : Kernel} {cb : Callback} {fh : Nat} (hcb : cb.handle = some fh)
    (hlive : 0 < k.awaiting fh) : k.Permits cb := by
  intro fh' hfh
  rw [hcb, Option.mem_some_iff] at hfh
  rw [← hfh]
  exact hlive

@[irreducible] def madeFile : Kernel :=
  Kernel.exec platform { fs := mounted 1 [] } (.call (.create [47, 97]) { clock := [5] })

@[irreducible] def madeAndWritten : Kernel :=
  madeFile.exec platform (.call (.write [47, 97] 11 (fun _ => 7) 1 0) {})

@[irreducible] def twoHandles : Kernel := madeAndWritten.exec platform (.call (.open [47, 97]) {})

/-- Handle 12 is duplicated and flushed once. -/
@[irreducible] def halfFlushed : Kernel :=
  (twoHandles.exec platform (.dup 12)).exec platform (.call (.flush [47, 97] 12) {})

/-- The calls are served, and handle 12 is the second of the file. -/
theorem twoHandles_leaves :
    ({ fs := mounted 1 [] } : Kernel).served platform (.create [47, 97]) { clock := [5] } = true ∧
    0 < madeFile.awaiting 11 ∧
    madeFile.served platform (.write [47, 97] 11 (fun _ => 7) 1 0) {} = true ∧
    madeAndWritten.served platform (.open [47, 97]) {} = true ∧ twoHandles.awaiting 12 = 1 ∧
    refs (twoHandles.fs.inodeTable (fileAt 5)) = 2 := by decide +kernel

theorem kernelRun_twoHandles {C : Kernel → KernelOp → Prop}
    (hC : ∀ k op, k.Careful platform op → C k op) : ∃ ops, KernelRun platform 1 C ops twoHandles := by
  obtain ⟨hcreate, hlive, hwrite, hopen, -⟩ := twoHandles_leaves
  have hmade : ∃ ops, KernelRun platform 1 C ops madeFile := by
    unfold madeFile
    exact ⟨_, KernelRun.start.exec_call (fun fh hfh => by cases hfh) (hC _ _ rfl) hcreate⟩
  have hwritten : ∃ ops, KernelRun platform 1 C ops madeAndWritten := by
    obtain ⟨ops, hmade⟩ := hmade
    unfold madeAndWritten
    exact ⟨_, hmade.exec_call (Kernel.permits_of_handle rfl hlive) (hC _ _ trivial) hwrite⟩
  obtain ⟨ops, hwritten⟩ := hwritten
  unfold twoHandles
  exact ⟨_, hwritten.exec_call (fun fh hfh => by cases hfh) (hC _ _ trivial) hopen⟩

/-- Closing one of two handles. -/
theorem careful_counts_handles_twoHandles :
    refs (twoHandles.fs.inodeTable (fileAt 5)) = 2 ∧
      CountsHandles platform twoHandles (.flush [47, 97] 12) {} := by
  obtain ⟨-, -, -, -, hone, hrefs⟩ := twoHandles_leaves
  have hcare : twoHandles.Careful platform (.call (.flush [47, 97] 12) {}) := hone
  obtain ⟨ops, hrun⟩ := kernelRun_twoHandles fun _ _ h => h
  exact ⟨hrefs, careful_counts_handles hrun (Kernel.permits_of_handle rfl hone.ge) hcare⟩

/-- The flush of the duplicate is served, and the next flush of it takes the inode away while handle 11
is open. -/
theorem halfFlushed_leaves : 0 < (twoHandles.exec platform (.dup 12)).awaiting 12 ∧
    (twoHandles.exec platform (.dup 12)).served platform (.flush [47, 97] 12) {} = true ∧
    0 < halfFlushed.awaiting 12 ∧
    halfFlushed.served platform (.flush [47, 97] 12) { clock := [6, 7, 8] } = true ∧
    (halfFlushed.fs.inodeTable (fileAt 5)).isSome = true ∧
    ((halfFlushed.exec platform
      (.call (.flush [47, 97] 12) { clock := [6, 7, 8] })).fs.inodeTable (fileAt 5)).isNone = true ∧
    0 < halfFlushed.awaiting 11 ∧ halfFlushed.file 11 = fileAt 5 := by decide +kernel

/-- The second flush of the duplicated handle 12 releases the inode under handle 11. -/
theorem counts_handles_flushedTwice :
    (∃ ops, KernelRun platform 1 (fun _ _ => True) ops halfFlushed) ∧
      halfFlushed.Permits (.flush [47, 97] 12) ∧
      ¬ CountsHandles platform halfFlushed (.flush [47, 97] 12) { clock := [6, 7, 8] } := by
  obtain ⟨hdup, hflush, hlive, hserved, hbefore, hafter, hopen, hfile⟩ := halfFlushed_leaves
  obtain ⟨-, -, -, -, hone, -⟩ := twoHandles_leaves
  have hrun : ∃ ops, KernelRun platform 1 (fun _ _ => True) ops halfFlushed := by
    unfold halfFlushed
    obtain ⟨ops, htwo⟩ := kernelRun_twoHandles (C := fun _ _ => True) fun _ _ _ => trivial
    have hduplicated := htwo.dup (show 0 < twoHandles.awaiting 12 by omega) trivial
    exact ⟨_, hduplicated.exec_call (Kernel.permits_of_handle rfl hdup) trivial hflush⟩
  refine ⟨hrun, Kernel.permits_of_handle rfl hlive, ?_⟩
  intro hcounts
  obtain ⟨reply, fs', hok⟩ := exists_of_returns hserved
  rw [Kernel.exec, hok] at hafter
  have hnone : fs'.inodeTable (fileAt 5) = none := Option.isNone_iff_eq_none.mp hafter
  obtain ⟨path, fh, hcb, -, honly⟩ := hcounts.releases reply fs' (fileAt 5) hok
    (Option.isSome_iff_ne_none.mp hbefore) hnone
  injection hcb with _ hfh
  exact honly 11 (by rw [← hfh]; decide) hopen hfile

end Instances

end DcfsClient
