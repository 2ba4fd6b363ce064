import DcfsClient.CacheWrites
import DcfsClient.Filesystem

/-!
# The cases of the callbacks

`Fs.Effect` lists everything a callback that replies can have done to the mount. `Fs.Loads` is what
`get_inode` did on the way: nothing if the inode was in the table, else a read of the file's newest
inode record. `wp_callback` says that this list is complete, and that the assertion of `Unref` can
only fail in a flush whose inode has no reference.
-/

namespace DcfsClient

open Backend Exec

/-! ## The directory -/

namespace Directory

variable {d : Directory} {name : Bytes}

@[simp] theorem entries_readdir : d.readdir.2.entries = d.entries := by
  unfold readdir
  split <;> rfl

/-- The search loop finds the first entry of that name behind the iterator. -/
theorem findLoop_spec (fuel : Nat) (h : d.it ≤ d.entries.length)
    (hfuel : d.entries.length < d.it + fuel) :
    (findLoop name fuel d).1 = (d.entries.drop d.it).find? (fun ent => name = ent.filename) ∧
      (findLoop name fuel d).2.entries = d.entries := by
  induction fuel generalizing d with
  | zero => omega
  | succ fuel ih =>
      rw [findLoop]
      by_cases hend : d.it = d.entries.length
      · have hread : d.readdir = (none, { d with it := 0 }) := by rw [readdir, if_pos hend]
        simp [hread, hend]
      · have hlt : d.it < d.entries.length := by omega
        have hread : d.readdir = (some d.entries[d.it], { d with it := d.it + 1 }) := by
          rw [readdir, if_neg hend, List.getElem?_eq_getElem hlt]
        have hdrop := List.drop_eq_getElem_cons hlt
        rw [hread, hdrop, List.find?_cons]
        by_cases hname : name = d.entries[d.it].filename
        · simp [← hname]
        · have hrest := @ih { d with it := d.it + 1 } (by dsimp only; omega) (by dsimp only; omega)
          simpa [hname] using hrest

theorem lookup_eq_find : (d.lookup name).1 = d.entries.find? (fun ent => name = ent.filename) := by
  have h := @findLoop_spec d.initReaddir name (d.entries.length + 1)
    (Nat.zero_le _) (by simp [initReaddir])
  simpa [lookup, initReaddir] using h.1

@[simp] theorem entries_lookup : (d.lookup name).2.entries = d.entries := by
  have h := @findLoop_spec d.initReaddir name (d.entries.length + 1)
    (Nat.zero_le _) (by simp [initReaddir])
  simpa [lookup, initReaddir] using h.2

@[simp] theorem entries_listLoop (fuel : Nat) : (listLoop fuel d).2.entries = d.entries := by
  induction fuel generalizing d with
  | zero => rfl
  | succ fuel ih =>
      rw [listLoop]
      have hread := entries_readdir (d := d)
      cases hr : d.readdir with
      | mk ent d' =>
          rw [hr] at hread
          cases ent with
          | none => exact hread
          | some ent => exact (ih (d := d')).trans hread

end Directory

/-! ## Rules for the two kinds of calls -/

section Rules

variable {α : Type} {fs : Fs} {E : Exit ErrT Abort → Fs → Prop}

@[simp] theorem wp_onStorage {Q : α → Fs → Prop} (m : BackendM α) :
    wp (Fs.onStorage m) Q E fs ↔
      wp m (fun a be => Q a { fs with be := be }) (fun x be => E x { fs with be := be }) fs.be :=
  wp_zoom _ _ _

/-- A call through a pointer into the table. -/
theorem wp_onSession {Q : α → Fs → Prop} {h : Bytes} {ino : Inode}
    (hino : fs.inodeTable h = some ino) (m : CacheM α) :
    wp (Fs.onSession h m) Q E fs ↔
      wp m (fun a s => Q a ({ fs with be := s.be }.putInode h s.ino))
        (fun x s => E x ({ fs with be := s.be }.putInode h s.ino)) ⟨ino, fs.be⟩ := by
  simp only [Fs.onSession, wp_bind, wp_get, hino, wp_orAbort, wp_zoom]
  simp

end Rules

/-! ## What a callback can have done -/

def Fs.Looks (fs fs' : Fs) : Prop :=
  ∃ root : Directory, root.entries = fs.root.entries ∧ fs' = { fs with root := root }

structure Fs.Keeps (fs fs' : Fs) : Prop where
  be : fs.be.Same fs'.be
  inodeTable : fs'.inodeTable = fs.inodeTable
  entries : fs'.root.entries = fs.root.entries
  fdCnt : fs'.fdCnt = fs.fdCnt
  fdTable : fs'.fdTable = fs.fdTable
  blockSizeInKb : fs'.blockSizeInKb = fs.blockSizeInKb

/-- The file a request is about: by handle, or by path when there is none. -/
def Fs.target (fs : Fs) (path : Bytes) (fh : Nat) : Option Bytes :=
  if 0 < fh then some (fs.fdTable fh)
  else (fs.root.entries.find? fun ent => path.tail = ent.filename).map (·.hashname)

def Fs.Misses (fs : Fs) (path : Bytes) (fh : Nat) : Prop :=
  ∀ h, fs.target path fh = some h → fs.inodeTable h = none

inductive Fs.Loads (P : Platform) (h : Bytes) (ino : Inode) (fs fs' : Fs) : Prop where
  | cached (hlook : fs.Looks fs') (hino : fs.inodeTable h = some ino)
  | loaded (m : FileMeta) (b : Backend) (root : Directory) (hroot : root.entries = fs.root.entries)
      (hnone : fs.inodeTable h = none) (hread : StorageBackend.readFileMeta P h fs.be = .ok m b)
      (hsame : fs.be.Same b)
      (hino : ino = .load h m.recordname m.blockmapHash fs.blockSizeInKb blockmapCover m.isize
        m.aesKey)
      (hfs : fs' = { fs with be := b, root := root }.putInode h ino)

/-- How the flush inside `Unref` ended. -/
def Flushed (P : Platform) (s s' : Session) : Prop :=
  RecordCache.flushCache P s = .ok () s' ∨ ∃ e, RecordCache.flushCache P s = .error (.err e) s'

def Reply.isHandle : Reply → Bool
  | .handle _ => true
  | _ => false

def Callback.isFlush : Callback → Bool
  | .flush _ _ => true
  | _ => false

/-- Everything a callback that replies can have done. -/
inductive Fs.Effect (P : Platform) (fs : Fs) : Callback → Reply → Fs → Prop where
  | idle {cb : Callback} {reply : Reply} {fs' : Fs} (hkeep : fs.Keeps fs')
      (hreply : reply.isHandle = false)
      (hflush : ∀ path fh, cb = .flush path fh → reply = .code enoent ∧ fs.Misses path fh) :
      Effect P fs cb reply fs'
  | refused {path : Bytes} (root : Directory) (hroot : root.entries = fs.root.entries) (e : ErrT)
      (b : Backend) (hnew : DCFSMidSim.createNew P fs.be = .error (.err e) b) :
      Effect P fs (.create path) (.code enomem) { fs with be := b, root := root }
  | created {path : Bytes} (root : Directory) (hroot : root.entries = fs.root.entries)
      (hfresh : fs.target path 0 = none) (h key : Bytes) (b : Backend)
      (hnew : DCFSMidSim.createNew P fs.be = .ok (h, key) b) (hfd : fs.fdCnt + 1 < fdTableMax) :
      Effect P fs (.create path) (.handle (fs.fdCnt + 1))
        { fs with
          be := b
          inodeTable := Function.update fs.inodeTable h
            (some (Inode.fresh h fs.blockSizeInKb blockmapCover key).ref)
          root := root.addent ⟨path.tail, h⟩
          fdCnt := fs.fdCnt + 1
          fdTable := Function.update fs.fdTable (fs.fdCnt + 1) h }
  | opened {path h : Bytes} {ino : Inode} {fs₁ : Fs} (htarget : fs.target path 0 = some h)
      (hload : fs.Loads P h ino fs₁) (hfd : fs.fdCnt + 1 < fdTableMax) :
      Effect P fs (.open path) (.handle (fs.fdCnt + 1))
        ({ fs₁ with
          fdCnt := fs.fdCnt + 1
          fdTable := Function.update fs.fdTable (fs.fdCnt + 1) h }.putInode h ino.ref)
  | used {cb : Callback} {reply : Reply} {h : Bytes} {ino : Inode} {fs₁ : Fs} (s : Session)
      (hload : fs.Loads P h ino fs₁) (hwrites : Session.Writes ⟨ino, fs₁.be⟩ s)
      (hreply : reply.isHandle = false) (hflush : cb.isFlush = false) :
      Effect P fs cb reply ({ fs₁ with be := s.be }.putInode h s.ino)
  | unreffed {path h : Bytes} {fh : Nat} {ino : Inode} {fs₁ : Fs}
      (htarget : fs.target path fh = some h) (hload : fs.Loads P h ino fs₁)
      (hcount : 1 < ino.refCount) :
      Effect P fs (.flush path fh) (.code 0)
        (fs₁.putInode h { ino with refCount := ino.refCount - 1 })
  | released {path h : Bytes} {fh : Nat} {ino : Inode} {fs₁ : Fs} (s : Session)
      (htarget : fs.target path fh = some h) (hload : fs.Loads P h ino fs₁)
      (hcount : ino.refCount = 1) (hflush : Flushed P ⟨{ ino with refCount := 0 }, fs₁.be⟩ s) :
      Effect P fs (.flush path fh) (.code 0)
        { fs₁ with
          be := s.be
          inodeTable := Function.update fs₁.inodeTable h none
          fdTable := if 0 < fh then Function.update fs.fdTable fh [] else fs.fdTable }

namespace Fs

variable {P : Platform} {fs fs' fs₁ : Fs} {h : Bytes} {ino : Inode}

theorem Looks.refl (fs : Fs) : fs.Looks fs := ⟨fs.root, rfl, rfl⟩

theorem Looks.keeps (hl : fs.Looks fs') : fs.Keeps fs' := by
  obtain ⟨root, hroot, rfl⟩ := hl
  exact ⟨Same.refl _, rfl, hroot, rfl, rfl, rfl⟩

theorem Loads.be (hl : fs.Loads P h ino fs') : fs.be.Same fs'.be := by
  cases hl with
  | cached hlook _ => exact hlook.keeps.be
  | loaded m b root _ _ _ hsame _ hfs =>
      rw [hfs]
      exact hsame

theorem Loads.inodeTable (hl : fs.Loads P h ino fs') :
    fs'.inodeTable = Function.update fs.inodeTable h (some ino) := by
  cases hl with
  | cached hlook hino =>
      rw [hlook.keeps.inodeTable, ← hino, Function.update_eq_self]
  | loaded m b root _ _ _ _ _ hfs =>
      rw [hfs]
      rfl

theorem Loads.found (hl : fs.Loads P h ino fs') : fs'.inodeTable h = some ino := by
  rw [hl.inodeTable, Function.update_self]

theorem Loads.entries (hl : fs.Loads P h ino fs') : fs'.root.entries = fs.root.entries := by
  cases hl with
  | cached hlook _ => exact hlook.keeps.entries
  | loaded m b root hroot _ _ _ _ hfs =>
      rw [hfs]
      exact hroot

theorem Loads.rest (hl : fs.Loads P h ino fs') :
    fs'.fdCnt = fs.fdCnt ∧ fs'.fdTable = fs.fdTable ∧ fs'.blockSizeInKb = fs.blockSizeInKb := by
  cases hl with
  | cached hlook _ => exact ⟨hlook.keeps.fdCnt, hlook.keeps.fdTable, hlook.keeps.blockSizeInKb⟩
  | loaded m b root _ _ _ _ _ hfs =>
      rw [hfs]
      exact ⟨rfl, rfl, rfl⟩

/-- What is in the table is used as it is. -/
theorem Loads.of_cached {ino₀ : Inode} (hl : fs.Loads P h ino fs') (h₀ : fs.inodeTable h = some ino₀) :
    ino = ino₀ ∧ fs.Looks fs' := by
  cases hl with
  | cached hlook hino =>
      rw [h₀, Option.some.injEq] at hino
      exact ⟨hino.symm, hlook⟩
  | loaded m b root _ hnone _ _ _ _ =>
      rw [h₀] at hnone
      cases hnone

end Fs

/-! ## Where the assertion of `Unref` stands -/

section Spares

variable (P : Platform) {k : Abort}

theorem composeRecord_spares (type : RecordType) (hashes : List Bytes) (inDesc : Option Bytes) :
    Spares k (DCFSMidSim.composeRecord P type hashes inDesc) := by
  have hpayload : Spares k (inDesc.elim (pure zeroString) (hashPart P)) := by
    cases inDesc with
    | none => exact .pure _
    | some c => exact .modifyGet _
  exact .bind hpayload fun _ => .bind (.modifyGet _) fun _ => .bind (.modifyGet _) fun _ => .pure _

theorem pushRecord_spares (hk : .stopped ≠ k) (d : Bytes) (type : RecordType) (hashes : List Bytes)
    (payload : Bytes) : Spares k (DCFSMidSim.pushRecord P d type hashes payload) :=
  .bind (composeRecord_spares P type hashes (some payload)) fun _ =>
    .bind (writeRecord_spares hk _ _ _) fun _ => .pure _

theorem createNew_spares (hk : .stopped ≠ k) : Spares k (DCFSMidSim.createNew P) :=
  .bind (composeRecord_spares P _ _ _) fun _ => .bind (writeRecord_spares hk _ _ _) fun _ =>
    .bind (.modify _) fun _ => .bind .get fun _ => .pure _

theorem getInodeName_spares (h sig : Bytes) : Spares k (DCFSMidSim.getInodeName P h sig) := by
  refine .bind (.failIf _ _) fun _ => .bind .get fun b => ?_
  cases b.index h with
  | none => exact .fail _
  | some n => exact .pure _

theorem readFileMeta_spares (h : Bytes) : Spares .refCount (StorageBackend.readFileMeta P h) := by
  have hread : ∀ n cap, Spares .refCount (readRecord h n cap) :=
    fun n cap => readRecord_spares (by decide) (by decide) h n cap
  refine .bind (fallible_spares (by decide) _) fun _ => .bind (getInodeName_spares P h _) fun _ => ?_
  refine .bind (hread _ _).attempt fun ret => .bind (.check _ (by decide)) fun _ => ?_
  refine .bind (.orAbort _ (by decide)) fun _ => .bind ?_ fun _ => ?_
  · exact .bind (.check _ (by decide)) fun _ => .pure _
  · cases ret with
    | ok _ => exact .pure _
    | error e => exact .fail _

theorem pushDataBlocks_spares (d latest prev : Bytes) (descs : List BufDesc) :
    Spares .refCount (DCFSMidSim.pushDataBlocks P d latest prev descs) := by
  induction descs generalizing prev with
  | nil => exact .pure _
  | cons desc descs ih =>
      exact .bind (pushRecord_spares P (by decide) _ _ _ _) fun name => .bind (ih name) fun _ => .pure _

theorem modify_spares (d : Bytes) (descs : List BufDesc) (inodeHash aesKey sig : Bytes) :
    Spares .refCount (DCFSMidSim.modify P d descs inodeHash aesKey sig) := by
  have hcurrent : ∀ current, Spares .refCount (DCFSMidSim.readCurrent P d current aesKey) := by
    intro current
    have hread : ∀ n cap, Spares .refCount (readRecord d n cap) :=
      fun n cap => readRecord_spares (by decide) (by decide) d n cap
    refine .ite ?_ (.pure _)
    refine .bind (hread _ _) fun _ => .bind (.orAbort _ (by decide)) fun _ => ?_
    exact .bind (hread _ _) fun _ => .bind (.orAbort _ (by decide)) fun _ => .pure _
  refine .bind (.failIf _ _) fun _ => .bind (.modifyGet _) fun _ => .bind (.failIf _ _) fun _ => ?_
  refine .bind .get fun _ => .bind (.failIf _ _) fun _ => .bind (hcurrent _) fun _ => ?_
  refine .bind (pushDataBlocks_spares P _ _ _ _) fun _ => .bind ?_ fun _ => .bind ?_ fun _ => ?_
  · exact .bind (.orAbort _ (by decide)) fun _ => .bind (.orAbort _ (by decide)) fun _ =>
      pushRecord_spares P (by decide) _ _ _ _
  · exact .bind (.check _ (by decide)) fun _ => pushRecord_spares P (by decide) _ _ _ _
  · exact .modify _

theorem onBackend_spares {α : Type} {m : BackendM α} (h : Spares .refCount m) :
    Spares .refCount (onBackend m) := .zoom h

theorem encryptSymmetric_spares (key : Bytes) (inbuf : Mem) (inlen : Int) :
    Spares .refCount (P.encryptSymmetric key inbuf inlen) :=
  .bind (fallible_spares (by decide) _) fun _ => .bind (.failIf _ _) fun _ => .pure _

theorem collectDirty_spares (ino : Inode) (l : List Nat) :
    Spares .refCount (RecordCache.collectDirty P ino l) := by
  induction l with
  | nil => exact .pure _
  | cons blk l ih =>
      refine .ite ?_ ih
      exact .bind (.orAbort _ (by decide)) fun _ =>
        .bind (encryptSymmetric_spares P _ _ _) fun _ => .bind ih fun _ => .pure _

theorem flushCache_spares : Spares .refCount (RecordCache.flushCache P) := by
  refine .bind .get fun s => .bind (onBackend_spares (collectDirty_spares P _ _)) fun _ => ?_
  refine .bind (onBackend_spares (.ite (.pure _) ?_)) fun _ => .modify _
  exact .bind (fallible_spares (by decide) _) fun _ => modify_spares P _ _ _ _ _

theorem fillBlock_spares (blk : Nat) : Spares .refCount (RecordCache.fillBlock P blk) := by
  refine .bind (.modify _) fun _ => .bind .get fun s => .bind (.orAbort _ (by decide)) fun stat => ?_
  refine .ite (.pure _) (.bind (.modify _) fun _ => ?_)
  cases RecordCache.bmCheck s.ino blk with
  | none => exact .bind (.modify _) fun _ => .modify _
  | some recordname =>
      exact .bind (onBackend_spares (readRecordData_spares P (by decide) (by decide) _ _ _)) fun _ =>
        .bind (.modify _) fun _ => .modify _

theorem fillDcache_spares (offset size : Nat) :
    Spares .refCount (RecordCache.fillDcache P offset size) := by
  refine .bind .get fun s => .bind ?_ fun _ => .forM fun blk _ => fillBlock_spares P blk
  refine .bind .get fun s => .ite ?_ (.pure _)
  refine .bind (.modify _) fun _ => .bind ?_ fun _ => .modify _
  exact onBackend_spares (readRecordData_spares P (by decide) (by decide) _ _ _)

theorem blockOf_spares (ino : Inode) (p : Piece) : Spares .refCount (RecordCache.blockOf ino p) :=
  .bind (.orAbort _ (by decide)) fun _ => .bind (.check _ (by decide)) fun _ => .pure _

theorem readPieces_spares (buf : Mem) (cur : Nat) (ps : List Piece) :
    Spares .refCount (RecordCache.readPieces buf cur ps) := by
  induction ps generalizing buf cur with
  | nil => exact .pure _
  | cons p ps ih => exact .bind .get fun _ => .bind (blockOf_spares _ _) fun _ => ih _ _

theorem writePieces_spares (buf : Mem) (cur : Nat) (ps : List Piece) :
    Spares .refCount (RecordCache.writePieces buf cur ps) := by
  induction ps generalizing cur with
  | nil => exact .pure _
  | cons p ps ih =>
      exact .bind .get fun _ => .bind (blockOf_spares _ _) fun _ =>
        .bind (.orAbort _ (by decide)) fun _ => .bind (.modify _) fun _ => ih _

theorem read_spares (buf : Mem) (offset size : Nat) :
    Spares .refCount (Inode.read P buf offset size) := by
  refine .bind .get fun s => .ite (.pure _) (.bind ?_ fun _ => .pure _)
  exact .bind (.check _ (by decide)) fun _ => .bind .get fun _ =>
    .bind (fillDcache_spares P _ _) fun _ => readPieces_spares _ _ _

theorem write_spares (buf : Mem) (offset size : Nat) :
    Spares .refCount (Inode.write P buf offset size) := by
  refine .bind .get fun s => .bind ?_ fun _ => .bind (.modify _) fun _ => .pure _
  refine .bind (.check _ (by decide)) fun _ => .bind .get fun _ => ?_
  refine .bind (fillDcache_spares P _ _).attempt fun ret => .bind (writePieces_spares _ _ _) fun _ => ?_
  cases ret with
  | ok _ => exact .pure _
  | error e => exact .fail _

end Spares

/-! ## The callbacks -/

section Callbacks

variable {P : Platform} {fs : Fs}

theorem Fs.Looks.trans_keeps {fs₀ fs' : Fs} (hl : fs.Looks fs₀) (hk : fs₀.Keeps fs') :
    fs.Keeps fs' := by
  have hl := hl.keeps
  exact ⟨hl.be.trans hk.be, hk.inodeTable.trans hl.inodeTable, hk.entries.trans hl.entries,
    hk.fdCnt.trans hl.fdCnt, hk.fdTable.trans hl.fdTable, hk.blockSizeInKb.trans hl.blockSizeInKb⟩

theorem Fs.Looks.trans_loads {fs₀ fs' : Fs} {h : Bytes} {ino : Inode} (hl : fs.Looks fs₀)
    (hload : fs₀.Loads P h ino fs') : fs.Loads P h ino fs' := by
  obtain ⟨root₀, hroot₀, rfl⟩ := hl
  cases hload with
  | cached hlook hino =>
      obtain ⟨root, hroot, rfl⟩ := hlook
      exact .cached ⟨root, hroot.trans hroot₀, rfl⟩ hino
  | loaded m b root hroot hnone hread hsame hino hfs =>
      exact .loaded m b root (hroot.trans hroot₀) hnone hread hsame hino hfs

theorem wp_lookup (name : Bytes) {Q : Option DirectoryEntry → Fs → Prop}
    {E : Exit ErrT Abort → Fs → Prop}
    (h : ∀ fs', fs.Looks fs' → Q (fs.root.entries.find? fun ent => name = ent.filename) fs') :
    wp (Fs.lookup name) Q E fs := by
  simp only [Fs.lookup, wp_modifyGet, Directory.lookup_eq_find]
  exact h _ ⟨_, Directory.entries_lookup, rfl⟩

theorem readFileMeta_moves (h : Bytes) : Moves Same (StorageBackend.readFileMeta P h) := by
  refine .bind (fallible_moves _) fun _ => .bind (DCFSMidSim.getInodeName_moves P _ _) fun _ => ?_
  refine .bind (readRecord_moves _ _ _).attempt fun ret => .bind (.check _ _) fun _ => ?_
  refine .bind (.orAbort _ _) fun _ => .bind (.bind (.check _ _) fun _ => .pure _) fun _ => ?_
  cases ret with
  | ok _ => exact .pure _
  | error e => exact .fail _

theorem wp_getInode (h : Bytes) :
    wp (Fs.getInode P h)
      (fun out fs' => (out = none ∧ fs.inodeTable h = none ∧ fs.Keeps fs') ∨
        (out = some h ∧ ∃ ino, fs.Loads P h ino fs'))
      (fun x _ => x ≠ .abort .refCount) fs := by
  simp only [Fs.getInode, wp_bind, wp_get]
  cases hino : fs.inodeTable h with
  | some ino => exact Or.inr ⟨rfl, ino, .cached (Fs.Looks.refl fs) hino⟩
  | none =>
      simp only [wp_bind, wp_attempt, wp_onStorage]
      refine wp_mono (wp_and (wp_run _ _) (wp_and (readFileMeta_moves h fs.be)
        (readFileMeta_spares P h fs.be))) ?_ ?_
      · rintro m b ⟨hread, hsame, _⟩
        exact Or.inr ⟨rfl, _, .loaded m b fs.root rfl hino hread hsame rfl rfl⟩
      · rintro x b ⟨_, hsame, hx⟩
        cases x with
        | err e => exact Or.inl ⟨rfl, trivial, hsame, rfl, rfl, rfl, rfl, rfl⟩
        | abort k => exact hx

/-- The target of a request without a handle, after the search of the directory. -/
theorem Fs.target_zero (path : Bytes) : fs.target path 0 =
    (fs.root.entries.find? fun ent => path.tail = ent.filename).map (·.hashname) := rfl

theorem Fs.target_addent {fs' : Fs} {path h : Bytes} {root : Directory}
    (hroot : root.entries = fs.root.entries) (hfresh : fs.target path 0 = none)
    (hentries : fs'.root = root.addent ⟨path.tail, h⟩) : fs'.target path 0 = some h := by
  rw [Fs.target_zero, Option.map_eq_none_iff] at hfresh
  rw [Fs.target_zero, hentries, Directory.addent, hroot, List.find?_append, hfresh]
  simp

theorem wp_resolve (path : Bytes) (fh : Nat) {initial : FsM (Option Bytes)}
    (hinit : ∀ fs₀, wp initial (fun out fs' => out = none ∧ fs' = fs₀)
      (fun x _ => x ≠ .abort .refCount) fs₀) :
    wp (Fs.resolve P path fh initial)
      (fun out fs' => (out = none ∧ fs.Keeps fs' ∧ fs.Misses path fh) ∨ ∃ h ino, out = some h ∧
        fs.target path fh = some h ∧ fs.Loads P h ino fs')
      (fun x _ => x ≠ .abort .refCount) fs := by
  simp only [Fs.resolve, wp_ite, wp_bind, wp_check, wp_get]
  refine ⟨fun hpos => ⟨fun _ => ?_, fun _ => by simp⟩, fun hzero => ?_⟩
  · refine wp_mono (wp_getInode (fs.fdTable fh)) ?_ (fun _ _ hx => hx)
    intro out fs' hcase
    have htarget : fs.target path fh = some (fs.fdTable fh) := by rw [Fs.target, if_pos hpos]
    rcases hcase with ⟨hout, hnone, hkeep⟩ | ⟨hout, ino, hload⟩
    · refine Or.inl ⟨hout, hkeep, fun h hh => ?_⟩
      rw [htarget, Option.some.injEq] at hh
      rw [← hh]
      exact hnone
    · exact Or.inr ⟨_, ino, hout, htarget, hload⟩
  · apply wp_lookup
    intro fs₀ hlook
    cases hent : fs.root.entries.find? (fun ent => path.tail = ent.filename) with
    | none =>
        refine wp_mono (hinit fs₀) ?_ (fun _ _ hx => hx)
        rintro out fs' ⟨hout, hfs⟩
        rw [hfs]
        refine Or.inl ⟨hout, hlook.keeps, fun h hh => ?_⟩
        rw [Fs.target, if_neg hzero, hent] at hh
        cases hh
    | some ent =>
        have htarget : fs.target path fh = some ent.hashname := by
          rw [Fs.target, if_neg hzero, hent]
          rfl
        refine wp_mono (wp_getInode ent.hashname) ?_ (fun _ _ hx => hx)
        intro out fs' hcase
        rcases hcase with ⟨hout, hnone, hkeep⟩ | ⟨hout, ino, hload⟩
        · refine Or.inl ⟨hout, hlook.trans_keeps hkeep, fun h hh => ?_⟩
          rw [htarget, Option.some.injEq] at hh
          rw [← hh, ← hlook.keeps.inodeTable]
          exact hnone
        · exact Or.inr ⟨_, ino, hout, htarget, hlook.trans_loads hload⟩

theorem wp_dcfsGetattr (path : Bytes) :
    wp (Fs.dcfsGetattr P path) (fs.Effect P (.getattr path)) (fun x _ => x ≠ .abort .refCount)
      fs := by
  simp only [Fs.dcfsGetattr, wp_ite, wp_pure, wp_bind]
  refine ⟨fun _ => .idle (Fs.Looks.refl fs).keeps rfl (fun _ _ h => by cases h), fun _ => ?_⟩
  apply wp_lookup
  intro fs₀ hlook
  cases fs.root.entries.find? (fun ent => path.tail = ent.filename) with
  | none => exact .idle hlook.keeps rfl (fun _ _ h => by cases h)
  | some ent =>
      simp only [wp_bind, wp_get, wp_orAbort, wp_pure]
      refine wp_mono (wp_getInode ent.hashname) ?_ (fun _ _ hx => hx)
      intro out fs' hcase
      rcases hcase with ⟨hout, -, hkeep⟩ | ⟨hout, ino, hload⟩
      · rw [hout]
        exact ⟨fun _ hn => (Option.some_ne_none _ hn.symm).elim, fun _ => by simp⟩
      · rw [hout]
        refine ⟨?_, fun hn => by cases hn⟩
        intro h hh
        rw [Option.some.injEq] at hh
        subst hh
        refine ⟨?_, fun _ => by simp⟩
        intro ino' hino'
        have hused : fs.Effect P (.getattr path) (.attr (some ino'.size)) _ :=
          .used ⟨ino, fs'.be⟩ (hlook.trans_loads hload) (refl_of Session.Writes _) rfl rfl
        have hfs : { fs' with be := fs'.be }.putInode ent.hashname ino = fs' := by
          simp only [Fs.putInode]
          rw [← hload.found, Function.update_eq_self]
        rw [hfs] at hused
        exact hused

theorem wp_dcfsReaddir (path : Bytes) :
    wp (Fs.dcfsReaddir path) (fs.Effect P (.readdir path)) (fun x _ => x ≠ .abort .refCount)
      fs := by
  simp only [Fs.dcfsReaddir, wp_ite, wp_pure, wp_modifyGet]
  refine ⟨fun _ => .idle (Fs.Looks.refl fs).keeps rfl (fun _ _ h => by cases h), fun _ => ?_⟩
  apply Fs.Effect.idle _ rfl (fun _ _ h => by cases h)
  exact ⟨Same.refl _, rfl, Directory.entries_listLoop _, rfl, rfl, rfl⟩

theorem wp_newHandle (h : Bytes) {Q : Nat → Fs → Prop}
    (hQ : fs.fdCnt + 1 < fdTableMax → Q (fs.fdCnt + 1)
      { fs with fdCnt := fs.fdCnt + 1
                fdTable := Function.update fs.fdTable (fs.fdCnt + 1) h }) :
    wp (Fs.newHandle h) Q (fun x _ => x ≠ .abort .refCount) fs := by
  simp only [Fs.newHandle, wp_bind, wp_get, wp_check, wp_set, wp_pure, decide_eq_true_eq]
  exact ⟨hQ, fun _ => by simp⟩

theorem wp_dcfsCreate (path : Bytes) :
    wp (Fs.dcfsCreate P path) (fs.Effect P (.create path)) (fun x _ => x ≠ .abort .refCount)
      fs := by
  simp only [Fs.dcfsCreate, wp_bind]
  apply wp_lookup
  intro fs₀ hlook
  cases hent : fs.root.entries.find? (fun ent => path.tail = ent.filename) with
  | some ent => exact .idle hlook.keeps rfl (fun _ _ h => by cases h)
  | none =>
      obtain ⟨root, hroot, rfl⟩ := hlook
      simp only [Fs.allocateInode, StorageBackend.createNewFile, wp_bind, wp_attempt, wp_onStorage]
      have hspare : Spares .refCount (DCFSMidSim.createNew P) := createNew_spares P (by decide)
      apply wp_mono (wp_and (wp_run _ _) (hspare fs.be))
      · rintro out b ⟨hnew, _⟩
        obtain ⟨h, key⟩ := out
        simp only [wp_bind, Exec.wp_modify, wp_pure]
        rw [wp_onSession (Function.update_self _ _ _)]
        simp only [wp_onInode]
        apply wp_newHandle
        intro hfd
        have heffect : fs.Effect P (.create path) (.handle (fs.fdCnt + 1)) _ :=
          .created root hroot (by rw [Fs.target_zero, hent]; rfl) h key b hnew hfd
        simpa only [Fs.putInode, Function.update_idem] using heffect
      · rintro x b ⟨hnew, hx⟩
        cases x with
        | err e => exact .refused root hroot e b hnew
        | abort k => exact hx

theorem wp_dcfsOpen (path : Bytes) :
    wp (Fs.dcfsOpen P path) (fs.Effect P (.open path)) (fun x _ => x ≠ .abort .refCount) fs := by
  simp only [Fs.dcfsOpen, wp_bind]
  apply wp_lookup
  intro fs₀ hlook
  cases hent : fs.root.entries.find? (fun ent => path.tail = ent.filename) with
  | none => exact .idle hlook.keeps rfl (fun _ _ h => by cases h)
  | some ent =>
      simp only [wp_bind]
      refine wp_mono (wp_getInode ent.hashname) ?_ (fun _ _ hx => hx)
      intro out fs₁ hcase
      rcases hcase with ⟨hout, -, hkeep⟩ | ⟨hout, ino, hload⟩
      · rw [hout]
        exact .idle (hlook.trans_keeps hkeep) rfl (fun _ _ h => by cases h)
      · rw [hout]
        have hload := hlook.trans_loads hload
        obtain ⟨hcnt, htable, -⟩ := hload.rest
        simp only [wp_bind, wp_pure]
        rw [wp_onSession hload.found]
        simp only [wp_onInode]
        apply wp_newHandle
        intro hfd
        have htarget : fs.target path 0 = some ent.hashname := by
          rw [Fs.target_zero, hent]
          rfl
        have heffect := Fs.Effect.opened htarget hload (by rw [← hcnt]; exact hfd)
        simp only [Fs.putInode] at heffect ⊢
        rw [hcnt, htable]
        exact heffect

theorem wp_dcfsRead (path : Bytes) (fh : Nat) (buf : Mem) (size offset : Nat) :
    wp (Fs.dcfsRead P path fh buf size offset) (fs.Effect P (.read path fh buf size offset))
      (fun x _ => x ≠ .abort .refCount) fs := by
  simp only [Fs.dcfsRead, wp_bind]
  refine wp_mono (wp_resolve path fh (fun fs₀ => by simp)) ?_ (fun _ _ hx => hx)
  intro out fs₁ hcase
  rcases hcase with ⟨hout, hkeep, -⟩ | ⟨h, ino, hout, -, hload⟩
  · rw [hout]
    exact .idle hkeep rfl (fun _ _ h => by cases h)
  · rw [hout]
    simp only [wp_bind, wp_get, hload.found, wp_orAbort, wp_ite, wp_pure]
    refine ⟨?_, fun hn => by cases hn⟩
    intro ino' hino'
    rw [Option.some.injEq] at hino'
    subst hino'
    constructor
    · intro _
      simp only [wp_attempt]
      rw [wp_onSession hload.found]
      apply wp_mono (wp_and (read_fills buf offset _ _) (read_spares P buf offset _ _))
      · rintro out s ⟨hfills, _⟩
        exact .used s hload hfills.writes rfl rfl
      · rintro x s ⟨hfills, hx⟩
        cases x with
        | err e => exact .used s hload hfills.writes rfl rfl
        | abort k => exact hx
    · intro _
      have hused : fs.Effect P (.read path fh buf size offset) (.data buf 0) _ :=
        .used ⟨ino, fs₁.be⟩ hload (refl_of Session.Writes _) rfl rfl
      have hfs : { fs₁ with be := fs₁.be }.putInode h ino = fs₁ := by
        simp only [Fs.putInode]
        rw [← hload.found, Function.update_eq_self]
      rw [hfs] at hused
      exact hused

theorem wp_dcfsWrite (path : Bytes) (fh : Nat) (buf : Mem) (size offset : Nat) :
    wp (Fs.dcfsWrite P path fh buf size offset) (fs.Effect P (.write path fh buf size offset))
      (fun x _ => x ≠ .abort .refCount) fs := by
  simp only [Fs.dcfsWrite, wp_bind]
  refine wp_mono (wp_resolve path fh (fun fs₀ => by simp)) ?_ (fun _ _ hx => hx)
  intro out fs₁ hcase
  rcases hcase with ⟨hout, hkeep, -⟩ | ⟨h, ino, hout, -, hload⟩
  · rw [hout]
    exact .idle hkeep rfl (fun _ _ h => by cases h)
  · rw [hout]
    simp only [wp_bind, wp_attempt]
    rw [wp_onSession hload.found]
    apply wp_mono (wp_and (write_writes buf offset size _) (write_spares P buf offset size _))
    · rintro out s ⟨hwrites, _⟩
      exact .used s hload hwrites rfl rfl
    · rintro x s ⟨hwrites, hx⟩
      cases x with
      | err e => exact .used s hload hwrites rfl rfl
      | abort k => exact hx

def Fs.UnrefFails (P : Platform) (fs : Fs) : Callback → Prop
  | .flush path fh => ∃ h ino fs₁, fs.target path fh = some h ∧ fs.Loads P h ino fs₁ ∧
      ino.refCount = 0
  | _ => False

/-- Dropping a reference, and the flush with the last one. -/
theorem wp_unref (s : Session) :
    wp (Inode.unref P)
      (fun cnt s' => cnt = s.ino.refCount - 1 ∧ ((1 < s.ino.refCount ∧
          s' = { s with ino := { s.ino with refCount := s.ino.refCount - 1 } }) ∨
        (s.ino.refCount = 1 ∧ Flushed P { s with ino := { s.ino with refCount := 0 } } s')))
      (fun x _ => x = .abort .refCount → s.ino.refCount = 0) s := by
  simp only [Inode.unref, wp_bind, wp_get, wp_check, wp_onInode, wp_ite, wp_pure, wp_attempt,
    decide_eq_true_eq, decide_eq_false_iff_not]
  refine ⟨fun hpos => ⟨fun hone => ?_, fun hmany => ?_⟩, fun hzero _ => by omega⟩
  · have hcount : s.ino.refCount = 1 := by omega
    simp only [hcount]
    apply wp_mono (wp_and (wp_run _ _) (flushCache_spares P _))
    · rintro _ s' ⟨hrun, _⟩
      exact ⟨trivial, Or.inr ⟨trivial, Or.inl hrun⟩⟩
    · rintro x s' ⟨hrun, hx⟩
      cases x with
      | err e => exact ⟨trivial, Or.inr ⟨trivial, Or.inr ⟨e, hrun⟩⟩⟩
      | abort k => exact fun he => absurd he hx
  · exact ⟨trivial, Or.inl ⟨by omega, trivial⟩⟩

theorem wp_dcfsFlush (path : Bytes) (fh : Nat) :
    wp (Fs.dcfsFlush P path fh) (fs.Effect P (.flush path fh))
      (fun x _ => x = .abort .refCount → fs.UnrefFails P (.flush path fh)) fs := by
  simp only [Fs.dcfsFlush, wp_bind]
  refine wp_mono (wp_resolve path fh (fun fs₀ => by simp)) ?_ (fun _ _ hx he => absurd he hx)
  intro out fs₁ hcase
  rcases hcase with ⟨hout, hkeep, hmiss⟩ | ⟨h, ino, hout, htarget, hload⟩
  · rw [hout]
    apply Fs.Effect.idle hkeep rfl
    intro path' fh' hcb
    injection hcb with hpath hfh
    rw [← hpath, ← hfh]
    exact ⟨rfl, hmiss⟩
  · rw [hout]
    simp only [wp_bind]
    rw [wp_onSession hload.found]
    apply wp_mono (wp_unref ⟨ino, fs₁.be⟩)
    · rintro cnt s ⟨hcnt, hcase⟩
      simp only [wp_ite, Fs.releaseInode, wp_bind, Exec.wp_modify, wp_pure, Fs.eraseInode]
      rcases hcase with ⟨hmany, hs⟩ | ⟨hone, hs⟩
      · rw [hs]
        have hne : cnt ≠ 0 := by
          rw [hcnt]
          exact Nat.sub_ne_zero_of_lt hmany
        exact ⟨fun hzero => absurd hzero hne, fun _ => .unreffed htarget hload hmany⟩
      · have heffect := Fs.Effect.released s htarget hload hone hs
        rw [← hload.rest.2.1] at heffect
        refine ⟨fun _ => ?_, fun hne => absurd (by rw [hcnt, hone]) hne⟩
        simp only [Fs.putInode, Function.update_idem]
        split
        · simpa only [*, if_true] using heffect
        · simpa only [*, if_false] using heffect
    · intro x s hx he
      exact ⟨h, ino, fs₁, htarget, hload, hx he⟩

/-- Every callback that replies did one of the things of `Fs.Effect`. -/
theorem wp_callback (cb : Callback) :
    wp (cb.run P) (fs.Effect P cb) (fun x _ => x = .abort .refCount → fs.UnrefFails P cb) fs := by
  have hspared : ∀ {m : FsM Reply}, wp m (fs.Effect P cb) (fun x _ => x ≠ .abort .refCount) fs →
      wp m (fs.Effect P cb) (fun x _ => x = .abort .refCount → fs.UnrefFails P cb) fs :=
    fun h => wp_mono h (fun _ _ he => he) (fun _ _ hx he => absurd he hx)
  cases cb with
  | getattr path => exact hspared (wp_dcfsGetattr path)
  | readdir path => exact hspared (wp_dcfsReaddir path)
  | create path => exact hspared (wp_dcfsCreate path)
  | «open» path => exact hspared (wp_dcfsOpen path)
  | read path fh buf size offset => exact hspared (wp_dcfsRead path fh buf size offset)
  | write path fh buf size offset => exact hspared (wp_dcfsWrite path fh buf size offset)
  | flush path fh => exact wp_dcfsFlush path fh

end Callbacks

end DcfsClient
