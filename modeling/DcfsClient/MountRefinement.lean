import DcfsClient.ClosedFiles
import DcfsClient.FileViews

/-!
# A mount is a plain file system

`Shows` relates a mount to a plain file system: the directory and the handles are the same, and each file
of the middleware shows a plain file, through its inode if the table has one, else through the inode that
the next load would make. Each callback that replies in a calm world makes a step that the plain file
system allows (`Shows.callback`), so every run of a mount is a run of the plain file system.

A fresh file that nobody has open has no inode record. A callback that needs its inode does not reply.
-/

namespace DcfsClient

open Backend Exec

def MadeAs (P : Platform) (kb : Nat) (b : Backend) (h : Bytes) : Stage → Inode → Prop
  | .fresh, ino₀ => FileState P b h [] ∧ ∃ key, ino₀ = .fresh h kb blockmapCover key
  | .stored, ino₀ => ∃ c, FileState P b h [c] ∧ ino₀ = c.loaded P kb h
  | .wild, _ => False

structure FileShows (P : Platform) (kb : Nat) (b : Backend) (h : Bytes) (o : Option Inode)
    (f : PlainFile) : Prop where
  refs : f.refs = o.elim 0 (·.refCount)
  view : f.stage ≠ .wild → ∃ ino₀, MadeAs P kb b h f.stage ino₀ ∧
    (∀ ino, o = some ino → InodeShows P ino₀ b ino f) ∧
    (f.stage = .stored → o = none → InodeShows P ino₀ b ino₀ f)
  fresh : f.stage = .fresh → f.Grown (kb * 1024) ∧ (o ≠ none → 0 < f.refs)

structure Shows (P : Platform) (kb : Nat) (fs : Fs) (a : PlainFs) : Prop where
  blockSizeInKb : fs.blockSizeInKb = kb
  entries : fs.root.entries = a.entries
  last : fs.fdCnt = a.last
  handles : ∀ fh, fs.fdTable fh = (a.handles fh).getD []
  listed : ∀ ent ∈ a.entries, fs.be.index ent.hashname ≠ none
  held : ∀ fh h, a.handles fh = some h → fs.be.index h ≠ none
  files : ∀ h, fs.be.index h ≠ none → FileShows P kb fs.be h (fs.inodeTable h) (a.file h)

section Files

variable {P : Platform} {kb : Nat} {b b' : Backend} {h : Bytes} {o : Option Inode} {ino ino₀ : Inode}
  {f : PlainFile} {stage : Stage}

theorem MadeAs.hashname (hmade : MadeAs P kb b h stage ino₀) : ino₀.hashname = h := by
  cases stage with
  | fresh =>
      obtain ⟨-, key, rfl⟩ := hmade
      rfl
  | stored =>
      obtain ⟨c, -, rfl⟩ := hmade
      rfl
  | wild => exact hmade.elim

theorem MadeAs.blockSize (hmade : MadeAs P kb b h stage ino₀) : ino₀.blockSize = kb * 1024 := by
  cases stage with
  | fresh =>
      obtain ⟨-, key, rfl⟩ := hmade
      rfl
  | stored =>
      obtain ⟨c, -, rfl⟩ := hmade
      rfl
  | wild => exact hmade.elim

theorem MadeAs.exists_history (hmade : MadeAs P kb b h stage ino₀) :
    ∃ hist, FileState P b h hist ∧ ino₀.bmRecordname = blockmapName P hist := by
  cases stage with
  | fresh =>
      obtain ⟨hstate, key, rfl⟩ := hmade
      exact ⟨[], hstate, rfl⟩
  | stored =>
      obtain ⟨c, hstate, rfl⟩ := hmade
      exact ⟨[c], hstate, rfl⟩
  | wild => exact hmade.elim

theorem MadeAs.grows (hmade : MadeAs P kb b h stage ino₀) (hg : b.Grows P b')
    (hindex : b'.index h = b.index h) : MadeAs P kb b' h stage ino₀ := by
  cases stage with
  | fresh =>
      obtain ⟨hstate, hkey⟩ := hmade
      exact ⟨hstate.grows hg hindex, hkey⟩
  | stored =>
      obtain ⟨c, hstate, hino⟩ := hmade
      exact ⟨c, hstate.grows hg hindex, hino⟩
  | wild => exact hmade.elim

/-- The files that a callback is not about do not notice it. -/
theorem FileShows.grows (hP : P.Lawful) (hf : FileShows P kb b h o f) (hb : b.Sound P)
    (hb' : b'.Sound P) (hg : b.Grows P b') (hindex : b'.index h = b.index h) :
    FileShows P kb b' h o f := by
  refine ⟨hf.refs, ?_, hf.fresh⟩
  intro hwild
  obtain ⟨ino₀, hmade, hopen, hclosed⟩ := hf.view hwild
  obtain ⟨hist, hstate, hbm⟩ := hmade.exists_history
  have hgrow : ∀ ino, InodeShows P ino₀ b ino f → InodeShows P ino₀ b' ino f := by
    intro ino hshow
    have hname : ino.hashname = h := hshow.file.hashname.trans hmade.hashname
    have hlinked : Linked P ino.hashname b hist := by
      rw [hname]
      exact hstate.linked
    exact hshow.grows hP hb hb' hg hlinked (hshow.file.bmRecordname.trans hbm)
  refine ⟨ino₀, hmade.grows hg hindex, ?_, ?_⟩
  · intro ino hino
    exact hgrow ino (hopen ino hino)
  · intro hstored hnone
    exact hgrow ino₀ (hclosed hstored hnone)

theorem FileShows.of_wild (hwild : f.stage = .wild) (hrefs : f.refs = o.elim 0 (·.refCount)) :
    FileShows P kb b h o f := by
  refine ⟨hrefs, fun hno => absurd hwild hno, fun hfresh => ?_⟩
  rw [hwild] at hfresh
  cases hfresh

theorem FileShows.of_open (hmade : MadeAs P kb b h f.stage ino₀) (hshow : InodeShows P ino₀ b ino f)
    (hfresh : f.stage = .fresh → f.Grown (kb * 1024) ∧ 0 < f.refs) :
    FileShows P kb b h (some ino) f := by
  refine ⟨hshow.file.refCount.symm, fun _ => ⟨ino₀, hmade, ?_, fun _ hno => by cases hno⟩, ?_⟩
  · intro ino' hino
    cases hino
    exact hshow
  · intro hf
    exact ⟨(hfresh hf).1, fun _ => (hfresh hf).2⟩

/-- The history that the next load of the file finds. -/
theorem FileShows.exists_history (hf : FileShows P kb b h none f)
    (hany : ∃ hist, FileState P b h hist) : ∃ hist, FileState P b h hist ∧
      (f.stage = .fresh → hist = []) ∧ (f.stage = .stored → ∃ c, hist = [c] ∧
        InodeShows P (c.loaded P kb h) b (c.loaded P kb h) f) := by
  cases hstage : f.stage with
  | wild =>
      obtain ⟨hist, hstate⟩ := hany
      exact ⟨hist, hstate, fun hno => (by cases hno), fun hno => (by cases hno)⟩
  | fresh =>
      obtain ⟨ino₀, hmade, -, -⟩ := hf.view (by rw [hstage]; decide)
      rw [hstage] at hmade
      exact ⟨[], hmade.1, fun _ => rfl, fun hno => (by cases hno)⟩
  | stored =>
      obtain ⟨ino₀, hmade, -, hclosed⟩ := hf.view (by rw [hstage]; decide)
      have hshow := hclosed hstage rfl
      rw [hstage] at hmade
      obtain ⟨c, hstate, rfl⟩ := hmade
      exact ⟨[c], hstate, fun hno => (by cases hno), fun _ => ⟨c, rfl, hshow⟩⟩

theorem FileShows.live (hf : FileShows P kb b h (some ino) f) : f.Live :=
  fun hfresh => (hf.fresh hfresh).2 (by simp)

/-- The file was used through its inode, and what it is made from is as before. -/
theorem FileShows.used {f' : PlainFile} {ino' : Inode} (hf : FileShows P kb b h (some ino) f)
    (hs : b.Same b') (hstage : f'.stage = f.stage) (hrefs : f'.refs = ino'.refCount)
    (hfresh : f.stage = .fresh → f.Grown (kb * 1024) → 0 < f.refs →
      f'.Grown (kb * 1024) ∧ 0 < f'.refs)
    (hshow : ∀ ino₀, ino₀.blockSize = kb * 1024 → InodeShows P ino₀ b ino f →
      InodeShows P ino₀ b' ino' f') : FileShows P kb b' h (some ino') f' := by
  by_cases hwild : f'.stage = .wild
  · exact .of_wild hwild hrefs
  · rw [hstage] at hwild
    obtain ⟨ino₀, hmade, hopen, -⟩ := hf.view hwild
    have hmade' := hmade.grows (hs.grows (P := P)) (by rw [hs.index])
    rw [← hstage] at hmade'
    refine .of_open hmade' (hshow ino₀ hmade.blockSize (hopen ino rfl)) ?_
    intro hf'
    rw [hstage] at hf'
    obtain ⟨hgrown, hpos⟩ := hf.fresh hf'
    exact hfresh hf' hgrown (hpos (by simp))

theorem FileShows.withRefs (hf : FileShows P kb b h (some ino) f) {n : Nat} (hn : 0 < f.refs → 0 < n) :
    FileShows P kb b h (some { ino with refCount := n }) { f with refs := n } :=
  hf.used (Same.refl b) rfl rfl (fun _ hgrown hpos => ⟨hgrown, hn hpos⟩) fun _ _ hs => hs.withRefs n

end Files

@[simp] theorem PlainFs.file_setFile (a : PlainFs) (h : Bytes) (f : PlainFile) :
    (a.setFile h f).file h = f := Function.update_self _ _ _

theorem PlainFs.setFile_self (a : PlainFs) (h : Bytes) : a.setFile h (a.file h) = a := by
  unfold PlainFs.setFile
  rw [Function.update_eq_self]

/-! ## Changing one file -/

section Frame

variable {P : Platform} {kb : Nat} {fs fs' : Fs} {a a' : PlainFs} {h : Bytes}

/-- The rule of the relation: the callback was about file `h`. -/
theorem Shows.move (hP : P.Lawful) (hs : Shows P kb fs a) (hi : FsInv P fs)
    (hsound : fs'.be.Sound P) (hg : fs.be.Grows P fs'.be)
    (hindex : ∀ d, d ≠ h → fs'.be.index d = fs.be.index d) (hknown : fs'.be.index h ≠ none)
    (htable : ∀ d, d ≠ h → fs'.inodeTable d = fs.inodeTable d)
    (hother : ∀ d, d ≠ h → a'.file d = a.file d)
    (hfile : FileShows P kb fs'.be h (fs'.inodeTable h) (a'.file h))
    (hkb : fs'.blockSizeInKb = kb) (hentries : fs'.root.entries = a'.entries)
    (hlast : fs'.fdCnt = a'.last) (hhandles : ∀ fh, fs'.fdTable fh = (a'.handles fh).getD [])
    (hlisted : ∀ ent ∈ a'.entries, ent ∈ a.entries ∨ ent.hashname = h)
    (hheld : ∀ fh d, a'.handles fh = some d → a.handles fh = some d ∨ d = h) : Shows P kb fs' a' := by
  have hkeeps : ∀ d, fs.be.index d ≠ none → fs'.be.index d ≠ none := by
    intro d hd
    by_cases he : d = h
    · rw [he]
      exact hknown
    · rw [hindex d he]
      exact hd
  refine ⟨hkb, hentries, hlast, hhandles, ?_, ?_, ?_⟩
  · intro ent hent
    rcases hlisted ent hent with hold | hnew
    · exact hkeeps _ (hs.listed ent hold)
    · rw [hnew]
      exact hknown
  · intro fh d hd
    rcases hheld fh d hd with hold | hnew
    · exact hkeeps d (hs.held fh d hold)
    · rw [hnew]
      exact hknown
  · intro d hd
    by_cases he : d = h
    · rw [he]
      exact hfile
    · rw [hindex d he] at hd
      rw [htable d he, hother d he]
      exact (hs.files d hd).grows hP hi.sound hsound hg (hindex d he)

/-- Only the inode of file `h` changed, and what the file shows. -/
theorem Shows.replace (hP : P.Lawful) (hs : Shows P kb fs a) (hi : FsInv P fs)
    (hbe : fs.be.Same fs'.be) {o : Option Inode} {f : PlainFile}
    (htable : fs'.inodeTable = Function.update fs.inodeTable h o)
    (hrest : fs'.root.entries = fs.root.entries ∧ fs'.fdCnt = fs.fdCnt ∧ fs'.fdTable = fs.fdTable ∧
      fs'.blockSizeInKb = fs.blockSizeInKb)
    (hknown : fs.be.index h ≠ none) (hfile : FileShows P kb fs'.be h o f) :
    Shows P kb fs' (a.setFile h f) := by
  obtain ⟨hentries, hlast, hhandles, hkb⟩ := hrest
  refine hs.move hP hi (hi.sound.same hbe) hbe.grows (h := h) ?_ ?_ ?_ ?_ ?_ (hkb.trans hs.blockSizeInKb)
    (hentries.trans hs.entries) (hlast.trans hs.last) ?_ (fun _ hent => Or.inl hent)
    (fun _ _ hd => Or.inl hd)
  · intro d _
    rw [hbe.index]
  · rw [hbe.index]
    exact hknown
  · intro d hd
    rw [htable, Function.update_of_ne hd]
  · intro d hd
    exact Function.update_of_ne hd _ _
  · rw [htable, Function.update_self, PlainFs.file_setFile]
    exact hfile
  · intro fh
    rw [hhandles]
    exact hs.handles fh

theorem Shows.keeps (hP : P.Lawful) (hs : Shows P kb fs a) (hi : FsInv P fs) (hk : fs.Keeps fs') :
    Shows P kb fs' a := by
  refine ⟨hk.blockSizeInKb.trans hs.blockSizeInKb, hk.entries.trans hs.entries, hk.fdCnt.trans hs.last,
    ?_, ?_, ?_, ?_⟩
  · intro fh
    rw [hk.fdTable]
    exact hs.handles fh
  · intro ent hent
    rw [hk.be.index]
    exact hs.listed ent hent
  · intro fh d hd
    rw [hk.be.index]
    exact hs.held fh d hd
  · intro d hd
    rw [hk.be.index] at hd
    rw [hk.inodeTable]
    exact (hs.files d hd).grows hP hi.sound (hi.sound.same hk.be) hk.be.grows (by rw [hk.be.index])

theorem Shows.find (hs : Shows P kb fs a) (path : Bytes) :
    (fs.root.entries.find? fun ent => path.tail = ent.filename).map (·.hashname) = a.find path := by
  rw [hs.entries]
  rfl

theorem Shows.known_of_find (hs : Shows P kb fs a) {path : Bytes} (hfind : a.find path = some h) :
    fs.be.index h ≠ none := by
  unfold PlainFs.find at hfind
  rw [Option.map_eq_some_iff] at hfind
  obtain ⟨ent, hent, rfl⟩ := hfind
  exact hs.listed ent (List.mem_of_find?_eq_some hent)

/-- No file has the empty name. -/
theorem FsInv.index_nil (hP : P.Lawful) (hi : FsInv P fs) : fs.be.index [] = none := by
  cases hn : fs.be.index [] with
  | none => rfl
  | some n =>
      obtain ⟨hist, hstate⟩ := hi.files [] n hn
      have hlen := hstate.linked.length_name hP
      cases hlen

end Frame

/-! ## Finding the inode -/

section Resolve

variable {P : Platform} {kb : Nat} {fs : Fs} {a : PlainFs} {h : Bytes}

/-- In a calm world `ReadFileMeta` returns no error code for a file: it returns, or the assertion ends
the process. -/
theorem wp_readFileMeta_calm (hP : P.Lawful) {b : Backend} {hist : List Commit} (hb : b.Sound P)
    (hcalm : b.Calm) (hf : FileState P b h hist) :
    wp (StorageBackend.readFileMeta P h)
      (fun m b' => b.Same b' ∧ b'.Calm ∧ ∃ c cs, hist = c :: cs ∧ m = c.fileMeta P)
      (fun x _ => ∃ k, x = .abort k) b := by
  have hspec := wp_readFileMeta hP hb hf.index hf.linked
  cases hist with
  | cons c cs =>
      refine wp_mono hspec (fun _ _ hr => ⟨hr.1, hr.2.1 hcalm, hr.2.2⟩) ?_
      rintro x b' ⟨-, hcause⟩
      exact absurd hcalm (hcause c cs rfl (hf.keys c (by simp)))
  | nil =>
      have hdies : wp (StorageBackend.readFileMeta P h) (fun _ _ => True)
          (fun x _ => ∃ k, x = .abort k) b := by
        simp only [StorageBackend.readFileMeta, wp_bind, wp_attempt]
        refine wp_mono (wp_fallible_calm hcalm _) ?_ (fun _ _ hno => hno.elim)
        rintro _ b₁ ⟨hs, hcalm₁⟩
        have hindex : b₁.index h = some [] := by
          rw [hs.index]
          exact hf.index
        rw [wp_getInodeName_signed hP hindex]
        refine wp_mono (wp_readRecord h [] _) ?_ ?_
        · rintro _ b₂ ⟨-, -, slot, hslot, -⟩
          rw [hs.store, hb.noEmpty] at hslot
          cases hslot
        · intro x b₂ _
          cases x with
          | abort k => exact ⟨k, rfl⟩
          | err e =>
              -- the buffer is empty, and so is what is parsed from it
              have hparse : (P.parse ((Except.error e : Except ErrT Bytes).toOption.getD
                  [])).header.prevhash = [] := by
                rw [Except.toOption, Option.getD_none, hP.parse_nil]
              simp only [wp_check, hparse]
              exact ⟨fun hno => absurd hno (by decide), fun _ => ⟨_, rfl⟩⟩
      refine wp_mono (wp_and hspec hdies) ?_ (fun _ _ hx => hx.2)
      rintro m b' ⟨⟨-, -, c, cs, hnil, -⟩, -⟩
      cases hnil

/-- `get_inode` on a file of the mount. -/
theorem Shows.wp_getInode (hP : P.Lawful) (hs : Shows P kb fs a) (hi : FsInv P fs)
    (hcalm : fs.be.Calm) (hknown : fs.be.index h ≠ none) :
    wp (Fs.getInode P h)
      (fun out fs' => out = some h ∧ fs'.be.Calm ∧ FsInv P fs' ∧ Shows P kb fs' a ∧
        fs'.be.index h ≠ none ∧ ∃ ino, fs'.inodeTable h = some ino)
      (fun _ _ => True) fs := by
  simp only [Fs.getInode, wp_bind, wp_get]
  cases hino : fs.inodeTable h with
  | some ino => exact ⟨rfl, hcalm, hi, hs, hknown, ino, hino⟩
  | none =>
      simp only [wp_bind, wp_attempt, wp_onStorage]
      obtain ⟨n, hn⟩ := Option.ne_none_iff_exists'.mp hknown
      have hfile := hs.files h hknown
      rw [hino] at hfile
      obtain ⟨hist, hstate, hfresh, hstored⟩ := hfile.exists_history (hi.files h n hn)
      refine wp_mono (wp_and (wp_run _ _) (wp_readFileMeta_calm hP hi.sound hcalm hstate)) ?_ ?_
      · rintro m b ⟨hread, hsame, hcalm', c, cs, rfl, rfl⟩
        have hmade : Inode.load h (c.fileMeta P).recordname (c.fileMeta P).blockmapHash
            fs.blockSizeInKb blockmapCover (c.fileMeta P).isize (c.fileMeta P).aesKey =
              c.loaded P kb h := by
          rw [hs.blockSizeInKb]
          rfl
        simp only [Exec.wp_modify, wp_pure, hmade]
        have hload : fs.Loads P h (c.loaded P kb h)
            ({ fs with be := b }.putInode h (c.loaded P kb h)) :=
          .loaded (c.fileMeta P) b fs.root rfl hino hread hsame hmade.symm rfl
        have hshown : FileShows P kb b h (some (c.loaded P kb h)) (a.file h) := by
          cases hstage : (a.file h).stage with
          | wild => exact .of_wild hstage hfile.refs
          | fresh => cases hfresh hstage
          | stored =>
              obtain ⟨c', hhist, hshow⟩ := hstored hstage
              cases hhist
              have hstate' := hstate.grows (hsame.grows (P := P)) (by rw [hsame.index])
              have hmade₁ : MadeAs P kb b h (a.file h).stage (c.loaded P kb h) := by
                rw [hstage]
                exact ⟨c, hstate', rfl⟩
              refine .of_open hmade₁ (hshow.same hsame) ?_
              rw [hstage]
              intro hno
              cases hno
        have hrep : Shows P kb ({ fs with be := b }.putInode h (c.loaded P kb h))
            (a.setFile h (a.file h)) :=
          hs.replace hP hi hsame rfl ⟨rfl, rfl, rfl, rfl⟩ hknown hshown
        rw [PlainFs.setFile_self] at hrep
        refine ⟨trivial, hcalm', hi.loads hP hload, hrep, ?_, _, hload.found⟩
        rw [← hsame.index] at hknown
        exact hknown
      · rintro x b ⟨-, k, rfl⟩
        trivial

/-- A request for a handle or a path finds the file that the plain file system has for it. The case of
an unknown path, where the caller's variable keeps its initial value, has to satisfy `C`. -/
theorem Shows.wp_resolve (hP : P.Lawful) (hs : Shows P kb fs a) (hi : FsInv P fs)
    (hcalm : fs.be.Calm) (path : Bytes) (fh : Nat) {initial : FsM (Option Bytes)} {C : Prop}
    (hinit : ∀ fs₀, wp initial (fun out fs' => out = none ∧ fs' = fs₀ ∧ C) (fun _ _ => True) fs₀) :
    wp (Fs.resolve P path fh initial)
      (fun out fs' => FsInv P fs' ∧ Shows P kb fs' a ∧
        ((out = none ∧ a.target path fh = none ∧ (0 < fh ∨ C)) ∨ ∃ h ino, out = some h ∧
          a.target path fh = some h ∧ fs'.be.Calm ∧ fs'.be.index h ≠ none ∧
          fs'.inodeTable h = some ino))
      (fun _ _ => True) fs := by
  simp only [Fs.resolve, wp_ite, wp_bind, wp_check, wp_get]
  refine ⟨fun hpos => ⟨fun _ => ?_, fun _ => trivial⟩, fun hzero => ?_⟩
  · have htarget : a.target path fh = a.handles fh := if_pos hpos
    rw [htarget]
    have hentry := hs.handles fh
    cases hhandle : a.handles fh with
    | some h =>
        rw [hhandle, Option.getD_some] at hentry
        rw [hentry]
        refine wp_mono (hs.wp_getInode hP hi hcalm (hs.held fh h hhandle)) ?_ (fun _ _ _ => trivial)
        rintro out fs' ⟨hout, hcalm', hi', hs', hknown, ino, hino⟩
        exact ⟨hi', hs', Or.inr ⟨h, ino, hout, rfl, hcalm', hknown, hino⟩⟩
    | none =>
        rw [hhandle, Option.getD_none] at hentry
        rw [hentry]
        have hindex := hi.index_nil hP
        have hnone : fs.inodeTable [] = none := by
          cases hino : fs.inodeTable [] with
          | none => rfl
          | some ino =>
              obtain ⟨hist, hsnap⟩ := hi.inodes [] ino hino
              have hknown := hsnap.state.index
              rw [hindex] at hknown
              cases hknown
        refine wp_mono (wp_and (DcfsClient.wp_getInode (P := P) []) (wp_run _ _)) ?_
          (fun _ _ _ => trivial)
        rintro out fs' ⟨⟨hout, -, hkeep⟩ | ⟨-, ino, hload⟩, -⟩
        · exact ⟨hi.keeps hkeep, hs.keeps hP hi hkeep, Or.inl ⟨hout, rfl, Or.inl hpos⟩⟩
        · -- an empty name cannot be loaded
          cases hload with
          | cached _ hino =>
              rw [hnone] at hino
              cases hino
          | loaded m b root _ _ hread _ _ _ => exact absurd hindex (index_of_readFileMeta hread)
  · have htarget : a.target path fh = a.find path := if_neg hzero
    rw [htarget]
    apply wp_lookup
    intro fs₀ hlook
    have hkeep := hlook.keeps
    have hs₀ := hs.keeps hP hi hkeep
    have hi₀ := hi.keeps hkeep
    have hcalm₀ : fs₀.be.Calm := by
      obtain ⟨root, -, rfl⟩ := hlook
      exact hcalm
    have hfind := hs.find path
    cases hent : fs.root.entries.find? (fun ent => path.tail = ent.filename) with
    | none =>
        rw [hent] at hfind
        refine wp_mono (hinit fs₀) ?_ (fun _ _ _ => trivial)
        rintro out fs' ⟨hout, rfl, hC⟩
        exact ⟨hi₀, hs₀, Or.inl ⟨hout, hfind.symm, Or.inr hC⟩⟩
    | some ent =>
        rw [hent] at hfind
        refine wp_mono (hs₀.wp_getInode hP hi₀ hcalm₀ (hs₀.known_of_find hfind.symm)) ?_
          (fun _ _ _ => trivial)
        rintro out fs' ⟨hout, hcalm', hi', hs', hknown, ino, hino⟩
        exact ⟨hi', hs', Or.inr ⟨_, ino, hout, hfind.symm, hcalm', hknown, hino⟩⟩

end Resolve

/-! ## The callbacks -/

def Answers (P : Platform) (kb : Nat) (a : PlainFs) (cb : Callback) (reply : Reply) (fs' : Fs) : Prop :=
  P.CollisionFree fs'.be.hashed → ProperNames P fs'.be →
    ∃ a', PlainFs.Serves (kb * 1024) a cb reply a' ∧ Shows P kb fs' a'

section Callbacks

variable {P : Platform} {kb : Nat} {fs : Fs} {a a₀ : PlainFs} {h : Bytes} {ino : Inode} {f : PlainFile}
  {b : Backend}

theorem FileShows.exists_view (hf : FileShows P kb b h (some ino) f) (hwild : f.stage ≠ .wild) :
    ∃ ino₀, MadeAs P kb b h f.stage ino₀ ∧ InodeShows P ino₀ b ino f ∧ ino.blockSize = kb * 1024 := by
  obtain ⟨ino₀, hmade, hopen, -⟩ := hf.view hwild
  have hshow := hopen ino rfl
  exact ⟨ino₀, hmade, hshow, hshow.file.blockSize.trans hmade.blockSize⟩

theorem Shows.file (hs : Shows P kb fs a) (hknown : fs.be.index h ≠ none)
    (hino : fs.inodeTable h = some ino) : FileShows P kb fs.be h (some ino) (a.file h) := by
  have hfile := hs.files h hknown
  rwa [hino] at hfile

theorem Shows.wp_dcfsGetattr (hP : P.Lawful) (hs : Shows P kb fs a) (hi : FsInv P fs)
    (hcalm : fs.be.Calm) (path : Bytes) :
    wp (Fs.dcfsGetattr P path) (Answers P kb a (.getattr path)) (fun _ _ => True) fs := by
  simp only [Fs.dcfsGetattr, wp_ite, wp_pure, wp_bind]
  constructor
  · rintro rfl _ _
    exact ⟨a, .getattrRoot, hs⟩
  · intro hroot
    apply wp_lookup
    intro fs₀ hlook
    have hs₀ := hs.keeps hP hi hlook.keeps
    have hcalm₀ : fs₀.be.Calm := by
      obtain ⟨root, -, rfl⟩ := hlook
      exact hcalm
    have hfind := hs.find path
    cases hent : fs.root.entries.find? (fun ent => path.tail = ent.filename) with
    | none =>
        rw [hent] at hfind
        intro _ _
        exact ⟨a, .getattrMissing hroot hfind.symm, hs₀⟩
    | some ent =>
        rw [hent] at hfind
        simp only [wp_bind, wp_get, wp_orAbort, wp_pure]
        refine wp_mono (hs₀.wp_getInode hP (hi.keeps hlook.keeps) hcalm₀
          (hs₀.known_of_find hfind.symm)) ?_ (fun _ _ _ => trivial)
        rintro out fs₁ ⟨rfl, -, -, hs₁, hknown, ino, hino⟩
        refine ⟨?_, fun hno => by cases hno⟩
        intro h hh
        rw [Option.some.injEq] at hh
        subst hh
        rw [hino]
        refine ⟨?_, fun hno => by cases hno⟩
        intro ino' hino' _ _
        rw [Option.some.injEq] at hino'
        subst hino'
        have hfile := hs₁.file hknown hino
        refine ⟨a, .getattr hroot hfind.symm hfile.live ?_, hs₁⟩
        intro hwild
        obtain ⟨ino₀, -, hshow, -⟩ := hfile.exists_view hwild
        exact hshow.size

/-- The listing loop goes through the entries behind the iterator. -/
theorem Directory.listLoop_eq {d : Directory} (fuel : Nat) (h : d.it ≤ d.entries.length)
    (hfuel : d.entries.length < d.it + fuel) :
    (d.listLoop fuel).1 = (d.entries.drop d.it).map (·.filename) := by
  induction fuel generalizing d with
  | zero => omega
  | succ fuel ih =>
      rw [Directory.listLoop]
      by_cases hend : d.it = d.entries.length
      · have hread : d.readdir = (none, { d with it := 0 }) := by rw [Directory.readdir, if_pos hend]
        simp [hread, hend]
      · have hlt : d.it < d.entries.length := by omega
        have hread : d.readdir = (some d.entries[d.it], { d with it := d.it + 1 }) := by
          rw [Directory.readdir, if_neg hend, List.getElem?_eq_getElem hlt]
        have hrest := @ih { d with it := d.it + 1 } (by dsimp only; omega) (by dsimp only; omega)
        rw [hread, List.drop_eq_getElem_cons hlt, List.map_cons]
        dsimp only
        rw [hrest]

theorem Shows.wp_dcfsReaddir (hP : P.Lawful) (hs : Shows P kb fs a) (hi : FsInv P fs) (path : Bytes) :
    wp (Fs.dcfsReaddir path) (Answers P kb a (.readdir path)) (fun _ _ => True) fs := by
  simp only [Fs.dcfsReaddir, wp_ite, wp_pure, wp_modifyGet]
  constructor
  · intro hroot _ _
    exact ⟨a, .readdirMissing hroot, hs⟩
  · intro hroot _ _
    rw [not_not.mp hroot]
    have hkeep : fs.Keeps { fs with
        root := (fs.root.initReaddir.listLoop (fs.root.entries.length + 1)).2 } :=
      ⟨Same.refl _, rfl, Directory.entries_listLoop _, rfl, rfl, rfl⟩
    refine ⟨a, ?_, hs.keeps hP hi hkeep⟩
    have hnames := Directory.listLoop_eq (d := fs.root.initReaddir)
      (fs.root.entries.length + 1) (Nat.zero_le _) (by simp [Directory.initReaddir])
    have hlisted : (fs.root.initReaddir.listLoop (fs.root.entries.length + 1)).1 =
        a.entries.map (·.filename) := by
      rw [hnames, ← hs.entries]
      rfl
    rw [hlisted]
    exact .readdir

/-- The inode of the file was used, and shows the file `f` now. -/
theorem Shows.putInode (hP : P.Lawful) (hs : Shows P kb fs a) (hi : FsInv P fs)
    (hknown : fs.be.index h ≠ none) {s : Session} (hbe : fs.be.Same s.be)
    (hfile : FileShows P kb s.be h (some s.ino) f) :
    Shows P kb ({ fs with be := s.be }.putInode h s.ino) (a.setFile h f) :=
  hs.replace hP hi hbe rfl ⟨rfl, rfl, rfl, rfl⟩ hknown hfile

theorem Shows.wp_dcfsRead (hP : P.Lawful) (hkb : 0 < kb) (hs : Shows P kb fs a) (hi : FsInv P fs)
    (hcalm : fs.be.Calm) (path : Bytes) (fh : Nat) (buf : Mem) {size offset : Nat}
    (hsum : offset + size < 2 ^ 64) :
    wp (Fs.dcfsRead P path fh buf size offset) (Answers P kb a (.read path fh buf size offset))
      (fun _ _ => True) fs := by
  simp only [Fs.dcfsRead, wp_bind]
  refine wp_mono (hs.wp_resolve hP hi hcalm path fh (C := False) (fun _ => trivial)) ?_
    (fun _ _ _ => trivial)
  rintro out fs₁ ⟨hi₁, hs₁, ⟨rfl, hnone, hpos⟩ | ⟨h, ino, rfl, htarget, hcalm₁, hknown, hino⟩⟩
  · intro _ _
    exact ⟨a, .readMissing (hpos.resolve_right id) hnone, hs₁⟩
  have hfile := hs₁.file hknown hino
  simp only [wp_bind, wp_get, hino, wp_orAbort, wp_ite, wp_pure, wp_attempt]
  refine ⟨?_, fun hno => by cases hno⟩
  intro ino' hino'
  rw [Option.some.injEq] at hino'
  subst hino'
  rw [wp_onSession hino]
  by_cases hwild : (a.file h).stage = .wild
  · -- nothing is promised, but the other files are as before
    have hafter : ∀ s : Session, Session.Fills ⟨ino, fs₁.be⟩ s →
        Shows P kb ({ fs₁ with be := s.be }.putInode h s.ino) a := by
      intro s hfills
      have hput := hs₁.putInode hP hi₁ hknown hfills.be
        (.of_wild hwild (hfile.refs.trans hfills.file.refCount.symm))
      rwa [PlainFs.setFile_self] at hput
    refine ⟨fun _ => ?_, fun _ _ _ => ⟨a, .readWild _ htarget hwild, hs₁⟩⟩
    apply wp_mono (read_fills buf offset _ ⟨ino, fs₁.be⟩)
    · intro out s hfills _ _
      exact ⟨a, .readWild _ htarget hwild, hafter s hfills⟩
    · intro x s hfills
      cases x with
      | err e =>
          intro _ _
          exact ⟨a, .readWild _ htarget hwild, hafter s hfills⟩
      | abort k => trivial
  · obtain ⟨ino₀, hmade, hshow, hbs⟩ := hfile.exists_view hwild
    rw [hshow.size]
    refine ⟨fun hin => ?_, fun hend _ _ =>
      ⟨a, .readEnd htarget hfile.live (not_lt.mp hend), hs₁⟩⟩
    have hmin : (if (a.file h).size < u64 (offset + size) then (a.file h).size - offset else size) =
        min size ((a.file h).size - offset) := by
      rw [u64_of_lt hsum]
      split <;> omega
    rw [hmin]
    refine wp_mono (hshow.wp_read hcalm₁ (by omega) buf hin (by omega)) ?_ ?_
    · rintro ⟨out, readSize⟩ s ⟨hshow', hsame, hsession, hpos, hbytes⟩ _ _
      have hfile' : FileShows P kb s.be h (some s.ino) (a.file h) :=
        .of_open (hmade.grows (hsame.grows (P := P)) (by rw [hsame.index])) hshow'
          fun hfresh => ⟨(hfile.fresh hfresh).1, (hfile.fresh hfresh).2 (by simp)⟩
      have hput := hs₁.putInode hP hi₁ hknown hsame hfile'
      rw [PlainFs.setFile_self] at hput
      refine ⟨a, .read (by omega) htarget hfile.live hin ?_, hput⟩
      intro i hlt
      exact hbytes i (by omega)
    · rintro x s ⟨k, rfl⟩
      trivial

theorem Shows.wp_dcfsWrite (hP : P.Lawful) (hkb : 0 < kb) (hs : Shows P kb fs a) (hi : FsInv P fs)
    (hcalm : fs.be.Calm) (path : Bytes) (fh : Nat) (buf : Mem) {size offset : Nat}
    (hsum : offset + size < 2 ^ 64) :
    wp (Fs.dcfsWrite P path fh buf size offset) (Answers P kb a (.write path fh buf size offset))
      (fun _ _ => True) fs := by
  simp only [Fs.dcfsWrite, wp_bind]
  refine wp_mono (hs.wp_resolve hP hi hcalm path fh (C := True) (fun _ => ⟨rfl, rfl, trivial⟩)) ?_
    (fun _ _ _ => trivial)
  rintro out fs₁ ⟨hi₁, hs₁, ⟨rfl, hnone, -⟩ | ⟨h, ino, rfl, htarget, hcalm₁, hknown, hino⟩⟩
  · intro _ _
    exact ⟨a, .writeMissing hnone, hs₁⟩
  have hfile := hs₁.file hknown hino
  simp only [wp_bind, wp_attempt]
  rw [wp_onSession hino]
  by_cases hwild : (a.file h).stage = .wild
  · have hafter : ∀ s : Session, Session.Writes ⟨ino, fs₁.be⟩ s →
        Shows P kb ({ fs₁ with be := s.be }.putInode h s.ino) a := by
      intro s hwrites
      have hput := hs₁.putInode hP hi₁ hknown hwrites.be
        (.of_wild hwild (hfile.refs.trans hwrites.file.refCount.symm))
      rwa [PlainFs.setFile_self] at hput
    apply wp_mono (write_writes buf offset size ⟨ino, fs₁.be⟩)
    · intro n s hwrites _ _
      exact ⟨a, .writeWild _ htarget hwild, hafter s hwrites⟩
    · intro x s hwrites
      cases x with
      | err e =>
          intro _ _
          exact ⟨a, .writeWild _ htarget hwild, hafter s hwrites⟩
      | abort k => trivial
  · obtain ⟨ino₀, hmade, hshow, hbs⟩ := hfile.exists_view hwild
    refine wp_mono (hshow.wp_write hcalm₁ (by omega) buf hsum) ?_ ?_
    · rintro n s ⟨hshow', hsame, hsession, hpos⟩ _ _
      rw [hbs] at hshow'
      have hfile' : FileShows P kb s.be h (some s.ino)
          ((a.file h).write (kb * 1024) buf size offset) := by
        refine .of_open (hmade.grows (hsame.grows (P := P)) (by rw [hsame.index])) hshow' ?_
        intro hfresh
        obtain ⟨hgrown, hrefs⟩ := hfile.fresh hfresh
        exact ⟨hgrown.write (by omega) buf size offset, hrefs (by simp)⟩
      exact ⟨_, .write hpos htarget hfile.live, hs₁.putInode hP hi₁ hknown hsame hfile'⟩
    · rintro x s ⟨k, rfl⟩
      trivial

theorem Shows.addHandle (hs : Shows P kb fs a) (hknown : fs.be.index h ≠ none) :
    Shows P kb { fs with
      fdCnt := fs.fdCnt + 1
      fdTable := Function.update fs.fdTable (fs.fdCnt + 1) h } (a.addHandle h) := by
  refine ⟨hs.blockSizeInKb, hs.entries, congrArg (· + 1) hs.last, ?_, hs.listed, ?_, hs.files⟩
  · intro fh
    dsimp only [PlainFs.addHandle]
    rw [hs.last]
    by_cases he : fh = a.last + 1
    · rw [he, Function.update_self, Function.update_self]
      rfl
    · rw [Function.update_of_ne he, Function.update_of_ne he]
      exact hs.handles fh
  · intro fh d hd
    dsimp only [PlainFs.addHandle] at hd
    by_cases he : fh = a.last + 1
    · rw [he, Function.update_self, Option.some.injEq] at hd
      rw [← hd]
      exact hknown
    · rw [Function.update_of_ne he] at hd
      exact hs.held fh d hd

/-- The last step of a create and of an open. -/
theorem Shows.wp_newHandle (hs : Shows P kb fs a) (hknown : fs.be.index h ≠ none) {cb : Callback}
    (hserves : a.last + 1 < fdTableMax →
      PlainFs.Serves (kb * 1024) a₀ cb (.handle (a.last + 1)) (a.addHandle h)) :
    wp (Fs.newHandle h) (fun fd => Answers P kb a₀ cb (.handle fd)) (fun _ _ => True) fs := by
  refine wp_mono (DcfsClient.wp_newHandle h (Q := fun fd => Answers P kb a₀ cb (.handle fd)) ?_)
    (fun _ _ hq => hq) (fun _ _ _ => trivial)
  intro hlt _ _
  rw [hs.last] at hlt
  refine ⟨a.addHandle h, ?_, hs.addHandle hknown⟩
  rw [hs.last]
  exact hserves hlt

theorem Shows.wp_dcfsOpen (hP : P.Lawful) (hs : Shows P kb fs a) (hi : FsInv P fs)
    (hcalm : fs.be.Calm) (path : Bytes) :
    wp (Fs.dcfsOpen P path) (Answers P kb a (.open path)) (fun _ _ => True) fs := by
  simp only [Fs.dcfsOpen, wp_bind]
  apply wp_lookup
  intro fs₀ hlook
  have hs₀ := hs.keeps hP hi hlook.keeps
  have hcalm₀ : fs₀.be.Calm := by
    obtain ⟨root, -, rfl⟩ := hlook
    exact hcalm
  have hfind := hs.find path
  cases hent : fs.root.entries.find? (fun ent => path.tail = ent.filename) with
  | none =>
      rw [hent] at hfind
      intro _ _
      exact ⟨a, .openMissing hfind.symm, hs₀⟩
  | some ent =>
      rw [hent] at hfind
      simp only [wp_bind]
      refine wp_mono (hs₀.wp_getInode hP (hi.keeps hlook.keeps) hcalm₀
        (hs₀.known_of_find hfind.symm)) ?_ (fun _ _ _ => trivial)
      rintro out fs₁ ⟨rfl, -, hi₁, hs₁, hknown, ino, hino⟩
      have hfile := hs₁.file hknown hino
      have hrefs : (a.file ent.hashname).refs = ino.refCount := hfile.refs
      simp only [wp_bind, wp_pure]
      rw [wp_onSession hino, wp_onInode]
      have hput := hs₁.putInode (s := ⟨ino.ref, fs₁.be⟩) hP hi₁ hknown (Same.refl fs₁.be)
        (hfile.withRefs (n := ino.refCount + 1) (fun _ => Nat.succ_pos _))
      rw [← hrefs] at hput
      exact hput.wp_newHandle hknown fun hlt => .open hfind.symm hfile.live hlt

/-- The mount after the middleware has made the file `h`, before it gets a handle. -/
theorem Shows.created (hP : P.Lawful) (hkb : 0 < kb) (hs : Shows P kb fs a) (hi : FsInv P fs)
    (path : Bytes) (hsound : b.Sound P) (hgrow : fs.be.Grows P b)
    (hindex : b.index = Function.update fs.be.index h (some [])) (hstate : FileState P b h [])
    (key : Bytes) :
    Shows P kb { fs with
        be := b
        inodeTable := Function.update (Function.update fs.inodeTable h
          (some (Inode.fresh h fs.blockSizeInKb blockmapCover key))) h
            (some (Inode.fresh h fs.blockSizeInKb blockmapCover key).ref)
        root := fs.root.addent ⟨path.tail, h⟩ }
      { a with entries := a.entries ++ [⟨path.tail, h⟩], file := Function.update a.file h {} } := by
  refine hs.move hP hi hsound hgrow (h := h) ?_ ?_ ?_ ?_ ?_ hs.blockSizeInKb ?_ hs.last hs.handles ?_
    (fun _ _ hd => Or.inl hd)
  · intro d hd
    dsimp only
    rw [hindex, Function.update_of_ne hd]
  · dsimp only
    rw [hindex, Function.update_self]
    exact Option.some_ne_none _
  · intro d hd
    dsimp only
    rw [Function.update_of_ne hd, Function.update_of_ne hd]
  · intro d hd
    exact Function.update_of_ne hd _ _
  · dsimp only
    rw [Function.update_self, Function.update_self, hs.blockSizeInKb]
    have hmade : MadeAs P kb b h .fresh (.fresh h kb blockmapCover key) := ⟨hstate, key, rfl⟩
    refine .of_open hmade (inodeShows_fresh hkb h key b) ?_
    intro _
    exact ⟨PlainFile.grown_default _, Nat.zero_lt_one⟩
  · dsimp only [Directory.addent]
    rw [hs.entries]
  · intro ent hent
    rcases List.mem_append.mp hent with hold | hnew
    · exact Or.inl hold
    · rw [List.mem_singleton.mp hnew]
      exact Or.inr rfl

theorem createNew_steady (P : Platform) : Steady (DCFSMidSim.createNew P) := by
  refine .bind (composeRecord_steady P _ _ _) fun _ => .bind (.writeRecord _ _ _) fun _ => ?_
  exact .bind (fun _ hcalm => hcalm) fun _ => .bind (fun _ hcalm => hcalm) fun _ => .pure _

theorem Shows.wp_dcfsCreate (hP : P.Lawful) (hkb : 0 < kb) (hs : Shows P kb fs a) (hi : FsInv P fs)
    (hcalm : fs.be.Calm) (path : Bytes) :
    wp (Fs.dcfsCreate P path) (Answers P kb a (.create path)) (fun _ _ => True) fs := by
  simp only [Fs.dcfsCreate, wp_bind]
  apply wp_lookup
  intro fs₀ hlook
  have hs₀ := hs.keeps hP hi hlook.keeps
  have hi₀ := hi.keeps hlook.keeps
  have hcalm₀ : fs₀.be.Calm := by
    obtain ⟨root, -, rfl⟩ := hlook
    exact hcalm
  have hfind := hs.find path
  cases hent : fs.root.entries.find? (fun ent => path.tail = ent.filename) with
  | some ent =>
      rw [hent] at hfind
      intro _ _
      exact ⟨a, .createExisting hfind.symm, hs₀⟩
  | none =>
      rw [hent] at hfind
      simp only [Fs.allocateInode, StorageBackend.createNewFile, wp_bind, wp_attempt, wp_onStorage]
      refine wp_mono (wp_and (wp_createNew_sound hP hi₀.sound)
        (createNew_steady P fs₀.be hcalm₀)) ?_ ?_
      · rintro ⟨h, key⟩ b ⟨⟨hout, hindex, hafter⟩, -⟩
        rw [Prod.mk.injEq] at hout
        obtain ⟨hh, -⟩ := hout
        rw [← hh] at hindex hafter
        simp only [wp_bind, Exec.wp_modify, wp_pure]
        rw [wp_onSession (Function.update_self _ _ _)]
        simp only [wp_onInode]
        refine wp_mono (DcfsClient.wp_newHandle h (Q := fun fd => Answers P kb a (.create path)
          (.handle fd)) ?_) (fun _ _ hq => hq) (fun _ _ _ => trivial)
        intro hlt hfree _
        obtain ⟨hsound, hgrow, hholds⟩ := hafter hfree
        have hstate : FileState P b h [] :=
          ⟨by rw [hindex, Function.update_self]; rfl, ⟨_, hh.symm, hholds⟩, by simp⟩
        have hknown : b.index h ≠ none := by
          rw [hindex, Function.update_self]
          exact Option.some_ne_none _
        have hcreated := hs₀.created hP hkb hi₀ path hsound hgrow hindex hstate key
        dsimp only at hlt
        rw [hs₀.last] at hlt
        refine ⟨a.addFile path.tail h, ?_, ?_⟩
        · dsimp only
          rw [hs₀.last]
          exact .create hfind.symm hlt h
        · exact hcreated.addHandle hknown
      · rintro x b ⟨-, k, rfl⟩
        trivial

/-! ### The last close -/

theorem PlainFile.refs_close (f : PlainFile) : f.close.refs = 0 := by
  unfold PlainFile.close
  split
  · rfl
  · split <;> rfl

theorem PlainFile.close_wild (hwild : f.stage = .wild) : f.close.stage = .wild := by
  unfold PlainFile.close
  split
  · exact hwild
  · rw [if_neg (fun hno => by rw [hwild] at hno; cases hno.1)]

theorem InodeShows.sendsNothing {ino₀ : Inode} (hshow : InodeShows P ino₀ b ino f)
    (hclean : f.dirty = ∅) : ino.SendsNothing := by
  left
  rw [Inode.dirtyCount_eq_zero_iff]
  intro blk
  rw [Bool.eq_false_iff, ne_eq, hshow.dirty, hclean]
  exact Finset.notMem_empty blk

/-- Nothing was changed since the file was loaded: the close keeps what it is made from. -/
theorem FileShows.close_clean (hf : FileShows P kb b h (some ino) f)
    (hwild : f.stage ≠ .wild) (hclean : f.dirty = ∅) {b' : Backend} (hs : b.Same b') :
    FileShows P kb b' h none f.close := by
  have hclose : f.close = { f with refs := 0 } := if_pos hclean
  rw [hclose]
  obtain ⟨ino₀, hmade, hshow, -⟩ := hf.exists_view hwild
  refine ⟨rfl, fun _ => ⟨ino₀, hmade.grows (hs.grows (P := P)) (by rw [hs.index]),
    fun _ hno => (by cases hno), ?_⟩, fun hfresh => ⟨(hf.fresh hfresh).1, fun hno => absurd rfl hno⟩⟩
  intro hstored _
  change f.stage = .stored at hstored
  rw [hstored] at hmade
  obtain ⟨c, -, hino⟩ := hmade
  exact (hshow.same hs).unchanged_load hino hclean

/-- The first commit of a file: it is on the store, unless it has too many blocks. -/
theorem FileShows.close_first (hP : P.Lawful) (hkb : 0 < kb) (hkb' : kb * 1024 < 2 ^ 31)
    (hf : FileShows P kb b h (some ino) f) (hfresh : f.stage = .fresh) (hdirty : f.dirty ≠ ∅) (hkey : ino.aesKey.length = aesKeyLen)
    {c : Commit} {b' : Backend} (hb' : b'.Sound P) (hproper : ProperNames P b')
    (hdescs : c.descs = ino.dirtyDescs P) (hckey : c.key = (workingInode P ino.aesKey []).key)
    (hstate : FileState P b' h [c]) : FileShows P kb b' h none f.close := by
  by_cases hroom : f.dirty.card ≤ blockmapCover
  · have hclose : f.close = { f with
        size := f.dirty.card * midBlockSize, dirty := ∅, refs := 0, stage := .stored } := by
      unfold PlainFile.close
      rw [if_neg hdirty, if_pos ⟨hfresh, hroom⟩]
    rw [hclose]
    obtain ⟨ino₀, -, hshow, hbs⟩ := hf.exists_view (by rw [hfresh]; decide)
    obtain ⟨n, hn, -, hzero⟩ := (hf.fresh hfresh).1
    have hcard : f.dirty.card = n := by rw [hn, Finset.card_range]
    rw [hcard] at hroom ⊢
    have hflags : ∀ blk, ino.isDirty blk = decide (blk < n) := by
      intro blk
      have hflag := hshow.dirty blk
      rw [hn, Finset.mem_range] at hflag
      by_cases hlt : blk < n
      · rw [hflag.mpr hlt, decide_eq_true hlt]
      · rw [decide_eq_false hlt, ← Bool.not_eq_true, hflag]
        exact hlt
    rw [Inode.dirtyDescs_of_first P ino hflags] at hdescs
    have hckey' : c.key = ino.aesKey := by
      rw [hckey]
      exact List.take_of_length_le (le_of_eq hkey)
    have hcount : c.descs.length = n := by rw [hdescs, List.length_map, List.length_range]
    have hcommitted : n * midBlockSize = committedSize c.descs := by
      rw [← hcount, committedSize_eq (lt_of_le_of_lt (hcount.trans_le hroom) (by decide))]
    have hbytes := loaded_bytes hP hb' hproper hstate.linked hkb hkb' hshow hbs hn hzero hdescs hckey'
      hroom
    refine ⟨rfl, fun _ => ⟨c.loaded P kb h, ⟨c, hstate, rfl⟩, fun _ hno => (by cases hno), ?_⟩,
      fun hno => by cases hno⟩
    intro _ _
    exact inodeShows_load rfl rfl rfl hcommitted hbytes
  · have hclose : f.close.stage = .wild := by
      unfold PlainFile.close
      rw [if_neg hdirty, if_neg (fun hno => hroom hno.2)]
    exact .of_wild hclose f.refs_close

/-- The last close of a file, whatever is in its cache. -/
theorem FileShows.closed (hP : P.Lawful) (hkb : 0 < kb) (hkb' : kb * 1024 < 2 ^ 31)
    (hf : FileShows P kb b h (some ino) f) (hb : b.Sound P) (hcalm : b.Calm) {hist : List Commit} (hsnap : Snapshot P b h ino hist)
    {s : Session} (hflush : Flushed P ⟨{ ino with refCount := 0 }, b⟩ s)
    (hfree : P.CollisionFree s.be.hashed) (hproper : ProperNames P s.be) :
    s.be.Sound P ∧ b.Grows P s.be ∧ (∀ d, d ≠ h → s.be.index d = b.index d) ∧ s.be.index h ≠ none ∧
      FileShows P kb s.be h none f.close := by
  obtain ⟨hsound, hgrow, hcase⟩ := (hsnap.withRefCount 0).flushed hP hb hflush hfree
  have hindex : (∀ d, d ≠ h → s.be.index d = b.index d) ∧ s.be.index h ≠ none := by
    rcases hcase with ⟨hindex, -⟩ | ⟨c, -, -, hindex, hstate⟩
    · refine ⟨fun d _ => by rw [hindex], ?_⟩
      rw [hindex, hsnap.state.index]
      exact Option.some_ne_none _
    · refine ⟨fun d hd => by rw [hindex, Function.update_of_ne hd], ?_⟩
      rw [hstate.index]
      exact Option.some_ne_none _
  refine ⟨hsound, hgrow, hindex.1, hindex.2, ?_⟩
  by_cases hwild : f.stage = .wild
  · exact .of_wild (PlainFile.close_wild hwild) f.refs_close
  obtain ⟨ino₀, hmade, hshow, hbs⟩ := hf.exists_view hwild
  by_cases hdirty : f.dirty = ∅
  · exact hf.close_clean hwild hdirty (hflush.same (hshow.sendsNothing hdirty))
  by_cases hfresh : f.stage = .fresh
  · rw [hfresh] at hmade
    have hhist : hist = [] := by
      have hempty := hsnap.state.index
      rw [hmade.1.index, Option.some.injEq] at hempty
      cases hist with
      | nil => rfl
      | cons c cs => exact absurd hempty.symm (c.inode.name_ne_nil hP)
    subst hhist
    have hne : ino.dirtyDescs P ≠ [] := by
      obtain ⟨blk, hblk⟩ := Finset.nonempty_iff_ne_empty.mpr hdirty
      rw [Inode.dirtyDescs, ne_eq, List.map_eq_nil_iff]
      exact List.ne_nil_of_mem ((ino.mem_dirtyBlocks).mpr ((hshow.dirty blk).mpr hblk))
    rcases hcase with ⟨-, hnil | ⟨-, hneg⟩⟩ | ⟨c, hdescs, hckey, -, hstate⟩
    · exact absurd hnil hne
    · have hlen : ino.inlen = ino.blockSize := Inode.inlen_of_lt (by rw [hbs]; exact hkb')
      have hneg' : ino.inlen < 0 := hneg hcalm
      rw [hlen] at hneg'
      exact absurd hneg' (Int.not_lt.mpr (Int.natCast_nonneg _))
    · exact hf.close_first hP hkb hkb' hfresh hdirty hsnap.aesKey hsound hproper hdescs hckey hstate
  · have hclose : f.close.stage = .wild := by
      unfold PlainFile.close
      rw [if_neg hdirty, if_neg (fun hno => hfresh hno.1)]
    exact .of_wild hclose f.refs_close

/-- The mount after the last close of file `h`. -/
theorem Shows.closing (hP : P.Lawful) (hs : Shows P kb fs a) (hi : FsInv P fs) {s : Session}
    (hsound : s.be.Sound P) (hgrow : fs.be.Grows P s.be)
    (hother : ∀ d, d ≠ h → s.be.index d = fs.be.index d) (hknown : s.be.index h ≠ none)
    (hfile : FileShows P kb s.be h none f) (fh : Nat) :
    Shows P kb (if 0 < fh then { ({ fs with be := s.be }.putInode h s.ino).eraseInode h with
        fdTable := Function.update fs.fdTable fh [] }
      else ({ fs with be := s.be }.putInode h s.ino).eraseInode h)
      { a.setFile h f with handles := if 0 < fh then Function.update a.handles fh none else a.handles } := by
  have hrule : ∀ (table : Nat → Bytes) (handles : Nat → Option Bytes),
      (∀ fh, table fh = (handles fh).getD []) → (∀ fh d, handles fh = some d → a.handles fh = some d) →
      Shows P kb { ({ fs with be := s.be }.putInode h s.ino).eraseInode h with fdTable := table }
        { a.setFile h f with handles := handles } := by
    intro table handles htable hold
    refine hs.move hP hi hsound hgrow (h := h) hother hknown ?_ ?_ ?_ hs.blockSizeInKb hs.entries
      hs.last htable (fun _ hent => Or.inl hent) (fun fh d hd => Or.inl (hold fh d hd))
    · intro d hd
      dsimp only [Fs.eraseInode, Fs.putInode]
      rw [Function.update_of_ne hd, Function.update_of_ne hd]
    · intro d hd
      exact Function.update_of_ne hd _ _
    · dsimp only [Fs.eraseInode, Fs.putInode]
      rw [Function.update_self, PlainFs.file_setFile]
      exact hfile
  split
  · apply hrule
    · intro fh'
      by_cases he : fh' = fh
      · rw [he, Function.update_self, Function.update_self]
        rfl
      · rw [Function.update_of_ne he, Function.update_of_ne he]
        exact hs.handles fh'
    · intro fh' d hd
      by_cases he : fh' = fh
      · rw [he, Function.update_self] at hd
        cases hd
      · rwa [Function.update_of_ne he] at hd
  · exact hrule fs.fdTable a.handles hs.handles (fun _ _ hd => hd)

theorem Shows.wp_dcfsFlush (hP : P.Lawful) (hkb : 0 < kb) (hkb' : kb * 1024 < 2 ^ 31)
    (hs : Shows P kb fs a) (hi : FsInv P fs) (hcalm : fs.be.Calm) (path : Bytes) (fh : Nat) :
    wp (Fs.dcfsFlush P path fh) (Answers P kb a (.flush path fh)) (fun _ _ => True) fs := by
  simp only [Fs.dcfsFlush, wp_bind]
  refine wp_mono (hs.wp_resolve hP hi hcalm path fh (C := True) (fun _ => ⟨rfl, rfl, trivial⟩)) ?_
    (fun _ _ _ => trivial)
  rintro out fs₁ ⟨hi₁, hs₁, ⟨rfl, hnone, -⟩ | ⟨h, ino, rfl, htarget, hcalm₁, hknown, hino⟩⟩
  · intro _ _
    exact ⟨a, .flushMissing hnone, hs₁⟩
  have hfile := hs₁.file hknown hino
  have hrefs : (a.file h).refs = ino.refCount := hfile.refs
  simp only [wp_bind]
  rw [wp_onSession hino]
  refine wp_mono (wp_unref ⟨ino, fs₁.be⟩) ?_ (fun _ _ _ => trivial)
  rintro cnt s ⟨rfl, ⟨hmany, rfl⟩ | ⟨hone, hflush⟩⟩
  · have hne : ino.refCount - 1 ≠ 0 := Nat.sub_ne_zero_of_lt hmany
    simp only [wp_ite, wp_pure]
    refine ⟨fun hzero => absurd hzero hne, fun _ _ _ => ?_⟩
    have hput := hs₁.putInode (s := ⟨{ ino with refCount := ino.refCount - 1 }, fs₁.be⟩) hP hi₁ hknown
      (Same.refl fs₁.be) (hfile.withRefs (n := ino.refCount - 1) (fun _ => by omega))
    have hserves : PlainFs.Serves (kb * 1024) a (.flush path fh) (.code 0)
        (a.setFile h { a.file h with refs := (a.file h).refs - 1 }) :=
      .flushShared htarget (by rw [hrefs]; exact hmany)
    rw [hrefs] at hserves
    exact ⟨_, hserves, hput⟩
  · dsimp only at hone hflush ⊢
    rw [hone]
    simp only [wp_ite, Fs.releaseInode, wp_bind, Exec.wp_modify, wp_pure]
    refine ⟨fun _ => ?_, fun hno => absurd trivial hno⟩
    intro hfree hproper
    have hbe : ∀ fs₂ : Fs, (if 0 < fh then { fs₂ with fdTable := Function.update fs₂.fdTable fh [] }
        else fs₂).be = fs₂.be := by
      intro fs₂
      split <;> rfl
    rw [hbe] at hfree hproper
    obtain ⟨hist, hsnap⟩ := hi₁.inodes h ino hino
    obtain ⟨hsound, hgrow, hother, hknown', hclosed⟩ :=
      hfile.closed hP hkb hkb' hi₁.sound hcalm₁ hsnap hflush hfree hproper
    have hclosing := hs₁.closing hP hi₁ hsound hgrow hother hknown' hclosed fh
    rw [hrefs.symm] at hone
    exact ⟨_, .flushLast htarget hone, hclosing⟩

end Callbacks

/-! ## Runs -/

def Callback.InRange : Callback → Prop
  | .read _ _ _ size offset => offset + size < 2 ^ 64
  | .write _ _ _ size offset => offset + size < 2 ^ 64
  | _ => True

section Runs

variable {P : Platform} {kb : Nat} {fs fs' : Fs} {a : PlainFs} {evs : List FsEvent}

theorem Shows.wp_callback (hP : P.Lawful) (hkb : 0 < kb) (hkb' : kb * 1024 < 2 ^ 31)
    (hs : Shows P kb fs a) (hi : FsInv P fs) (hcalm : fs.be.Calm) (cb : Callback) (hrange : cb.InRange) :
    wp (cb.run P) (Answers P kb a cb) (fun _ _ => True) fs := by
  cases cb with
  | getattr path => exact hs.wp_dcfsGetattr hP hi hcalm path
  | readdir path => exact hs.wp_dcfsReaddir hP hi path
  | create path => exact hs.wp_dcfsCreate hP hkb hi hcalm path
  | «open» path => exact hs.wp_dcfsOpen hP hi hcalm path
  | read path fh buf size offset => exact hs.wp_dcfsRead hP hkb hi hcalm path fh buf hrange
  | write path fh buf size offset => exact hs.wp_dcfsWrite hP hkb hi hcalm path fh buf hrange
  | flush path fh => exact hs.wp_dcfsFlush hP hkb hkb' hi hcalm path fh

/-- No callback takes anything off the store. -/
theorem Fs.Effect.grows (hP : P.Lawful) (hi : FsInv P fs) {cb : Callback} {reply : Reply}
    (he : fs.Effect P cb reply fs') (hfree : P.CollisionFree fs'.be.hashed) :
    fs.be.Grows P fs'.be := by
  cases he with
  | idle hkeep _ _ => exact hkeep.be.grows
  | refused root hroot e b hnew =>
      exact ((wp_error (wp_createNew_sound hP hi.sound) hnew).2 hfree).2
  | created root hroot hfresh h key b hnew hfd =>
      exact ((wp_ok (wp_createNew_sound hP hi.sound) hnew).2.2 hfree).2.1
  | opened htarget hload hfd => exact hload.be.grows
  | used s hload hwrites _ _ => exact (hload.be.trans hwrites.be).grows
  | unreffed htarget hload hcount => exact hload.be.grows
  | released s htarget hload hcount hflush =>
      have hi' := hi.loads hP hload
      obtain ⟨hist, hsnap⟩ := hi'.inodes _ _ hload.found
      obtain ⟨-, hgrow, -⟩ := (hsnap.withRefCount 0).flushed hP hi'.sound hflush hfree
      exact (hload.be.grows (P := P)).trans hgrow

end Runs

section Instances

open Reference

end Instances

end DcfsClient
