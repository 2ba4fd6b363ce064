import DcfsClient.CStrings
import DcfsClient.Store
import DcfsClient.Trace

/-!
# The simulated server and its files

`DCServerSim` keeps a record in a file of the host, in a directory for its capsule. Both are named by
the hexadecimal text of the names of capsule and record, as `encode.cpp` writes it.

The host's file system is a map from paths to byte strings. A path is looked up by its components, so
that a doubled slash is no difference and an empty name is no component. What a stream has accepted is
in the file; a call on the host that fails is reported.
-/

namespace DcfsClient

open CString

/-! ## Hexadecimal names -/

/-- What `snprintf` with `%02x` leaves in a buffer of three bytes. -/
def hexOfByte (c : UInt8) : Bytes := ((digitText 16 c.toNat).leftpad 2 48).take 2

def byteOfHex (byte : Bytes) : UInt8 := UInt8.ofInt (toInt (strtol 16 byte))

def binaryToHexString (data : Bytes) : Bytes := data.flatMap hexOfByte

def hexStringToBinary (hex : Bytes) : Bytes := (chunks 2 hex).map byteOfHex

def hexDigits : Bytes := [48, 49, 50, 51, 52, 53, 54, 55, 56, 57, 97, 98, 99, 100, 101, 102]

section Hex

/-- What can be checked byte by byte. -/
theorem forall_byte {p : UInt8 → Prop} (h : ∀ n, n < 256 → p (UInt8.ofNat n)) (c : UInt8) : p c := by
  rw [← UInt8.ofNat_toNat (x := c)]
  exact h c.toNat c.toNat_lt

theorem byteOfHex_hexOfByte (c : UInt8) : byteOfHex (hexOfByte c) = c :=
  forall_byte (p := fun c => byteOfHex (hexOfByte c) = c) (by decide +kernel) c

theorem length_hexOfByte (c : UInt8) : (hexOfByte c).length = 2 :=
  forall_byte (p := fun c => (hexOfByte c).length = 2) (by decide +kernel) c

theorem slash_notMem_hexOfByte (c : UInt8) : 47 ∉ hexOfByte c :=
  forall_byte (p := fun c => 47 ∉ hexOfByte c) (by decide +kernel) c

/-- The digits are written the way they are read, if the letters are small. -/
theorem hexOfByte_byteOfHex {byte : Bytes} (hlen : byte.length = 2) (h : ∀ c ∈ byte, c ∈ hexDigits) :
    hexOfByte (byteOfHex byte) = byte := by
  obtain ⟨a, b, rfl⟩ := List.length_eq_two.mp hlen
  have hall : ∀ a ∈ hexDigits, ∀ b ∈ hexDigits, hexOfByte (byteOfHex [a, b]) = [a, b] := by
    decide +kernel
  exact hall a (h a (by simp)) b (h b (by simp))

theorem hexStringToBinary_flatten {ls : List Bytes} (hls : ∀ p ∈ ls, p.length = 2) :
    hexStringToBinary ls.flatten = ls.map byteOfHex := by
  rw [hexStringToBinary, chunks_flatten (by decide) ls hls]

/-- Every byte string is recovered from its text. -/
theorem hexStringToBinary_binaryToHexString (b : Bytes) :
    hexStringToBinary (binaryToHexString b) = b := by
  have hpieces : ∀ p ∈ b.map hexOfByte, p.length = 2 := by
    intro p hp
    obtain ⟨c, -, rfl⟩ := List.mem_map.mp hp
    exact length_hexOfByte c
  rw [binaryToHexString, List.flatMap_def, hexStringToBinary_flatten hpieces, List.map_map]
  have hid : byteOfHex ∘ hexOfByte = id := funext byteOfHex_hexOfByte
  rw [hid, List.map_id]

/-- Every text of small hexadecimal digits is recovered from its bytes. -/
theorem binaryToHexString_hexStringToBinary {h : Bytes} (heven : h.length % 2 = 0)
    (hdigits : ∀ c ∈ h, c ∈ hexDigits) : binaryToHexString (hexStringToBinary h) = h := by
  obtain ⟨ls, rfl, hls⟩ := exists_flatten_eq (n := 2) (h.length / 2) h (by omega)
  rw [hexStringToBinary_flatten hls, binaryToHexString, List.flatMap_def, List.map_map]
  have hpieces : ls.map (hexOfByte ∘ byteOfHex) = ls.map id := by
    apply List.map_congr_left
    intro p hp
    apply hexOfByte_byteOfHex (hls p hp)
    intro c hc
    exact hdigits c (List.mem_flatten.mpr ⟨p, hp, hc⟩)
  rw [hpieces, List.map_id]

theorem binaryToHexString_injective : Function.Injective binaryToHexString :=
  Function.LeftInverse.injective hexStringToBinary_binaryToHexString

theorem binaryToHexString_eq_nil {b : Bytes} : binaryToHexString b = [] ↔ b = [] := by
  constructor
  · intro h
    exact binaryToHexString_injective (h.trans rfl)
  · rintro rfl
    rfl

theorem slash_notMem_binaryToHexString (b : Bytes) : 47 ∉ binaryToHexString b := by
  intro h
  obtain ⟨c, -, hc⟩ := List.mem_flatMap.mp h
  exact slash_notMem_hexOfByte c hc

end Hex

/-! ## The host -/

structure HostFs where
  files : List Bytes → Option Bytes := fun _ => none
  dirs : List Bytes → Bool := fun _ => false
  faults : List Fault := []

abbrev HostM := Exec ErrT Abort HostFs

def HostFs.Calm (fs : HostFs) : Prop := ∀ f ∈ fs.faults, f = .none

def components (path : Bytes) : List Bytes := (path.splitOn 47).filter (· ≠ [])

namespace HostFs

def pathExists (fs : HostFs) (path : Bytes) : Bool :=
  fs.dirs (components path) || (fs.files (components path)).isSome

def putFile (fs : HostFs) (path data : Bytes) : HostFs :=
  { fs with files := Function.update fs.files (components path) (some data) }

/-- A file can be opened for writing if its directory is there. A path that ends in a slash is not the
path of a file. -/
def canCreate (fs : HostFs) (path : Bytes) : Bool :=
  path.getLast? ≠ some 47 ∧ fs.dirs (components path) = false ∧
    fs.dirs (components path).dropLast = true

def addDirs (fs : HostFs) (path : Bytes) : HostFs :=
  { fs with dirs := fun p => fs.dirs p || p.isPrefixOf (components path) }

def nextFault : HostM Fault :=
  modifyGet fun fs => (fs.faults.headD .none, { fs with faults := fs.faults.tail })

/-- A call on the host with the error code its caller makes of a failure. -/
def call (e : ErrT) (effect : HostFs → HostFs) (partly : Bytes → HostFs → HostFs) : HostM Unit := do
  match ← nextFault with
  | .none => modify effect
  | .fail => Exec.fail e
  | .torn c => do
    modify (partly c)
    Exec.fail e
  | .stopBefore => Exec.abort .stopped
  | .stopAfter => do
    modify effect
    Exec.abort .stopped

/-- The file is empty after it was opened. -/
def openOut (path : Bytes) : HostM Unit := do
  let fs ← get
  Exec.failIf (!fs.canCreate path) errIo
  call errIo (·.putFile path []) (fun _ => id)

def write (path data : Bytes) : HostM Unit :=
  call errIo (·.putFile path data) (fun c => (·.putFile path c))

/-- An exception nobody catches ends the process. -/
def createDirectories (path : Bytes) : HostM Unit := do
  match ← Exec.attempt (call errIo (·.addDirs path) (fun _ => id)) with
  | .ok _ => pure ()
  | .error _ => Exec.abort .stopped

end HostFs

/-! ## The server -/

namespace DCServerSim

def dcPath (mntPoint dcname : Bytes) : Bytes := mntPoint ++ [47] ++ binaryToHexString dcname

def recordPath (mntPoint dcname recordname : Bytes) : Bytes :=
  dcPath mntPoint dcname ++ [47] ++ binaryToHexString recordname

def readRecord (mntPoint dcname recordname : Bytes) (cap : Nat) : HostM Bytes := do
  let recordpath := recordPath mntPoint dcname recordname
  HostFs.call errNotFound id (fun _ => id)
  let fs ← get
  match fs.files (components recordpath) with
  | none => Exec.fail errNotFound
  | some content => do
    Exec.check (content.length ≤ cap) .recordFits
    HostFs.call errIo id (fun _ => id)
    pure content

def makeDcDir (mntPoint dcname recordname : Bytes) : HostM Unit := do
  let fs ← get
  if fs.pathExists (dcPath mntPoint dcname) then pure ()
  else if binaryToHexString dcname = binaryToHexString recordname then
    HostFs.createDirectories (dcPath mntPoint dcname)
  else Exec.fail errIo

def writeRecord (mntPoint dcname recordname data : Bytes) : HostM Unit := do
  makeDcDir mntPoint dcname recordname
  HostFs.openOut (recordPath mntPoint dcname recordname)
  HostFs.write (recordPath mntPoint dcname recordname) data

/-! ## Paths -/

section Paths

variable {mnt d r d' r' : Bytes}

/-- A name without slashes is one component, unless it is empty. -/
theorem components_of_notMem {b : Bytes} (h : 47 ∉ b) : components b = [b].filter (· ≠ []) := by
  rw [components, List.splitOn_eq_singleton h]

theorem components_append_slash (a b : Bytes) :
    components (a ++ [47] ++ b) = components a ++ components b := by
  rw [List.append_assoc, List.singleton_append, components, List.splitOn_append_cons_self,
    List.filter_append]
  rfl

theorem components_recordPath (mnt d r : Bytes) : components (recordPath mnt d r) =
    components mnt ++ [binaryToHexString d, binaryToHexString r].filter (· ≠ []) := by
  rw [recordPath, dcPath, components_append_slash, components_append_slash,
    components_of_notMem (slash_notMem_binaryToHexString d),
    components_of_notMem (slash_notMem_binaryToHexString r), List.append_assoc, ← List.filter_append,
    List.singleton_append]

/-- The file tells the two names, and an empty name of the capsule, too. -/
theorem components_recordPath_injective (hr : r ≠ []) (hr' : r' ≠ [])
    (h : components (recordPath mnt d r) = components (recordPath mnt d' r')) : d = d' ∧ r = r' := by
  rw [components_recordPath, components_recordPath, List.append_cancel_left_eq] at h
  have hempty : ∀ b : Bytes, binaryToHexString b ≠ [] ↔ b ≠ [] := fun b =>
    not_congr binaryToHexString_eq_nil
  by_cases hd : d = [] <;> by_cases hd' : d' = [] <;>
    simp_all [binaryToHexString_injective.eq_iff]

/-- Different records are in different files. -/
theorem components_recordPath_ne (hr : r ≠ []) (hr' : r' ≠ []) (hne : (d, r) ≠ (d', r')) :
    components (recordPath mnt d r) ≠ components (recordPath mnt d' r') := by
  intro heq
  obtain ⟨hd, hrr⟩ := components_recordPath_injective hr hr' heq
  exact hne (Prod.ext hd hrr)

end Paths

/-! ## What a call leaves in the files -/

section Calls

variable {mnt d r data : Bytes} {fs fs' : HostFs}

/-- A call on the host that returns has had its effect. -/
theorem call_eq_ok {e : ErrT} {effect : HostFs → HostFs} {partly : Bytes → HostFs → HostFs}
    (h : HostFs.call e effect partly fs = .ok () fs') :
    fs' = effect { fs with faults := fs.faults.tail } := by
  unfold HostFs.call at h
  obtain ⟨fault, fs₁, hfault, h⟩ := Exec.bind_eq_ok h
  cases hfault
  generalize fs.faults.headD .none = fault at h
  cases fault with
  | none =>
      cases h
      rfl
  | fail => cases h
  | torn c => cases h
  | stopBefore => cases h
  | stopAfter => cases h

/-- Making the directory does not touch a file. -/
theorem makeDcDir_files (h : makeDcDir mnt d r fs = .ok () fs') : fs'.files = fs.files := by
  unfold makeDcDir at h
  obtain ⟨_, _, hget, h⟩ := Exec.bind_eq_ok h
  cases hget
  split at h
  · cases h
    rfl
  split at h
  · unfold HostFs.createDirectories at h
    obtain ⟨ret, fs₁, hret, h⟩ := Exec.bind_eq_ok h
    rcases Exec.attempt_eq_ok hret with ⟨_, rfl, hcall⟩ | ⟨e, rfl, -⟩
    · cases h
      rw [call_eq_ok hcall]
      rfl
    · cases h
  · cases h

/-- A write that returns has stored the record under its path and nothing else. -/
theorem writeRecord_eq_ok (h : writeRecord mnt d r data fs = .ok () fs') : r ≠ [] ∧
    fs'.files = Function.update fs.files (components (recordPath mnt d r)) (some data) := by
  unfold writeRecord at h
  obtain ⟨_, fs₁, hdir, h⟩ := Exec.bind_eq_ok h
  obtain ⟨_, fs₂, hopen, hwrite⟩ := Exec.bind_eq_ok h
  unfold HostFs.openOut at hopen
  obtain ⟨_, _, hget, hopen⟩ := Exec.bind_eq_ok hopen
  cases hget
  obtain ⟨_, fs₃, hfail, hcall⟩ := Exec.bind_eq_ok hopen
  obtain ⟨hcan, rfl⟩ := Exec.failIf_eq_ok hfail
  constructor
  · rintro rfl
    -- the path ends in the slash behind the directory
    simp [HostFs.canCreate, recordPath, binaryToHexString] at hcan
  · rw [call_eq_ok hwrite, call_eq_ok hcall]
    simp only [HostFs.putFile, makeDcDir_files hdir, Function.update_idem]

theorem call_of_calm (hcalm : fs.Calm) (e : ErrT) (effect : HostFs → HostFs)
    (partly : Bytes → HostFs → HostFs) :
    HostFs.call e effect partly fs = .ok () (effect { fs with faults := fs.faults.tail }) := by
  have hhead : fs.faults.headD .none = .none := by
    unfold HostFs.Calm at hcalm
    cases hf : fs.faults with
    | nil => rfl
    | cons f rest => exact hcalm f (by simp [hf])
  have hfault : HostFs.nextFault fs = .ok .none { fs with faults := fs.faults.tail } := by
    rw [← hhead]
    rfl
  unfold HostFs.call
  rw [Exec.bind_of_ok hfault]
  rfl

/-- A record that is there and fits is read. -/
theorem readRecord_of_calm (hcalm : fs.Calm) {cap : Nat}
    (hfile : fs.files (components (recordPath mnt d r)) = some data) (hfits : data.length ≤ cap) :
    ∃ fs', readRecord mnt d r cap fs = .ok data fs' := by
  have hcalm' : HostFs.Calm { fs with faults := fs.faults.tail } :=
    fun f hf => hcalm f (List.mem_of_mem_tail hf)
  have hread : Exec.wp (readRecord mnt d r cap) (fun out _ => out = data) (fun _ _ => False) fs := by
    simp only [readRecord, Exec.wp_bind, Exec.wp_of_ok (call_of_calm hcalm _ _ _), Exec.wp_get, id_eq,
      hfile, Exec.wp_check, decide_eq_true_eq, decide_eq_false_iff_not,
      Exec.wp_of_ok (call_of_calm hcalm' _ _ _), Exec.wp_pure]
    exact ⟨fun _ => trivial, fun hnot => hnot hfits⟩
  obtain ⟨out, fs', hfs', rfl⟩ := Exec.exists_ok hread
  exact ⟨fs', hfs'⟩

theorem readRecord_eq_ok {cap : Nat} (h : readRecord mnt d r cap fs = .ok data fs') :
    fs.files (components (recordPath mnt d r)) = some data ∧ data.length ≤ cap ∧
      fs'.files = fs.files := by
  unfold readRecord at h
  obtain ⟨_, fs₁, hopen, h⟩ := Exec.bind_eq_ok h
  obtain ⟨_, _, hget, h⟩ := Exec.bind_eq_ok h
  cases hget
  have hsame := call_eq_ok hopen
  cases hfile : fs₁.files (components (recordPath mnt d r)) with
  | none =>
      rw [hfile] at h
      cases h
  | some content =>
      rw [hfile] at h
      obtain ⟨_, fs₂, hcheck, h⟩ := Exec.bind_eq_ok h
      obtain ⟨hfits, rfl⟩ := Exec.check_eq_ok hcheck
      obtain ⟨_, fs₃, hread, h⟩ := Exec.bind_eq_ok h
      cases h
      rw [call_eq_ok hread, hsame]
      rw [hsame] at hfile
      exact ⟨hfile, of_decide_eq_true hfits, rfl⟩

end Calls

/-! ## What a call leaves alone

However a write ends, it has touched no file but its own. A write that fails behind the open leaves its
own file empty or torn, also over a record that was there.
-/

def Keeps (path : List Bytes) (fs fs' : HostFs) : Prop := ∀ p, p ≠ path → fs'.files p = fs.files p

instance (path : List Bytes) : IsPreorder HostFs (Keeps path) where
  refl := fun _ _ _ => rfl
  trans := fun _ _ _ h h' p hp => (h' p hp).trans (h p hp)

section Frame

open Exec

variable {path : List Bytes}

theorem call_moves {e : ErrT} {effect : HostFs → HostFs} {partly : Bytes → HostFs → HostFs}
    (heffect : ∀ fs, Keeps path fs (effect fs)) (hpartly : ∀ c fs, Keeps path fs (partly c fs)) :
    Moves (Keeps path) (HostFs.call e effect partly) := by
  refine .bind (.modifyGet fun _ _ _ => rfl) fun fault => ?_
  cases fault with
  | none => exact .modify heffect
  | fail => exact .fail _
  | torn c => exact .bind (.modify (hpartly c)) fun _ => .fail _
  | stopBefore => exact .abort _
  | stopAfter => exact .bind (.modify heffect) fun _ => .abort _

theorem keeps_putFile (path data : Bytes) (fs : HostFs) :
    Keeps (components path) fs (fs.putFile path data) :=
  fun _ hp => Function.update_of_ne hp _ _

theorem makeDcDir_moves (mnt d r : Bytes) : Moves (Keeps path) (makeDcDir mnt d r) := by
  have hcall : Moves (Keeps path)
      (HostFs.call errIo (·.addDirs (dcPath mnt d)) (fun _ => id)) :=
    call_moves (fun _ _ _ => rfl) fun _ _ _ _ => rfl
  have hcreate : Moves (Keeps path) (HostFs.createDirectories (dcPath mnt d)) := by
    refine .bind hcall.attempt fun ret => ?_
    cases ret with
    | ok a => exact .pure _
    | error e => exact .abort _
  exact .bind .get fun fs => .ite (.pure _) (.ite hcreate (.fail _))

theorem writeRecord_moves (mnt d r data : Bytes) :
    Moves (Keeps (components (recordPath mnt d r))) (writeRecord mnt d r data) := by
  refine .bind (makeDcDir_moves mnt d r) fun _ => .bind ?_ fun _ => ?_
  · exact .bind .get fun fs => .bind (.failIf _ _) fun _ =>
      call_moves (keeps_putFile _ _) fun _ _ _ _ => rfl
  · exact call_moves (keeps_putFile _ _) fun c => keeps_putFile _ c

end Frame

/-! ## The store of the middleware -/

def Stores (mnt : Bytes) (fs : HostFs) (b : Backend) : Prop :=
  ∀ d r, r ≠ [] → fs.files (components (recordPath mnt d r)) = (b.store d r).map Slot.bytes

section Stores

variable {mnt d r data : Bytes} {fs fs' : HostFs} {b : Backend}

/-- What the server stores is what the store holds afterwards. -/
theorem writeRecord_stores (hstores : Stores mnt fs b) (hcalm : b.Calm)
    (h : writeRecord mnt d r data fs = .ok () fs') :
    ∃ b', DcfsClient.writeRecord d r data b = .ok () b' ∧ Stores mnt fs' b' := by
  obtain ⟨hr, hfiles⟩ := writeRecord_eq_ok h
  have hwrite : Exec.wp (DcfsClient.writeRecord d r data)
      (fun _ b' => b'.store = (b.putSlot d r (.whole data)).store) (fun _ _ => False) b := by
    simp only [DcfsClient.writeRecord, Exec.wp_bind]
    apply wp_nextFault_calm hcalm
    intro b₁ hsame _
    simp only [Exec.wp_modify, Backend.putSlot, hsame.store]
  obtain ⟨_, b', hb', hstore⟩ := Exec.exists_ok hwrite
  refine ⟨b', hb', ?_⟩
  intro d₁ r₁ hr₁
  rw [hfiles, hstore]
  unfold Backend.putSlot
  dsimp only
  by_cases hpath : components (recordPath mnt d₁ r₁) = components (recordPath mnt d r)
  · obtain ⟨rfl, rfl⟩ := components_recordPath_injective hr₁ hr hpath
    simp [Slot.bytes]
  · rw [Function.update_of_ne hpath, hstores d₁ r₁ hr₁]
    by_cases hd : d₁ = d
    · have hrne : r₁ ≠ r := by
        rintro rfl
        exact hpath (by rw [hd])
      rw [hd, Function.update_self, Function.update_of_ne hrne]
    · rw [Function.update_of_ne hd]

/-- However a write ends, the files of the other records are those of the store. -/
theorem wp_writeRecord_stores (hstores : Stores mnt fs b) (hcalm : b.Calm) (hr : r ≠ []) :
    Exec.wp (writeRecord mnt d r data)
      (fun _ fs' => ∃ b', DcfsClient.writeRecord d r data b = .ok () b' ∧ Stores mnt fs' b')
      (fun _ fs' => ∀ d' r', r' ≠ [] → (d', r') ≠ (d, r) →
        fs'.files (components (recordPath mnt d' r')) = (b.store d' r').map Slot.bytes) fs := by
  have hrun := Exec.wp_run (writeRecord mnt d r data) fs
  apply Exec.wp_mono (Exec.wp_and hrun (writeRecord_moves mnt d r data fs))
  · rintro _ fs' ⟨hok, -⟩
    exact writeRecord_stores hstores hcalm hok
  · rintro _ fs' ⟨-, hkeeps⟩ d' r' hr' hne
    rw [hkeeps _ (components_recordPath_ne hr' hr hne), hstores d' r' hr']

/-- What the server reads is what the store gives. -/
theorem readRecord_stores (hstores : Stores mnt fs b) (hcalm : b.Calm) (hr : r ≠ []) {cap : Nat}
    (h : readRecord mnt d r cap fs = .ok data fs') :
    ∃ b', DcfsClient.readRecord d r cap b = .ok data b' ∧ Stores mnt fs' b' := by
  obtain ⟨hfile, hfits, hfiles⟩ := readRecord_eq_ok h
  rw [hstores d r hr] at hfile
  obtain ⟨slot, hslot, rfl⟩ := Option.map_eq_some_iff.mp hfile
  obtain ⟨_, b', hb', rfl, hsame, -⟩ := Exec.exists_ok (wp_readRecord_calm hcalm hslot hfits)
  refine ⟨b', hb', ?_⟩
  intro d₁ r₁ hr₁
  rw [hfiles, hsame.store]
  exact hstores d₁ r₁ hr₁

end Stores

/-! ## Runs of writes -/

structure WriteCall where
  dcname : Bytes
  recordname : Bytes
  data : Bytes

def served (mnt : Bytes) (fs : HostFs) (c : WriteCall) : Option HostFs :=
  Exec.after (writeRecord mnt c.dcname c.recordname c.data) fs

def lastWrite (calls : List WriteCall) (d r : Bytes) : Option Bytes :=
  (calls.find? fun c => c.dcname = d ∧ c.recordname = r).map WriteCall.data

structure Written (mnt : Bytes) (start : HostFs) (calls : List WriteCall) (fs : HostFs) : Prop where
  named : ∀ c ∈ calls, c.recordname ≠ []
  files : ∀ d r, r ≠ [] → fs.files (components (recordPath mnt d r)) =
    (lastWrite calls d r).or (start.files (components (recordPath mnt d r)))

section Runs

variable {mnt : Bytes} {start fs fs' : HostFs} {calls : List WriteCall}

theorem Written.step (h : Written mnt start calls fs) {c : WriteCall}
    (hc : served mnt fs c = some fs') : Written mnt start (c :: calls) fs' := by
  obtain ⟨_, hwrite⟩ := Exec.after_eq_some.mp hc
  obtain ⟨hr, hfiles⟩ := writeRecord_eq_ok hwrite
  constructor
  · simp only [List.forall_mem_cons]
    exact ⟨hr, h.named⟩
  · intro d r hr'
    rw [hfiles]
    by_cases hpath : components (recordPath mnt d r) =
        components (recordPath mnt c.dcname c.recordname)
    · obtain ⟨rfl, rfl⟩ := components_recordPath_injective hr' hr hpath
      simp [lastWrite]
    · have hother : ¬ (c.dcname = d ∧ c.recordname = r) := by
        rintro ⟨rfl, rfl⟩
        exact hpath rfl
      rw [Function.update_of_ne hpath, h.files d r hr', lastWrite, lastWrite,
        List.find?_cons_of_neg (by simpa using hother)]

theorem written_of_replay (h : Trace.replay (served mnt) start calls = some fs) :
    Written mnt start calls fs := by
  apply Trace.replay_induction (I := Written mnt start) _ _ h
  · exact ⟨by simp, fun d r _ => by simp [lastWrite]⟩
  · intro older s c t hI hc
    exact hI.step hc

/-- After a run of writes, a record that was written is read as it was written last. -/
theorem readRecord_of_replay (h : Trace.replay (served mnt) start calls = some fs) {d r data : Bytes}
    (hlast : lastWrite calls d r = some data) (hcalm : fs.Calm) {cap : Nat}
    (hfits : data.length ≤ cap) : ∃ fs', readRecord mnt d r cap fs = .ok data fs' := by
  have hwritten := written_of_replay h
  obtain ⟨c, hc, rfl⟩ := Option.map_eq_some_iff.mp hlast
  have hr : r ≠ [] := by
    have hnames := List.find?_some hc
    obtain ⟨-, rfl⟩ := of_decide_eq_true hnames
    exact hwritten.named c (List.mem_of_find?_eq_some hc)
  apply readRecord_of_calm hcalm _ hfits
  rw [hwritten.files d r hr, hlast]
  rfl

end Runs

/-- Names and their texts determine each other, so no two records share a file, and a run of writes
stores every record under its own names. -/
theorem hexNames_faithful (mnt : Bytes) :
    (∀ b, hexStringToBinary (binaryToHexString b) = b) ∧
    (∀ h : Bytes, h.length % 2 = 0 → (∀ c ∈ h, c ∈ hexDigits) →
      binaryToHexString (hexStringToBinary h) = h) ∧
    (∀ d r d' r' : Bytes, d ≠ [] → r ≠ [] → d' ≠ [] → r' ≠ [] → (d, r) ≠ (d', r') →
      recordPath mnt d r ≠ recordPath mnt d' r' ∧
        components (recordPath mnt d r) ≠ components (recordPath mnt d' r')) ∧
    (∀ start calls fs, Trace.replay (served mnt) start calls = some fs → fs.Calm →
      ∀ d r data cap, lastWrite calls d r = some data → data.length ≤ cap →
        ∃ fs', readRecord mnt d r cap fs = .ok data fs') := by
  refine ⟨hexStringToBinary_binaryToHexString, ?_, ?_, ?_⟩
  · intro h heven hdigits
    exact binaryToHexString_hexStringToBinary heven hdigits
  · intro d r d' r' _ hr _ hr' hne
    have hpaths : components (recordPath mnt d r) ≠ components (recordPath mnt d' r') :=
      components_recordPath_ne hr hr' hne
    exact ⟨fun heq => hpaths (congrArg components heq), hpaths⟩
  · intro start calls fs hrun hcalm d r data cap hlast hfits
    exact readRecord_of_replay hrun hlast hcalm hfits

def emptyHost : HostFs := { dirs := fun p => p = [] ∨ p = [[109]] }

def threeWrites : List WriteCall := [⟨[1], [2], [7, 0]⟩, ⟨[1], [2], [5]⟩, ⟨[1], [1], [9]⟩]

theorem hexNames_faithful_threeWrites :
    binaryToHexString [0, 255] = [48, 48, 102, 102] ∧
    hexStringToBinary (binaryToHexString [0, 255]) = [0, 255] ∧
    binaryToHexString (hexStringToBinary [48, 48, 102, 102]) = [48, 48, 102, 102] ∧
    recordPath [47, 109] [1] [2] ≠ recordPath [47, 109] [1] [1] ∧
    ∃ fs fs', Trace.replay (served [47, 109]) emptyHost threeWrites = some fs ∧
      readRecord [47, 109] [1] [2] 10 fs = .ok [7, 0] fs' := by
  obtain ⟨hdecode, hencode, hpaths, hruns⟩ := hexNames_faithful [47, 109]
  have hfaults : (Trace.replay (served [47, 109]) emptyHost threeWrites).map HostFs.faults =
      some [] := by decide +kernel
  obtain ⟨fs, hrun, hnil⟩ := Option.map_eq_some_iff.mp hfaults
  have hcalm : fs.Calm := by
    intro f hf
    rw [hnil] at hf
    cases hf
  obtain ⟨fs', hread⟩ := hruns emptyHost threeWrites fs hrun hcalm [1] [2] [7, 0] 10
    (by decide +kernel) (by decide)
  exact ⟨by decide +kernel, hdecode [0, 255], hencode _ rfl (by simp [hexDigits]),
    (hpaths [1] [2] [1] [1] (List.cons_ne_nil _ _) (List.cons_ne_nil _ _) (List.cons_ne_nil _ _)
      (List.cons_ne_nil _ _) (by decide)).1, fs, fs', hrun, hread⟩

end DCServerSim

end DcfsClient
