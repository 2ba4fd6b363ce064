import DcfsClient.Filesystem

/-!
# What a mount is for

The file system of a mount in plain terms: a directory of names, files that are functions from
positions to bytes, and handles. There is no cache, no store and no record here. What is kept of the
program is what its user can see: a write beyond the end of a file goes to the end, a request that
crosses into another block moves one byte more than it asks for, and a closed file has a whole number of
blocks.

A file is on the store after its first close. A second commit leaves nothing one could rely on, and
neither does a first commit of more blocks than a blockmap has entries: such a file is `wild`.
-/

namespace DcfsClient

/-- How far a file has got on its way to the store. -/
inductive Stage where
  | fresh
  | stored
  | wild
  deriving DecidableEq

structure PlainFile where
  bytes : Nat → UInt8 := fun _ => 0
  size : Nat := 0
  dirty : Finset Nat := ∅
  refs : Nat := 1
  stage : Stage := .fresh

namespace PlainFile

def Live (f : PlainFile) : Prop := f.stage = .fresh → 0 < f.refs

/-- The bytes that a request for `size` bytes moves. -/
def reach (bs start size : Nat) : Nat := if start / bs = (start + size) / bs then size else size + 1

def write (bs : Nat) (f : PlainFile) (buf : Mem) (size offset : Nat) : PlainFile :=
  let start := min offset f.size
  { f with
    bytes := fun pos =>
      if start ≤ pos ∧ pos < start + reach bs start size then buf (pos - start) else f.bytes pos
    size := max f.size (start + size)
    dirty := f.dirty ∪ Finset.Icc (start / bs) ((start + size) / bs) }

def close (f : PlainFile) : PlainFile :=
  if f.dirty = ∅ then { f with refs := 0 }
  else if f.stage = .fresh ∧ f.dirty.card ≤ blockmapCover then
    { f with size := f.dirty.card * midBlockSize, dirty := ∅, refs := 0, stage := .stored }
  else { f with dirty := ∅, refs := 0, stage := .wild }

def Grown (bs : Nat) (f : PlainFile) : Prop :=
  ∃ n, f.dirty = Finset.range n ∧ f.size / bs ≤ n ∧ ∀ pos, n * bs ≤ pos → f.bytes pos = 0

end PlainFile

structure PlainFs where
  entries : List DirectoryEntry := []
  file : Bytes → PlainFile := fun _ => {}
  handles : Nat → Option Bytes := fun _ => none
  last : Nat := 10

namespace PlainFs

def find (a : PlainFs) (path : Bytes) : Option Bytes :=
  (a.entries.find? fun ent => path.tail = ent.filename).map (·.hashname)

def target (a : PlainFs) (path : Bytes) (fh : Nat) : Option Bytes :=
  if 0 < fh then a.handles fh else a.find path

def setFile (a : PlainFs) (id : Bytes) (f : PlainFile) : PlainFs :=
  { a with file := Function.update a.file id f }

def addHandle (a : PlainFs) (id : Bytes) : PlainFs :=
  { a with last := a.last + 1, handles := Function.update a.handles (a.last + 1) (some id) }

/-- A new and empty file, and its first handle. An identifier that was given before starts anew. -/
def addFile (a : PlainFs) (name id : Bytes) : PlainFs :=
  let entries := a.entries ++ [⟨name, id⟩]
  PlainFs.addHandle { a with entries := entries, file := Function.update a.file id {} } id

inductive Serves (bs : Nat) (a : PlainFs) : Callback → Reply → PlainFs → Prop where
  | getattrRoot : Serves bs a (.getattr [47]) (.attr none) a
  | getattrMissing {path : Bytes} (hroot : path ≠ [47]) (hfind : a.find path = none) :
      Serves bs a (.getattr path) (.code enoent) a
  | getattr {path id : Bytes} {size : Nat} (hroot : path ≠ [47]) (hfind : a.find path = some id)
      (hlive : (a.file id).Live) (hsize : (a.file id).stage ≠ .wild → size = (a.file id).size) :
      Serves bs a (.getattr path) (.attr (some size)) a
  | readdirMissing {path : Bytes} (hroot : path ≠ [47]) : Serves bs a (.readdir path) (.code enoent) a
  | readdir : Serves bs a (.readdir [47]) (.names ([46] :: [46, 46] :: a.entries.map (·.filename))) a
  | createExisting {path id : Bytes} (hfind : a.find path = some id) :
      Serves bs a (.create path) (.code eexist) a
  | create {path : Bytes} (hfind : a.find path = none) (hlast : a.last + 1 < fdTableMax) (id : Bytes) :
      Serves bs a (.create path) (.handle (a.last + 1)) (a.addFile path.tail id)
  | openMissing {path : Bytes} (hfind : a.find path = none) :
      Serves bs a (.open path) (.code enoent) a
  | open {path id : Bytes} (hfind : a.find path = some id) (hlive : (a.file id).Live)
      (hlast : a.last + 1 < fdTableMax) :
      Serves bs a (.open path) (.handle (a.last + 1))
        ((a.setFile id { a.file id with refs := (a.file id).refs + 1 }).addHandle id)
  | readMissing {path : Bytes} {fh size offset : Nat} {buf : Mem} (hfh : 0 < fh)
      (htarget : a.target path fh = none) :
      Serves bs a (.read path fh buf size offset) (.code enoent) a
  | read {path id : Bytes} {fh size offset : Nat} {buf out : Mem} (hsize : 0 < size)
      (htarget : a.target path fh = some id) (hlive : (a.file id).Live)
      (hin : offset < (a.file id).size)
      (hout : ∀ i, i < min size ((a.file id).size - offset) → out i = (a.file id).bytes (offset + i)) :
      Serves bs a (.read path fh buf size offset)
        (.data out (min size ((a.file id).size - offset))) a
  | readEnd {path id : Bytes} {fh size offset : Nat} {buf : Mem}
      (htarget : a.target path fh = some id) (hlive : (a.file id).Live)
      (hend : (a.file id).size ≤ offset) :
      Serves bs a (.read path fh buf size offset) (.data buf 0) a
  | readWild {path id : Bytes} {fh size offset : Nat} {buf : Mem} (reply : Reply)
      (htarget : a.target path fh = some id) (hwild : (a.file id).stage = .wild) :
      Serves bs a (.read path fh buf size offset) reply a
  | writeMissing {path : Bytes} {fh size offset : Nat} {buf : Mem} (htarget : a.target path fh = none) :
      Serves bs a (.write path fh buf size offset) (.code enoent) a
  | write {path id : Bytes} {fh size offset : Nat} {buf : Mem} (hsize : 0 < size)
      (htarget : a.target path fh = some id) (hlive : (a.file id).Live) :
      Serves bs a (.write path fh buf size offset) (.code size)
        (a.setFile id ((a.file id).write bs buf size offset))
  | writeWild {path id : Bytes} {fh size offset : Nat} {buf : Mem} (reply : Reply)
      (htarget : a.target path fh = some id) (hwild : (a.file id).stage = .wild) :
      Serves bs a (.write path fh buf size offset) reply a
  | flushMissing {path : Bytes} {fh : Nat} (htarget : a.target path fh = none) :
      Serves bs a (.flush path fh) (.code enoent) a
  | flushShared {path id : Bytes} {fh : Nat} (htarget : a.target path fh = some id)
      (hrefs : 1 < (a.file id).refs) :
      Serves bs a (.flush path fh) (.code 0)
        (a.setFile id { a.file id with refs := (a.file id).refs - 1 })
  | flushLast {path id : Bytes} {fh : Nat} (htarget : a.target path fh = some id)
      (hrefs : (a.file id).refs = 1) :
      Serves bs a (.flush path fh) (.code 0)
        { a.setFile id (a.file id).close with
          handles := if 0 < fh then Function.update a.handles fh none else a.handles }

end PlainFs

/-! ## Fresh files grow block by block -/

namespace PlainFile

variable {bs : Nat} {f : PlainFile}

theorem grown_default (bs : Nat) : Grown bs {} := by
  refine ⟨0, rfl, ?_, fun _ _ => rfl⟩
  change 0 / bs ≤ 0
  rw [Nat.zero_div]

/-- A request moves no byte behind the block in which it ends. -/
theorem reach_le (hbs : 0 < bs) (start size : Nat) :
    start + reach bs start size ≤ ((start + size) / bs + 1) * bs := by
  have hlt : start + size < ((start + size) / bs + 1) * bs := by
    rw [Nat.mul_comm]
    exact Nat.lt_mul_div_succ (start + size) hbs
  unfold reach
  split <;> omega

theorem range_union_Icc {n st ed : Nat} (hst : st ≤ n) :
    Finset.range n ∪ Finset.Icc st ed = Finset.range (max n (ed + 1)) := by
  ext blk
  simp only [Finset.mem_union, Finset.mem_range, Finset.mem_Icc, lt_max_iff]
  omega

theorem Grown.write (h : f.Grown bs) (hbs : 0 < bs) (buf : Mem) (size offset : Nat) :
    (f.write bs buf size offset).Grown bs := by
  obtain ⟨n, hdirty, hsize, hzero⟩ := h
  have hstart : min offset f.size / bs ≤ n := (Nat.div_le_div_right (min_le_right _ _)).trans hsize
  refine ⟨max n ((min offset f.size + size) / bs + 1), ?_, ?_, ?_⟩
  · simp only [PlainFile.write, hdirty]
    exact range_union_Icc hstart
  · simp only [PlainFile.write]
    rcases max_cases f.size (min offset f.size + size) with ⟨hmax, -⟩ | ⟨hmax, -⟩
    · rw [hmax]
      exact hsize.trans (le_max_left _ _)
    · rw [hmax]
      exact (Nat.le_succ _).trans (le_max_right _ _)
  · intro pos hpos
    have hend := reach_le hbs (min offset f.size) size
    have hold : n * bs ≤ pos := (Nat.mul_le_mul_right bs (le_max_left _ _)).trans hpos
    have hnew : ((min offset f.size + size) / bs + 1) * bs ≤ pos :=
      (Nat.mul_le_mul_right bs (le_max_right _ _)).trans hpos
    simp only [PlainFile.write]
    rw [if_neg (by omega), hzero pos hold]

end PlainFile

end DcfsClient
