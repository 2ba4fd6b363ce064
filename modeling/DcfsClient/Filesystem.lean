import DcfsClient.RecordCache

/-!
# The FUSE callbacks: `dcfs.cpp`, `dir.cpp` and the inode table of `inode.cpp`

`Fs` is the state of one mount. A pointer to an inode is the hashname under which the inode table
holds it; a null pointer is `none`. Paths and file names are C strings, a path being a slash followed
by the name. The handle counter and the handle table are those of the source: indexing the table
from `FD_TABLE_MAX` on is undefined behaviour.

A `Callback` is one request of the kernel, and `Callback.run` the function that serves it. What the
world contributes to the call is put in place with `Fs.withEnv`.
-/

namespace DcfsClient

structure DirectoryEntry where
  filename : Bytes
  hashname : Bytes
  deriving DecidableEq

structure Directory where
  entries : List DirectoryEntry := []
  it : Nat := 0

namespace Directory

def initReaddir (d : Directory) : Directory := { d with it := 0 }

def readdir (d : Directory) : Option DirectoryEntry × Directory :=
  if d.it = d.entries.length then (none, { d with it := 0 })
  else (d.entries[d.it]?, { d with it := d.it + 1 })

def addent (d : Directory) (ent : DirectoryEntry) : Directory :=
  { entries := d.entries ++ [ent], it := 0 }

/-- The `while` loop of the lookups; the fuel bounds its iterations. -/
def findLoop (name : Bytes) : Nat → Directory → Option DirectoryEntry × Directory
  | 0, d => (none, d)
  | fuel + 1, d =>
    match d.readdir with
    | (none, d') => (none, d')
    | (some ent, d') => if name = ent.filename then (some ent, d') else findLoop name fuel d'

def lookup (d : Directory) (name : Bytes) : Option DirectoryEntry × Directory :=
  d.initReaddir.findLoop name (d.entries.length + 1)

def listLoop : Nat → Directory → List Bytes × Directory
  | 0, d => ([], d)
  | fuel + 1, d =>
    match d.readdir with
    | (none, d') => ([], d')
    | (some ent, d') => let (names, d'') := listLoop fuel d'; (ent.filename :: names, d'')

end Directory

structure Fs where
  be : Backend := {}
  inodeTable : Bytes → Option Inode := fun _ => none
  root : Directory := {}
  fdCnt : Nat := 10
  fdTable : Nat → Bytes := fun _ => []
  blockSizeInKb : Nat := defaultBlockSizeInKb

abbrev FsM := Exec ErrT Abort Fs

def enoent : Int := -2
def eio : Int := -5
def enomem : Int := -12
def eexist : Int := -17

inductive Reply where
  | code (ret : Int)
  | handle (fh : Nat)
  | attr (size : Option Nat)
  | names (l : List Bytes)
  | data (buf : Mem) (size : Nat)

namespace Fs

variable (P : Platform)

def putInode (fs : Fs) (hashname : Bytes) (ino : Inode) : Fs :=
  { fs with inodeTable := Function.update fs.inodeTable hashname (some ino) }

def eraseInode (fs : Fs) (hashname : Bytes) : Fs :=
  { fs with inodeTable := Function.update fs.inodeTable hashname none }

def onStorage {α : Type} (m : BackendM α) : FsM α :=
  Exec.zoom Fs.be (fun be fs => { fs with be := be }) m

/-- A method call through the pointer `hashname`. -/
def onSession {α : Type} (hashname : Bytes) (m : CacheM α) : FsM α := do
  let fs ← get
  let ino ← Exec.orAbort (fs.inodeTable hashname) .undefined
  Exec.zoom (fun fs => ⟨ino, fs.be⟩)
    (fun s fs => { fs with be := s.be }.putInode hashname s.ino) m

def allocateInode : FsM (Option Bytes) := do
  let err ← Exec.attempt (onStorage (StorageBackend.createNewFile P))
  match err with
  | .error _ => pure none
  | .ok (hashname, aesKey) => do
    modify fun fs => fs.putInode hashname
      (Inode.fresh hashname fs.blockSizeInKb blockmapCover aesKey)
    pure (some hashname)

def getInode (hashname : Bytes) : FsM (Option Bytes) := do
  let fs ← get
  match fs.inodeTable hashname with
  | some _ => pure (some hashname)
  | none => do
    let err ← Exec.attempt (onStorage (StorageBackend.readFileMeta P hashname))
    match err with
    | .error _ => pure none
    | .ok m => do
      modify fun fs => fs.putInode hashname (Inode.load hashname m.recordname m.blockmapHash
        fs.blockSizeInKb blockmapCover m.isize m.aesKey)
      pure (some hashname)

def releaseInode (hashname : Bytes) : FsM Unit := modify (·.eraseInode hashname)

def lookup (name : Bytes) : FsM (Option DirectoryEntry) :=
  modifyGet fun fs => ((fs.root.lookup name).1, { fs with root := (fs.root.lookup name).2 })

/-- `fd = ++fd_cnt; fd_table[fd] = hashname`. -/
def newHandle (hashname : Bytes) : FsM Nat := do
  let fs ← get
  Exec.check (fs.fdCnt + 1 < fdTableMax) .undefined
  set { fs with fdCnt := fs.fdCnt + 1
                fdTable := Function.update fs.fdTable (fs.fdCnt + 1) hashname }
  pure (fs.fdCnt + 1)

/-- The inode a request is about: by handle, or by path when there is none. The variable keeps its
initial value when the path is unknown. -/
def resolve (path : Bytes) (fh : Nat) (initial : FsM (Option Bytes)) : FsM (Option Bytes) :=
  if 0 < fh then do
    Exec.check (fh < fdTableMax) .undefined
    let fs ← get
    getInode P (fs.fdTable fh)
  else do
    let ent ← lookup path.tail
    match ent with
    | none => initial
    | some ent => getInode P ent.hashname

def dcfsGetattr (path : Bytes) : FsM Reply :=
  if path = [47] then pure (.attr none)
  else do
    let ent ← lookup path.tail
    match ent with
    | none => pure (.code enoent)
    | some ent => do
      let inode ← getInode P ent.hashname
      let hashname ← Exec.orAbort inode .undefined
      let fs ← get
      let ino ← Exec.orAbort (fs.inodeTable hashname) .undefined
      pure (.attr (some ino.size))

def dcfsReaddir (path : Bytes) : FsM Reply :=
  if path ≠ [47] then pure (.code enoent)
  else modifyGet fun fs =>
    let (names, root) := fs.root.initReaddir.listLoop (fs.root.entries.length + 1)
    (.names ([46] :: [46, 46] :: names), { fs with root := root })

def dcfsCreate (path : Bytes) : FsM Reply := do
  let ent ← lookup path.tail
  match ent with
  | some _ => pure (.code eexist)
  | none => do
    let inode ← allocateInode P
    match inode with
    | none => pure (.code enomem)
    | some hashname => do
      onSession hashname (onInode Inode.ref)
      modify fun fs => { fs with root := fs.root.addent ⟨path.tail, hashname⟩ }
      let fd ← newHandle hashname
      pure (.handle fd)

def dcfsOpen (path : Bytes) : FsM Reply := do
  let ent ← lookup path.tail
  match ent with
  | none => pure (.code enoent)
  | some ent => do
    let inode ← getInode P ent.hashname
    match inode with
    | none => pure (.code enoent)
    | some hashname => do
      onSession hashname (onInode Inode.ref)
      let fd ← newHandle hashname
      pure (.handle fd)

/-- The pointer of `dcfs_read` is not initialised. -/
def dcfsRead (path : Bytes) (fh : Nat) (buf : Mem) (size offset : Nat) : FsM Reply := do
  let inode ← resolve P path fh (Exec.abort .undefined)
  match inode with
  | none => pure (.code enoent)
  | some hashname => do
    let fs ← get
    let ino ← Exec.orAbort (fs.inodeTable hashname) .undefined
    if offset < ino.size then do
      let size' := if ino.size < u64 (offset + size) then ino.size - offset else size
      let err ← Exec.attempt (onSession hashname (Inode.read P buf offset size'))
      match err with
      | .error _ => pure (.code eio)
      | .ok (buf', _) => pure (.data buf' size')
    else pure (.data buf 0)

def dcfsWrite (path : Bytes) (fh : Nat) (buf : Mem) (size offset : Nat) : FsM Reply := do
  let inode ← resolve P path fh (pure none)
  match inode with
  | none => pure (.code enoent)
  | some hashname => do
    let err ← Exec.attempt (onSession hashname (Inode.write P buf offset size))
    match err with
    | .error _ => pure (.code eio)
    | .ok _ => pure (.code size)

/-- The table entry is cleared with the inode. The source also clears `fi->fh`, which FUSE does not
take back from a flush. -/
def dcfsFlush (path : Bytes) (fh : Nat) : FsM Reply := do
  let inode ← resolve P path fh (pure none)
  match inode with
  | none => pure (.code enoent)
  | some hashname => do
    let cnt ← onSession hashname (Inode.unref P)
    if cnt = 0 then do
      releaseInode hashname
      modify fun fs =>
        if 0 < fh then { fs with fdTable := Function.update fs.fdTable fh [] } else fs
      pure (.code 0)
    else pure (.code 0)

end Fs

inductive Callback where
  | getattr (path : Bytes)
  | readdir (path : Bytes)
  | create (path : Bytes)
  | open (path : Bytes)
  | read (path : Bytes) (fh : Nat) (buf : Mem) (size offset : Nat)
  | write (path : Bytes) (fh : Nat) (buf : Mem) (size offset : Nat)
  | flush (path : Bytes) (fh : Nat)

def Callback.run (P : Platform) : Callback → FsM Reply
  | .getattr path => Fs.dcfsGetattr P path
  | .readdir path => Fs.dcfsReaddir path
  | .create path => Fs.dcfsCreate P path
  | .open path => Fs.dcfsOpen P path
  | .read path fh buf size offset => Fs.dcfsRead P path fh buf size offset
  | .write path fh buf size offset => Fs.dcfsWrite P path fh buf size offset
  | .flush path fh => Fs.dcfsFlush P path fh

def Fs.withEnv (fs : Fs) (e : Env) : Fs := { fs with be := { fs.be with env := e } }

end DcfsClient
