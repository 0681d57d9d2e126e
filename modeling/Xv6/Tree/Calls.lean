import Xv6.Files.Directory
import Xv6.Structures.Wp

set_option autoImplicit false

/-! # The system calls on the tree of directories

`sys_open`, `sys_mkdir`, `sys_mknod`, `sys_link`, `sys_unlink`, `sys_chdir`, `sys_close` and
`sys_dup`, with `create`, `namex` and the functions on inodes that they use, and what `fork` and
`exit` do to open files and current directories. A call is taken as a whole, as it is when the calls
come one after the other: the locks are then free, and an inode in memory is as on the disk. What is
kept of the table of inodes is the number of references and whether the entry has been read, and of
the block bitmap, which blocks of an inode have a block of the disk: `bmap` gives one to a block
that has none, also when it is only read.

A directory is the list of its entries: `dirlookup` and `dirlink` are on the list what
`Xv6.Files.Directory` has on the bytes of the file (`lookup_file`, `addEntry_file`). -/

namespace Xv6.Tree

open Files Function Structures

abbrev NOFILE : Nat := 16

abbrev NFILE : Nat := 100

def NDEV : Nat := 10

def ROOTINO : Nat := 1

/-- The type of an inode; the type 0 of a free inode is the absence of a `Node`. -/
inductive Kind
  | dir
  | file
  | device
deriving DecidableEq

structure Node where
  kind : Kind
  major : BitVec 16 := 0
  minor : BitVec 16 := 0
  nlink : BitVec 16 := 0
  ents : List Dirent := []
  data : List Byte := []

inductive FdType
  | none
  | inode
  | device
deriving DecidableEq

/-- `struct file`. -/
structure File where
  ref : Nat := 0
  type : FdType := .none
  ip : Nat := 0
  off : Nat := 0
  readable : Bool := false
  writable : Bool := false
  major : BitVec 16 := 0
deriving DecidableEq

/-- The inodes on the disk and in memory, the blocks of the inodes that are allocated on the disk,
    the current directories and descriptors of the processes `P`, and the table of open files. -/
structure Fs (P : Type) where
  node : Nat → Option Node
  blocks : Nat → Nat → Bool
  ref : Nat → Nat
  valid : Nat → Bool
  cwd : P → Option Nat
  ofile : P → Fin NOFILE → Option (Fin NFILE)
  ftable : Fin NFILE → File

/-! ## Entries -/

/-- Whether `dirlookup` takes the entry. -/
def fits (name : List Byte) (e : Dirent) : Bool := e.inum ≠ 0 && namecmp name e.name = 0

/-- `dirlookup` from the entry `k` on: the inode number, and which entry it is. -/
def lookupFrom (name : List Byte) : Nat → List Dirent → Option (Nat × Nat)
  | _, [] => none
  | k, e :: es => if fits name e then some (e.inum, k) else lookupFrom name (k + 1) es

def lookup (name : List Byte) (ents : List Dirent) : Option (Nat × Nat) := lookupFrom name 0 ents

/-- The entry that `dirlink` writes. -/
def newEntry (name : List Byte) (inum : Nat) : Dirent :=
  ⟨inum % 2 ^ 16, strncpy name DIRSIZ, Nat.mod_lt _ (by decide), strncpy_length _ _⟩

theorem newEntry_bytes (name : List Byte) {inum : Nat} (h : inum < 2 ^ 16) :
    (newEntry name inum).bytes = linkBytes name inum := by
  unfold linkBytes Dirent.bytes newEntry
  simp only [Nat.mod_eq_of_lt h]

/-- The entry is written over the first free one, or behind the last. -/
def addEntry (e : Dirent) : List Dirent → List Dirent
  | [] => [e]
  | e' :: es => if e'.inum = 0 then e :: es else e' :: addEntry e es

/-- The number of entries of the largest directory. -/
def maxEntries : Nat := MAXFILE * BSIZE / DIRENT

/-- `isdirempty`: no entry is in use behind the first two. -/
def isdirempty (ents : List Dirent) : Bool := (ents.drop 2).all fun e => e.inum = 0

/-- How many entries `dirlookup` reads. -/
def scanned (name : List Byte) (ents : List Dirent) : Nat :=
  match lookup name ents with
  | some (_, k) => k + 1
  | none => ents.length

/-- The entry behind the last one that `isdirempty` reads, if the inode is a directory. -/
def emptyScan (n : Node) : Nat :=
  if n.kind = .dir then min n.ents.length (2 + (n.ents.drop 2).findIdx (·.inum ≠ 0) + 1) else 0

/-- The entries of one block. -/
def perBlock : Nat := BSIZE / DIRENT

/-! ## Paths -/

def slash : Byte := 47

/-- The elements that `skipelem` takes from a path one after the other, cut to fourteen bytes. -/
def elementsFrom : Nat → List Byte → List (List Byte)
  | 0, _ => []
  | fuel + 1, path =>
    let path := path.dropWhile (· = slash)
    if path = [] then []
    else (path.takeWhile (· ≠ slash)).take DIRSIZ :: elementsFrom fuel (path.dropWhile (· ≠ slash))

def elements (path : List Byte) : List (List Byte) := elementsFrom path.length path

/-! ## Inodes -/

variable {P : Type}

abbrev Call (P α : Type) : Type := Prog (Fs P) String α

def change (g : Fs P → Fs P) : Call P Unit := fun s => .ok ((), g s)

/-- `bmap` for the blocks with the entries from `a` to before `b` of the inode `i`. -/
def touch (blocks : Nat → Nat → Bool) (i a b : Nat) : Nat → Nat → Bool := fun j k =>
  blocks j k || (j = i && a < b && a / perBlock ≤ k && perBlock * k < b)

/-- `readi` or `writei` of these entries. -/
def access (i a b : Nat) : Call P Unit := change fun s => { s with blocks := touch s.blocks i a b }

def iget (i : Nat) : Call P Unit := change fun s =>
  { s with
    ref := update s.ref i (s.ref i + 1)
    valid := if s.ref i = 0 then update s.valid i false else s.valid }

def idup (i : Nat) : Call P Unit := change fun s => { s with ref := update s.ref i (s.ref i + 1) }

/-- `ilock`, with the fields of the inode as its result. -/
def ilock (i : Nat) : Call P Node := fun s =>
  match s.node i with
  | none => .error "ilock: no type"
  | some n => .ok (n, { s with valid := update s.valid i true })

/-- The fields of an inode that is locked. -/
def fields (i : Nat) : Call P Node := fun s =>
  match s.node i with
  | none => .error "free inode"
  | some n => .ok (n, s)

/-- Whether `iput` frees the inode. -/
def Fs.frees (s : Fs P) (i : Nat) : Bool :=
  s.ref i = 1 && s.valid i && (s.node i).any fun n => n.nlink = 0

/-- The blocks after `itrunc`. -/
def freeBlocks (blocks : Nat → Nat → Bool) (i : Nat) : Nat → Nat → Bool := update blocks i fun _ => false

def iput (i : Nat) : Call P Unit := change fun s =>
  if s.frees i then
    { s with
      node := update s.node i none
      blocks := freeBlocks s.blocks i
      valid := update s.valid i false
      ref := update s.ref i (s.ref i - 1) }
  else { s with ref := update s.ref i (s.ref i - 1) }

/-- Fields of a locked inode are changed, and `iupdate`. -/
def setNode (i : Nat) (n : Node) : Call P Unit := change fun s => { s with node := update s.node i n }

def itrunc (i : Nat) (n : Node) : Call P Unit := change fun s =>
  { s with node := update s.node i (some { n with data := [] }), blocks := freeBlocks s.blocks i }

def ialloc (ninodes : Nat) (kind : Kind) : Call P Nat := fun s =>
  match (List.range ninodes).find? fun i => 0 < i && (s.node i).isNone with
  | none => .error "ialloc: no inodes"
  | some i => (do setNode i { kind }; iget i; pure i : Call P Nat) s

/-- `dirlink` to the directory `d`, which is locked. -/
def dirlink (d : Nat) (name : List Byte) (inum : Nat) : Call P Int := do
  let dp ← fields d
  access d 0 (scanned name dp.ents)
  match lookup name dp.ents with
  | some (i, _) =>
    iget i
    iput i
    pure (-1)
  | none =>
    if dp.ents.all (fun e => e.inum ≠ 0) ∧ maxEntries ≤ dp.ents.length then throw "dirlink"
    else
      setNode d { dp with ents := addEntry (newEntry name inum) dp.ents }
      let k := dp.ents.findIdx (·.inum = 0)
      access d k (k + 1)
      pure 0

/-- The loop of `namex` from the inode `ip`, to which it has a reference. -/
def namexFrom (parent : Bool) : Nat → List (List Byte) → Call P (Option (Nat × List Byte))
  | ip, [] =>
    if parent then do
      iput ip
      pure none
    else pure (some (ip, []))
  | ip, name :: rest => do
      let n ← ilock ip
      if n.kind ≠ .dir then
        iput ip
        pure none
      else if parent ∧ rest = [] then pure (some (ip, name))
      else
        access ip 0 (scanned name n.ents)
        match lookup name n.ents with
        | none =>
          iput ip
          pure none
        | some (next, _) =>
          iget next
          iput ip
          namexFrom parent next rest

/-- `namex`, by a process whose current directory is `cwd`. -/
def namex (cwd : Nat) (parent : Bool) (path : List Byte) : Call P (Option (Nat × List Byte)) := do
  if path.head? = some slash then
    iget ROOTINO
    namexFrom parent ROOTINO (elements path)
  else
    idup cwd
    namexFrom parent cwd (elements path)

/-! ## create -/

/-- The new inode, with its first link, and its entries if it is a directory. -/
def fill (ip d : Nat) (kind : Kind) (major minor : BitVec 16) : Call P Unit := do
  let n ← ilock ip
  setNode ip { n with major := major, minor := minor, nlink := 1 }
  if kind = .dir then
    let dp ← fields d
    setNode d { dp with nlink := dp.nlink + 1 }
    let r ← dirlink ip dot ip
    let r' ← dirlink ip dotdot d
    if r < 0 ∨ r' < 0 then throw "create dots" else pure ()
  else pure ()

def create (ninodes cwd : Nat) (path : List Byte) (kind : Kind) (major minor : BitVec 16) :
    Call P (Option Nat) := do
  match ← namex cwd true path with
  | none => pure none
  | some (d, name) =>
    let dp ← ilock d
    access d 0 (scanned name dp.ents)
    match lookup name dp.ents with
    | some (ip, _) =>
      iget ip
      iput d
      let n ← ilock ip
      if kind = .file ∧ (n.kind = .file ∨ n.kind = .device) then pure (some ip)
      else
        iput ip
        pure none
    | none =>
      let ip ← ialloc ninodes kind
      fill ip d kind major minor
      let r ← dirlink d name ip
      if r < 0 then throw "create: dirlink"
      else
        iput d
        pure (some ip)

/-! ## Open files -/

def filealloc : Call P (Option (Fin NFILE)) := fun s =>
  match (List.finRange NFILE).find? fun f => (s.ftable f).ref = 0 with
  | none => .ok (none, s)
  | some f => .ok (some f, { s with ftable := update s.ftable f { s.ftable f with ref := 1 } })

variable [DecidableEq P]

def fdalloc (p : P) (f : Fin NFILE) : Call P (Option (Fin NOFILE)) := fun s =>
  match (List.finRange NOFILE).find? fun fd => s.ofile p fd = none with
  | none => .ok (none, s)
  | some fd =>
    .ok (some fd, { s with ofile := update s.ofile p (update (s.ofile p) fd (some f)) })

def fileclose (f : Fin NFILE) : Call P Unit := fun s =>
  let ff := s.ftable f
  if ff.ref < 1 then .error "fileclose"
  else if ff.ref - 1 > 0 then
    .ok ((), { s with ftable := update s.ftable f { ff with ref := ff.ref - 1 } })
  else
    let s := { s with ftable := update s.ftable f { ff with ref := 0, type := .none } }
    if ff.type = .none then .ok ((), s) else iput ff.ip s

def filedup (f : Fin NFILE) : Call P Unit := fun s =>
  if (s.ftable f).ref < 1 then .error "filedup"
  else .ok ((), { s with ftable := update s.ftable f { s.ftable f with ref := (s.ftable f).ref + 1 } })

/-! ## System calls -/

/-- The flags of `sys_open` that matter: `O_WRONLY`, `O_RDWR`, `O_CREATE`, `O_TRUNC`. -/
structure Mode where
  wronly : Bool := false
  rdwr : Bool := false
  create : Bool := false
  trunc : Bool := false
  /-- Another bit is set. -/
  other : Bool := false

/-- `omode == O_RDONLY`. -/
def Mode.rdonly (m : Mode) : Bool := !m.wronly && !m.rdwr && !m.create && !m.trunc && !m.other

/-- The fields that `sys_open` sets. -/
def File.opened (f : File) (n : Node) (ip : Nat) (m : Mode) : File :=
  { f with
    type := if n.kind = .device then .device else .inode
    major := if n.kind = .device then n.major else f.major
    off := if n.kind = .device then f.off else 0
    ip := ip
    readable := !m.wronly
    writable := m.wronly || m.rdwr }

/-- `sys_open` once it has the inode, locked. -/
def openNode (p : P) (ip : Nat) (m : Mode) : Call P Int := do
  let n ← fields ip
  if n.kind = .device ∧ (n.major.toInt < 0 ∨ n.major.toInt ≥ NDEV) then
    iput ip
    pure (-1)
  else
    match ← filealloc with
    | none =>
      iput ip
      pure (-1)
    | some f =>
      match ← fdalloc p f with
      | none =>
        fileclose f
        iput ip
        pure (-1)
      | some fd =>
        change fun s => { s with ftable := update s.ftable f ((s.ftable f).opened n ip m) }
        if m.trunc ∧ n.kind = .file then
          itrunc ip n
          pure fd
        else pure fd

def sysOpen (ninodes : Nat) (p : P) (cwd : Nat) (path : List Byte) (m : Mode) : Call P Int := do
  if m.create then
    match ← create ninodes cwd path .file 0 0 with
    | none => pure (-1)
    | some ip => openNode p ip m
  else
    match ← namex cwd false path with
    | none => pure (-1)
    | some (ip, _) =>
      let n ← ilock ip
      if n.kind = .dir ∧ m.rdonly = false then
        iput ip
        pure (-1)
      else openNode p ip m

/-- `sys_mkdir` and `sys_mknod`. -/
def sysMake (ninodes cwd : Nat) (path : List Byte) (kind : Kind) (major minor : BitVec 16) : Call P Int := do
  match ← create ninodes cwd path kind major minor with
  | none => pure (-1)
  | some ip =>
    iput ip
    pure 0

/-- The end of `sys_link` when it fails: the link count is put back. -/
def unlinkBack (ip : Nat) : Call P Int := do
  let n ← ilock ip
  setNode ip { n with nlink := n.nlink - 1 }
  iput ip
  pure (-1)

def sysLink (cwd : Nat) (old new : List Byte) : Call P Int := do
  match ← namex cwd false old with
  | none => pure (-1)
  | some (ip, _) =>
    let n ← ilock ip
    if n.kind = .dir then
      iput ip
      pure (-1)
    else
      setNode ip { n with nlink := n.nlink + 1 }
      match ← namex cwd true new with
      | none => unlinkBack ip
      | some (d, name) =>
        let _ ← ilock d
        let r ← dirlink d name ip
        if r < 0 then
          iput d
          unlinkBack ip
        else
          iput d
          iput ip
          pure 0

/-- `sys_unlink` once it has the directory and the entry `k` of the inode. -/
def removeEntry (d ip k : Nat) : Call P Int := do
  let n ← ilock ip
  if n.nlink.toInt < 1 then throw "unlink: nlink < 1"
  else
    access ip 2 (emptyScan n)
    if n.kind = .dir ∧ isdirempty n.ents = false then
      iput ip
      iput d
      pure (-1)
    else
      -- the block of the entry has just been read
      let dp ← fields d
      setNode d { dp with
        ents := dp.ents.set k Dirent.zero
        nlink := if n.kind = .dir then dp.nlink - 1 else dp.nlink }
      iput d
      let n ← fields ip
      setNode ip { n with nlink := n.nlink - 1 }
      iput ip
      pure 0

def sysUnlink (cwd : Nat) (path : List Byte) : Call P Int := do
  match ← namex cwd true path with
  | none => pure (-1)
  | some (d, name) =>
    let dp ← ilock d
    if namecmp name dot = 0 ∨ namecmp name dotdot = 0 then
      iput d
      pure (-1)
    else
      access d 0 (scanned name dp.ents)
      match lookup name dp.ents with
      | none =>
        iput d
        pure (-1)
      | some (ip, k) =>
        iget ip
        removeEntry d ip k

def setCwd (p : P) (i : Option Nat) : Call P Unit := change fun s => { s with cwd := update s.cwd p i }

def sysChdir (p : P) (cwd : Nat) (path : List Byte) : Call P Int := do
  match ← namex cwd false path with
  | none => pure (-1)
  | some (ip, _) =>
    let n ← ilock ip
    if n.kind ≠ .dir then
      iput ip
      pure (-1)
    else
      iput cwd
      setCwd p (some ip)
      pure 0

def setFd (p : P) (fd : Fin NOFILE) (f : Option (Fin NFILE)) : Call P Unit :=
  change fun s => { s with ofile := update s.ofile p (update (s.ofile p) fd f) }

def sysClose (p : P) (fd : Fin NOFILE) : Call P Int := fun s =>
  match s.ofile p fd with
  | none => .ok (-1, s)
  | some f => (do setFd p fd none; fileclose f; pure 0 : Call P Int) s

def sysDup (p : P) (fd : Fin NOFILE) : Call P Int := fun s =>
  match s.ofile p fd with
  | none => .ok (-1, s)
  | some f =>
    (do
      match ← fdalloc p f with
      | none => pure (-1)
      | some fd' =>
        filedup f
        pure fd' : Call P Int) s

/-- `exit` closes the descriptors from `fds` on and gives up the current directory. -/
def exitFiles (p : P) (cwd : Nat) : List (Fin NOFILE) → Call P Unit
  | [] => do
      iput cwd
      setCwd p none
  | fd :: fds => fun s =>
    match s.ofile p fd with
    | none => exitFiles p cwd fds s
    | some f =>
      (do
        fileclose f
        setFd p fd none
        exitFiles p cwd fds : Call P Unit) s

/-- `fork` duplicates the descriptors and the current directory for the child `np`. -/
def forkFiles (p np : P) (cwd : Nat) : List (Fin NOFILE) → Call P Unit
  | [] => do
      idup cwd
      setCwd np (some cwd)
  | fd :: fds => fun s =>
    match s.ofile p fd with
    | none => forkFiles p np cwd fds s
    | some f =>
      (do
        filedup f
        setFd np fd (some f)
        forkFiles p np cwd fds : Call P Unit) s

inductive Req (P : Type)
  | open_ (path : List Byte) (m : Mode)
  | mkdir (path : List Byte)
  | mknod (path : List Byte) (major minor : BitVec 16)
  | link (old new : List Byte)
  | unlink (path : List Byte)
  | chdir (path : List Byte)
  | close (fd : Fin NOFILE)
  | dup (fd : Fin NOFILE)
  | exit
  | fork (np : P)

/-- A call of the process `p` with the current directory `cwd`, and its result. -/
def request (ninodes : Nat) (p : P) (cwd : Nat) : Req P → Call P Int
  | .open_ path m => sysOpen ninodes p cwd path m
  | .mkdir path => sysMake ninodes cwd path .dir 0 0
  | .mknod path major minor => sysMake ninodes cwd path .device major minor
  | .link old new => sysLink cwd old new
  | .unlink path => sysUnlink cwd path
  | .chdir path => sysChdir p cwd path
  | .close fd => sysClose p fd
  | .dup fd => sysDup p fd
  | .exit => do
      exitFiles p cwd (List.finRange NOFILE)
      pure 0
  | .fork np => do
      forkFiles p np cwd (List.finRange NOFILE)
      pure 0

end Xv6.Tree
