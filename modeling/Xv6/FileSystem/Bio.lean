import Xv6.Structures.Ring

set_option autoImplicit false

/-! # The buffer cache

`bio.c`: the table of buffers, linked in the order of their last use, and the calls by which threads
get at the blocks of the disk. What happens with `bcache.lock` held is one step (`bget`, the second
half of `brelse`, `bpin`, `bunpin`); taking and giving back a buffer's sleep lock and the transfers
between buffer and disk are steps of their own, so that the calls of any number of threads
interleave in any order (`Cache.step`).

The threads appear through what they refer to: a list with one entry for each buffer that a thread
has got from `bget` and not given back by `brelse` (`Use`), and the number of `bpin`s of each buffer
that no `bunpin` has undone yet. A step whose caller does not keep to the lock protocol cannot be
taken. -/

namespace Xv6.Fs

open Function Structures

/-- The most blocks that one file system call writes. -/
abbrev MAXOPBLOCKS : Nat := 10

/-- The size of the log in memory. -/
abbrev LOGSIZE : Nat := MAXOPBLOCKS * 3

/-- The size of the cache. -/
abbrev NBUF : Nat := MAXOPBLOCKS * 3

def ROOTDEV : BitVec 32 := 1

/-- The words of a block, `BSIZE / sizeof(uint)` of them. -/
abbrev NWORD : Nat := 256

abbrev BlockNo := BitVec 32

abbrev Block := Fin NWORD → BitVec 32

abbrev BufIdx := Fin NBUF

instance : NeZero NBUF := ⟨by decide⟩

instance : LawfulBEq BlockNo := inferInstance

/-- `struct buf`, without its links and its sleep lock. -/
structure Buf where
  valid : Bool := false
  dev : BitVec 32 := 0
  blockno : BlockNo := 0
  refcnt : Nat := 0
  data : Block := fun _ => 0

/-- `bcache`: the buffers, and the links of the buffers and the head. -/
structure Bcache where
  buf : BufIdx → Buf
  links : Links BufIdx

namespace Bcache

variable (c : Bcache)

def mod (b : BufIdx) (f : Buf → Buf) : Bcache :=
  { c with buf := update c.buf b (f (c.buf b)) }

@[simp] theorem mod_buf (b b' : BufIdx) (f : Buf → Buf) :
    (c.mod b f).buf b' = if b' = b then f (c.buf b) else c.buf b' := by
  simp [mod, update_apply]

/-- The loop of `bget` that looks for the block. -/
def lookup (dev : BitVec 32) (blockno : BlockNo) : Option BufIdx :=
  scan c.links.next (fun b => decide ((c.buf b).dev = dev ∧ (c.buf b).blockno = blockno)) (NBUF + 1)
    (c.links.next none)

/-- The loop of `bget` that looks for an unused buffer. -/
def victim : Option BufIdx :=
  scan c.links.prev (fun b => decide ((c.buf b).refcnt = 0)) (NBUF + 1) (c.links.prev none)

/-- The critical section of `bget`; `none` is the panic "bget: no buffers". -/
def bget (dev : BitVec 32) (blockno : BlockNo) : Option (BufIdx × Bcache) :=
  match c.lookup dev blockno with
  | some b => some (b, c.mod b fun x => { x with refcnt := x.refcnt + 1 })
  | none =>
    match c.victim with
    | some b =>
      some (b, c.mod b fun x =>
        { x with dev := dev, blockno := blockno, valid := false, refcnt := 1 })
    | none => none

/-- The critical section of `brelse`. -/
def unref (b : BufIdx) : Bcache :=
  let c := c.mod b fun x => { x with refcnt := x.refcnt - 1 }
  if (c.buf b).refcnt = 0 then { c with links := (c.links.unlink b).pushFront b } else c

def bpin (b : BufIdx) : Bcache := c.mod b fun x => { x with refcnt := x.refcnt + 1 }

def bunpin (b : BufIdx) : Bcache := c.mod b fun x => { x with refcnt := x.refcnt - 1 }

end Bcache

/-- `binit`: all buffers in the list, the last one first. -/
def binit : Bcache :=
  { buf := fun _ => {}, links := (List.finRange NBUF).foldl Links.pushFront Links.empty }

/-! ## Threads -/

/-- How far a thread is with a buffer: it waits for the sleep lock, has it and has yet to see
    whether the data are there, has come back from `bread`, or has given the lock back in
    `brelse`. -/
inductive Phase where
  | waiting | locked | ready | releasing
  deriving DecidableEq, Repr

/-- The thread has the sleep lock. -/
def Phase.holds : Phase → Bool
  | .locked | .ready => true
  | _ => false

/-- A reference of a thread to a buffer. -/
structure Use (T : Type) where
  thread : T
  buf : BufIdx
  phase : Phase
  deriving DecidableEq

instance {T : Type} [DecidableEq T] : LawfulBEq (Use T) := inferInstance

/-- The cache, the disk behind it, the owners of the buffers' sleep locks and who refers to them. -/
structure Cache (T : Type) where
  bc : Bcache
  owner : BufIdx → Option T
  uses : List (Use T)
  pins : BufIdx → Nat
  disk : BlockNo → Block

/-- The steps of the calls on blocks of the root device. -/
inductive CacheAct (T : Type) where
  | bget (t : T) (blockno : BlockNo)
  /-- `acquiresleep` at the end of `bget`. -/
  | acquire (t : T) (b : BufIdx)
  /-- The rest of `bread`: read the block unless the buffer is valid. -/
  | fill (t : T) (b : BufIdx)
  /-- The caller changes the data. -/
  | store (t : T) (b : BufIdx) (data : Block)
  | bwrite (t : T) (b : BufIdx)
  /-- `releasesleep` in `brelse`. -/
  | release (t : T) (b : BufIdx)
  /-- The rest of `brelse`. -/
  | unref (t : T) (b : BufIdx)
  | bpin (t : T) (b : BufIdx)
  | bunpin (b : BufIdx)

variable {T : Type} [DecidableEq T]

/-- Thread `t` goes on with buffer `b`. -/
def Cache.move (c : Cache T) (t : T) (b : BufIdx) (p q : Phase) : Cache T :=
  { c with uses := ⟨t, b, q⟩ :: c.uses.erase ⟨t, b, p⟩ }

/-- One step of a thread in the buffer cache; `none` if it has to wait, panics, or would break the
    lock protocol. -/
def Cache.step (c : Cache T) : CacheAct T → Option (Cache T)
  | .bget t x =>
    match c.bc.bget ROOTDEV x with
    | some (b, bc) => some { c with bc := bc, uses := ⟨t, b, .waiting⟩ :: c.uses }
    | none => none
  | .acquire t b =>
    if ⟨t, b, .waiting⟩ ∈ c.uses ∧ c.owner b = none then
      some { c.move t b .waiting .locked with owner := update c.owner b (some t) }
    else none
  | .fill t b =>
    if ⟨t, b, .locked⟩ ∈ c.uses then
      some { c.move t b .locked .ready with
        bc := if (c.bc.buf b).valid then c.bc
          else c.bc.mod b fun x => { x with valid := true, data := c.disk x.blockno } }
    else none
  | .store t b data =>
    if ⟨t, b, .ready⟩ ∈ c.uses then
      some { c with bc := c.bc.mod b fun x => { x with data := data } }
    else none
  | .bwrite t b =>
    if ⟨t, b, .ready⟩ ∈ c.uses then
      some { c with disk := update c.disk (c.bc.buf b).blockno (c.bc.buf b).data }
    else none
  | .release t b =>
    if ⟨t, b, .ready⟩ ∈ c.uses then
      some { c.move t b .ready .releasing with owner := update c.owner b none }
    else none
  | .unref t b =>
    if ⟨t, b, .releasing⟩ ∈ c.uses then
      some { c with bc := c.bc.unref b, uses := c.uses.erase ⟨t, b, .releasing⟩ }
    else none
  | .bpin t b =>
    if ⟨t, b, .ready⟩ ∈ c.uses then
      some { c with bc := c.bc.bpin b, pins := update c.pins b (c.pins b + 1) }
    else none
  | .bunpin b =>
    if 0 < c.pins b then
      some { c with bc := c.bc.bunpin b, pins := update c.pins b (c.pins b - 1) }
    else none

/-- The cache after `binit`, in front of a disk. -/
def Cache.start (disk : BlockNo → Block) : Cache T :=
  { bc := binit, owner := fun _ => none, uses := [], pins := fun _ => 0, disk := disk }

end Xv6.Fs
