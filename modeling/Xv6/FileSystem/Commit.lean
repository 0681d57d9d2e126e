import Xv6.FileSystem.Log

set_option autoImplicit false

/-! # Transactions over the cache

The rest of `log.c`, on top of the buffer cache: the commit at the end of the last operation, which
copies the logged blocks from the cache to the log, writes the header, installs the blocks at home
and clears the header again; and the recovery at boot, which does the second half of this with the
header that it finds. Both run without `log.lock`, one buffer cache call after the other.

The code of a loop body or of a call without loops is a list of commands on two pointers to buffers,
one for a block of the log (`to`, `lbuf`, `buf`) and one for a home block (`from`, `dbuf`). What
comes after it is a `Stage`. Between any two commands other threads take steps of theirs
(`FileSys.step`): calls of the buffer cache on any blocks, and operations. -/

namespace Xv6.Fs

open Function Structures

/-! ## Where the log is -/

/-- `log.start` and `log.size`, which is an `int` and counts the header. -/
structure LogArea where
  start : BlockNo
  size : Nat
  pos : 0 < size
  isInt : size < 2 ^ 31

/-- The block is the header or one of the other blocks of the log. -/
def LogArea.has (A : LogArea) (x : BlockNo) : Bool := decide ((x - A.start).toNat < A.size)

/-- `log.start+tail+1`. -/
def LogArea.slot (A : LogArea) (tail : Nat) : BlockNo := A.start + BitVec.ofNat 32 (tail + 1)

/-- `hb->n` in a block. -/
def headCount (d : Block) : Nat := (d 0).toInt.toNat

/-- What `read_head` takes from the block. -/
def headBlocks (d : Block) : List BlockNo :=
  ((List.finRange (NWORD - 1)).take (headCount d)).map fun i => d i.succ

/-- The block after the assignments of `write_head`. -/
def writeHead (l : List BlockNo) (d : Block) : Block := fun i =>
  if i = 0 then BitVec.ofNat 32 l.length
  else
    match l[i.val - 1]? with
    | some x => x
    | none => d i

/-! ## Commands -/

/-- The two pointers to buffers. -/
inductive Reg where
  | log | home
  deriving DecidableEq, Repr

inductive Cmd where
  | bget (g : Reg) (x : BlockNo)
  | acquire (g : Reg)
  | fill (g : Reg)
  | memmove (dst src : Reg)
  /-- The assignments of `write_head`. -/
  | putHead
  /-- The assignments of `read_head`. -/
  | getHead
  | bwrite (g : Reg)
  | bunpin (g : Reg)
  | release (g : Reg)
  | unref (g : Reg)
  deriving DecidableEq, Repr

@[simp] def bread (g : Reg) (x : BlockNo) : List Cmd := [.bget g x, .acquire g, .fill g]

@[simp] def brelse (g : Reg) : List Cmd := [.release g, .unref g]

/-- The parts of `commit` and of `recover_from_log`, with the loop index. -/
inductive Stage where
  /-- At `log.lh.n > 0` in `commit`. -/
  | commit
  | writeLog (tail : Nat)
  /-- In the first `write_head` of `commit`. -/
  | commitHead
  | readHead
  | install (recovering : Bool) (tail : Nat)
  /-- At `log.lh.n = 0`. -/
  | clear (recovering : Bool)
  /-- In the last `write_head`. -/
  | clearHead (recovering : Bool)
  /-- The end of `end_op`, or of `recover_from_log`. -/
  | finish (recovering : Bool)
  deriving DecidableEq, Repr

namespace Stage

/-- The commands of a part; `blocks` is `log.lh.block`. -/
@[simp] def code (A : LogArea) (blocks : List BlockNo) : Stage → List Cmd
  | .writeLog tail =>
    bread .log (A.slot tail) ++ bread .home (blocks.getD tail 0) ++
      [.memmove .log .home, .bwrite .log] ++ brelse .home ++ brelse .log
  | .install recovering tail =>
    bread .log (A.slot tail) ++ bread .home (blocks.getD tail 0) ++
      [.memmove .home .log, .bwrite .home] ++ (if recovering then [] else [.bunpin .home]) ++
      brelse .log ++ brelse .home
  | .commitHead | .clearHead _ =>
    bread .log A.start ++ [.putHead, .bwrite .log] ++ brelse .log
  | .readHead => bread .log A.start ++ [.getHead] ++ brelse .log
  | .commit | .clear _ | .finish _ => []

/-- The next part, with the loop tests. -/
def next (blocks : List BlockNo) : Stage → Stage
  | .commit => if blocks.length > 0 then .writeLog 0 else .finish false
  | .writeLog tail => if tail + 1 < blocks.length then .writeLog (tail + 1) else .commitHead
  | .commitHead => if 0 < blocks.length then .install false 0 else .clear false
  | .readHead => if 0 < blocks.length then .install true 0 else .clear true
  | .install recovering tail =>
    if tail + 1 < blocks.length then .install recovering (tail + 1) else .clear recovering
  | .clear recovering => .clearHead recovering
  | .clearHead recovering => .finish recovering
  | .finish recovering => .finish recovering

/-- This is part of the recovery at boot. -/
def recovering : Stage → Bool
  | .readHead => true
  | .install r _ | .clear r | .clearHead r | .finish r => r
  | _ => false

end Stage

/-- The thread that commits or recovers, with the commands left of the part it is in. -/
structure Runner (T : Type) where
  thread : T
  stage : Stage
  body : List Cmd
  reg : Reg → BufIdx

/-- The file system below the inodes. The buffers that a client has changed and not passed to
    `log_write` since are dirty. -/
structure FileSys (T : Type) where
  cache : Cache T
  ops : Ops T
  runner : Option (Runner T)
  dirty : BufIdx → Bool

inductive FsAct (T : Type) where
  /-- A call of the buffer cache by a client. -/
  | call (a : CacheAct T)
  | beginOp (t : T)
  | logWrite (t : T) (b : BufIdx)
  | endOp (t : T)
  /-- The next command of the thread that commits or recovers. -/
  | run

/-- The client that takes the step; only `log.c` calls `bwrite`, `bpin` and `bunpin`. -/
def CacheAct.client {T : Type} : CacheAct T → Option T
  | .bget t _ | .acquire t _ | .fill t _ | .store t _ _ | .release t _ | .unref t _ => some t
  | .bwrite .. | .bpin .. | .bunpin .. => none

variable {T : Type} [DecidableEq T]

namespace FileSys

/-- The thread is not inside `commit`, and the recovery is over. -/
def free (s : FileSys T) (t : T) : Bool :=
  match s.runner with
  | none => true
  | some r => !r.stage.recovering && decide (r.thread ≠ t)

/-- A client leaves the blocks of the log alone, and gives no dirty buffer back. -/
def keeps (A : LogArea) (s : FileSys T) : CacheAct T → Bool
  | .store _ b _ => !A.has (s.cache.bc.buf b).blockno
  | .release _ b => !s.dirty b
  | _ => true

def soil (dirty : BufIdx → Bool) : CacheAct T → BufIdx → Bool
  | .store _ b _ => update dirty b true
  | _ => dirty

/-- The buffer cache call of a command; `read_head` only reads. -/
def act (s : FileSys T) (r : Runner T) : Cmd → Option (CacheAct T)
  | .bget _ x => some (.bget r.thread x)
  | .acquire g => some (.acquire r.thread (r.reg g))
  | .fill g => some (.fill r.thread (r.reg g))
  | .memmove dst src => some (.store r.thread (r.reg dst) (s.cache.bc.buf (r.reg src)).data)
  | .putHead =>
    some (.store r.thread (r.reg .log)
      (writeHead s.ops.log.blocks (s.cache.bc.buf (r.reg .log)).data))
  | .getHead => none
  | .bwrite g => some (.bwrite r.thread (r.reg g))
  | .bunpin g => some (.bunpin (r.reg g))
  | .release g => some (.release r.thread (r.reg g))
  | .unref g => some (.unref r.thread (r.reg g))

/-- The pointers after a command: `bget` sets one of them. -/
def regs (s : FileSys T) (r : Runner T) : Cmd → Reg → BufIdx
  | .bget g x =>
    match s.cache.bc.bget ROOTDEV x with
    | some (b, _) => update r.reg g b
    | none => r.reg
  | _ => r.reg

/-- One command. A header with more than `LOGSIZE` blocks would be copied beyond the end of
    `log.lh.block`; there is no step for that. -/
def exec (s : FileSys T) (r : Runner T) (c : Cmd) (body : List Cmd) : Option (FileSys T) :=
  match s.act r c with
  | some a =>
    (s.cache.step a).map fun cache =>
      { s with cache := cache, runner := some { r with body := body, reg := s.regs r c } }
  | none =>
    let d := (s.cache.bc.buf (r.reg .log)).data
    if headCount d ≤ LOGSIZE then
      some { s with
        ops := { s.ops with log := { s.ops.log with blocks := headBlocks d } }
        runner := some { r with body := body } }
    else none

def advance (A : LogArea) (s : FileSys T) (r : Runner T) : Option (FileSys T) :=
  let stage := r.stage.next s.ops.log.blocks
  match r.stage with
  | .clear false =>
    (s.ops.step A.size .clear).map fun ops =>
      { s with ops := ops, runner := some { r with stage := stage, body := stage.code A [] } }
  | .clear true =>
    some { s with
      ops := { s.ops with log := s.ops.log.clear }
      runner := some { r with stage := stage, body := stage.code A [] } }
  | .finish false =>
    (s.ops.step A.size .finish).map fun ops => { s with ops := ops, runner := none }
  | .finish true => some { s with runner := none }
  | _ => some { s with
      runner := some { r with stage := stage, body := stage.code A s.ops.log.blocks } }

def step (A : LogArea) (s : FileSys T) : FsAct T → Option (FileSys T)
  | .call a =>
    match a.client with
    | some t =>
      if s.free t = true ∧ s.keeps A a = true then
        (s.cache.step a).map fun cache => { s with cache := cache, dirty := soil s.dirty a }
      else none
    | none => none
  | .beginOp t =>
    if s.free t = true then
      (s.ops.step A.size (.beginOp t)).map fun ops => { s with ops := ops }
    else none
  | .logWrite t b =>
    let x := (s.cache.bc.buf b).blockno
    if s.free t = true ∧ ⟨t, b, .ready⟩ ∈ s.cache.uses ∧ A.has x = false then
      match s.ops.step A.size (.logWrite t x) with
      | some ops =>
        -- a block that is new in the log is pinned
        (if x ∈ s.ops.log.blocks then some s.cache else s.cache.step (.bpin t b)).map
          fun cache => { s with cache := cache, ops := ops, dirty := update s.dirty b false }
      | none => none
    else none
  | .endOp t =>
    if s.free t = true then
      (s.ops.step A.size (.endOp t)).map fun ops =>
        { s with
          ops := ops
          runner := if ops.log.committing then
              some { thread := t, stage := .commit, body := [], reg := fun _ => 0 }
            else s.runner }
    else none
  | .run =>
    match s.runner with
    | some r =>
      match r.body with
      | c :: body => s.exec r c body
      | [] => s.advance A r
    | none => none

/-- The file system at boot: thread `t` recovers. -/
def boot (A : LogArea) (t : T) (disk : BlockNo → Block) : FileSys T :=
  { cache := Cache.start disk
    ops := {}
    runner := some ⟨t, .readHead, Stage.readHead.code A [], fun _ => 0⟩
    dirty := fun _ => false }

end FileSys

end Xv6.Fs
