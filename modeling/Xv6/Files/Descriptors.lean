import Mathlib.Algebra.BigOperators.Fin
import Xv6.Structures.Runs
import Xv6.Structures.Sizes

set_option autoImplicit false

/-! # Descriptors and open files

The system calls that work on `p->ofile[]` and on the references of `struct file`: `dup`, `close`,
`open`, `pipe`, `read` and `write` (which use a file without changing the table), `fork` and `exit`.
`filealloc`, `filedup` and `fileclose` hold `ftable.lock` and are one step each. The table of a
process has no lock: every read and every write of an entry is a step of its own, and between two of
them any thread may run, also one of the same process. -/

namespace Xv6.Descriptors

open Function Structures

/-- Open files in the system. -/
abbrev NFILE : Nat := 100

/-- Descriptors of a process. -/
abbrev NOFILE : Nat := 16

/-- Threads of a process. -/
abbrev NTHREAD : Nat := 8

/-- A `struct file` of `ftable`. -/
abbrev File : Type := Fin NFILE

/-- An index of `p->ofile`. -/
abbrev Fd : Type := Fin NOFILE

/-- What `fdalloc` is called for: `dup` of a descriptor, `open`, and the two ends of `pipe`. -/
inductive For
  | dup (fd : Fd)
  | open_
  | pipe0 (wf : File)
  | pipe1 (rf : File) (fd0 : Fd)
deriving DecidableEq

/-- What `argfd` is called for. -/
inductive Arg
  | dup
  | close
  /-- `read`, `write` or `fstat`. -/
  | use
deriving DecidableEq

/-- Where a thread is; `P` are the processes. -/
inductive Pc (P : Type)
  | idle
  /-- `argfd` before it reads the entry. -/
  | argfd (c : Arg) (fd : Fd)
  /-- `fdalloc` before it reads the entry `i`, and before it writes it. -/
  | fdalloc (k : For) (f : File) (i : Nat)
  | fdstore (k : For) (f : File) (i : Fd)
  /-- `filedup` in `dup`, with the file in the entry `i` already. -/
  | filedup (fd i : Fd) (f : File)
  | using_ (fd : Fd) (f : File)
  | closeClear (fd : Fd) (f : File)
  /-- A last `fileclose`, and two of them. -/
  | closeFile (f : File)
  | closeTwo (rf wf : File)
  | openFile
  | pipeFile0
  | pipeFile1 (rf : File)
  | pipeKalloc (rf wf : File)
  /-- The `copyout`s of `pipe`. -/
  | pipeOut (rf wf : File) (fd0 fd1 : Fd)
  | pipeClear0 (rf wf : File) (fd0 fd1 : Fd)
  | pipeClear1 (rf wf : File) (fd1 : Fd)
  /-- The second `fdalloc` of `pipe` has failed. -/
  | pipeUndo (rf wf : File) (fd0 : Fd)
  /-- The loop of `fork` for the child `np`: the test of the entry, its second read, `filedup`, the
      write. -/
  | forkTest (np : P) (i : Nat)
  | forkRead (np : P) (i : Fd)
  | forkDup (np : P) (i : Fd) (f : File)
  | forkStore (np : P) (i : Fd) (f : File)
  /-- The loop of `exit`. -/
  | exitTest (i : Nat)
  | exitRead (i : Fd)
  | exitClose (i : Fd) (f : File)
  | exitClear (i : Fd) (f : File)
deriving DecidableEq

/-- Whether a process has a table. -/
inductive Status
  | unused
  /-- From `allocproc` to the end of `fork`. -/
  | embryo
  | live
deriving DecidableEq

/-- A process and the index of its thread. -/
abbrev Thread (P : Type) : Type := P × Fin NTHREAD

/-- The tables of the processes, the `ref` fields, and where the threads are. -/
structure State (P : Type) where
  ofile : P × Fd → Option File
  ref : File → Nat
  status : P → Status
  pc : Thread P → Pc P

/-- The system calls; `use` stands for `read`, `write` and `fstat`. -/
inductive Call (P : Type)
  | dup (fd : Int)
  | close (fd : Int)
  | use (fd : Int)
  | open_
  | pipe
  | fork (np : P)
  | exit

/-- A thread begins a call or goes on with it. -/
inductive Act (P : Type)
  | call (t : Thread P) (c : Call P)
  /-- The next step; `ok` says whether a `kalloc` or `copyout` succeeds. -/
  | run (t : Thread P) (ok : Bool)

variable {P : Type} [DecidableEq P]

namespace State

variable (s : State P)

/-- The thread is at `pc`. -/
def at_ (t : Thread P) (pc : Pc P) : State P := { s with pc := update s.pc t pc }

/-- A write of `p->ofile[fd]`. -/
def store (p : P) (fd : Fd) (f : Option File) : State P :=
  { s with ofile := update s.ofile (p, fd) f }

/-- The first file without references. -/
def filealloc : Option File := (List.finRange NFILE).find? fun f => decide (s.ref f = 0)

/-- A write of `f->ref`. -/
def setRef (f : File) (n : Nat) : State P := { s with ref := update s.ref f n }

/-- `filedup`, and on to `pc`. -/
def filedup (t : Thread P) (f : File) (pc : Pc P) : Except String (State P) :=
  if s.ref f < 1 then .error "filedup" else .ok ((s.setRef f (s.ref f + 1)).at_ t pc)

/-- `fileclose`, as far as the table of files is concerned, and on to `pc`. -/
def fileclose (t : Thread P) (f : File) (pc : Pc P) : Except String (State P) :=
  if s.ref f < 1 then .error "fileclose" else .ok ((s.setRef f (s.ref f - 1)).at_ t pc)

/-- The range check of `argfd`. -/
def argfd (t : Thread P) (c : Arg) (fd : Int) : State P :=
  if h : 0 ≤ fd ∧ fd < NOFILE then s.at_ t (.argfd c ⟨fd.toNat, by omega⟩) else s

/-- After `fdalloc` has written the entry `i`. -/
def fdNext (k : For) (f : File) (i : Fd) : Pc P :=
  match k with
  | .dup fd => .filedup fd i f
  | .open_ => .idle
  | .pipe0 wf => .fdalloc (.pipe1 f i) wf 0
  | .pipe1 rf fd0 => .pipeOut rf f fd0 i

/-- After `fdalloc` has found no free entry. -/
def fdFail (k : For) (f : File) : Pc P :=
  match k with
  | .dup _ => .idle
  | .open_ => .closeFile f
  | .pipe0 wf => .closeTwo f wf
  | .pipe1 rf fd0 => .pipeUndo rf f fd0

/-- The next step of a thread, if it is in a call: a state, or a panic. -/
def run (t : Thread P) (ok : Bool) : Option (Except String (State P)) :=
  match s.pc t with
  | .idle => none
  | .argfd c fd =>
    match s.ofile (t.1, fd) with
    | none => some (.ok (s.at_ t .idle))
    | some f =>
      match c with
      | .dup => some (.ok (s.at_ t (.fdalloc (.dup fd) f 0)))
      | .close => some (.ok (s.at_ t (.closeClear fd f)))
      | .use => some (.ok (s.at_ t (.using_ fd f)))
  | .fdalloc k f i =>
    if h : i < NOFILE then
      if s.ofile (t.1, ⟨i, h⟩) = none then some (.ok (s.at_ t (.fdstore k f ⟨i, h⟩)))
      else some (.ok (s.at_ t (.fdalloc k f (i + 1))))
    else some (.ok (s.at_ t (fdFail k f)))
  | .fdstore k f i => some (.ok ((s.store t.1 i (some f)).at_ t (fdNext k f i)))
  | .filedup _ _ f => some (s.filedup t f .idle)
  | .using_ _ _ => some (.ok (s.at_ t .idle))
  | .closeClear fd f => some (.ok ((s.store t.1 fd none).at_ t (.closeFile f)))
  | .closeFile f => some (s.fileclose t f .idle)
  | .closeTwo rf wf => some (s.fileclose t rf (.closeFile wf))
  | .openFile =>
    match s.filealloc with
    | none => some (.ok (s.at_ t .idle))
    | some f => some (.ok ((s.setRef f 1).at_ t (.fdalloc .open_ f 0)))
  | .pipeFile0 =>
    match s.filealloc with
    | none => some (.ok (s.at_ t .idle))
    | some f => some (.ok ((s.setRef f 1).at_ t (.pipeFile1 f)))
  | .pipeFile1 rf =>
    match s.filealloc with
    | none => some (.ok (s.at_ t (.closeFile rf)))
    | some f => some (.ok ((s.setRef f 1).at_ t (.pipeKalloc rf f)))
  | .pipeKalloc rf wf =>
    some (.ok (s.at_ t (if ok then .fdalloc (.pipe0 wf) rf 0 else .closeTwo rf wf)))
  | .pipeOut rf wf fd0 fd1 => some (.ok (s.at_ t (if ok then .idle else .pipeClear0 rf wf fd0 fd1)))
  | .pipeClear0 rf wf fd0 fd1 => some (.ok ((s.store t.1 fd0 none).at_ t (.pipeClear1 rf wf fd1)))
  | .pipeClear1 rf wf fd1 => some (.ok ((s.store t.1 fd1 none).at_ t (.closeTwo rf wf)))
  | .pipeUndo rf wf fd0 => some (.ok ((s.store t.1 fd0 none).at_ t (.closeTwo rf wf)))
  | .forkTest np i =>
    if h : i < NOFILE then
      if s.ofile (t.1, ⟨i, h⟩) = none then some (.ok (s.at_ t (.forkTest np (i + 1))))
      else some (.ok (s.at_ t (.forkRead np ⟨i, h⟩)))
    else some (.ok { s.at_ t .idle with status := update s.status np .live })
  | .forkRead np i =>
    match s.ofile (t.1, i) with
    | none => some (.error "null file")
    | some f => some (.ok (s.at_ t (.forkDup np i f)))
  | .forkDup np i f => some (s.filedup t f (.forkStore np i f))
  | .forkStore np i f => some (.ok ((s.store np i (some f)).at_ t (.forkTest np (i + 1))))
  | .exitTest i =>
    if h : i < NOFILE then
      if s.ofile (t.1, ⟨i, h⟩) = none then some (.ok (s.at_ t (.exitTest (i + 1))))
      else some (.ok (s.at_ t (.exitRead ⟨i, h⟩)))
    else some (.ok { s.at_ t .idle with status := update s.status t.1 .unused })
  | .exitRead i =>
    match s.ofile (t.1, i) with
    | none => some (.error "null file")
    | some f => some (.ok (s.at_ t (.exitClose i f)))
  | .exitClose i f => some (s.fileclose t f (.exitClear i f))
  | .exitClear i _ => some (.ok ((s.store t.1 i none).at_ t (.exitTest (i + 1))))

/-- One step: a state, or a panic. -/
def next : Act P → Option (Except String (State P))
  | .call t c =>
    if s.pc t = .idle ∧ s.status t.1 = .live then
      match c with
      | .dup fd => some (.ok (s.argfd t .dup fd))
      | .close fd => some (.ok (s.argfd t .close fd))
      | .use fd => some (.ok (s.argfd t .use fd))
      | .open_ => some (.ok (s.at_ t .openFile))
      | .pipe => some (.ok (s.at_ t .pipeFile0))
      | .fork np =>
        if s.status np = .unused then
          some (.ok { s.at_ t (.forkTest np 0) with status := update s.status np .embryo })
        else none
      | .exit => some (.ok (s.at_ t (.exitTest 0)))
    else none
  | .run t ok => s.run t ok

/-- One step that does not panic. -/
def step (a : Act P) : Option (State P) :=
  match s.next a with
  | some (.ok s') => some s'
  | _ => none

end State

/-- A thread starts a call while no other thread of its process is in one. -/
def alone (s : State P) (a : Act P) (_ : Unit) : Prop :=
  match a with
  | .call t _ => ∀ k, s.pc (t.1, k) = .idle
  | .run _ _ => True

instance alone.decidable (s : State P) (a : Act P) (u : Unit) : Decidable (alone s a u) :=
  match a with
  | .call t _ => inferInstanceAs (Decidable (∀ k, s.pc (t.1, k) = .idle))
  | .run _ _ => .isTrue trivial

end Xv6.Descriptors
