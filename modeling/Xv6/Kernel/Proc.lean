import Xv6.Structures.Sizes

set_option autoImplicit false

/-! # Processes, threads and the memory they live in (proc.h, memlayout.h)

The kernel's tables as data: `struct thread`, `struct proc` and the globals of proc.c, with the
functions of proc.c that initialise and free a slot (`allocproc`, `freeproc`, `free_thread`).
Kernel addresses are natural numbers with `0` for the null pointer; the trapframe page of a process
is kept as the eight records it holds, one for every slot of the thread table.

The saved context of a thread is not a field here: it belongs to the machine that runs the code
(`Machine.State.ctx`). Spin locks likewise are words of the machine. -/

namespace Xv6

open Function

/-! ## Constants -/

abbrev NPROC : Nat := 64
abbrev NTHREAD : Nat := 8
abbrev NCPU : Nat := 8
abbrev NUMOFSIGNALS : Nat := 32
abbrev MAX_BSEM : Nat := 128
abbrev NUM_OF_THREADS : Nat := 20
def MAX_STACK_SIZE : Nat := 4000
def PGSIZE : Nat := 4096
def MAXVA : Nat := 2 ^ 38
def TRAMPOLINE : Nat := MAXVA - PGSIZE
def TRAPFRAME : Nat := TRAMPOLINE - PGSIZE

/-- `sizeof(struct trapframe)`: 36 registers of 8 bytes. -/
def sizeofTrapframe : Nat := 288

abbrev PIdx := Fin NPROC
abbrev TIdx := Fin NTHREAD
abbrev CpuId := Fin NCPU
abbrev BIdx := Fin MAX_BSEM

/-- The pointer `&proc[p].thread_tbl[i]`. -/
structure ThreadRef where
  p : PIdx
  i : TIdx
  deriving DecidableEq, Repr

/-- Everything a thread may sleep on: a thread slot (`kthread_join`), a process (`wait`), a binary
    semaphore (`bsem_down`), or one of the kernel's other objects. -/
inductive Chan where
  | null
  | thread (t : ThreadRef)
  | proc (p : PIdx)
  | bsem (d : BIdx)
  | other (n : Nat)
  deriving DecidableEq, Repr

/-- The spin locks: `wait_lock`, `p->lock`, `t->lock`, those of the binary semaphores and all the
    others (devices, pipes, files, the clock). -/
inductive Lock where
  | wait
  | proc (p : PIdx)
  | thread (t : ThreadRef)
  | bsem (d : BIdx)
  | other (n : Nat)
  deriving DecidableEq, Repr

/-! ## Registers and user memory -/

/-- The user registers, with the user program counter. -/
inductive Reg where
  | epc | ra | sp | gp | tp | t0 | t1 | t2 | s0 | s1
  | a0 | a1 | a2 | a3 | a4 | a5 | a6 | a7
  | s2 | s3 | s4 | s5 | s6 | s7 | s8 | s9 | s10 | s11
  | t3 | t4 | t5 | t6
  deriving DecidableEq, Repr

/-- `struct trapframe`, as far as user code can see it. The four `kernel_*` fields are left out:
    `usertrapret` writes all of them on every return and only the trampoline reads them. -/
abbrev Trapframe := Reg → BitVec 64

/-- The user half of an address space: `none` where no user page is mapped. -/
abbrev UserMem := Nat → Option (BitVec 8)

/-- `copyout`, byte by byte: the bytes before the first unmapped page are written even when the
    call fails. -/
def copyout (um : UserMem) (va : Nat) : List (BitVec 8) → UserMem × Bool
  | [] => (um, true)
  | b :: bs =>
    match um va with
    | none => (um, false)
    | some _ => copyout (update um va (some b)) (va + 1) bs

/-- `copyin`: the bytes at `va`, or `none` if one of them is not mapped. -/
def copyin (um : UserMem) (va : Nat) : Nat → Option (List (BitVec 8))
  | 0 => some []
  | n + 1 =>
    match um va with
    | none => none
    | some b => (copyin um (va + 1) n).map (b :: ·)

/-- The four bytes of an `int`, in memory order. -/
def intBytes (v : BitVec 32) : List (BitVec 8) :=
  [v.extractLsb' 0 8, v.extractLsb' 8 8, v.extractLsb' 16 8, v.extractLsb' 24 8]

/-- The `int` stored at a user address. -/
def readInt (um : UserMem) (va : Nat) : Option (BitVec 32) :=
  match copyin um va 4 with
  | some [b0, b1, b2, b3] => some (b3 ++ b2 ++ b1 ++ b0)
  | _ => none

/-! ## Threads and processes -/

/-- `enum threadstate`. -/
inductive ThreadState where
  | unused | used | sleeping | runnable | running | zombie | invalid
  deriving DecidableEq, Repr

/-- `enum procstate`. -/
inductive ProcState where
  | unused | used | zombie
  deriving DecidableEq, Repr

/-- `struct thread`. -/
structure Thread where
  state : ThreadState := .unused
  chan : Chan := .null
  killed : Bool := false
  xstate : BitVec 32 := 0
  tid : Int := 0
  tparent : Option PIdx := none
  trapframe : Nat := 0
  deriving DecidableEq

/-- What the kernel reads of a user page table here: the physical page mapped at `TRAPFRAME`. -/
structure Pagetable where
  trapframePage : Nat
  deriving DecidableEq

/-- The physical address a user address of the `TRAPFRAME` page names. -/
def Pagetable.walkTrapframe (pt : Pagetable) (va : Nat) : Option Nat :=
  if TRAPFRAME ≤ va ∧ va < TRAPFRAME + PGSIZE then some (pt.trapframePage + (va - TRAPFRAME))
  else none

/-- `struct proc`. `frames` is the content of the trapframe page, `backupPage` the page that
    `allocproc` has allocated for the backup and `backup` its content, `umem` the user memory the
    page table maps. -/
structure Proc where
  state : ProcState := .unused
  killed : Bool := false
  xstate : BitVec 32 := 0
  pid : Int := 0
  pendingsignals : BitVec 32 := 0
  parent : Option PIdx := none
  threadTbl : TIdx → Thread := fun _ => {}
  pagetable : Option Pagetable := none
  trapframepointer : Nat := 0
  signalmask : BitVec 32 := 0
  signalhandlers : Fin NUMOFSIGNALS → BitVec 64 := fun _ => 0
  signalmasks : Fin NUMOFSIGNALS → BitVec 32 := fun _ => 0
  userTrapFrameBackup : BitVec 64 := 0
  freeze : Bool := false
  handlingSignal : Bool := false
  signalmaskOrigin : BitVec 32 := 0
  frames : TIdx → Trapframe := fun _ _ => 0
  backupPage : BitVec 64 := 0
  backup : Trapframe := fun _ => 0
  umem : UserMem := fun _ => none

/-- `user_trap_frame_backup` does not point to the backup page of the process: `sigaction` can
    overwrite it, and `freeproc` gives the page back and keeps the pointer. -/
def Proc.strayBackup (p : Proc) : Bool := p.userTrapFrameBackup != p.backupPage

/-- `free_thread`. The `tid` stays. -/
def freeThread (t : Thread) : Thread :=
  { t with
    trapframe := 0, killed := false, chan := .null, xstate := 0, tparent := none, state := .unused }

/-- `freeproc`. The page table and the two pages are given back; `user_trap_frame_backup` is not
    cleared. -/
def freeproc (p : Proc) : Proc :=
  { p with
    trapframepointer := 0, pagetable := none, pid := 0, parent := none, killed := false,
    xstate := 0, state := .unused, backupPage := 0, umem := fun _ => none
    threadTbl := fun i => freeThread (p.threadTbl i) }

/-- What `kalloc` and `proc_pagetable` give one call of `allocproc`: the trapframe page (`0` if
    there is none), whether a page table could be built, and the backup page. -/
structure Pages where
  tf : Nat := 0
  pagetable : Bool := false
  backup : BitVec 64 := 0

/-- Every allocation of `allocproc` succeeds. -/
def Pages.ok (g : Pages) : Bool := g.tf != 0 && g.pagetable && g.backup != 0

/-- `struct binarySemaphore`. -/
structure Bsem where
  value : Int := 0
  threads : Fin NUM_OF_THREADS → Option ThreadRef := fun _ => none
  currentThread : Option ThreadRef := none
  descriptor : Int := 0

/-- The kernel's tables and counters. `sepc` is the register of each cpu that `sret` jumps to. -/
structure Mem where
  procs : PIdx → Proc
  bsems : BIdx → Bsem
  nextpid : Int
  nexttid : Int
  initproc : Option PIdx
  sepc : CpuId → BitVec 64

def Mem.modProc (m : Mem) (p : PIdx) (f : Proc → Proc) : Mem :=
  { m with procs := update m.procs p (f (m.procs p)) }

/-- Change one slot of a thread table. -/
def Proc.modThread (p : Proc) (i : TIdx) (f : Thread → Thread) : Proc :=
  { p with threadTbl := update p.threadTbl i (f (p.threadTbl i)) }

/-- The slot `t` points to. -/
def Mem.thread (m : Mem) (t : ThreadRef) : Thread := (m.procs t.p).threadTbl t.i

def Mem.modThread (m : Mem) (t : ThreadRef) (f : Thread → Thread) : Mem :=
  m.modProc t.p (·.modThread t.i f)

/-- The first assignments of `allocproc`, up to the first `kalloc`. -/
def allocprocInit (m : Mem) (j : PIdx) : Mem :=
  { (m.modProc j fun p =>
      { p with state := .used, pid := m.nextpid, killed := false, signalmasks := fun _ => 0 }).modThread
        ⟨j, 0⟩ fun t => { t with state := .used, killed := false, tid := m.nexttid, tparent := some j }
    with nextpid := m.nextpid + 1, nexttid := m.nexttid + 1 }

/-- `allocproc` from the slot it found on. A failure frees thread 0 and then the process; the
    backup pointer is assigned only by the last allocation. -/
def allocproc (m : Mem) (j : PIdx) (g : Pages) : Mem :=
  let m := allocprocInit m j
  if g.tf = 0 then (m.modThread ⟨j, 0⟩ freeThread).modProc j freeproc
  else
    let m := m.modProc j fun p => { p with trapframepointer := g.tf }
    if g.pagetable = false then (m.modThread ⟨j, 0⟩ freeThread).modProc j freeproc
    else
      let m := m.modProc j fun p =>
        { p with
          pagetable := some ⟨p.trapframepointer⟩
          umem := fun _ => none
          threadTbl := fun i =>
            { p.threadTbl i with trapframe := g.tf + sizeofTrapframe * i }
          userTrapFrameBackup := g.backup, backupPage := g.backup }
      if g.backup = 0 then (m.modThread ⟨j, 0⟩ freeThread).modProc j freeproc
      else
        m.modProc j fun p =>
          { p with
            handlingSignal := false, signalmaskOrigin := 0, signalhandlers := fun _ => 0,
            pendingsignals := 0 }

end Xv6
