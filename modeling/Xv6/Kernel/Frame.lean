import Xv6.Kernel.Bsem
import Xv6.Kernel.Signal
import Xv6.Machine.Basic

set_option autoImplicit false

/-! # The kernel's stack frames and memory actions

A frame is a C function at one point of its body, with the local variables that are still needed
there; `me` is what `mythread()` returned when the function was entered, and `me.p` is `myproc()`.
The program points of every function form an enumeration of their own, in the order of the source.
A function that is waiting for a callee sits at the point where it will go on.

`Act` lists the atomic accesses the code makes to the tables. An access made under the lock that
protects it is one action even if it is several assignments in C; what the code does without a lock
(the scans of `killthreads`) is one action for every read and every write. -/

namespace Xv6

open Function Machine

/-! ## Inputs -/

/-- Why user code entered the kernel. -/
inductive Cause where
  | ecall | timer | device | fault
  deriving DecidableEq, Repr

/-- What the outside contributes to one step: a trap with the user registers and what the user code
    stored to memory, an interrupt, what a device wakes up, whether a call that the model leaves
    open blocks or fails, and the results of page allocation. -/
structure Env where
  trap : Option (Cause × Trapframe) := none
  stores : UserMem := fun _ => none
  irq : Option Cause := none
  flag : Bool := false
  block : Option (Nat × Nat) := none
  notify : Option (Nat × Nat) := none
  pages : Pages := {}
  img : Image := {}
  junk : Junk := {}
  value : Int := 0

/-- The system calls that work on processes, threads, signals and binary semaphores; every other one
    is `other`. -/
inductive Syscall where
  | fork
  | exit (status : BitVec 32)
  | wait (addr : Nat)
  | kill (pid : Int) (signum : BitVec 32)
  | exec
  | sigprocmask (mask : BitVec 32)
  | sigaction (signum : Int) (act oldact : Nat)
  | sigret
  | kthreadExit (status : BitVec 32)
  | kthreadCreate (fn stack : BitVec 64)
  | kthreadId
  | kthreadJoin (id : Int) (status : Nat)
  | bsemAlloc
  | bsemFree (descriptor : Int)
  | bsemDown (descriptor : Int)
  | bsemUp (descriptor : Int)
  | other

/-- `argint`. -/
def argint (r : Trapframe) (x : Reg) : BitVec 32 := (r x).setWidth 32

/-- `syscall`'s table, by the number in `a7`. -/
def decode (r : Trapframe) : Syscall :=
  match (argint r .a7).toNat with
  | 1 => .fork
  | 2 => .exit (argint r .a0)
  | 3 => .wait (r .a0).toNat
  | 6 => .kill (argint r .a0).toInt (argint r .a1)
  | 7 => .exec
  | 22 => .sigprocmask (argint r .a0)
  | 23 => .sigaction (argint r .a0).toInt (r .a1).toNat (r .a2).toNat
  | 24 => .sigret
  | 25 => .kthreadExit (argint r .a0)
  | 26 => .kthreadCreate (r .a0) (r .a1)
  | 27 => .kthreadId
  | 28 => .kthreadJoin (argint r .a0).toInt (r .a1).toNat
  | 29 => .bsemAlloc
  | 30 => .bsemFree (argint r .a0).toInt
  | 31 => .bsemDown (argint r .a0).toInt
  | 32 => .bsemUp (argint r .a0).toInt
  | _ => .other

/-! ## Program points -/

/-- In `scheduler`. -/
inductive SchedulerPc where
  | top
  | acquire (p : PIdx)
  | check (p : PIdx)
  | scan (p : PIdx) (i : TIdx)
  | back (p : PIdx) (i : TIdx)
  | release (p : PIdx)

/-- In `sched`. -/
inductive SchedPc where
  | check
  | resumed (intena : Bool)
  | done

/-- In `yield`. -/
inductive YieldPc where
  | acquire | set | sched | switched | release | done

/-- In `sleep`. -/
inductive SleepPc where
  | acquire | release | set | sched | switched | tidy | releaseP | reacquire | done

/-- In `wakeup`. -/
inductive WakeupPc where
  | acquire (j : PIdx)
  | scan (j : PIdx)
  | release (j : PIdx)
  | done

/-- In `usertrap`. -/
inductive UsertrapPc where
  | start (cause : Cause)
  | skip | intrOn | call | returned
  | retval (v : Int)
  | notified (timer : Bool)
  | after (timer : Bool)
  | yielded | ret | dead

/-- In `usertrapret`. -/
inductive UsertrapretPc where
  | copy | intrOff | setup | signal | handled | ret

/-- In `signal_handler`. -/
inductive SignalHandlerPc where
  | start
  | loop (i : Fin NUMOFSIGNALS)
  | next (i : Fin NUMOFSIGNALS)
  | done

/-- In `sigkill_handler`. -/
inductive SigkillPc where
  | acquire | kill
  | acquireT (k : TIdx)
  | wake (k : TIdx)
  | releaseT (k : TIdx)
  | release | done

/-- In `sigcont_handler`. -/
inductive SigcontPc where
  | start | thaw | clear | done

/-- In `sigstop_handler`. -/
inductive SigstopPc where
  | start | acquire | freeze | release
  | loopAcquire | check | loopRelease | yield | thawRelease | done

/-- In `signalhandler_user`. -/
inductive SigUserPc where
  | acquire | deliver | release | done

/-- In `exit`. -/
inductive ExitPc where
  | start | killed | files | acquireW
  | reparent (j : PIdx)
  | reparentWake (j : PIdx)
  | reparentNext (j : PIdx)
  | wakeParent | acquireP | zombie | releaseW | sched | dead

/-- In `killthreads`. -/
inductive KillthreadsPc where
  | start | wake | acquireT | zombie | sched | switched
  | mark (i : TIdx)
  | markWrite (i : TIdx)
  | scan (i : TIdx) (got : Bool)
  | yield | done

/-- In `kthread_exit_proc`. -/
inductive KthreadExitPc where
  | start
  | scan (q : PIdx)
  | release (q : PIdx) (numOfThreads : Bool)
  | decide (q : PIdx) (numOfThreads : Bool)
  | wake (q : PIdx)
  | acquireP (q : PIdx)
  | zombie (q : PIdx)
  | releaseW (q : PIdx)
  | sched (q : PIdx)
  | dead (q : PIdx)
  | exited

/-- In `kthread_join_proc`. -/
inductive KthreadJoinPc where
  | start | acquireW | acquireP | search
  | test (k : TIdx)
  | releaseP (k : TIdx)
  | sleep (k : TIdx)
  | slept (k : TIdx)
  | reacquire (k : TIdx)
  | copy (k : TIdx)
  | free (k : TIdx)
  | releaseW | releaseLast | done
  | failP | failW | failed

/-- In `kthread_create_proc`. -/
inductive KthreadCreatePc where
  | acquire | find | fault
  | release (k : TIdx)
  | ret (k : TIdx)
  | full | failed

/-- In `kthread_id_proc`. -/
inductive KthreadIdPc where
  | start
  | read (q : PIdx)
  | release (q : PIdx) (tid : Int)
  | done (tid : Int)

/-- In `fork`. -/
inductive ForkPc where
  | acquire (j : PIdx)
  | check (j : PIdx)
  | skip (j : PIdx)
  | found (j : PIdx)
  | copy (j : PIdx)
  | uncopy (j : PIdx)
  | fail (j : PIdx)
  | failed
  | release (j : PIdx) (pid : Int)
  | acquireW (j : PIdx) (pid : Int)
  | parent (j : PIdx) (pid : Int)
  | releaseW (j : PIdx) (pid : Int)
  | acquireC (j : PIdx) (pid : Int)
  | runnable (j : PIdx) (pid : Int)
  | releaseC (j : PIdx) (pid : Int)
  | done (pid : Int)

/-- In `wait`. -/
inductive WaitPc where
  | acquire
  | scan (j : PIdx) (havekids : Bool)
  | lock (j : PIdx)
  | check (j : PIdx)
  | unlock (j : PIdx)
  | copy (j : PIdx)
  | reap (j : PIdx) (pid : Int)
  | releaseC (j : PIdx) (r : Int)
  | finish (havekids : Bool)
  | sleep | slept
  | releaseW (r : Int)
  | done (r : Int)

/-- In `exec`. -/
inductive ExecPc where
  | start | killed | files | makeDfl | stack | commit
  | done (r : Int)

/-- In `kill`. -/
inductive KillPc where
  | acquire (j : PIdx)
  | check (j : PIdx)
  | release (j : PIdx)
  | finish (j : PIdx) (r : Int)
  | done (r : Int)

/-- In a call on the signals of the caller. -/
inductive SigSysPc where
  | acquire | body
  | release (r : Int)
  | done (r : Int)

/-- In `bsem_alloc`. -/
inductive BsemAllocPc where
  | acquire | test
  | release (r : Int)
  | done (r : Int)

/-- In `bsem_free`. -/
inductive BsemFreePc where
  | acquire | test | release | done

/-- In `bsem_down`. -/
inductive BsemDownPc where
  | acquire | test | sleep | slept | release | done

/-- In `bsem_up`. -/
inductive BsemUpPc where
  | acquire | test | wake | release | done

/-- In a function that sleeps. -/
inductive BlockPc where
  | acquire | loop | slept | release | done

/-- In a function that wakes up. -/
inductive NotifyPc where
  | acquire | wake | release | done

/-- In `kerneltrap`. -/
inductive KerneltrapPc where
  | start (timer : Bool)
  | tick (timer : Bool)
  | done

/-! ## Frames -/

/-- A call under way: its function, arguments and place. -/
inductive Frame where
  /-- The context of a slot that has never run: a jump to address 0. -/
  | void (t : ThreadRef)
  | scheduler (pc : SchedulerPc)
  /-- `lk` is the lock the caller holds across the switch. -/
  | sched (me : ThreadRef) (lk : Lock) (pc : SchedPc)
  | yield (me : ThreadRef) (pc : YieldPc)
  | sleep (me : ThreadRef) (chan : Chan) (lk : Lock) (pc : SleepPc)
  | wakeup (chan : Chan) (pc : WakeupPc)
  | forkret (me : ThreadRef)
  | usertrap (me : ThreadRef) (pc : UsertrapPc)
  | usertrapret (me : ThreadRef) (pc : UsertrapretPc)
  | kerneltrap (me : Option ThreadRef) (pc : KerneltrapPc)
  | signalHandler (me : ThreadRef) (pc : SignalHandlerPc)
  | sigkillHandler (me : ThreadRef) (pc : SigkillPc)
  | sigcontHandler (me : ThreadRef) (pc : SigcontPc)
  | sigstopHandler (me : ThreadRef) (pc : SigstopPc)
  | signalhandlerUser (me : ThreadRef) (n : Fin NUMOFSIGNALS) (pc : SigUserPc)
  | exit (me : ThreadRef) (status : BitVec 32) (pc : ExitPc)
  | killthreads (me : ThreadRef) (pc : KillthreadsPc)
  | kthreadExit (me : ThreadRef) (status : BitVec 32) (pc : KthreadExitPc)
  | kthreadJoin (me : ThreadRef) (id : Int) (status : Nat) (pc : KthreadJoinPc)
  | kthreadCreate (me : ThreadRef) (fn stack : BitVec 64) (pc : KthreadCreatePc)
  | kthreadId (me : ThreadRef) (pc : KthreadIdPc)
  | fork (me : ThreadRef) (pc : ForkPc)
  | wait (me : ThreadRef) (addr : Nat) (pc : WaitPc)
  | exec (me : ThreadRef) (pc : ExecPc)
  | kill (pid : Int) (signum : BitVec 32) (pc : KillPc)
  | sigret (me : ThreadRef) (pc : SigSysPc)
  | sigaction (me : ThreadRef) (signum : Int) (act oldact : Nat) (pc : SigSysPc)
  | sigprocmask (me : ThreadRef) (mask : BitVec 32)
  | bsemAlloc (pc : BsemAllocPc)
  | bsemFree (d : BIdx) (pc : BsemFreePc)
  | bsemDown (me : ThreadRef) (d : BIdx) (pc : BsemDownPc)
  | bsemUp (d : BIdx) (pc : BsemUpPc)
  /-- An access to `Bsems` past the ends of the table. -/
  | bsemWild
  /-- The rest of the kernel as seen from here: it takes a lock, sleeps any number of times on a
      channel of its own, and releases the lock. -/
  | block (me : ThreadRef) (lk chan : Nat) (pc : BlockPc)
  /-- A device or a system call that wakes up the sleepers of a channel of its own. -/
  | notify (lk chan : Nat) (pc : NotifyPc)
  | other (me : ThreadRef)
  | ret (v : Int)

/-! ## Memory actions -/

/-- The accesses to memory that are one step. -/
inductive Act where
  /-- An access that leaves the thread table of the process alone. -/
  | proc (p : PIdx) (a : ProcAct)
  | setState (t : ThreadRef) (st : ThreadState)
  /-- `t->chan = chan; t->state = t_SLEEPING`. -/
  | sleepOn (t : ThreadRef) (chan : Chan)
  | clearChan (t : ThreadRef)
  /-- The scan of one process by `wakeup`. -/
  | wakeup (p : PIdx) (chan : Chan)
  /-- `sigkill_handler` up to its loop: `p->killed = 1` and the caller's own slot. -/
  | sigkill (t : ThreadRef)
  /-- One round of the loop of `sigkill_handler`. -/
  | wakeSlot (t : ThreadRef)
  /-- `trd->killed = 1` in `killthreads`. -/
  | markKilled (t : ThreadRef)
  /-- The last critical section of `exit`. -/
  | exitProc (t : ThreadRef) (status : BitVec 32)
  | setParent (p : PIdx) (q : Option PIdx)
  | allocproc (p : PIdx) (pages : Pages)
  | freeproc (p : PIdx)
  /-- What `fork` copies from the parent's thread `t` to the child `np`. -/
  | forkCopy (t : ThreadRef) (np : PIdx)
  | forkRunnable (np : PIdx)
  | createThread (t : ThreadRef) (fn stack : BitVec 64)
  /-- `kthread_create` up to the access through a null `trapframe`. -/
  | createFault (t : ThreadRef)
  | freeThread (t : ThreadRef)
  | bsem (d : BIdx) (a : BsemAct)
  /-- `w_sepc(t->trapframe->epc)`. -/
  | setSepc (c : CpuId) (t : ThreadRef)

/-- `t->state = t_RUNNABLE` if it is asleep. -/
def wakeThread (t : Thread) : Thread :=
  if t.state = .sleeping then { t with state := .runnable } else t

/-- The test and assignment of `wakeup`. -/
def wakeupThread (chan : Chan) (t : Thread) : Thread :=
  if t.state = .sleeping ∧ t.chan = chan then { t with state := .runnable } else t

/-- What `fork` copies into the child. -/
def forkCopyProc (p np : Proc) (i : TIdx) : Proc :=
  { np with
    umem := p.umem
    pendingsignals := 0
    frames := update np.frames 0 (update (p.frames i) .a0 0)
    signalmask := p.signalmask
    signalhandlers := p.signalhandlers }

/-- What they do. -/
def Act.apply : Act → Mem → Mem
  | .proc p a, m => m.modProc p a.apply
  | .setState t st, m => m.modThread t fun x => { x with state := st }
  | .sleepOn t chan, m => m.modThread t fun x => { x with chan := chan, state := .sleeping }
  | .clearChan t, m => m.modThread t fun x => { x with chan := .null }
  | .wakeup p chan, m =>
    m.modProc p fun x => { x with threadTbl := fun i => wakeupThread chan (x.threadTbl i) }
  | .sigkill t, m => (m.modProc t.p fun x => { x with killed := true }).modThread t wakeThread
  | .wakeSlot t, m => m.modThread t wakeThread
  | .markKilled t, m => m.modThread t fun x => { x with killed := true }
  | .exitProc t status, m =>
    (m.modProc t.p fun x => { x with xstate := status, state := .zombie }).modThread t
      fun x => { x with state := .zombie, xstate := status }
  | .setParent p q, m => m.modProc p fun x => { x with parent := q }
  | .allocproc p g, m => Xv6.allocproc m p g
  | .freeproc p, m => m.modProc p Xv6.freeproc
  | .forkCopy t np, m => m.modProc np fun x => forkCopyProc (m.procs t.p) x t.i
  | .forkRunnable np, m =>
    (m.modProc np fun x => { x with state := .used }).modThread ⟨np, 0⟩
      fun x => { x with state := .runnable }
  | .createThread t fn stack, m =>
    { (m.modProc t.p fun x =>
        { x with
          frames := update x.frames t.i
            (update (update (x.frames t.i) .epc fn) .sp
              (stack + BitVec.ofNat 64 (MAX_STACK_SIZE - 16))) }).modThread t
          fun x => { x with state := .runnable, tid := m.nexttid, tparent := some t.p }
      with nexttid := m.nexttid + 1 }
  | .createFault t, m =>
    { m.modThread t fun x => { x with state := .runnable, tid := m.nexttid }
      with nexttid := m.nexttid + 1 }
  | .freeThread t, m => m.modThread t Xv6.freeThread
  | .bsem d a, m => { m with bsems := update m.bsems d (a.apply (m.bsems d)) }
  | .setSepc c t, m =>
    { m with sepc := update m.sepc c ((m.procs t.p).frames t.i .epc) }

end Xv6
