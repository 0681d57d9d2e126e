import Xv6.Kernel.Frame

set_option autoImplicit false

/-! # The kernel's code (proc.c, trap.c, exec.c, syscall.c)

For every C function the instruction it executes at each of its program points. The definitions
follow the source statement by statement; comments mark where a branch models something that is not
visible in the names. What lies outside processes, threads and signals (the file system, pipes,
devices, user memory) appears only through what it does to a thread: it may block (`block`), wake
others up (`notify`) and fail (`Env.flag`). -/

namespace Xv6

open Function Machine

/-- The instructions of the kernel. -/
abbrev KInstr := Instr ThreadRef Lock Frame Act
/-- What its code reads. -/
abbrev KView := View CpuId Lock Mem Env

variable (v : KView) (me : ThreadRef)

/-- The index after `j` in a loop over a table of `n` entries. -/
def nextIdx {n : Nat} (j : Fin n) : Option (Fin n) :=
  if h : j.val + 1 < n then some ⟨j.val + 1, h⟩ else none

/-! ## The scheduler, sleep and wakeup -/

/-- The scheduler's loop over the threads of `p`, after thread `i`. -/
def schedulerNext (p : PIdx) (i : TIdx) : Frame :=
  match nextIdx i with
  | some i' => .scheduler (.scan p i')
  | none => .scheduler (.release p)

/-- `scheduler`. -/
def schedulerCode : SchedulerPc → KInstr
  | .top => .setIntr true (.scheduler (.acquire 0))
  | .acquire p => .acquire (.proc p) (.scheduler (.check p))
  | .check p =>
    if (v.mem.procs p).state = .used then .goto (.scheduler (.scan p 0))
    else .goto (.scheduler (.release p))
  | .scan p i =>
    if (v.mem.thread ⟨p, i⟩).state = .runnable then
      .dispatch (.setState ⟨p, i⟩ .running) ⟨p, i⟩ (.scheduler (.back p i))
    else .goto (schedulerNext p i)
  | .back p i => .goto (schedulerNext p i)
  | .release p =>
    .release (.proc p) (match nextIdx p with
        | some q => .scheduler (.acquire q)
        | none => .scheduler .top)

/-- `sched`. -/
def schedCode (lk : Lock) : SchedPc → KInstr
  | .check =>
    if v.holding (.proc me.p) = false then .panic "sched p->lock"
    else if v.regs.noff ≠ 1 ∧ v.regs.noff ≠ 2 then .panic "sched locks"
    else if (v.mem.thread me).state = .running then .panic "sched running"
    else if v.regs.intr then .panic "sched interruptible"
    else .giveup (.sched me lk (.resumed v.regs.intena))
  | .resumed intena => .setIntena intena (.sched me lk .done)
  | .done => .ret 0

/-- `yield`. -/
def yieldCode : YieldPc → KInstr
  | .acquire => .acquire (.proc me.p) (.yield me .set)
  | .set => .act (.setState me .runnable) (.yield me .sched)
  | .sched => .call (.sched me (.proc me.p) .check) (.yield me .switched)
  | .switched => .goto (.yield me .release)
  | .release => .release (.proc me.p) (.yield me .done)
  | .done => .ret 0

/-- `sleep`. -/
def sleepCode (chan : Chan) (lk : Lock) : SleepPc → KInstr
  | .acquire => .acquire (.proc me.p) (.sleep me chan lk .release)
  | .release => .release lk (.sleep me chan lk .set)
  | .set => .act (.sleepOn me chan) (.sleep me chan lk .sched)
  | .sched => .call (.sched me (.proc me.p) .check) (.sleep me chan lk .switched)
  | .switched => .goto (.sleep me chan lk .tidy)
  | .tidy => .act (.clearChan me) (.sleep me chan lk .releaseP)
  | .releaseP => .release (.proc me.p) (.sleep me chan lk .reacquire)
  | .reacquire => .acquire lk (.sleep me chan lk .done)
  | .done => .ret 0

/-- `wakeup`. -/
def wakeupCode (chan : Chan) : WakeupPc → KInstr
  | .acquire j => .acquire (.proc j) (.wakeup chan (.scan j))
  | .scan j => .act (.wakeup j chan) (.wakeup chan (.release j))
  | .release j =>
    .release (.proc j) (match nextIdx j with
        | some j' => .wakeup chan (.acquire j')
        | none => .wakeup chan .done)
  | .done => .ret 0

/-- `wakeup(chan)`, to be called. -/
def wakeupCall (chan : Chan) : Frame := .wakeup chan (.acquire 0)

/-! ## Traps and signals -/

/-- The function that a system call runs. -/
def syscallFrame : Syscall → Frame
  | .fork => .fork me (.acquire 0)
  | .exit status => .exit me status .start
  | .wait addr => .wait me addr .acquire
  | .kill pid signum => .kill pid signum (.acquire 0)
  | .exec => .exec me .start
  | .sigprocmask mask => .sigprocmask me mask
  | .sigaction signum act oldact => .sigaction me signum act oldact .acquire
  | .sigret => .sigret me .acquire
  | .kthreadExit status => .kthreadExit me status .start
  | .kthreadCreate fn stack => .kthreadCreate me fn stack .acquire
  | .kthreadId => .kthreadId me .start
  | .kthreadJoin id status => .kthreadJoin me id status .start
  | .bsemAlloc => .bsemAlloc .acquire
  | .bsemFree descriptor => (bsemIdx descriptor).elim .bsemWild fun d => .bsemFree d .acquire
  | .bsemDown descriptor => (bsemIdx descriptor).elim .bsemWild fun d => .bsemDown me d .acquire
  | .bsemUp descriptor => (bsemIdx descriptor).elim .bsemWild fun d => .bsemUp d .acquire
  | .other => .other me

/-- A device interrupt wakes up the sleepers of one channel, under the device's lock; `k` is the
    frame that took the interrupt. -/
def devintr (k : Frame) : KInstr :=
  match v.inp.notify with
  | some (lk, chan) => .call (.notify lk chan .acquire) k
  | none => .goto k

/-- `usertrap`, with `syscall`. -/
def usertrapCode : UsertrapPc → KInstr
  | .start cause =>
    -- `t->trapframe->epc = r_sepc()`
    if (v.mem.thread me).trapframe = 0 then .panic "kerneltrap"
    else
      match cause with
      | .ecall =>
        if (v.mem.procs me.p).killed then .call (.exit me (-1) .start) (.usertrap me .dead)
        else .goto (.usertrap me .skip)
      | .timer => devintr v (.usertrap me (.notified true))
      | .device => devintr v (.usertrap me (.notified false))
      | .fault => .act (.proc me.p .setKilled) (.usertrap me (.after false))
  | .skip => .act (.proc me.p (.skipEcall me.i)) (.usertrap me .intrOn)
  | .intrOn => .setIntr true (.usertrap me .call)
  | .call =>
    .call (syscallFrame me (decode ((v.mem.procs me.p).frames me.i))) (.usertrap me .returned)
  -- a callee's value is filled in by `resumeFrame`
  | .returned => .goto (.usertrap me (.retval 0))
  | .retval r => .act (.proc me.p (.setA0 me.i r)) (.usertrap me (.after false))
  | .notified timer => .goto (.usertrap me (.after timer))
  | .after timer =>
    if (v.mem.procs me.p).killed then .call (.exit me (-1) .start) (.usertrap me .dead)
    else if timer then .call (.yield me .acquire) (.usertrap me .yielded)
    else .goto (.usertrap me .ret)
  | .yielded => .goto (.usertrap me .ret)
  | .ret => .goto (.usertrapret me .copy)
  -- `exit` does not return
  | .dead => .panic "exit returned"

/-- `usertrapret`. -/
def usertrapretCode : UsertrapretPc → KInstr
  | .copy =>
    if (v.mem.thread me).trapframe = 0 then .panic "kerneltrap"
    -- where a stray pointer leads, the model has no memory to write to
    else if (v.mem.procs me.p).strayBackup then .panic "memmove"
    else .act (.proc me.p (.backup me.i)) (.usertrapret me .intrOff)
  | .intrOff => .setIntr false (.usertrapret me .setup)
  | .setup => .act (.setSepc v.cpu me) (.usertrapret me .signal)
  | .signal => .call (.signalHandler me .start) (.usertrapret me .handled)
  | .handled => .goto (.usertrapret me .ret)
  | .ret => .userret

/-- `forkret`: still holding `p->lock` from the scheduler. -/
def forkretCode : KInstr := .release (.proc me.p) (.usertrapret me .copy)

/-- `kerneltrap`. -/
def kerneltrapCode (me : Option ThreadRef) : KerneltrapPc → KInstr
  | .start timer => devintr v (.kerneltrap me (.tick timer))
  | .tick timer =>
    match me with
    | some t =>
      if timer ∧ (v.mem.thread t).state = .running then
        .call (.yield t .acquire) (.kerneltrap me .done)
      else .goto (.kerneltrap me .done)
    | none => .goto (.kerneltrap me .done)
  | .done => .iret

/-- `signal_handler`. -/
def signalHandlerCode : SignalHandlerPc → KInstr
  | .start =>
    if (v.mem.procs me.p).handlingSignal then .goto (.signalHandler me .done)
    else .goto (.signalHandler me (.loop 0))
  | .loop i =>
    if sigDeliverable (v.mem.procs me.p) i then
      match sigActionOf (v.mem.procs me.p) i with
      | .ignore => .goto (.signalHandler me (.next i))
      | .sigkill => .call (.sigkillHandler me .acquire) (.signalHandler me (.next i))
      | .sigcont => .call (.sigcontHandler me .start) (.signalHandler me (.next i))
      | .sigstop => .call (.sigstopHandler me .start) (.signalHandler me (.next i))
      | .user => .call (.signalhandlerUser me i .acquire) (.signalHandler me (.next i))
    else .goto (.signalHandler me .done)
  | .next i =>
    .goto (match nextIdx i with
      | some i' => .signalHandler me (.loop i')
      | none => .signalHandler me .done)
  | .done => .ret 0

/-- `sigkill_handler`. -/
def sigkillHandlerCode : SigkillPc → KInstr
  | .acquire => .acquire (.proc me.p) (.sigkillHandler me .kill)
  | .kill => .act (.sigkill me) (.sigkillHandler me (.acquireT 0))
  | .acquireT k => .acquire (.thread ⟨me.p, k⟩) (.sigkillHandler me (.wake k))
  | .wake k => .act (.wakeSlot ⟨me.p, k⟩) (.sigkillHandler me (.releaseT k))
  | .releaseT k =>
    .release (.thread ⟨me.p, k⟩) (match nextIdx k with
        | some k' => .sigkillHandler me (.acquireT k')
        | none => .sigkillHandler me .release)
  | .release => .release (.proc me.p) (.sigkillHandler me .done)
  | .done => .ret 0

/-- `sigcont_handler`. -/
def sigcontHandlerCode : SigcontPc → KInstr
  | .start =>
    if (v.mem.procs me.p).freeze then .goto (.sigcontHandler me .thaw) else .ret (-1)
  | .thaw => .act (.proc me.p (.freeze false)) (.sigcontHandler me .clear)
  | .clear => .act (.proc me.p (.xorPending SIGCONT)) (.sigcontHandler me .done)
  | .done => .ret 0

/-- `sigstop_handler`. -/
def sigstopHandlerCode : SigstopPc → KInstr
  | .start =>
    if (v.mem.procs me.p).freeze then .ret (-1)
    else if (v.mem.thread me).state = .runnable ∨ (v.mem.thread me).state = .running then
      .goto (.sigstopHandler me .acquire)
    else .ret 0
  | .acquire => .acquire (.proc me.p) (.sigstopHandler me .freeze)
  | .freeze => .act (.proc me.p (.freeze true)) (.sigstopHandler me .release)
  | .release => .release (.proc me.p) (.sigstopHandler me .loopAcquire)
  | .loopAcquire => .acquire (.proc me.p) (.sigstopHandler me .check)
  | .check =>
    if (v.mem.procs me.p).pendingsignals &&& sigBit SIGCONT = 0 then
      .goto (.sigstopHandler me .loopRelease)
    else .act (.proc me.p .thaw) (.sigstopHandler me .thawRelease)
  | .loopRelease => .release (.proc me.p) (.sigstopHandler me .yield)
  | .yield => .call (.yield me .acquire) (.sigstopHandler me .loopAcquire)
  | .thawRelease => .release (.proc me.p) (.sigstopHandler me .done)
  | .done => .ret 0

/-- `signalhandler_user`. -/
def signalhandlerUserCode (n : Fin NUMOFSIGNALS) : SigUserPc → KInstr
  | .acquire => .acquire (.proc me.p) (.signalhandlerUser me n .deliver)
  | .deliver =>
    match Xv6.signalhandlerUser (v.mem.procs me.p) me.i n v.inp.junk with
    | none => .panic "kerneltrap"
    | some _ =>
      .act (.proc me.p (.deliver me.i n v.inp.junk)) (.signalhandlerUser me n .release)
  | .release => .release (.proc me.p) (.signalhandlerUser me n .done)
  | .done => .ret 0

/-! ## Threads -/

/-- `exit` from the loop of `reparent` over the process table on, after process `j`. -/
def reparentNext (status : BitVec 32) (j : PIdx) : Frame :=
  match nextIdx j with
  | some j' => .exit me status (.reparent j')
  | none => .exit me status .wakeParent

/-- The address of a process as a sleep channel. -/
def procChan : Option PIdx → Chan
  | some p => .proc p
  | none => .null

/-- `exit`. -/
def exitCode (status : BitVec 32) : ExitPc → KInstr
  | .start =>
    if v.mem.initproc = some me.p then .panic "init exiting"
    else .call (.killthreads me .start) (.exit me status .killed)
  | .killed => .goto (.exit me status .files)
  -- closing the files and releasing the current directory may block
  | .files =>
    match v.inp.block with
    | some (lk, chan) => .call (.block me lk chan .acquire) (.exit me status .files)
    | none => .goto (.exit me status .acquireW)
  | .acquireW => .acquire .wait (.exit me status (.reparent 0))
  | .reparent j =>
    if (v.mem.procs j).parent = some me.p then
      .act (.setParent j v.mem.initproc) (.exit me status (.reparentWake j))
    else .goto (reparentNext me status j)
  | .reparentWake j =>
    .call (wakeupCall (procChan v.mem.initproc)) (.exit me status (.reparentNext j))
  | .reparentNext j => .goto (reparentNext me status j)
  | .wakeParent =>
    .call (wakeupCall (procChan (v.mem.procs me.p).parent)) (.exit me status .acquireP)
  | .acquireP => .acquire (.proc me.p) (.exit me status .zombie)
  | .zombie => .act (.exitProc me status) (.exit me status .releaseW)
  | .releaseW => .release .wait (.exit me status .sched)
  | .sched => .call (.sched me (.proc me.p) .check) (.exit me status .dead)
  | .dead => .panic "zombie exit"

/-- The test `killthreads` makes of a slot, from the caller `t`: another thread that is neither
    `TZOMBIE` nor `t_UNUSED`. -/
def otherAlive (t trd : Thread) : Bool :=
  trd.tid != t.tid && trd.state != .zombie && trd.state != .unused

/-- `killthreads`. -/
def killthreadsCode : KillthreadsPc → KInstr
  | .start =>
    if (v.mem.thread me).killed then .goto (.killthreads me .wake)
    else .goto (.killthreads me (.mark 0))
  | .wake => .call (wakeupCall (.thread me)) (.killthreads me .acquireT)
  | .acquireT => .acquire (.thread me) (.killthreads me .zombie)
  | .zombie => .act (.setState me .zombie) (.killthreads me .sched)
  | .sched => .call (.sched me (.thread me) .check) (.killthreads me .switched)
  | .switched => .goto (.killthreads me (.scan 0 false))
  | .mark i =>
    if otherAlive (v.mem.thread me) (v.mem.thread ⟨me.p, i⟩) then
      .goto (.killthreads me (.markWrite i))
    else
      .goto (match nextIdx i with
        | some i' => .killthreads me (.mark i')
        | none => .killthreads me (.scan 0 false))
  | .markWrite i =>
    .act (.markKilled ⟨me.p, i⟩) (match nextIdx i with
        | some i' => .killthreads me (.mark i')
        | none => .killthreads me (.scan 0 false))
  | .scan i got =>
    let got := got || otherAlive (v.mem.thread me) (v.mem.thread ⟨me.p, i⟩)
    .goto (match nextIdx i with
      | some i' => .killthreads me (.scan i' got)
      | none => if got then .killthreads me .yield else .killthreads me .done)
  | .yield => .call (.yield me .acquire) (.killthreads me (.scan 0 false))
  | .done => .ret 0

/-- The states `kthread_exit` counts as those of a thread that is still there. -/
def countedAlive (st : ThreadState) : Bool :=
  st = .sleeping || st = .runnable || st = .running || st = .unused

/-- The scan of `kthread_exit`: `num_of_threads`. -/
def numOfThreads (p : Proc) (currTid : Int) : Bool :=
  (List.finRange NTHREAD).any fun i =>
    (p.threadTbl i).tid != currTid && countedAlive (p.threadTbl i).state

/-- `kthread_exit_proc`. -/
def kthreadExitCode (status : BitVec 32) : KthreadExitPc → KInstr
  | .start =>
    match (v.mem.thread me).tparent with
    | none => .panic "kerneltrap"
    | some q => .acquire (.proc q) (.kthreadExit me status (.scan q))
  | .scan q =>
    .goto (.kthreadExit me status (.release q (numOfThreads (v.mem.procs q) (v.mem.thread me).tid)))
  | .release q num => .release (.proc q) (.kthreadExit me status (.decide q num))
  | .decide q num =>
    if num then .acquire .wait (.kthreadExit me status (.wake q))
    else .call (.exit me status .start) (.kthreadExit me status .exited)
  | .wake q => .call (wakeupCall (.thread me)) (.kthreadExit me status (.acquireP q))
  | .acquireP q => .acquire (.proc q) (.kthreadExit me status (.zombie q))
  | .zombie q => .act (.setState me .zombie) (.kthreadExit me status (.releaseW q))
  | .releaseW q => .release .wait (.kthreadExit me status (.sched q))
  | .sched q => .call (.sched me (.proc q) .check) (.kthreadExit me status (.dead q))
  | .dead _ => .panic "zombie exit"
  | .exited => .ret 0

/-- The search loop of `kthread_join`: the first slot that holds `id`, else the last slot. -/
def joinSearch (p : Proc) (id : Int) : TIdx :=
  ((List.finRange NTHREAD).find? fun i => (p.threadTbl i).tid = id).getD 7

/-- `kthread_join`'s test of its arguments. -/
def joinRejects (id callerTid nexttid : Int) : Bool :=
  id = callerTid || id > nexttid || id < 1

/-- The condition of `kthread_join`'s `while`. -/
def joinWaits (t : Thread) (id : Int) : Bool := t.tid = id && t.state != .zombie

/-- The `copyout` of `kthread_join` succeeds, or there is nothing to copy. -/
def joinCopies (p : Proc) (status : Nat) (k : TIdx) : Bool :=
  status = 0 || (copyout p.umem status (intBytes (p.threadTbl k).xstate)).2

/-- `kthread_join_proc`. -/
def kthreadJoinCode (id : Int) (status : Nat) : KthreadJoinPc → KInstr
  | .start =>
    if joinRejects id (v.mem.thread me).tid v.mem.nexttid then
      .goto (.kthreadJoin me id status .failed)
    else .goto (.kthreadJoin me id status .acquireW)
  | .acquireW => .acquire .wait (.kthreadJoin me id status .acquireP)
  | .acquireP => .acquire (.proc me.p) (.kthreadJoin me id status .search)
  | .search => .goto (.kthreadJoin me id status (.test (joinSearch (v.mem.procs me.p) id)))
  | .test k =>
    if joinWaits (v.mem.thread ⟨me.p, k⟩) id then .goto (.kthreadJoin me id status (.releaseP k))
    else .goto (.kthreadJoin me id status (.copy k))
  | .releaseP k => .release (.proc me.p) (.kthreadJoin me id status (.sleep k))
  | .sleep k =>
    .call (.sleep me (.thread ⟨me.p, k⟩) .wait .acquire) (.kthreadJoin me id status (.slept k))
  | .slept k => .goto (.kthreadJoin me id status (.reacquire k))
  | .reacquire k => .acquire (.proc me.p) (.kthreadJoin me id status (.test k))
  | .copy k =>
    if status = 0 then .goto (.kthreadJoin me id status (.free k))
    else
      .act (.proc me.p (.copyoutInt status (v.mem.thread ⟨me.p, k⟩).xstate))
        (if joinCopies (v.mem.procs me.p) status k then .kthreadJoin me id status (.free k)
          else .kthreadJoin me id status .failP)
  | .free k => .act (.freeThread ⟨me.p, k⟩) (.kthreadJoin me id status .releaseW)
  | .releaseW => .release .wait (.kthreadJoin me id status .releaseLast)
  | .releaseLast => .release (.proc me.p) (.kthreadJoin me id status .done)
  | .done => .ret 0
  | .failP => .release (.proc me.p) (.kthreadJoin me id status .failW)
  | .failW => .release .wait (.kthreadJoin me id status .failed)
  | .failed => .ret (-1)

/-- The slot `kthread_create` takes. -/
def firstUnused (p : Proc) : Option TIdx :=
  (List.finRange NTHREAD).find? fun i => (p.threadTbl i).state = .unused

/-- `kthread_create_proc`. -/
def kthreadCreateCode (fn stack : BitVec 64) : KthreadCreatePc → KInstr
  | .acquire => .acquire (.proc me.p) (.kthreadCreate me fn stack .find)
  | .find =>
    match firstUnused (v.mem.procs me.p) with
    | none => .goto (.kthreadCreate me fn stack .full)
    | some k =>
      if (v.mem.thread ⟨me.p, k⟩).trapframe = 0 then
        .act (.createFault ⟨me.p, k⟩) (.kthreadCreate me fn stack .fault)
      else
        .spawn (.createThread ⟨me.p, k⟩ fn stack) ⟨me.p, k⟩ (.forkret ⟨me.p, k⟩)
          (.kthreadCreate me fn stack (.release k))
  | .fault => .panic "kerneltrap"
  | .release k => .release (.proc me.p) (.kthreadCreate me fn stack (.ret k))
  | .ret k => .ret (v.mem.thread ⟨me.p, k⟩).tid
  | .full => .release (.proc me.p) (.kthreadCreate me fn stack .failed)
  | .failed => .ret (-1)

/-- `kthread_id_proc`. -/
def kthreadIdCode : KthreadIdPc → KInstr
  | .start =>
    match (v.mem.thread me).tparent with
    | none => .panic "kerneltrap"
    | some q => .acquire (.proc q) (.kthreadId me (.read q))
  | .read q => .goto (.kthreadId me (.release q (v.mem.thread me).tid))
  | .release q tid => .release (.proc q) (.kthreadId me (.done tid))
  | .done tid => .ret (if tid = 0 then -1 else tid)

/-! ## Processes -/

/-- `fork`. -/
def forkCode : ForkPc → KInstr
  | .acquire j => .acquire (.proc j) (.fork me (.check j))
  | .check j =>
    if (v.mem.procs j).state = .unused then .goto (.fork me (.found j))
    else .goto (.fork me (.skip j))
  | .skip j =>
    .release (.proc j) (match nextIdx j with
        | some j' => .fork me (.acquire j')
        | none => .fork me .failed)
  | .found j =>
    if v.inp.pages.ok then
      .spawn (.allocproc j v.inp.pages) ⟨j, 0⟩ (.forkret ⟨j, 0⟩) (.fork me (.copy j))
    else .act (.allocproc j v.inp.pages) (.fork me (.fail j))
  -- `uvmcopy` fails when the input says so
  | .copy j =>
    if v.inp.flag then .goto (.fork me (.uncopy j))
    else .act (.forkCopy me j) (.fork me (.release j (v.mem.procs j).pid))
  | .uncopy j => .act (.freeproc j) (.fork me (.fail j))
  | .fail j => .release (.proc j) (.fork me .failed)
  | .failed => .ret (-1)
  | .release j pid => .release (.proc j) (.fork me (.acquireW j pid))
  | .acquireW j pid => .acquire .wait (.fork me (.parent j pid))
  | .parent j pid => .act (.setParent j (some me.p)) (.fork me (.releaseW j pid))
  | .releaseW j pid => .release .wait (.fork me (.acquireC j pid))
  | .acquireC j pid => .acquire (.proc j) (.fork me (.runnable j pid))
  | .runnable j pid => .act (.forkRunnable j) (.fork me (.releaseC j pid))
  | .releaseC j pid => .release (.proc j) (.fork me (.done pid))
  | .done pid => .ret pid

/-- `wait`'s loop over the process table, after process `j`. -/
def waitNext (addr : Nat) (j : PIdx) (havekids : Bool) : Frame :=
  match nextIdx j with
  | some j' => .wait me addr (.scan j' havekids)
  | none => .wait me addr (.finish havekids)

/-- `wait`. -/
def waitCode (addr : Nat) : WaitPc → KInstr
  | .acquire => .acquire .wait (.wait me addr (.scan 0 false))
  | .scan j havekids =>
    if (v.mem.procs j).parent = some me.p then .goto (.wait me addr (.lock j))
    else .goto (waitNext me addr j havekids)
  | .lock j => .acquire (.proc j) (.wait me addr (.check j))
  | .check j =>
    if (v.mem.procs j).state = .zombie then .goto (.wait me addr (.copy j))
    else .goto (.wait me addr (.unlock j))
  | .unlock j => .release (.proc j) (waitNext me addr j true)
  | .copy j =>
    if addr = 0 then .goto (.wait me addr (.reap j (v.mem.procs j).pid))
    else
      .act (.proc me.p (.copyoutInt addr (v.mem.procs j).xstate))
        (if (copyout (v.mem.procs me.p).umem addr (intBytes (v.mem.procs j).xstate)).2 then
          .wait me addr (.reap j (v.mem.procs j).pid)
        else .wait me addr (.releaseC j (-1)))
  | .reap j pid => .act (.freeproc j) (.wait me addr (.releaseC j pid))
  | .releaseC j r => .release (.proc j) (.wait me addr (.releaseW r))
  | .finish havekids =>
    if havekids = false ∨ (v.mem.procs me.p).killed then .goto (.wait me addr (.releaseW (-1)))
    else .goto (.wait me addr .sleep)
  | .sleep => .call (.sleep me (.proc me.p) .wait .acquire) (.wait me addr .slept)
  | .slept => .goto (.wait me addr (.scan 0 false))
  | .releaseW r => .release .wait (.wait me addr (.done r))
  | .done r => .ret r

/-- `sys_exec` and `exec`: reading the arguments and the file may block, and may fail before and
    after the signal handlers are reset. -/
def execCode : ExecPc → KInstr
  | .start =>
    if v.inp.flag then .goto (.exec me (.done (-1)))
    else .call (.killthreads me .start) (.exec me .killed)
  | .killed => .goto (.exec me .files)
  | .files =>
    match v.inp.block with
    | some (lk, chan) => .call (.block me lk chan .acquire) (.exec me .files)
    | none => if v.inp.flag then .goto (.exec me (.done (-1))) else .goto (.exec me .makeDfl)
  | .makeDfl => .act (.proc me.p .makeDfl) (.exec me .stack)
  | .stack => if v.inp.flag then .goto (.exec me (.done (-1))) else .goto (.exec me .commit)
  | .commit =>
    .act (.proc me.p (.execCommit me.i v.inp.img)) (.exec me (.done v.inp.img.argc))
  | .done r => .ret r

/-- `kill`'s loop over the process table, after process `j`. -/
def killNext (pid : Int) (signum : BitVec 32) (j : PIdx) : Frame :=
  match nextIdx j with
  | some j' => .kill pid signum (.acquire j')
  | none => .kill pid signum (.done (-1))

/-- `kill`. -/
def killCode (pid : Int) (signum : BitVec 32) : KillPc → KInstr
  | .acquire j => .acquire (.proc j) (.kill pid signum (.check j))
  | .check j =>
    if (v.mem.procs j).pid = pid then
      if (v.mem.procs j).state = .zombie ∨ (v.mem.procs j).state = .unused then
        .goto (.kill pid signum (.finish j (-1)))
      else .act (.proc j (.kill signum)) (.kill pid signum (.finish j 0))
    else .goto (.kill pid signum (.release j))
  | .release j => .release (.proc j) (killNext pid signum j)
  | .finish j r => .release (.proc j) (.kill pid signum (.done r))
  | .done r => .ret r

/-- `sigret_proc`. -/
def sigretCode : SigSysPc → KInstr
  | .acquire => .acquire (.proc me.p) (.sigret me .body)
  | .body =>
    if (v.mem.procs me.p).strayBackup then .panic "memmove"
    else .act (.proc me.p (.sigret me.i)) (.sigret me (.release 0))
  | .release r => .release (.proc me.p) (.sigret me (.done r))
  | .done r => .ret r

/-- `sigaction_proc`. -/
def sigactionCode (signum : Int) (act oldact : Nat) : SigSysPc → KInstr
  -- the range of `signum` is tested before the lock is taken
  | .acquire =>
    if signum > 33 ∨ signum < 0 then .goto (.sigaction me signum act oldact (.done (-1)))
    else .acquire (.proc me.p) (.sigaction me signum act oldact .body)
  | .body =>
    .act (.proc me.p (.sigaction signum act oldact v.inp.value.toNat))
      (.sigaction me signum act oldact
        (.release (sigactionProc (v.mem.procs me.p) signum act oldact v.inp.value.toNat).2))
  | .release r => .release (.proc me.p) (.sigaction me signum act oldact (.done r))
  | .done r => .ret r

/-! ## Binary semaphores -/

/-- `bsem_alloc`: the `break` at the end of the loop's body leaves it after the entry 0. -/
def bsemAllocCode : BsemAllocPc → KInstr
  | .acquire => .acquire (.bsem 0) (.bsemAlloc .test)
  | .test =>
    if (v.mem.bsems 0).value = -1 then .act (.bsem 0 (.alloc 0)) (.bsemAlloc (.release 0))
    else .goto (.bsemAlloc (.release (-1)))
  | .release r => .release (.bsem 0) (.bsemAlloc (.done r))
  | .done r => .ret r

/-- `bsem_free`. -/
def bsemFreeCode (d : BIdx) : BsemFreePc → KInstr
  | .acquire => .acquire (.bsem d) (.bsemFree d .test)
  | .test =>
    if (v.mem.bsems d).descriptor = -1 ∨ (v.mem.bsems d).value = 0 then
      .goto (.bsemFree d .release)
    else .act (.bsem d .free) (.bsemFree d .release)
  | .release => .release (.bsem d) (.bsemFree d .done)
  | .done => .ret 0

/-- `bsem_down`. -/
def bsemDownCode (d : BIdx) : BsemDownPc → KInstr
  | .acquire => .acquire (.bsem d) (.bsemDown me d .test)
  | .test =>
    if (v.mem.bsems d).descriptor = -1 then .goto (.bsemDown me d .release)
    else if (v.mem.bsems d).value = 1 then .act (.bsem d (.take me)) (.bsemDown me d .release)
    else
      match placeThreadInLine (v.mem.bsems d).threads me with
      | none => .panic "No More space for threads in Bsem"
      | some _ => .act (.bsem d (.place me)) (.bsemDown me d .sleep)
  | .sleep => .call (.sleep me (.bsem d) (.bsem d) .acquire) (.bsemDown me d .slept)
  -- the next round of the loop starts with another `acquire`; `sleep` has come back with the lock
  | .slept => .acquire (.bsem d) (.bsemDown me d .test)
  | .release => .release (.bsem d) (.bsemDown me d .done)
  | .done => .ret 0

/-- `bsem_up`. -/
def bsemUpCode (d : BIdx) : BsemUpPc → KInstr
  | .acquire => .acquire (.bsem d) (.bsemUp d .test)
  | .test =>
    if (v.mem.bsems d).descriptor = -1 then .goto (.bsemUp d .release)
    else .act (.bsem d .up) (.bsemUp d .wake)
  | .wake => .call (wakeupCall (.bsem d)) (.bsemUp d .release)
  | .release => .release (.bsem d) (.bsemUp d .done)
  | .done => .ret 0

/-! ## The rest of the kernel -/

/-- Any other function that sleeps. -/
def blockCode (lk chan : Nat) : BlockPc → KInstr
  | .acquire => .acquire (.other lk) (.block me lk chan .loop)
  | .loop =>
    if v.inp.flag then .call (.sleep me (.other chan) (.other lk) .acquire) (.block me lk chan .slept)
    else .goto (.block me lk chan .release)
  | .slept => .goto (.block me lk chan .loop)
  | .release => .release (.other lk) (.block me lk chan .done)
  | .done => .ret 0

/-- Any other function that wakes up. -/
def notifyCode (lk chan : Nat) : NotifyPc → KInstr
  | .acquire => .acquire (.other lk) (.notify lk chan .wake)
  | .wake => .call (wakeupCall (.other chan)) (.notify lk chan .release)
  | .release => .release (.other lk) (.notify lk chan .done)
  | .done => .ret 0

/-- A system call outside the model blocks and wakes up others any number of times, then changes
    user memory in any way and returns any value. -/
def otherCode : KInstr :=
  match v.inp.block, v.inp.notify with
  | some (lk, chan), _ => .call (.block me lk chan .acquire) (.other me)
  | none, some (lk, chan) => .call (.notify lk chan .acquire) (.other me)
  | none, none => .act (.proc me.p (.setUmem v.inp.img.umem)) (.ret v.inp.value)

/-! ## The program -/

/-- What the frame on top does next. -/
def code (v : KView) : Frame → KInstr
  | .void _ => .panic "kerneltrap"
  | .scheduler pc => schedulerCode v pc
  | .sched me lk pc => schedCode v me lk pc
  | .yield me pc => yieldCode me pc
  | .sleep me chan lk pc => sleepCode me chan lk pc
  | .wakeup chan pc => wakeupCode chan pc
  | .forkret me => forkretCode me
  | .usertrap me pc => usertrapCode v me pc
  | .usertrapret me pc => usertrapretCode v me pc
  | .kerneltrap me pc => kerneltrapCode v me pc
  | .signalHandler me pc => signalHandlerCode v me pc
  | .sigkillHandler me pc => sigkillHandlerCode me pc
  | .sigcontHandler me pc => sigcontHandlerCode v me pc
  | .sigstopHandler me pc => sigstopHandlerCode v me pc
  | .signalhandlerUser me n pc => signalhandlerUserCode v me n pc
  | .exit me status pc => exitCode v me status pc
  | .killthreads me pc => killthreadsCode v me pc
  | .kthreadExit me status pc => kthreadExitCode v me status pc
  | .kthreadJoin me id status pc => kthreadJoinCode v me id status pc
  | .kthreadCreate me fn stack pc => kthreadCreateCode v me fn stack pc
  | .kthreadId me pc => kthreadIdCode v me pc
  | .fork me pc => forkCode v me pc
  | .wait me addr pc => waitCode v me addr pc
  | .exec me pc => execCode v me pc
  | .kill pid signum pc => killCode v pid signum pc
  | .sigret me pc => sigretCode v me pc
  | .sigaction me signum act oldact pc => sigactionCode v me signum act oldact pc
  | .sigprocmask me mask =>
    .act (.proc me.p (.sigprocmask mask)) (.ret (v.mem.procs me.p).signalmask.toInt)
  | .bsemAlloc pc => bsemAllocCode v pc
  | .bsemFree d pc => bsemFreeCode v d pc
  | .bsemDown me d pc => bsemDownCode v me d pc
  | .bsemUp d pc => bsemUpCode v d pc
  -- the access reads or overwrites whatever lies there; the model stops
  | .bsemWild => .panic "Bsems"
  | .block me lk chan pc => blockCode v me lk chan pc
  | .notify lk chan pc => notifyCode lk chan pc
  | .other me => otherCode v me
  | .ret r => .ret r

/-- How a caller goes on when its callee returns `r`: only `syscall` uses the value. -/
def resumeFrame : Frame → Int → Frame
  | .usertrap me .returned, r => .usertrap me (.retval r)
  | .exit me status .killed, _ => .exit me status .files
  | .exec me .killed, _ => .exec me .files
  | f, _ => f

/-- A trap from user mode: `uservec` saves the registers and enters `usertrap`. -/
def trapEntry (t : ThreadRef) (e : Env) : Option (Act × Frame) :=
  e.trap.map fun (cause, regs) => (.proc t.p (.saveUser t.i regs e.stores), .usertrap t (.start cause))

theorem trapEntry_some {t : ThreadRef} {e : Env} {a : Act} {f : Frame} (h : trapEntry t e = some (a, f)) :
    ∃ cause regs, a = .proc t.p (.saveUser t.i regs e.stores) ∧ f = .usertrap t (.start cause) := by
  obtain ⟨⟨cause, regs⟩, -, heq⟩ := Option.map_eq_some_iff.1 h
  cases heq
  exact ⟨cause, regs, rfl, rfl⟩

/-- An interrupt in the kernel. -/
def irqEntry (t : Option ThreadRef) (e : Env) : Option Frame :=
  e.irq.map fun cause => .kerneltrap t (.start (cause = .timer))

/-- The kernel as a program of the machine. -/
def kernel : Prog CpuId ThreadRef Lock Frame Act Mem Env where
  apply := Act.apply
  code := code
  resume := resumeFrame
  trap := fun _ => trapEntry
  irq := irqEntry

/-- The state of the machine that runs it. -/
abbrev KState := State CpuId ThreadRef Lock Frame Mem

/-! ## Boot -/

/-- The tables before `userinit`. -/
def bootMem : Mem :=
  { procs := fun _ => {}, bsems := initsems, nextpid := 1, nexttid := 1, initproc := none,
    sepc := fun _ => 0 }

/-- `userinit`: the first process, in the first slot, with its thread ready to run. -/
def userinit (g : Pages) (umem : UserMem) : Mem :=
  let m := Xv6.allocproc bootMem 0 g
  { (m.modProc 0 fun p =>
      { p with
        umem := umem
        frames := update p.frames 0
          (update (update (p.frames 0) .epc 0) .sp (BitVec.ofNat 64 PGSIZE)) }).modThread
        ⟨0, 0⟩ fun t => { t with state := .runnable }
    with initproc := some 0 }

/-- Every cpu has entered its scheduler. `userinit` does not look at whether `allocproc` succeeded,
    so only `Pages` that are `ok` give a kernel that starts. -/
def boot (g : Pages) (umem : UserMem) : KState where
  mem := userinit g umem
  lock := fun _ => none
  regs := fun _ => { noff := 0, intena := false, intr := false }
  cur := fun _ => none
  active := fun _ => [.scheduler .top]
  home := fun _ => []
  ctx := update (fun t => [.void t]) ⟨0, 0⟩ [.forkret ⟨0, 0⟩]
  halted := fun _ => none

/-! ## Schedules -/

/-- `n` steps of cpu `c` in which nothing happens outside. -/
def steps (c : CpuId) (n : Nat) : List (CpuId × Env) := List.replicate n (c, {})

/-- The user code on cpu `c` makes the system call `num`. -/
def ecall (c : CpuId) (num a0 a1 : BitVec 64) : CpuId × Env :=
  (c, { trap := some (.ecall, update (update (update (fun _ => 0)
    .a7 num) .a0 a0) .a1 a1) })

/-- The pages of the first process in the schedules below. -/
def firstPages : Pages := { tf := 4096, pagetable := true, backup := 8192 }

end Xv6
