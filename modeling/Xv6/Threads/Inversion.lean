import Xv6.Kernel.Code
import Xv6.Machine.Step
import Xv6.Threads.Effects

set_option autoImplicit false

/-! # Where the code changes memory

`code_effect` lists the instructions that change memory, start a thread, switch between threads or
go to user mode, with the points of the code that issue them and what was tested there. The accesses
to memory come in two lists: those that change a thread table (`Alters`, `Spawns`) and those that
the tables do not show (`Unseen`). Proofs about what the kernel does to its data go through these
lists and never through the code. -/

namespace Xv6

open Function Machine

/-- The actions that change a thread table and the points of the code that make them. -/
inductive Alters (m : Mem) : Frame → Act → Frame → Prop where
  | yield (me : ThreadRef) : Alters m (.yield me .set) (.setState me .runnable) (.yield me .sched)
  | sleep (me : ThreadRef) (chan : Chan) (lk : Lock) :
      Alters m (.sleep me chan lk .set) (.sleepOn me chan) (.sleep me chan lk .sched)
  | killthreads (me : ThreadRef) :
      Alters m (.killthreads me .zombie) (.setState me .zombie) (.killthreads me .sched)
  | kthreadExit (me : ThreadRef) (status : BitVec 32) (q : PIdx) :
      Alters m (.kthreadExit me status (.zombie q)) (.setState me .zombie)
        (.kthreadExit me status (.releaseW q))
  | exit (me : ThreadRef) (status : BitVec 32) :
      Alters m (.exit me status .zombie) (.exitProc me status) (.exit me status .releaseW)
  | wakeup (chan : Chan) (j : PIdx) :
      Alters m (.wakeup chan (.scan j)) (.wakeup j chan) (.wakeup chan (.release j))
  | sigkill (me : ThreadRef) :
      Alters m (.sigkillHandler me .kill) (.sigkill me) (.sigkillHandler me (.acquireT 0))
  | sigkillWake (me : ThreadRef) (k : TIdx) :
      Alters m (.sigkillHandler me (.wake k)) (.wakeSlot ⟨me.p, k⟩)
        (.sigkillHandler me (.releaseT k))
  | allocFail (me : ThreadRef) (j : PIdx) (g : Pages) (hg : g.ok = false) :
      Alters m (.fork me (.found j)) (.allocproc j g) (.fork me (.fail j))
  | uncopy (me : ThreadRef) (j : PIdx) :
      Alters m (.fork me (.uncopy j)) (.freeproc j) (.fork me (.fail j))
  | forkRunnable (me : ThreadRef) (j : PIdx) (pid : Int) :
      Alters m (.fork me (.runnable j pid)) (.forkRunnable j) (.fork me (.releaseC j pid))
  | reap (me : ThreadRef) (addr : Nat) (j : PIdx) (pid : Int) :
      Alters m (.wait me addr (.reap j pid)) (.freeproc j) (.wait me addr (.releaseC j pid))
  | fault (me : ThreadRef) (fn stack : BitVec 64) (k : TIdx)
      (hk : firstUnused (m.procs me.p) = some k) (htf : (m.thread ⟨me.p, k⟩).trapframe = 0) :
      Alters m (.kthreadCreate me fn stack .find) (.createFault ⟨me.p, k⟩)
        (.kthreadCreate me fn stack .fault)
  | join (me : ThreadRef) (id : Int) (status : Nat) (k : TIdx) :
      Alters m (.kthreadJoin me id status (.free k)) (.freeThread ⟨me.p, k⟩)
        (.kthreadJoin me id status .releaseW)

/-- The two places that start a thread. -/
inductive Spawns (m : Mem) : Frame → Act → ThreadRef → Frame → Frame → Prop where
  | create (me : ThreadRef) (fn stack : BitVec 64) (k : TIdx)
      (hk : firstUnused (m.procs me.p) = some k) (htf : (m.thread ⟨me.p, k⟩).trapframe ≠ 0) :
      Spawns m (.kthreadCreate me fn stack .find) (.createThread ⟨me.p, k⟩ fn stack) ⟨me.p, k⟩
        (.forkret ⟨me.p, k⟩) (.kthreadCreate me fn stack (.release k))
  | alloc (me : ThreadRef) (j : PIdx) (g : Pages) (hg : g.ok = true) :
      Spawns m (.fork me (.found j)) (.allocproc j g) ⟨j, 0⟩ (.forkret ⟨j, 0⟩) (.fork me (.copy j))

/-- The actions that leave the thread tables as they are and the points of the code that make
    them. -/
inductive Unseen (m : Mem) : Frame → Act → Frame → Prop where
  | fault (me : ThreadRef) :
      Unseen m (.usertrap me (.start .fault)) (.proc me.p .setKilled) (.usertrap me (.after false))
  | skip (me : ThreadRef) :
      Unseen m (.usertrap me .skip) (.proc me.p (.skipEcall me.i)) (.usertrap me .intrOn)
  | retval (me : ThreadRef) (r : Int) :
      Unseen m (.usertrap me (.retval r)) (.proc me.p (.setA0 me.i r)) (.usertrap me (.after false))
  | backup (me : ThreadRef) :
      Unseen m (.usertrapret me .copy) (.proc me.p (.backup me.i)) (.usertrapret me .intrOff)
  | setup (me : ThreadRef) (c : CpuId) :
      Unseen m (.usertrapret me .setup) (.setSepc c me) (.usertrapret me .signal)
  | contThaw (me : ThreadRef) :
      Unseen m (.sigcontHandler me .thaw) (.proc me.p (.freeze false)) (.sigcontHandler me .clear)
  | contClear (me : ThreadRef) :
      Unseen m (.sigcontHandler me .clear) (.proc me.p (.xorPending SIGCONT))
        (.sigcontHandler me .done)
  | freeze (me : ThreadRef) :
      Unseen m (.sigstopHandler me .freeze) (.proc me.p (.freeze true)) (.sigstopHandler me .release)
  | thaw (me : ThreadRef) (h : (m.procs me.p).pendingsignals &&& sigBit SIGCONT ≠ 0) :
      Unseen m (.sigstopHandler me .check) (.proc me.p .thaw) (.sigstopHandler me .thawRelease)
  | deliver (me : ThreadRef) (n : Fin NUMOFSIGNALS) (junk : Junk) (p : Proc)
      (h : Xv6.signalhandlerUser (m.procs me.p) me.i n junk = some p) :
      Unseen m (.signalhandlerUser me n .deliver) (.proc me.p (.deliver me.i n junk))
        (.signalhandlerUser me n .release)
  | reparent (me : ThreadRef) (status : BitVec 32) (j : PIdx) (h : (m.procs j).parent = some me.p) :
      Unseen m (.exit me status (.reparent j)) (.setParent j m.initproc)
        (.exit me status (.reparentWake j))
  | mark (me : ThreadRef) (i : TIdx) (k : Frame) :
      Unseen m (.killthreads me (.markWrite i)) (.markKilled ⟨me.p, i⟩) k
  | joinCopy (me : ThreadRef) (id : Int) (status : Nat) (i : TIdx) (k : Frame) :
      Unseen m (.kthreadJoin me id status (.copy i))
        (.proc me.p (.copyoutInt status (m.thread ⟨me.p, i⟩).xstate)) k
  | forkCopy (me : ThreadRef) (j : PIdx) :
      Unseen m (.fork me (.copy j)) (.forkCopy me j) (.fork me (.release j (m.procs j).pid))
  | forkParent (me : ThreadRef) (j : PIdx) (pid : Int) :
      Unseen m (.fork me (.parent j pid)) (.setParent j (some me.p)) (.fork me (.releaseW j pid))
  | waitCopy (me : ThreadRef) (addr : Nat) (j : PIdx) (k : Frame) :
      Unseen m (.wait me addr (.copy j)) (.proc me.p (.copyoutInt addr (m.procs j).xstate)) k
  | makeDfl (me : ThreadRef) :
      Unseen m (.exec me .makeDfl) (.proc me.p .makeDfl) (.exec me .stack)
  | execCommit (me : ThreadRef) (img : Image) :
      Unseen m (.exec me .commit) (.proc me.p (.execCommit me.i img)) (.exec me (.done img.argc))
  | kill (pid : Int) (signum : BitVec 32) (j : PIdx) (hpid : (m.procs j).pid = pid)
      (hstate : ¬ ((m.procs j).state = .zombie ∨ (m.procs j).state = .unused)) :
      Unseen m (.kill pid signum (.check j)) (.proc j (.kill signum))
        (.kill pid signum (.finish j 0))
  | sigret (me : ThreadRef) :
      Unseen m (.sigret me .body) (.proc me.p (.sigret me.i)) (.sigret me (.release 0))
  | sigaction (me : ThreadRef) (signum : Int) (act oldact pad : Nat) (k : Frame) :
      Unseen m (.sigaction me signum act oldact .body)
        (.proc me.p (.sigaction signum act oldact pad)) k
  | sigprocmask (me : ThreadRef) (mask : BitVec 32) (k : Frame) :
      Unseen m (.sigprocmask me mask) (.proc me.p (.sigprocmask mask)) k
  | tidy (me : ThreadRef) (chan : Chan) (lk : Lock) :
      Unseen m (.sleep me chan lk .tidy) (.clearChan me) (.sleep me chan lk .releaseP)
  | bsemAlloc (h : (m.bsems 0).value = -1) :
      Unseen m (.bsemAlloc .test) (.bsem 0 (.alloc 0)) (.bsemAlloc (.release 0))
  | bsemFree (d : BIdx) (h : ¬ ((m.bsems d).descriptor = -1 ∨ (m.bsems d).value = 0)) :
      Unseen m (.bsemFree d .test) (.bsem d .free) (.bsemFree d .release)
  | bsemTake (me : ThreadRef) (d : BIdx) (hd : (m.bsems d).descriptor ≠ -1)
      (hv : (m.bsems d).value = 1) :
      Unseen m (.bsemDown me d .test) (.bsem d (.take me)) (.bsemDown me d .release)
  | bsemPlace (me : ThreadRef) (d : BIdx) (line : Fin NUM_OF_THREADS → Option ThreadRef)
      (hd : (m.bsems d).descriptor ≠ -1) (hv : (m.bsems d).value ≠ 1)
      (hline : placeThreadInLine (m.bsems d).threads me = some line) :
      Unseen m (.bsemDown me d .test) (.bsem d (.place me)) (.bsemDown me d .sleep)
  | bsemUp (d : BIdx) (hd : (m.bsems d).descriptor ≠ -1) :
      Unseen m (.bsemUp d .test) (.bsem d .up) (.bsemUp d .wake)
  | other (me : ThreadRef) (um : UserMem) (r : Int) :
      Unseen m (.other me) (.proc me.p (.setUmem um)) (.ret r)

variable {a : Act} {m : Mem} {c : CpuId} {e : Env} {s s' : KState} {t : ThreadRef}

theorem Unseen.quiet {f k : Frame} (h : Unseen m f a k) : a.quiet = true := by
  cases h <;> rfl

/-- What the instruction of `f` may be, as far as memory and who runs are concerned. -/
def Effect (m : Mem) (f : Frame) : KInstr → Prop
  | .act a k => Unseen m f a k ∨ Alters m f a k
  | .spawn a t g k => Spawns m f a t g k
  | .dispatch a t k =>
    ∃ p i, f = .scheduler (.scan p i) ∧ k = .scheduler (.back p i) ∧ t = ⟨p, i⟩ ∧
      a = .setState t .running ∧ (m.thread t).state = .runnable
  | .giveup k =>
    ∃ me lk b, f = .sched me lk .check ∧ k = .sched me lk (.resumed b) ∧
      (m.thread me).state ≠ .running
  | .userret => ∃ me, f = .usertrapret me .ret
  | _ => True

section

variable (v : KView)
include v

theorem devintr_effect (f k : Frame) : Effect v.mem f (devintr v k) := by
  unfold devintr
  split <;> trivial

theorem schedulerCode_effect (pc : SchedulerPc) : Effect v.mem (.scheduler pc) (schedulerCode v pc) := by
  cases pc with
  | scan p i =>
    simp only [schedulerCode]
    split
    · next h => exact ⟨p, i, rfl, rfl, rfl, rfl, h⟩
    · trivial
  | check p =>
    simp only [schedulerCode]
    split <;> trivial
  | _ => trivial

variable (me : ThreadRef)

theorem schedCode_effect (lk : Lock) (pc : SchedPc) :
    Effect v.mem (.sched me lk pc) (schedCode v me lk pc) := by
  cases pc with
  | check =>
    simp only [schedCode]
    split
    · trivial
    split
    · trivial
    split
    · trivial
    split
    · trivial
    · next h _ => exact ⟨me, lk, _, rfl, rfl, h⟩
  | _ => trivial

theorem usertrapCode_effect (pc : UsertrapPc) :
    Effect v.mem (.usertrap me pc) (usertrapCode v me pc) := by
  cases pc with
  | start cause =>
    simp only [usertrapCode]
    split
    · trivial
    cases cause with
    | ecall =>
      dsimp only
      split <;> trivial
    | timer | device => exact devintr_effect v _ _
    | fault => exact .inl (.fault me)
  | skip => exact .inl (.skip me)
  | retval r => exact .inl (.retval me r)
  | after timer =>
    simp only [usertrapCode]
    split
    · trivial
    · split <;> trivial
  | _ => trivial

theorem usertrapretCode_effect (pc : UsertrapretPc) :
    Effect v.mem (.usertrapret me pc) (usertrapretCode v me pc) := by
  cases pc with
  | copy =>
    simp only [usertrapretCode]
    split
    · trivial
    · split
      · trivial
      · exact .inl (.backup me)
  | setup => exact .inl (.setup me _)
  | ret => exact ⟨me, rfl⟩
  | _ => trivial

theorem kerneltrapCode_effect (me : Option ThreadRef) (pc : KerneltrapPc) :
    Effect v.mem (.kerneltrap me pc) (kerneltrapCode v me pc) := by
  cases pc with
  | start timer => exact devintr_effect v _ _
  | tick timer =>
    simp only [kerneltrapCode]
    split
    · split <;> trivial
    · trivial
  | done => trivial

theorem signalHandlerCode_effect (pc : SignalHandlerPc) :
    Effect v.mem (.signalHandler me pc) (signalHandlerCode v me pc) := by
  cases pc with
  | start =>
    simp only [signalHandlerCode]
    split <;> trivial
  | loop i =>
    simp only [signalHandlerCode]
    split
    · split <;> trivial
    · trivial
  | _ => trivial

end

theorem sigkillHandlerCode_effect (m : Mem) (me : ThreadRef) (pc : SigkillPc) :
    Effect m (.sigkillHandler me pc) (sigkillHandlerCode me pc) := by
  cases pc with
  | kill => exact .inr (.sigkill me)
  | wake k => exact .inr (.sigkillWake me k)
  | _ => trivial

section

variable (v : KView) (me : ThreadRef)
include v me

theorem sigcontHandlerCode_effect (pc : SigcontPc) :
    Effect v.mem (.sigcontHandler me pc) (sigcontHandlerCode v me pc) := by
  cases pc with
  | start =>
    simp only [sigcontHandlerCode]
    split <;> trivial
  | thaw => exact .inl (.contThaw me)
  | clear => exact .inl (.contClear me)
  | done => trivial

theorem sigstopHandlerCode_effect (pc : SigstopPc) :
    Effect v.mem (.sigstopHandler me pc) (sigstopHandlerCode v me pc) := by
  cases pc with
  | start =>
    simp only [sigstopHandlerCode]
    split
    · trivial
    · split <;> trivial
  | freeze => exact .inl (.freeze me)
  | check =>
    simp only [sigstopHandlerCode]
    split
    · trivial
    · next h => exact .inl (.thaw me h)
  | _ => trivial

theorem signalhandlerUserCode_effect (n : Fin NUMOFSIGNALS) (pc : SigUserPc) :
    Effect v.mem (.signalhandlerUser me n pc) (signalhandlerUserCode v me n pc) := by
  cases pc with
  | deliver =>
    simp only [signalhandlerUserCode]
    split
    · trivial
    · next h => exact .inl (.deliver me n _ _ h)
  | _ => trivial

theorem exitCode_effect (status : BitVec 32) (pc : ExitPc) :
    Effect v.mem (.exit me status pc) (exitCode v me status pc) := by
  cases pc with
  | start | files =>
    simp only [exitCode]
    split <;> trivial
  | reparent j =>
    simp only [exitCode]
    split
    · next h => exact .inl (.reparent me status j h)
    · trivial
  | zombie => exact .inr (.exit me status)
  | _ => trivial

theorem killthreadsCode_effect (pc : KillthreadsPc) :
    Effect v.mem (.killthreads me pc) (killthreadsCode v me pc) := by
  cases pc with
  | start | mark i =>
    simp only [killthreadsCode]
    split <;> trivial
  | zombie => exact .inr (.killthreads me)
  | markWrite i => exact .inl (.mark me i _)
  | _ => trivial

theorem kthreadExitCode_effect (status : BitVec 32) (pc : KthreadExitPc) :
    Effect v.mem (.kthreadExit me status pc) (kthreadExitCode v me status pc) := by
  cases pc with
  | start | decide q num =>
    simp only [kthreadExitCode]
    split <;> trivial
  | zombie q => exact .inr (.kthreadExit me status q)
  | _ => trivial

theorem kthreadJoinCode_effect (id : Int) (status : Nat) (pc : KthreadJoinPc) :
    Effect v.mem (.kthreadJoin me id status pc) (kthreadJoinCode v me id status pc) := by
  cases pc with
  | start | test k =>
    simp only [kthreadJoinCode]
    split <;> trivial
  | copy k =>
    simp only [kthreadJoinCode]
    split
    · trivial
    · exact .inl (.joinCopy me id status k _)
  | free k => exact .inr (.join me id status k)
  | _ => trivial

theorem kthreadCreateCode_effect (fn stack : BitVec 64) (pc : KthreadCreatePc) :
    Effect v.mem (.kthreadCreate me fn stack pc) (kthreadCreateCode v me fn stack pc) := by
  cases pc with
  | find =>
    simp only [kthreadCreateCode]
    split
    · trivial
    next k hk =>
    split
    · next htf => exact .inr (.fault me fn stack k hk htf)
    · next htf => exact .create me fn stack k hk htf
  | _ => trivial

theorem forkCode_effect (pc : ForkPc) : Effect v.mem (.fork me pc) (forkCode v me pc) := by
  cases pc with
  | check j =>
    simp only [forkCode]
    split <;> trivial
  | found j =>
    simp only [forkCode]
    split
    · next hg => exact .alloc me j _ hg
    · next hg => exact .inr (.allocFail me j _ (Bool.eq_false_iff.2 hg))
  | copy j =>
    simp only [forkCode]
    split
    · trivial
    · exact .inl (.forkCopy me j)
  | uncopy j => exact .inr (.uncopy me j)
  | parent j pid => exact .inl (.forkParent me j pid)
  | runnable j pid => exact .inr (.forkRunnable me j pid)
  | _ => trivial

theorem waitCode_effect (addr : Nat) (pc : WaitPc) :
    Effect v.mem (.wait me addr pc) (waitCode v me addr pc) := by
  cases pc with
  | scan j havekids | check j | finish havekids =>
    simp only [waitCode]
    split <;> trivial
  | copy j =>
    simp only [waitCode]
    split
    · trivial
    · exact .inl (.waitCopy me addr j _)
  | reap j pid => exact .inr (.reap me addr j pid)
  | _ => trivial

theorem execCode_effect (pc : ExecPc) : Effect v.mem (.exec me pc) (execCode v me pc) := by
  cases pc with
  | start | stack =>
    simp only [execCode]
    split <;> trivial
  | files =>
    simp only [execCode]
    split
    · trivial
    · split <;> trivial
  | makeDfl => exact .inl (.makeDfl me)
  | commit => exact .inl (.execCommit me _)
  | _ => trivial

end

variable (v : KView)

theorem killCode_effect (pid : Int) (signum : BitVec 32) (pc : KillPc) :
    Effect v.mem (.kill pid signum pc) (killCode v pid signum pc) := by
  cases pc with
  | check j =>
    simp only [killCode]
    split
    · split
      · trivial
      · next hpid hstate => exact .inl (.kill pid signum j hpid hstate)
    · trivial
  | _ => trivial

theorem bsemAllocCode_effect (pc : BsemAllocPc) : Effect v.mem (.bsemAlloc pc) (bsemAllocCode v pc) := by
  cases pc with
  | test =>
    simp only [bsemAllocCode]
    split
    · next h => exact .inl (.bsemAlloc h)
    · trivial
  | _ => trivial

theorem bsemFreeCode_effect (d : BIdx) (pc : BsemFreePc) :
    Effect v.mem (.bsemFree d pc) (bsemFreeCode v d pc) := by
  cases pc with
  | test =>
    simp only [bsemFreeCode]
    split
    · trivial
    · next h => exact .inl (.bsemFree d h)
  | _ => trivial

theorem bsemDownCode_effect (me : ThreadRef) (d : BIdx) (pc : BsemDownPc) :
    Effect v.mem (.bsemDown me d pc) (bsemDownCode v me d pc) := by
  cases pc with
  | test =>
    simp only [bsemDownCode]
    split
    · trivial
    split
    · next hd hv => exact .inl (.bsemTake me d hd hv)
    split
    · trivial
    · next hd hv _ line hline => exact .inl (.bsemPlace me d line hd hv hline)
  | _ => trivial

theorem bsemUpCode_effect (d : BIdx) (pc : BsemUpPc) :
    Effect v.mem (.bsemUp d pc) (bsemUpCode v d pc) := by
  cases pc with
  | test =>
    simp only [bsemUpCode]
    split
    · trivial
    · next h => exact .inl (.bsemUp d h)
  | _ => trivial

/-- **Every change of memory and every switch is one of those listed.** -/
theorem code_effect (f : Frame) : Effect v.mem f (code v f) := by
  cases f with
  | void | forkret | ret | bsemWild => trivial
  | scheduler pc => exact schedulerCode_effect v pc
  | sched me lk pc => exact schedCode_effect v me lk pc
  | yield me pc =>
    cases pc with
    | set => exact .inr (.yield me)
    | _ => trivial
  | sleep me chan lk pc =>
    cases pc with
    | set => exact .inr (.sleep me chan lk)
    | tidy => exact .inl (.tidy me chan lk)
    | _ => trivial
  | wakeup chan pc =>
    cases pc with
    | scan j => exact .inr (.wakeup chan j)
    | _ => trivial
  | usertrap me pc => exact usertrapCode_effect v me pc
  | usertrapret me pc => exact usertrapretCode_effect v me pc
  | kerneltrap me pc => exact kerneltrapCode_effect v me pc
  | signalHandler me pc => exact signalHandlerCode_effect v me pc
  | sigkillHandler me pc => exact sigkillHandlerCode_effect v.mem me pc
  | sigcontHandler me pc => exact sigcontHandlerCode_effect v me pc
  | sigstopHandler me pc => exact sigstopHandlerCode_effect v me pc
  | signalhandlerUser me n pc => exact signalhandlerUserCode_effect v me n pc
  | exit me status pc => exact exitCode_effect v me status pc
  | killthreads me pc => exact killthreadsCode_effect v me pc
  | kthreadExit me status pc => exact kthreadExitCode_effect v me status pc
  | kthreadJoin me id status pc => exact kthreadJoinCode_effect v me id status pc
  | kthreadCreate me fn stack pc => exact kthreadCreateCode_effect v me fn stack pc
  | kthreadId me pc =>
    cases pc with
    | start =>
      simp only [code, kthreadIdCode]
      split <;> trivial
    | _ => trivial
  | fork me pc => exact forkCode_effect v me pc
  | wait me addr pc => exact waitCode_effect v me addr pc
  | exec me pc => exact execCode_effect v me pc
  | kill pid signum pc => exact killCode_effect v pid signum pc
  | sigret me pc =>
    cases pc with
    | body =>
      simp only [code, sigretCode]
      split
      · trivial
      · exact .inl (.sigret me)
    | _ => trivial
  | sigaction me signum act oldact pc =>
    cases pc with
    | acquire =>
      simp only [code, sigactionCode]
      split <;> trivial
    | body => exact .inl (.sigaction me signum act oldact _ _)
    | _ => trivial
  | sigprocmask me mask => exact .inl (.sigprocmask me mask _)
  | bsemAlloc pc => exact bsemAllocCode_effect v pc
  | bsemFree d pc => exact bsemFreeCode_effect v d pc
  | bsemDown me d pc => exact bsemDownCode_effect v me d pc
  | bsemUp d pc => exact bsemUpCode_effect v d pc
  | block me lk chan pc =>
    cases pc with
    | loop =>
      simp only [code, blockCode]
      split <;> trivial
    | _ => trivial
  | notify lk chan pc => cases pc <;> trivial
  | other me =>
    simp only [code, otherCode]
    split
    · trivial
    · trivial
    · exact .inl (.other me _ _)

theorem effect_of_code {v : KView} {f : Frame} {x : KInstr} (h : code v f = x) : Effect v.mem f x := by
  rw [← h]
  exact code_effect v f

/-! ## Steps that write -/

/-- What a step of cpu `c` does to memory, with the point of the code that does it. -/
inductive Writes (s : KState) (c : CpuId) (s' : KState) : Prop where
  | none (h : s'.mem = s.mem)
  | trap (t : ThreadRef) (regs : Trapframe) (stores : UserMem) (hact : s.active c = [])
      (hcur : s.cur c = some t)
      (h : s'.mem = (Act.proc t.p (.saveUser t.i regs stores)).apply s.mem)
  | unseen (f k : Frame) (a : Act) (below : List Frame) (hr : s.Runs c f below)
      (ha : Unseen s.mem f a k) (hact : s'.active c = k :: below) (hcur : s'.cur = s.cur)
      (h : s'.mem = a.apply s.mem)
  | alters (f k : Frame) (a : Act) (below : List Frame) (hr : s.Runs c f below)
      (ha : Alters s.mem f a k) (hact : s'.active c = k :: below) (hcur : s'.cur = s.cur)
      (h : s'.mem = a.apply s.mem)
  | spawns (f g k : Frame) (a : Act) (t : ThreadRef) (below : List Frame) (hr : s.Runs c f below)
      (ha : Spawns s.mem f a t g k) (hact : s'.active c = k :: below) (hcur : s'.cur = s.cur)
      (h : s'.mem = a.apply s.mem)
  | dispatch (p : PIdx) (i : TIdx) (below : List Frame)
      (hr : s.Runs c (.scheduler (.scan p i)) below) (hst : (s.mem.thread ⟨p, i⟩).state = .runnable)
      (h : s'.mem = (Act.setState ⟨p, i⟩ .running).apply s.mem)
      (hact : s'.active c = s.ctx ⟨p, i⟩) (hcur : s'.cur c = some ⟨p, i⟩)

/-- **Every step that changes memory is one of those listed.** -/
theorem writes_of_step (hstep : Step kernel s c e s') : Writes s c s' := by
  have heff : ∀ f, Effect s.mem f (kernel.code (s.view c e) f) := code_effect (s.view c e)
  cases hstep with
  | trap _ ha hc ht =>
    obtain ⟨cause, regs, rfl, rfl⟩ := trapEntry_some ht
    exact .trap _ _ _ ha hc rfl
  | @act f k a below hr hk =>
    have he := heff f
    rw [hk] at he
    rcases he with hu | ha
    · exact .unseen f k a below hr hu (update_self ..) rfl rfl
    · exact .alters f k a below hr ha (update_self ..) rfl rfl
  | @spawn f g k a t below hr hk =>
    have he := heff f
    rw [hk] at he
    exact .spawns f g k a t below hr he (update_self ..) rfl rfl
  | @dispatch f k a t below hr hk =>
    have he := heff f
    rw [hk] at he
    obtain ⟨p, i, rfl, -, rfl, rfl, hst⟩ := he
    exact .dispatch p i below hr hst rfl (update_self ..) (update_self ..)
  | _ => exact .none rfl

/-! ## Changes of a thread's state -/

/-- The accesses that put a thread to work, to sleep or to an end. -/
inductive Sets (t : ThreadRef) : Act → ThreadState → Prop where
  | set (st : ThreadState) : Sets t (.setState t st) st
  | sleep (chan : Chan) : Sets t (.sleepOn t chan) .sleeping
  | exit (status : BitVec 32) : Sets t (.exitProc t status) .zombie

/-- The states that only such an access leads to. -/
def ThreadState.deliberate : ThreadState → Bool
  | .running | .sleeping | .zombie => true
  | _ => false

variable {st : ThreadState}

theorem Act.sets (hne : (m.thread t).state ≠ st) (hst : ((a.apply m).thread t).state = st)
    (hd : st.deliberate = true) : Sets t a st := by
  cases Act.touch m a t with
  | same _ _ _ h =>
    rcases h with h | h | h
    · exact absurd (h.symm.trans hst) hne
    · rw [← hst, h] at hd
      cases hd
    · rw [h, hst]
      exact .set st
  | exit status ha h =>
    rw [h] at hst
    rw [ha, ← hst]
    exact .exit status
  | sleep chan ha h =>
    rw [h] at hst
    rw [ha, ← hst]
    exact .sleep chan
  | mark _ h | clear _ h =>
    rw [h] at hst
    exact absurd hst hne
  | freed h | setUp h =>
    rw [← hst, h] at hd
    cases hd

/-- Where cpu `c` puts the thread `t` to work, to sleep or to an end. -/
inductive Turns (s : KState) (c : CpuId) (s' : KState) (t : ThreadRef) : ThreadState → Prop where
  | started (hact : s'.active c = s.ctx t) (hcur : s'.cur c = some t) : Turns s c s' t .running
  | asleep (chan : Chan) (lk : Lock) (below : List Frame) (hr : s.Runs c (.sleep t chan lk .set) below)
      (hact : s'.active c = .sleep t chan lk .sched :: below) (hcur : s'.cur = s.cur)
      (hchan : (s'.mem.thread t).chan = chan) : Turns s c s' t .sleeping
  | killed (below : List Frame) (hr : s.Runs c (.killthreads t .zombie) below) :
      Turns s c s' t .zombie
  | kthreadExit (status : BitVec 32) (q : PIdx) (below : List Frame)
      (hr : s.Runs c (.kthreadExit t status (.zombie q)) below) : Turns s c s' t .zombie
  | exit (status : BitVec 32) (below : List Frame) (hr : s.Runs c (.exit t status .zombie) below) :
      Turns s c s' t .zombie

/-- **A thread starts, falls asleep and terminates only at the points listed**, the last two by its
    own doing. -/
theorem turns_of_step (hstep : Step kernel s c e s') (hne : (s.mem.thread t).state ≠ st)
    (hst : (s'.mem.thread t).state = st) (hd : st.deliberate = true) : Turns s c s' t st := by
  have hsets : ∀ {a : Act}, s'.mem = a.apply s.mem → Sets t a st := fun h =>
    Act.sets hne (by rw [← h]; exact hst) hd
  cases writes_of_step hstep with
  | none h => exact absurd (h ▸ hst) hne
  | trap _ _ _ _ _ h => cases hsets h
  | unseen f k a below hr ha _ _ h | spawns f g k a t0 below hr ha _ _ h =>
    have hs := hsets h
    cases ha <;> cases hs
  | alters f k a below hr ha hact hcur h =>
    have hs := hsets h
    cases ha with
    | yield me =>
      cases hs
      cases hd
    | sleep me chan lk =>
      cases hs
      refine .asleep chan lk below hr hact hcur ?_
      rw [h]
      simp [Act.apply, thread_modThread]
    | killthreads me =>
      cases hs
      exact .killed below hr
    | kthreadExit me status q =>
      cases hs
      exact .kthreadExit status q below hr
    | exit me status =>
      cases hs
      exact .exit status below hr
    | _ => cases hs
  | dispatch p i below hr _ h hact hcur =>
    cases hsets h
    exact .started hact hcur

end Xv6
