import Xv6.Machine.Locks
import Xv6.Kernel.Code

set_option autoImplicit false

/-! # The kernel keeps to its lock discipline

The locks each function holds at each of its program points, and the proof that the kernel's code is
`Disciplined` by them. It holds of every run, with no assumption on the tables: whatever state the
threads are in, every lock is held by the cpu whose stack says so.

The one place where the code leaves its own discipline is the branch of `killthreads` that a thread
marked as killed takes: it calls `sched` with its own `t->lock` instead of `p->lock`. `sched` is
then entered with a lock `lk` other than `p->lock`, and panics at its first test; that is why no
frame past that test has such a lock (`runs`). -/

namespace Xv6

open Machine

/-! ## Who may call whom -/

/-- The functions, as far as their callers are concerned: with the lock that comes back with them,
    and what is slept on or woken up. -/
inductive Fn where
  | bottom | sched (lk : Lock) | yield | sleep (chan : Chan) (lk : Lock) | wakeup (chan : Chan)
  | kerneltrap | signalHandler
  | handler | exit | killthreads | syscall | block | notify

def Frame.fn : Frame → Fn
  | .void _ | .scheduler _ | .forkret _ | .usertrap _ _ | .usertrapret _ _ => .bottom
  | .sched _ lk _ => .sched lk
  | .yield _ _ => .yield
  | .sleep _ chan lk _ => .sleep chan lk
  | .wakeup chan _ => .wakeup chan
  | .kerneltrap _ _ => .kerneltrap
  | .signalHandler _ _ => .signalHandler
  | .sigkillHandler _ _ | .sigcontHandler _ _ | .sigstopHandler _ _ | .signalhandlerUser _ _ _ =>
    .handler
  | .exit _ _ _ => .exit
  | .killthreads _ _ => .killthreads
  | .block _ _ _ _ => .block
  | .notify _ _ _ => .notify
  | _ => .syscall

/-- The functions whose return a waiting frame goes on after. -/
def Frame.awaits : Frame → Fn → Prop
  | .usertrap _ .returned, .syscall => True
  | .usertrap _ .returned, .exit => True
  | .usertrap _ .dead, .exit => True
  | .usertrap _ (.notified _), .notify => True
  | .usertrap _ .yielded, .yield => True
  | .usertrapret _ .handled, .signalHandler => True
  | .signalHandler _ (.next _), .handler => True
  | .sigstopHandler _ .loopAcquire, .yield => True
  | .kerneltrap _ (.tick _), .notify => True
  | .kerneltrap _ .done, .yield => True
  | .yield me .switched, .sched lk => lk = .proc me.p
  | .sleep me _ _ .switched, .sched lk => lk = .proc me.p
  | .exit _ _ .killed, .killthreads => True
  | .exit _ _ .files, .block => True
  | .exit _ _ (.reparentNext _), .wakeup _ => True
  | .exit _ _ .acquireP, .wakeup _ => True
  | .exit me _ .dead, .sched lk => lk = .proc me.p
  | .killthreads _ .acquireT, .wakeup _ => True
  | .killthreads me .switched, .sched lk => lk = .thread me
  | .killthreads _ (.scan i got), .yield => i = 0 ∧ got = false
  | .kthreadExit me _ (.acquireP _), .wakeup chan => chan = .thread me
  | .kthreadExit _ _ (.dead q), .sched lk => lk = .proc q
  | .kthreadExit _ _ .exited, .exit => True
  | .kthreadJoin me _ _ (.slept k), .sleep chan lk => chan = .thread ⟨me.p, k⟩ ∧ lk = .wait
  | .wait me _ .slept, .sleep chan lk => chan = .proc me.p ∧ lk = .wait
  | .exec _ .killed, .killthreads => True
  | .exec _ .files, .block => True
  | .bsemDown _ d .slept, .sleep chan lk => chan = .bsem d ∧ lk = .bsem d
  | .bsemUp d .release, .wakeup chan => chan = .bsem d
  | .block _ l ch .slept, .sleep chan lk => chan = .other ch ∧ lk = .other l
  | .notify _ _ .release, .wakeup _ => True
  | .other _, .block => True
  | .other _, .notify => True
  | _, _ => False

/-- An interrupt may stand above everything, a callee above the frame that waits for it. -/
def Frame.above (f k : Frame) : Prop := f.fn = .kerneltrap ∨ k.awaits f.fn

/-! ## What is held where -/

/-- The locks a frame holds while it is on top. -/
@[simp] def Frame.held : Frame → Multiset Lock
  | .void t | .forkret t => {.proc t.p}
  | .scheduler pc =>
    match pc with
    | .top | .acquire _ => 0
    | .check p | .scan p _ | .back p _ | .release p => {.proc p}
  | .sched _ lk _ => {lk}
  | .yield me pc =>
    match pc with
    | .acquire | .done => 0
    | .set | .sched | .switched | .release => {.proc me.p}
  | .sleep me _ lk pc =>
    match pc with
    | .acquire | .done => {lk}
    | .release => .proc me.p ::ₘ {lk}
    | .set | .sched | .switched | .tidy | .releaseP => {.proc me.p}
    | .reacquire => 0
  | .wakeup _ pc =>
    match pc with
    | .acquire _ | .done => 0
    | .scan j | .release j => {.proc j}
  | .sigkillHandler me pc =>
    match pc with
    | .acquire | .done => 0
    | .kill | .acquireT _ | .release => {.proc me.p}
    | .wake k | .releaseT k => .thread ⟨me.p, k⟩ ::ₘ {.proc me.p}
  | .sigstopHandler me pc =>
    match pc with
    | .start | .acquire | .loopAcquire | .yield | .done => 0
    | .freeze | .release | .check | .loopRelease | .thawRelease => {.proc me.p}
  | .signalhandlerUser me _ pc =>
    match pc with
    | .acquire | .done => 0
    | .deliver | .release => {.proc me.p}
  | .exit me _ pc =>
    match pc with
    | .start | .killed | .files | .acquireW => 0
    | .reparent _ | .reparentWake _ | .reparentNext _ | .wakeParent | .acquireP => {.wait}
    | .zombie | .releaseW => .proc me.p ::ₘ {.wait}
    | .sched | .dead => {.proc me.p}
  | .killthreads me pc =>
    match pc with
    | .zombie | .sched | .switched => {.thread me}
    | .start | .wake | .acquireT | .mark _ | .markWrite _ | .scan _ _ | .yield | .done => 0
  | .kthreadExit _ _ pc =>
    match pc with
    | .start | .decide _ _ | .exited => 0
    | .scan q | .release q _ | .sched q | .dead q => {.proc q}
    | .wake _ | .acquireP _ => {.wait}
    | .zombie q | .releaseW q => .proc q ::ₘ {.wait}
  | .kthreadJoin me _ _ pc =>
    match pc with
    | .start | .acquireW | .done | .failed => 0
    | .acquireP | .sleep _ | .slept _ | .reacquire _ | .failW => {.wait}
    | .search | .test _ | .releaseP _ | .copy _ | .free _ | .releaseW | .failP =>
      .proc me.p ::ₘ {.wait}
    | .releaseLast => {.proc me.p}
  | .kthreadCreate me _ _ pc =>
    match pc with
    | .acquire | .ret _ | .failed => 0
    | .find | .fault | .release _ | .full => {.proc me.p}
  | .kthreadId _ pc =>
    match pc with
    | .start | .done _ => 0
    | .read q | .release q _ => {.proc q}
  | .fork _ pc =>
    match pc with
    | .acquire _ | .failed | .acquireW _ _ | .acquireC _ _ | .done _ => 0
    | .check j | .skip j | .found j | .copy j | .uncopy j | .fail j | .release j _
    | .runnable j _ | .releaseC j _ => {.proc j}
    | .parent _ _ | .releaseW _ _ => {.wait}
  | .wait _ _ pc =>
    match pc with
    | .acquire | .done _ => 0
    | .scan _ _ | .lock _ | .finish _ | .sleep | .slept | .releaseW _ => {.wait}
    | .check j | .unlock j | .copy j | .reap j _ | .releaseC j _ => .proc j ::ₘ {.wait}
  | .kill _ _ pc =>
    match pc with
    | .acquire _ | .done _ => 0
    | .check j | .release j | .finish j _ => {.proc j}
  | .sigret me pc | .sigaction me _ _ _ pc =>
    match pc with
    | .acquire | .done _ => 0
    | .body | .release _ => {.proc me.p}
  | .bsemAlloc pc =>
    match pc with
    | .acquire | .done _ => 0
    | .test | .release _ => {.bsem 0}
  | .bsemFree d pc =>
    match pc with
    | .acquire | .done => 0
    | .test | .release => {.bsem d}
  | .bsemDown _ d pc =>
    match pc with
    | .acquire | .done => 0
    | .test | .sleep | .slept | .release => {.bsem d}
  | .bsemUp d pc =>
    match pc with
    | .acquire | .done => 0
    | .test | .wake | .release => {.bsem d}
  | .block _ lk _ pc =>
    match pc with
    | .acquire | .done => 0
    | .loop | .slept | .release => {.other lk}
  | .notify lk _ pc =>
    match pc with
    | .acquire | .done => 0
    | .wake | .release => {.other lk}
  | .usertrap _ _ | .usertrapret _ _ | .kerneltrap _ _ | .signalHandler _ _ | .sigcontHandler _ _
  | .exec _ _ | .sigprocmask _ _ | .bsemWild | .other _ | .ret _ => 0

/-- The frames that have handed their lock to the callee they wait for. -/
@[simp] def Frame.lends : Frame → Bool
  | .yield _ .switched | .sleep _ _ _ .switched | .exit _ _ .dead | .killthreads _ .switched
  | .kthreadExit _ _ (.dead _) | .kthreadJoin _ _ _ (.slept _) | .wait _ _ .slept
  | .bsemDown _ _ .slept | .block _ _ _ .slept => true
  | _ => false

/-- The locks a frame holds while it waits for a callee. -/
@[simp] def Frame.kept (f : Frame) : Multiset Lock := if f.lends then 0 else f.held

/-- The frames that may be on top. Past its first test `sched` holds `p->lock`, so it never comes
    back to `killthreads`; and the callers of `killthreads` go on past the point they wait at. -/
def Frame.runs : Frame → Prop
  | .sched me lk (.resumed _) | .sched me lk .done => lk = .proc me.p
  | .killthreads _ .switched | .exit _ _ .killed | .exec _ .killed => False
  | _ => True

/-- All functions but `wakeup` and its callers in the rest of the kernel are entered with no lock
    held below them. -/
def Frame.quiet (f : Frame) : Prop := (∀ chan, f.fn ≠ .wakeup chan) ∧ f.fn ≠ .notify

/-- The frame runs on behalf of thread `o`, or of the scheduler. -/
def Frame.mine (o : Option ThreadRef) : Frame → Prop
  | .scheduler _ => o = none
  | .kerneltrap me _ => o = me
  | .wakeup _ _ | .notify _ _ _ | .kill _ _ _ | .bsemAlloc _ | .bsemFree _ _ | .bsemUp _ _
  | .bsemWild | .ret _ => True
  | .void me | .sched me _ _ | .yield me _ | .sleep me _ _ _ | .forkret me | .usertrap me _
  | .usertrapret me _ | .signalHandler me _ | .sigkillHandler me _ | .sigcontHandler me _
  | .sigstopHandler me _ | .signalhandlerUser me _ _ | .exit me _ _ | .killthreads me _
  | .kthreadExit me _ _ | .kthreadJoin me _ _ _ | .kthreadCreate me _ _ _ | .kthreadId me _
  | .fork me _ | .wait me _ _ | .exec me _ | .sigret me _ | .sigaction me _ _ _ _
  | .sigprocmask me _ | .bsemDown me _ _ | .block me _ _ _ | .other me => o = some me

/-- The points at which functions are entered by a call. -/
def Frame.entry : Frame → Bool
  | .wakeup _ (.acquire j) => j = 0
  | .sched _ _ .check | .yield _ .acquire | .sleep _ _ _ .acquire
  | .signalHandler _ .start | .sigkillHandler _ .acquire | .sigcontHandler _ .start
  | .sigstopHandler _ .start | .signalhandlerUser _ _ .acquire | .exit _ _ .start
  | .killthreads _ .start | .kthreadExit _ _ .start | .kthreadJoin _ _ _ .start
  | .kthreadCreate _ _ _ .acquire | .kthreadId _ .start | .fork _ (.acquire _)
  | .wait _ _ .acquire | .exec _ .start | .kill _ _ (.acquire _) | .sigret _ .acquire
  | .sigaction _ _ _ _ .acquire | .sigprocmask _ _ | .bsemAlloc .acquire | .bsemFree _ .acquire
  | .bsemDown _ _ .acquire | .bsemUp _ .acquire | .bsemWild | .block _ _ _ .acquire
  | .notify _ _ .acquire | .other _ => true
  | _ => false

/-- A function goes on inside itself, except into `usertrapret` and out of a system call without a
    body of its own. -/
inductive Follows : Frame → Frame → Prop where
  | same {f k : Frame} (h : k.ctorIdx = f.ctorIdx) : Follows f k
  | usertrap (me : ThreadRef) : Follows (.usertrap me .ret) (.usertrapret me .copy)
  | forkret (me : ThreadRef) : Follows (.forkret me) (.usertrapret me .copy)
  | sigprocmask (me : ThreadRef) (mask : BitVec 32) (r : Int) :
      Follows (.sigprocmask me mask) (.ret r)
  | other (me : ThreadRef) (r : Int) : Follows (.other me) (.ret r)

def locking : Discipline ThreadRef Lock Frame where
  held := Frame.held
  kept := Frame.kept
  runs := Frame.runs
  entry := fun f => f.entry = true
  follows := Follows
  quiet := Frame.quiet
  base := fun f => f.fn = .bottom
  isr := fun f => f.fn = .kerneltrap
  adj := Frame.above
  mine := Frame.mine
  hand := fun t => .proc t.p

/-! ## The check

Everything the check asks of a step inside one function reduces to: the same function, the same
thread, and the locks as the instruction says. -/

section Rules

variable {o : Option ThreadRef} {f g k : Frame} {v : KView} {me : ThreadRef}

theorem staysOf (hm : k.mine o) (hfn : k.fn = f.fn) (hf : Follows f k) : locking.Stays o f k where
  mine := hm
  follows := hf
  base := fun h => hfn.trans h
  adj := fun x h => by
    show k.fn = _ ∨ x.awaits k.fn
    rw [hfn]
    exact h
  quiet := fun h => by
    show (∀ chan, f.fn ≠ .wakeup chan) ∧ f.fn ≠ .notify
    rw [← hfn]
    exact h
  isr := fun h => hfn.symm.trans h

theorem stays (hm : k.mine o) (hfn : k.fn = f.fn) (hc : k.ctorIdx = f.ctorIdx) :
    locking.Stays o f k :=
  staysOf hm hfn (.same hc)

/-- The lock that comes back with a function. -/
def Fn.gives : Fn → Multiset Lock
  | .sched lk | .sleep _ lk => {lk}
  | _ => 0

variable {r : Int} {l : Lock}

theorem resumeFrame_ok {x : Fn} (h : k.awaits x) (hx : ∀ t, x ≠ .sched (.thread t))
    (hm : k.mine o) :
    ((resumeFrame k r).mine o ∧ (resumeFrame k r).fn = k.fn ∧
      (resumeFrame k r).ctorIdx = k.ctorIdx) ∧
      (resumeFrame k r).runs ∧ (resumeFrame k r).held = x.gives + k.kept := by
  unfold Frame.awaits at h
  split at h <;>
    simp_all [resumeFrame, Frame.mine, Frame.fn, Frame.runs, Fn.gives, Frame.ctorIdx]

theorem ret_ok (hheld : f.held = f.fn.gives) (hisr : f.fn ≠ .kerneltrap)
    (hsched : ∀ t, f.fn ≠ .sched (.thread t)) : locking.InstrOk kernel o f (.ret r) := by
  intro k hadj hm
  rcases hadj with h | h
  · exact absurd h hisr
  obtain ⟨⟨hmine, hfn, hc⟩, hruns, hkept⟩ := resumeFrame_ok h hsched hm
  refine ⟨stays hmine hfn hc, hruns, ?_⟩
  rw [show locking.held f = f.held from rfl, hheld]
  exact hkept

/-! What the rules ask of the next frame `k` holds by computation at every point of the kernel. -/

theorem next_ok (h : k.mine o ∧ k.fn = f.fn ∧ k.ctorIdx = f.ctorIdx ∧ k.runs ∧ k.held = f.held) :
    locking.Stays o f k ∧ locking.runs k ∧ locking.held k = locking.held f := by
  obtain ⟨hm, hfn, hc, hr, hh⟩ := h
  exact ⟨stays hm hfn hc, hr, hh⟩

theorem acquire_ok
    (h : k.mine o ∧ k.fn = f.fn ∧ k.ctorIdx = f.ctorIdx ∧ k.runs ∧ k.held = l ::ₘ f.held) :
    locking.InstrOk kernel o f (.acquire l k) := by
  obtain ⟨hm, hfn, hc, hr, hh⟩ := h
  exact ⟨stays hm hfn hc, .inr ⟨hr, hh⟩⟩

theorem release_ok
    (h : k.mine o ∧ k.fn = f.fn ∧ k.ctorIdx = f.ctorIdx ∧ k.runs) (hh : f.held = l ::ₘ k.held) :
    locking.InstrOk kernel o f (.release l k) := by
  obtain ⟨hm, hfn, hc, hr⟩ := h
  exact ⟨stays hm hfn hc, hr, hh⟩

theorem call_ok (h : k.mine o ∧ k.fn = f.fn ∧ k.ctorIdx = f.ctorIdx ∧ g.entry = true ∧ g.mine o ∧
      g.runs ∧ k.awaits g.fn ∧ k.kept = 0 ∧ f.held = g.held)
    (hi : g.fn ≠ .kerneltrap) (hq : f.quiet) : locking.InstrOk kernel o f (.call g k) := by
  obtain ⟨hm, hfn, hc, he, hg, hr, ha, hk, hh⟩ := h
  refine ⟨stays hm hfn hc, hg, hr, he, .inr ha, hi, fun _ => ⟨hq, hk⟩, ?_⟩
  show f.held = g.held + k.kept
  rw [hk, add_zero]
  exact hh

theorem wakeup_ok {chan : Chan} (hm : k.mine o) (hfn : k.fn = f.fn) (hc : k.ctorIdx = f.ctorIdx)
    (ha : k.awaits (.wakeup chan)) (hh : f.held = k.kept) :
    locking.InstrOk kernel o f (.call (wakeupCall chan) k) := by
  refine ⟨stays hm hfn hc, trivial, trivial, rfl, .inr ha, nofun, fun hq => absurd rfl (hq.1 chan), ?_⟩
  show f.held = 0 + k.kept
  rw [zero_add]
  exact hh

end Rules

section Functions

variable {v : KView} {me : ThreadRef}

theorem schedulerCode_ok (pc : SchedulerPc) :
    locking.InstrOk kernel none (.scheduler pc) (schedulerCode v pc) := by
  cases pc with
  | top => exact ⟨stays rfl rfl rfl, trivial, rfl, fun _ => ⟨rfl, nofun, nofun⟩⟩
  | acquire p => exact acquire_ok (by trivial)
  | check p =>
    simp only [schedulerCode]
    split <;> exact next_ok (by trivial)
  | scan p i =>
    simp only [schedulerCode, schedulerNext]
    split
    · exact ⟨rfl, stays rfl rfl rfl, trivial, ⟨by rintro _ ⟨⟩, by rintro ⟨⟩⟩, rfl, rfl⟩
    · split <;> exact next_ok (by trivial)
  | back p i =>
    simp only [schedulerCode, schedulerNext]
    split <;> exact next_ok (by trivial)
  | release p =>
    simp only [schedulerCode]
    split <;> exact release_ok (by trivial) rfl

variable {lk : Lock} {chan : Chan} {status : BitVec 32} {d : BIdx}

theorem schedCode_ok (pc : SchedPc) (hr : (Frame.sched me lk pc).runs)
    (hh : ∀ l, v.holding l = true → l ∈ (Frame.sched me lk pc).held) :
    locking.InstrOk kernel (some me) (.sched me lk pc) (schedCode v me lk pc) := by
  cases pc with
  | check =>
    simp only [schedCode]
    split
    · trivial
    next hp =>
    have hlk : .proc me.p = lk := Multiset.mem_singleton.1 (hh _ (by simpa using hp))
    subst hlk
    split_ifs
    · trivial
    · trivial
    · trivial
    · refine ⟨stays rfl rfl rfl, rfl, ⟨nofun, nofun⟩, rfl, fun t ht => ?_⟩
      rw [← Option.some.inj ht]
      rfl
  | resumed b => exact next_ok ⟨rfl, rfl, rfl, hr, rfl⟩
  | done =>
    obtain rfl : lk = .proc me.p := hr
    exact ret_ok rfl nofun nofun

theorem yieldCode_ok (pc : YieldPc) : locking.InstrOk kernel (some me) (.yield me pc) (yieldCode me pc) := by
  cases pc with
  | acquire => exact acquire_ok (by trivial)
  | set | switched => exact next_ok (by trivial)
  | sched => exact call_ok (by trivial) nofun ⟨nofun, nofun⟩
  | release => exact release_ok (by trivial) rfl
  | done => exact ret_ok rfl nofun nofun

theorem sleepCode_ok (pc : SleepPc) :
    locking.InstrOk kernel (some me) (.sleep me chan lk pc) (sleepCode me chan lk pc) := by
  cases pc with
  | acquire | reacquire => exact acquire_ok (by trivial)
  | release => exact release_ok (by trivial) (Multiset.pair_comm _ _)
  | set | switched | tidy => exact next_ok (by trivial)
  | sched => exact call_ok (by trivial) nofun ⟨nofun, nofun⟩
  | releaseP => exact release_ok (by trivial) rfl
  | done => exact ret_ok rfl nofun nofun

theorem wakeupCode_ok {o : Option ThreadRef} (pc : WakeupPc) :
    locking.InstrOk kernel o (.wakeup chan pc) (wakeupCode chan pc) := by
  cases pc with
  | acquire j => exact acquire_ok (by trivial)
  | scan j => exact next_ok (by trivial)
  | release j =>
    simp only [wakeupCode]
    split <;> exact release_ok (by trivial) rfl
  | done => exact ret_ok rfl nofun nofun

theorem syscallFrame_ok (me : ThreadRef) (x : Syscall) :
    (syscallFrame me x).mine (some me) ∧ (syscallFrame me x).runs ∧
      (syscallFrame me x).held = 0 ∧ (syscallFrame me x).entry = true ∧
      (syscallFrame me x).fn ≠ .kerneltrap ∧
      (Frame.usertrap me .returned).awaits (syscallFrame me x).fn := by
  cases x with
  | bsemFree descriptor | bsemDown descriptor | bsemUp descriptor =>
    simp only [syscallFrame]
    cases bsemIdx descriptor <;> exact ⟨by trivial, trivial, rfl, rfl, nofun, trivial⟩
  | _ => exact ⟨by trivial, trivial, rfl, rfl, nofun, trivial⟩

theorem devintr_ok {o : Option ThreadRef} {f k : Frame} (hm : k.mine o) (hfn : k.fn = f.fn)
    (hc : k.ctorIdx = f.ctorIdx) (hr : k.runs) (ha : k.awaits .notify) (hq : f.quiet)
    (hf : f.held = 0) (hk : k.held = 0)
    (hlend : k.lends = false) : locking.InstrOk kernel o f (devintr v k) := by
  unfold devintr
  split
  · refine call_ok ⟨hm, hfn, hc, rfl, trivial, trivial, ha, ?_, hf⟩ nofun hq
    rw [Frame.kept, hlend]
    exact hk
  · exact next_ok ⟨hm, hfn, hc, hr, hk.trans hf.symm⟩

theorem usertrapCode_ok (pc : UsertrapPc) :
    locking.InstrOk kernel (some me) (.usertrap me pc) (usertrapCode v me pc) := by
  cases pc with
  | start cause =>
    simp only [usertrapCode]
    split
    · trivial
    cases cause with
    | ecall =>
      dsimp only
      split
      · exact call_ok (by trivial) nofun ⟨nofun, nofun⟩
      · exact next_ok (by trivial)
    | timer | device => exact devintr_ok rfl rfl rfl trivial trivial ⟨nofun, nofun⟩ rfl rfl rfl
    | fault => exact next_ok (by trivial)
  | intrOn => exact ⟨stays rfl rfl rfl, trivial, rfl, fun _ => ⟨rfl, nofun, nofun⟩⟩
  | call =>
    obtain ⟨hm, hr, hheld, he, hi, ha⟩ := syscallFrame_ok me
      (decode ((v.mem.procs me.p).frames me.i))
    exact call_ok ⟨rfl, rfl, rfl, he, hm, hr, ha, rfl, hheld.symm⟩ hi ⟨nofun, nofun⟩
  | skip | returned | retval | notified | yielded => exact next_ok (by trivial)
  | ret => exact ⟨staysOf rfl rfl (.usertrap me), trivial, rfl⟩
  | after timer =>
    simp only [usertrapCode]
    split_ifs
    · exact call_ok (by trivial) nofun ⟨nofun, nofun⟩
    · exact call_ok (by trivial) nofun ⟨nofun, nofun⟩
    · exact next_ok (by trivial)
  | dead => trivial

theorem usertrapretCode_ok (pc : UsertrapretPc) :
    locking.InstrOk kernel (some me) (.usertrapret me pc) (usertrapretCode v me pc) := by
  cases pc with
  | copy =>
    simp only [usertrapretCode]
    split
    · trivial
    · split
      · trivial
      · exact next_ok (by trivial)
  | intrOff => exact ⟨stays rfl rfl rfl, trivial, rfl, nofun⟩
  | setup | handled => exact next_ok (by trivial)
  | signal => exact call_ok (by trivial) nofun ⟨nofun, nofun⟩
  | ret => exact ⟨rfl, nofun, nofun⟩

theorem kerneltrapCode_ok {o : Option ThreadRef} (pc : KerneltrapPc) :
    locking.InstrOk kernel o (.kerneltrap o pc) (kerneltrapCode v o pc) := by
  cases pc with
  | start timer => exact devintr_ok rfl rfl rfl trivial trivial ⟨nofun, nofun⟩ rfl rfl rfl
  | tick timer =>
    cases o with
    | none => exact next_ok (by trivial)
    | some t =>
      simp only [kerneltrapCode]
      split
      · exact call_ok (by trivial) nofun ⟨nofun, nofun⟩
      · exact next_ok (by trivial)
  | done => exact ⟨rfl, ⟨nofun, nofun⟩, rfl⟩

theorem signalHandlerCode_ok (pc : SignalHandlerPc) :
    locking.InstrOk kernel (some me) (.signalHandler me pc) (signalHandlerCode v me pc) := by
  cases pc with
  | start | next i =>
    simp only [signalHandlerCode]
    split <;> exact next_ok (by trivial)
  | loop i =>
    simp only [signalHandlerCode]
    split
    · split
      · exact next_ok (by trivial)
      all_goals exact call_ok (by trivial) nofun ⟨nofun, nofun⟩
    · exact next_ok (by trivial)
  | done => exact ret_ok rfl nofun nofun

theorem sigkillHandlerCode_ok (pc : SigkillPc) :
    locking.InstrOk kernel (some me) (.sigkillHandler me pc) (sigkillHandlerCode me pc) := by
  cases pc with
  | acquire | acquireT k => exact acquire_ok (by trivial)
  | kill | wake k => exact next_ok (by trivial)
  | releaseT k =>
    simp only [sigkillHandlerCode]
    split <;> exact release_ok (by trivial) rfl
  | release => exact release_ok (by trivial) rfl
  | done => exact ret_ok rfl nofun nofun

theorem sigcontHandlerCode_ok (pc : SigcontPc) :
    locking.InstrOk kernel (some me) (.sigcontHandler me pc) (sigcontHandlerCode v me pc) := by
  cases pc with
  | start =>
    simp only [sigcontHandlerCode]
    split
    · exact next_ok (by trivial)
    · exact ret_ok rfl nofun nofun
  | thaw | clear => exact next_ok (by trivial)
  | done => exact ret_ok rfl nofun nofun

theorem sigstopHandlerCode_ok (pc : SigstopPc) :
    locking.InstrOk kernel (some me) (.sigstopHandler me pc) (sigstopHandlerCode v me pc) := by
  cases pc with
  | start =>
    simp only [sigstopHandlerCode]
    split_ifs
    · exact ret_ok rfl nofun nofun
    · exact next_ok (by trivial)
    · exact ret_ok rfl nofun nofun
  | acquire | loopAcquire => exact acquire_ok (by trivial)
  | freeze => exact next_ok (by trivial)
  | check =>
    simp only [sigstopHandlerCode]
    split <;> exact next_ok (by trivial)
  | release | loopRelease | thawRelease => exact release_ok (by trivial) rfl
  | yield => exact call_ok (by trivial) nofun ⟨nofun, nofun⟩
  | done => exact ret_ok rfl nofun nofun

theorem signalhandlerUserCode_ok {n : Fin NUMOFSIGNALS} (pc : SigUserPc) :
    locking.InstrOk kernel (some me) (.signalhandlerUser me n pc)
      (signalhandlerUserCode v me n pc) := by
  cases pc with
  | acquire => exact acquire_ok (by trivial)
  | deliver =>
    simp only [signalhandlerUserCode]
    split
    · trivial
    · exact next_ok (by trivial)
  | release => exact release_ok (by trivial) rfl
  | done => exact ret_ok rfl nofun nofun

theorem exitCode_ok (pc : ExitPc) (hr : (Frame.exit me status pc).runs) :
    locking.InstrOk kernel (some me) (.exit me status pc) (exitCode v me status pc) := by
  have hquiet : (Frame.exit me status pc).quiet := ⟨by rintro _ ⟨⟩, by rintro ⟨⟩⟩
  cases pc with
  | start =>
    simp only [exitCode]
    split
    · trivial
    · exact call_ok (by trivial) (by rintro ⟨⟩) hquiet
  | files =>
    simp only [exitCode]
    split
    · exact call_ok (by trivial) (by rintro ⟨⟩) hquiet
    · exact next_ok (by trivial)
  | acquireW | acquireP => exact acquire_ok (by trivial)
  | reparent j =>
    simp only [exitCode, reparentNext]
    split
    · exact next_ok (by trivial)
    · split <;> exact next_ok (by trivial)
  | reparentNext j =>
    simp only [exitCode, reparentNext]
    split <;> exact next_ok (by trivial)
  | reparentWake j | wakeParent => exact wakeup_ok rfl rfl rfl trivial rfl
  | killed => exact absurd hr id
  | zombie => exact next_ok (by trivial)
  | releaseW => exact release_ok (by trivial) (Multiset.pair_comm _ _)
  | sched => exact call_ok (by trivial) (by rintro ⟨⟩) hquiet
  | dead => trivial

theorem killthreadsCode_ok (pc : KillthreadsPc) (hr : (Frame.killthreads me pc).runs) :
    locking.InstrOk kernel (some me) (.killthreads me pc) (killthreadsCode v me pc) := by
  cases pc with
  | start | markWrite i =>
    simp only [killthreadsCode]
    split <;> exact next_ok (by trivial)
  | wake => exact wakeup_ok rfl rfl rfl trivial rfl
  | acquireT => exact acquire_ok (by trivial)
  | zombie => exact next_ok (by trivial)
  | sched | yield => exact call_ok (by trivial) nofun ⟨nofun, nofun⟩
  | switched => exact absurd hr id
  | mark i | scan i got =>
    simp only [killthreadsCode]
    split
    · exact next_ok (by trivial)
    · split <;> exact next_ok (by trivial)
  | done => exact ret_ok rfl nofun nofun

theorem kthreadExitCode_ok (pc : KthreadExitPc) :
    locking.InstrOk kernel (some me) (.kthreadExit me status pc)
      (kthreadExitCode v me status pc) := by
  cases pc with
  | start =>
    simp only [kthreadExitCode]
    split
    · trivial
    · exact acquire_ok (by trivial)
  | scan q | zombie q => exact next_ok (by trivial)
  | release q num => exact release_ok (by trivial) rfl
  | decide q num =>
    simp only [kthreadExitCode]
    split
    · exact acquire_ok (by trivial)
    · exact call_ok (by trivial) nofun ⟨nofun, nofun⟩
  | wake q => exact wakeup_ok rfl rfl rfl rfl rfl
  | acquireP q => exact acquire_ok (by trivial)
  | releaseW q => exact release_ok (by trivial) (Multiset.pair_comm _ _)
  | sched q => exact call_ok (by trivial) nofun ⟨nofun, nofun⟩
  | dead q => trivial
  | exited => exact ret_ok rfl nofun nofun

theorem kthreadJoinCode_ok {id : Int} {status : Nat} (pc : KthreadJoinPc) :
    locking.InstrOk kernel (some me) (.kthreadJoin me id status pc)
      (kthreadJoinCode v me id status pc) := by
  cases pc with
  | start | test k =>
    simp only [kthreadJoinCode]
    split <;> exact next_ok (by trivial)
  | acquireW | acquireP | reacquire k => exact acquire_ok (by trivial)
  | search | slept k | free k => exact next_ok (by trivial)
  | releaseP k | releaseLast | failP | failW => exact release_ok (by trivial) rfl
  | sleep k => exact call_ok (by trivial) nofun ⟨nofun, nofun⟩
  | copy k =>
    simp only [kthreadJoinCode]
    split
    · exact next_ok (by trivial)
    · split <;> exact next_ok (by trivial)
  | releaseW => exact release_ok (by trivial) (Multiset.pair_comm _ _)
  | done | failed => exact ret_ok rfl nofun nofun

theorem kthreadCreateCode_ok {fn stack : BitVec 64} (pc : KthreadCreatePc) :
    locking.InstrOk kernel (some me) (.kthreadCreate me fn stack pc)
      (kthreadCreateCode v me fn stack pc) := by
  cases pc with
  | acquire => exact acquire_ok (by trivial)
  | find =>
    simp only [kthreadCreateCode]
    split
    · exact next_ok (by trivial)
    split
    · exact next_ok (by trivial)
    · exact ⟨stays rfl rfl rfl, trivial, rfl, rfl, trivial, rfl, rfl⟩
  | fault => trivial
  | release k | full => exact release_ok (by trivial) rfl
  | ret k | failed => exact ret_ok rfl nofun nofun

theorem kthreadIdCode_ok (pc : KthreadIdPc) :
    locking.InstrOk kernel (some me) (.kthreadId me pc) (kthreadIdCode v me pc) := by
  cases pc with
  | start =>
    simp only [kthreadIdCode]
    split
    · trivial
    · exact acquire_ok (by trivial)
  | read q => exact next_ok (by trivial)
  | release q tid => exact release_ok (by trivial) rfl
  | done tid => exact ret_ok rfl nofun nofun

theorem forkCode_ok (pc : ForkPc) : locking.InstrOk kernel (some me) (.fork me pc) (forkCode v me pc) := by
  cases pc with
  | acquire j | acquireW j pid | acquireC j pid => exact acquire_ok (by trivial)
  | check j | copy j =>
    simp only [forkCode]
    split <;> exact next_ok (by trivial)
  | skip j =>
    simp only [forkCode]
    split <;> exact release_ok (by trivial) rfl
  | found j =>
    simp only [forkCode]
    split
    · exact ⟨stays rfl rfl rfl, trivial, rfl, rfl, trivial, rfl, rfl⟩
    · exact next_ok (by trivial)
  | uncopy j | parent j pid | runnable j pid => exact next_ok (by trivial)
  | fail j | release j pid | releaseW j pid | releaseC j pid =>
    exact release_ok (by trivial) rfl
  | failed | done pid => exact ret_ok rfl nofun nofun

theorem waitCode_ok {addr : Nat} (pc : WaitPc) :
    locking.InstrOk kernel (some me) (.wait me addr pc) (waitCode v me addr pc) := by
  cases pc with
  | acquire | lock j => exact acquire_ok (by trivial)
  | scan j havekids =>
    simp only [waitCode, waitNext]
    split
    · exact next_ok (by trivial)
    · split <;> exact next_ok (by trivial)
  | check j | finish havekids =>
    simp only [waitCode]
    split <;> exact next_ok (by trivial)
  | unlock j =>
    simp only [waitCode, waitNext]
    split <;> exact release_ok (by trivial) rfl
  | copy j =>
    simp only [waitCode]
    split
    · exact next_ok (by trivial)
    · split <;> exact next_ok (by trivial)
  | reap j pid | slept => exact next_ok (by trivial)
  | releaseC j r | releaseW r => exact release_ok (by trivial) rfl
  | sleep => exact call_ok (by trivial) nofun ⟨nofun, nofun⟩
  | done r => exact ret_ok rfl nofun nofun

theorem execCode_ok (pc : ExecPc) (hr : (Frame.exec me pc).runs) :
    locking.InstrOk kernel (some me) (.exec me pc) (execCode v me pc) := by
  cases pc with
  | start =>
    simp only [execCode]
    split
    · exact next_ok (by trivial)
    · exact call_ok (by trivial) nofun ⟨nofun, nofun⟩
  | files =>
    simp only [execCode]
    split
    · exact call_ok (by trivial) nofun ⟨nofun, nofun⟩
    · split <;> exact next_ok (by trivial)
  | killed => exact absurd hr id
  | makeDfl | commit => exact next_ok (by trivial)
  | stack =>
    simp only [execCode]
    split <;> exact next_ok (by trivial)
  | done r => exact ret_ok rfl nofun nofun

theorem killCode_ok {o : Option ThreadRef} {pid : Int} {signum : BitVec 32} (pc : KillPc) :
    locking.InstrOk kernel o (.kill pid signum pc) (killCode v pid signum pc) := by
  cases pc with
  | acquire j => exact acquire_ok (by trivial)
  | check j =>
    simp only [killCode]
    split
    · split <;> exact next_ok (by trivial)
    · exact next_ok (by trivial)
  | release j =>
    simp only [killCode, killNext]
    split <;> exact release_ok (by trivial) rfl
  | finish j r => exact release_ok (by trivial) rfl
  | done r => exact ret_ok rfl nofun nofun

theorem sigretCode_ok (pc : SigSysPc) :
    locking.InstrOk kernel (some me) (.sigret me pc) (sigretCode v me pc) := by
  cases pc with
  | acquire => exact acquire_ok (by trivial)
  | body =>
    simp only [sigretCode]
    split
    · trivial
    · exact next_ok (by trivial)
  | release r => exact release_ok (by trivial) rfl
  | done r => exact ret_ok rfl nofun nofun

theorem sigactionCode_ok {signum : Int} {act oldact : Nat} (pc : SigSysPc) :
    locking.InstrOk kernel (some me) (.sigaction me signum act oldact pc)
      (sigactionCode v me signum act oldact pc) := by
  cases pc with
  | acquire =>
    simp only [sigactionCode]
    split
    · exact next_ok (by trivial)
    · exact acquire_ok (by trivial)
  | body => exact next_ok (by trivial)
  | release r => exact release_ok (by trivial) rfl
  | done r => exact ret_ok rfl nofun nofun

theorem bsemAllocCode_ok {o : Option ThreadRef} (pc : BsemAllocPc) :
    locking.InstrOk kernel o (.bsemAlloc pc) (bsemAllocCode v pc) := by
  cases pc with
  | acquire => exact acquire_ok (by trivial)
  | test =>
    simp only [bsemAllocCode]
    split <;> exact next_ok (by trivial)
  | release r => exact release_ok (by trivial) rfl
  | done r => exact ret_ok rfl nofun nofun

theorem bsemFreeCode_ok {o : Option ThreadRef} (pc : BsemFreePc) :
    locking.InstrOk kernel o (.bsemFree d pc) (bsemFreeCode v d pc) := by
  cases pc with
  | acquire => exact acquire_ok (by trivial)
  | test =>
    simp only [bsemFreeCode]
    split <;> exact next_ok (by trivial)
  | release => exact release_ok (by trivial) rfl
  | done => exact ret_ok rfl nofun nofun

theorem bsemDownCode_ok (pc : BsemDownPc) :
    locking.InstrOk kernel (some me) (.bsemDown me d pc) (bsemDownCode v me d pc) := by
  cases pc with
  | acquire => exact acquire_ok (by trivial)
  | test =>
    simp only [bsemDownCode]
    split
    · exact next_ok (by trivial)
    split
    · exact next_ok (by trivial)
    split
    · trivial
    · exact next_ok (by trivial)
  | sleep => exact call_ok (by trivial) nofun ⟨nofun, nofun⟩
  | slept => exact ⟨stays rfl rfl rfl, .inl (Multiset.mem_singleton_self _)⟩
  | release => exact release_ok (by trivial) rfl
  | done => exact ret_ok rfl nofun nofun

theorem bsemUpCode_ok {o : Option ThreadRef} (pc : BsemUpPc) :
    locking.InstrOk kernel o (.bsemUp d pc) (bsemUpCode v d pc) := by
  cases pc with
  | acquire => exact acquire_ok (by trivial)
  | test =>
    simp only [bsemUpCode]
    split <;> exact next_ok (by trivial)
  | wake => exact wakeup_ok trivial rfl rfl rfl rfl
  | release => exact release_ok (by trivial) rfl
  | done => exact ret_ok rfl nofun nofun

theorem blockCode_ok {lk chan : Nat} (pc : BlockPc) :
    locking.InstrOk kernel (some me) (.block me lk chan pc) (blockCode v me lk chan pc) := by
  cases pc with
  | acquire => exact acquire_ok (by trivial)
  | loop =>
    simp only [blockCode]
    split
    · exact call_ok (by trivial) nofun ⟨nofun, nofun⟩
    · exact next_ok (by trivial)
  | slept => exact next_ok (by trivial)
  | release => exact release_ok (by trivial) rfl
  | done => exact ret_ok rfl nofun nofun

theorem notifyCode_ok {o : Option ThreadRef} {lk chan : Nat} (pc : NotifyPc) :
    locking.InstrOk kernel o (.notify lk chan pc) (notifyCode lk chan pc) := by
  cases pc with
  | acquire => exact acquire_ok (by trivial)
  | wake => exact wakeup_ok trivial rfl rfl trivial rfl
  | release => exact release_ok (by trivial) rfl
  | done => exact ret_ok rfl nofun nofun

theorem otherCode_ok : locking.InstrOk kernel (some me) (.other me) (otherCode v me) := by
  unfold otherCode
  split
  · exact call_ok (by trivial) nofun ⟨nofun, nofun⟩
  · exact call_ok (by trivial) nofun ⟨nofun, nofun⟩
  · exact ⟨staysOf trivial rfl (.other me _), trivial, rfl⟩

end Functions

/-- **The kernel keeps to its lock discipline.** -/
theorem kernel_disciplined : locking.Disciplined kernel where
  kept_le := by
    intro f
    show f.kept ≤ f.held
    unfold Frame.kept
    split
    · exact zero_le
    · exact le_rfl
  code := by
    intro v o f hm hr hh
    cases f with
    | void t | bsemWild => trivial
    | scheduler pc => obtain rfl : o = none := hm; exact schedulerCode_ok pc
    | sched me lk pc => cases hm; exact schedCode_ok pc hr (hh ⟨nofun, nofun⟩)
    | yield me pc => cases hm; exact yieldCode_ok pc
    | sleep me chan lk pc => cases hm; exact sleepCode_ok pc
    | wakeup chan pc => exact wakeupCode_ok pc
    | forkret me => cases hm; exact ⟨staysOf rfl rfl (.forkret me), trivial, rfl⟩
    | usertrap me pc => cases hm; exact usertrapCode_ok pc
    | usertrapret me pc => cases hm; exact usertrapretCode_ok pc
    | kerneltrap me pc => obtain rfl : o = me := hm; exact kerneltrapCode_ok pc
    | signalHandler me pc => cases hm; exact signalHandlerCode_ok pc
    | sigkillHandler me pc => cases hm; exact sigkillHandlerCode_ok pc
    | sigcontHandler me pc => cases hm; exact sigcontHandlerCode_ok pc
    | sigstopHandler me pc => cases hm; exact sigstopHandlerCode_ok pc
    | signalhandlerUser me n pc =>
      cases hm; exact signalhandlerUserCode_ok pc
    | exit me status pc => cases hm; exact exitCode_ok pc hr
    | killthreads me pc => cases hm; exact killthreadsCode_ok pc hr
    | kthreadExit me status pc => cases hm; exact kthreadExitCode_ok pc
    | kthreadJoin me id status pc => cases hm; exact kthreadJoinCode_ok pc
    | kthreadCreate me fn stack pc =>
      cases hm; exact kthreadCreateCode_ok pc
    | kthreadId me pc => cases hm; exact kthreadIdCode_ok pc
    | fork me pc => cases hm; exact forkCode_ok pc
    | wait me addr pc => cases hm; exact waitCode_ok pc
    | exec me pc => cases hm; exact execCode_ok pc hr
    | kill pid signum pc => exact killCode_ok pc
    | sigret me pc => cases hm; exact sigretCode_ok pc
    | sigaction me signum act oldact pc =>
      cases hm; exact sigactionCode_ok pc
    | sigprocmask me mask => exact ⟨staysOf trivial rfl (.sigprocmask me mask _), trivial, rfl⟩
    | bsemAlloc pc => exact bsemAllocCode_ok pc
    | bsemFree d pc => exact bsemFreeCode_ok pc
    | bsemDown me d pc => cases hm; exact bsemDownCode_ok pc
    | bsemUp d pc => exact bsemUpCode_ok pc
    | block me lk chan pc => cases hm; exact blockCode_ok pc
    | notify lk chan pc => exact notifyCode_ok pc
    | other me => cases hm; exact otherCode_ok
    | ret r => exact ret_ok rfl nofun nofun
  trap := by
    intro m t e a f h
    obtain ⟨cause, regs, rfl, rfl⟩ := trapEntry_some h
    exact ⟨rfl, trivial, rfl, rfl⟩
  irq := by
    intro o e g h
    obtain ⟨cause, -, rfl⟩ := Option.map_eq_some_iff.1 h
    exact ⟨rfl, ⟨nofun, nofun⟩, trivial, rfl, rfl, fun _ => .inl rfl⟩

/-! ## Every reachable state -/

theorem boot_locked (g : Pages) (um : UserMem) : locking.Locked (boot g um) where
  cpu := fun c =>
    { stack := .single rfl trivial rfl
      lock := by simp [boot, locking, Discipline.total, Discipline.waiting]
      nodup := by simp [boot, locking, Discipline.total, Discipline.waiting]
      noff := rfl
      intr := fun h => absurd h (by simp [boot])
      home := fun t h => absurd h (by simp [boot]) }
  ctx := by
    intro t
    simp only [boot, Function.update_apply]
    split
    · next ht => exact ⟨.single rfl trivial (congrArg some ht), by rw [ht]; rfl⟩
    · exact ⟨.single rfl trivial rfl, rfl⟩

theorem run_locked (g : Pages) (um : UserMem) (tr : List (CpuId × Env)) :
    locking.Locked (run kernel (boot g um) tr) :=
  run_invariant locking.Locked (boot_locked g um) fun _ _ _ h => h.step kernel_disciplined exec_step

/-- A frame that holds a lock is not interrupted: its cpu executes its next instruction. -/
theorem exec_locked {s : KState} {c : CpuId} {e : Env} {f : Frame} {below : List Frame}
    (h : locking.Locked s) (hr : s.Runs c f below) (hheld : f.held ≠ 0) :
    exec kernel s c e = execInstr kernel s c below (code (s.view c e) f) := by
  refine exec_intr_off hr ?_
  by_contra hi
  have hzero := (h.cpu c).intr (Bool.eq_true_of_not_eq_false hi)
  rw [hr.active, Discipline.total_cons, add_eq_zero] at hzero
  exact hheld hzero.1

end Xv6
