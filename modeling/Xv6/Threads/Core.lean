import Xv6.Kernel.Locking
import Xv6.Threads.Effects

set_option autoImplicit false

/-! # Threads on cpus: the invariant of the running kernel

The thread tables say which threads run; the machine says which stack each cpu executes. `Core` ties
the two together: a thread that a cpu executes is `t_RUNNING` except in the windows of `yield`,
`sleep`, `kthread_exit` and `exit` between the change of state and the switch (`Frame.stateOk`), no
thread is executed by two cpus, and every frame of a stack that can still run may rely on what it
has found out before (`Asserts`): `killthreads` on the slots it has scanned, `exit` on the other
threads being gone, `fork` on the child it is setting up.

Two things a cpu can get into end its part in all this. A thread that was marked as killed and
enters `killthreads` ends up in a `sched` that panics (`Frame.doomed`), and a `kthread_create` that
finds a freed slot dereferences its null trapframe and panics with `p->lock` held (`Stuck`). -/

namespace Xv6

open Machine Option

/-! ## Stacks that can still run -/

/-- The frames between the killed branch of `killthreads` and its panic. -/
def Frame.doomed : Frame → Bool
  | .killthreads _ .sched | .sched _ (.thread _) _ => true
  | _ => false

def doomedStack : List Frame → Bool
  | [] => false
  | f :: _ => f.doomed

/-- Cpu `c` executes thread `t`, and not only until its next instruction panics. -/
structure On (s : KState) (c : CpuId) (t : ThreadRef) : Prop where
  cur : s.cur c = some t
  sane : doomedStack (s.active c) = false

/-- The state a thread has while the given frame is on top of its stack. -/
def Frame.stateOk : Frame → ThreadState → Prop
  | .yield _ .sched, st => st = .runnable
  | .sleep _ _ _ .sched, st => st = .sleeping
  | .exit _ _ .releaseW, st | .exit _ _ .sched, st => st = .zombie
  | .kthreadExit _ _ (.releaseW _), st | .kthreadExit _ _ (.sched _), st => st = .zombie
  | .sched _ _ .check, st => st = .runnable ∨ st = .sleeping ∨ st = .zombie
  | _, st => st = .running

def stackStateOk : List Frame → ThreadState → Prop
  | [], st => st = .running
  | f :: _, st => f.stateOk st

/-- A thread that waits for a cpu or for a wake-up. -/
def Slot.parked (x : Slot) : Prop :=
  (x.state = .runnable ∨ x.state = .sleeping) ∧ x.trapframe ≠ 0

/-- The stack of a thread that can still run: the one a cpu executes, or else the saved one. -/
inductive Valid (s : KState) (t : ThreadRef) : List Frame → Prop where
  | on (c : CpuId) (h : On s c t) : Valid s t (s.active c)
  | parked (h : (s.mem.table.slot t).parked) (hoff : ∀ c, ¬ On s c t) : Valid s t (s.ctx t)

/-- Thread `t` has run into a null trapframe in `kthread_create`: its cpu panics with `p->lock`
    held. -/
def Stuck (s : KState) (t : ThreadRef) : Prop :=
  ∃ c fn stack rest, s.cur c = some t ∧ s.active c = .kthreadCreate t fn stack .fault :: rest

/-! ## What frames rely on -/

/-- What `killthreads` knows after it has found the first `n` slots free of other threads: they
    still are, or a thread that it has yet to come to is stuck, so that it will not get through. -/
def Swept (s : KState) (me : ThreadRef) (n : Nat) : Prop :=
  (∀ k : TIdx, k.val < n → k ≠ me.i → (s.mem.table.slot ⟨me.p, k⟩).state.dead = true) ∨
    ∃ k : TIdx, n ≤ k.val ∧ k ≠ me.i ∧ Stuck s ⟨me.p, k⟩

/-- The child that a `fork` is setting up, while it does. -/
def ForkPc.child : ForkPc → Option PIdx
  | .copy j | .uncopy j | .release j _ | .acquireW j _ | .parent j _ | .releaseW j _
  | .acquireC j _ | .runnable j _ => some j
  | _ => none

def Frame.child : Frame → Option PIdx
  | .fork _ pc => pc.child
  | _ => none

/-- The part of `exit` after `killthreads` and before its last critical section is over. -/
def ExitPc.alone : ExitPc → Bool
  | .files | .acquireW | .reparent _ | .reparentWake _ | .reparentNext _ | .wakeParent | .acquireP
  | .zombie => true
  | _ => false

/-- A child that no one else knows about, ready to start in `forkret`. -/
structure Child (s : KState) (j : PIdx) : Prop where
  embryo : s.mem.table.Embryo j
  ctx : s.ctx ⟨j, 0⟩ = [.forkret ⟨j, 0⟩]

/-- The process whose lock `kthread_exit` works with. -/
def KthreadExitPc.parent : KthreadExitPc → Option PIdx
  | .start | .exited => none
  | .scan q | .release q _ | .decide q _ | .wake q | .acquireP q | .zombie q | .releaseW q | .sched q
  | .dead q => some q

/-- What a frame relies on, wherever it is in a stack and whoever runs meanwhile. -/
def Asserts (s : KState) : Frame → Prop
  | .killthreads me (.scan i false) => Swept s me i.val
  | .killthreads me .done => Swept s me NTHREAD
  | .exit me _ pc => pc.alone = true → Swept s me NTHREAD
  | .kthreadExit me _ pc => ∀ q, pc.parent = some q → q = me.p
  | .fork _ pc => ∀ j, pc.child = some j → Child s j
  | _ => True

/-- What a frame relies on because it holds the lock. -/
def HeldAsserts (T : Table) : Frame → Prop
  | .fork _ (.found j) => T.proc j = .unused
  | .wait _ _ (.copy j) | .wait _ _ (.reap j _) => T.proc j = .zombie
  | _ => True

/-! ## The invariant -/

/-- The frames about which `Core` says nothing of their own. -/
@[simp] def Frame.plain : Frame → Bool
  | .yield _ .sched | .sleep _ _ _ .sched | .sched _ _ .check | .sched _ (.thread _) _
  | .exit _ _ .releaseW | .exit _ _ .sched | .killthreads _ .sched | .killthreads _ .done
  | .killthreads _ (.scan _ false) | .fork _ (.found _) | .wait _ _ (.copy _)
  | .wait _ _ (.reap _ _) => false
  | .exit _ _ pc => !pc.alone
  | .kthreadExit _ _ pc => pc.parent.isNone
  | .fork _ pc => pc.child.isNone
  | _ => true

/-- The frames on top of saved stacks: the point where `sched` comes back, `forkret`, and the start
    of a slot that has never run. -/
def Frame.saved : Frame → Bool
  | .sched _ (.proc _) (.resumed _) | .forkret _ | .void _ => true
  | _ => false

theorem Frame.saved_plain {f : Frame} (h : f.saved = true) : f.plain = true := by
  unfold Frame.saved at h
  split at h
  · rfl
  · rfl
  · rfl
  · cases h

structure Core (s : KState) : Prop where
  locked : locking.Locked s
  table : s.mem.table.Ok
  used : s.mem.table.UsedAlone
  /-- A saved stack has been saved by `sched`, or is that of a new thread. -/
  saved : ∀ t, ∃ f rest, s.ctx t = f :: rest ∧ f.saved = true
  state : ∀ c t, On s c t → stackStateOk (s.active c) (s.mem.table.slot t).state
  alone : ∀ c c' t, On s c t → On s c' t → c = c'
  framed : ∀ c t, On s c t → (s.mem.table.slot t).trapframe ≠ 0
  /-- A thread without a trapframe will never be scheduled. -/
  null : ∀ t, (s.mem.table.slot t).state.dead = false → (s.mem.table.slot t).trapframe = 0 →
    ∃ i, Stuck s ⟨t.p, i⟩
  asserts : ∀ t st, Valid s t st → ∀ f ∈ st, Asserts s f
  child : ∀ t t' st st' f f' j, Valid s t st → Valid s t' st' → f ∈ st → f' ∈ st' →
    f.child = some j → f'.child = some j → t = t'
  held : ∀ c f rest, s.active c = f :: rest → HeldAsserts s.mem.table f

namespace Core

variable {s : KState} {c c' : CpuId} {t : ThreadRef} {f : Frame} {rest : List Frame}

/-! ## First consequences -/

section

variable (h : Core s) (hact : s.active c = f :: rest)
include h hact

theorem stack : locking.Stack (s.cur c) (f :: rest) := by
  have hst := (h.locked.cpu c).stack
  rw [hact] at hst
  exact hst

theorem lock {l : Lock} (hl : l ∈ f.held) : s.lock l = some c := by
  rw [(h.locked.cpu c).lock, hact, Discipline.total_cons]
  exact Multiset.mem_add.2 (Or.inl hl)

theorem lock_top {l : Lock} (hq : f.quiet) (hl : s.lock l = some c) : l ∈ f.held := by
  rw [(h.locked.cpu c).lock, hact, Discipline.total_cons, (h.stack hact).wf.quiet hq, add_zero] at hl
  exact hl

theorem intr_free (hi : (s.regs c).intr = true) : f.held = 0 := by
  have hzero := (h.locked.cpu c).intr hi
  rw [hact, Discipline.total_cons, add_eq_zero] at hzero
  exact hzero.1

end

theorem intr_off {l : Lock} (h : Core s) (hl : s.lock l = some c) : (s.regs c).intr = false := by
  by_contra hi
  have hzero := (h.locked.cpu c).intr (Bool.eq_true_of_not_eq_false hi)
  rw [(h.locked.cpu c).lock, hzero] at hl
  cases hl

theorem exec_held {e : Env} (h : Core s) (hr : s.Runs c f rest) (hheld : f.held ≠ 0) :
    exec kernel s c e = execInstr kernel s c rest (code (s.view c e) f) :=
  exec_locked h.locked hr hheld

theorem mine (h : Core s) (hact : s.active c = f :: rest) : f.mine (s.cur c) :=
  (h.stack hact).mine f (by simp)

theorem sched_lock {me : ThreadRef} {lk : Lock} {pc : SchedPc} (h : Core s)
    (hact : s.active c = .sched me lk pc :: rest) (hon : On s c t) : lk = .proc t.p := by
  have hst := h.stack hact
  have hme : s.cur c = some me := h.mine hact
  obtain rfl : me = t := some.inj (hme.symm.trans hon.cur)
  have hval : ∀ k ∈ rest, Asserts s k := fun k hk =>
    h.asserts me _ (.on c hon) k (by rw [hact]; exact List.mem_cons_of_mem _ hk)
  have hsane := hon.sane
  rw [hact] at hsane
  cases rest with
  | nil => exact absurd hst.wf nofun
  | cons k rest =>
    obtain hadj | hadj : Fn.sched lk = .kerneltrap ∨ k.awaits (.sched lk) := hst.wf.1
    · cases hadj
    have hk : k.mine (s.cur c) := hst.mine k (by simp)
    have hassert := hval k (by simp)
    unfold Frame.awaits at hadj
    split at hadj
    all_goals first | exact absurd hadj id | skip
    all_goals simp_all [Frame.mine, Asserts, KthreadExitPc.parent, doomedStack, Frame.doomed]

section

variable (h : Core s) (hon : On s c t)
include h hon

/-- In the windows between a change of state and the switch the thread holds its `p->lock`. -/
theorem window (hne : (s.mem.table.slot t).state ≠ .running) : s.lock (.proc t.p) = some c := by
  have hok := h.state c t hon
  cases hact : s.active c with
  | nil =>
    rw [hact] at hok
    exact absurd hok hne
  | cons f rest =>
    rw [hact] at hok
    have hmine := h.mine hact
    rw [hon.cur] at hmine
    have hlock := h.lock (l := .proc t.p) hact
    change f.stateOk _ at hok
    unfold Frame.stateOk at hok
    split at hok
    case h_7 me lk =>
      obtain rfl := h.sched_lock hact hon
      exact hlock (by simp)
    case h_5 q =>
      have hq := h.asserts t _ (.on c hon) _ (by rw [hact]; exact List.mem_cons_self ..)
      obtain rfl : t = _ := some.inj hmine
      obtain rfl := hq q rfl
      exact hlock (by simp)
    case h_6 q =>
      have hq := h.asserts t _ (.on c hon) _ (by rw [hact]; exact List.mem_cons_self ..)
      obtain rfl : t = _ := some.inj hmine
      obtain rfl := hq q rfl
      exact hlock (by simp)
    case h_8 => exact absurd hok hne
    all_goals
      obtain rfl : t = _ := some.inj hmine
      exact hlock (by simp)

theorem on_state : (s.mem.table.slot t).state = .running ∨ (s.mem.table.slot t).state = .runnable ∨
      (s.mem.table.slot t).state = .sleeping ∨ (s.mem.table.slot t).state = .zombie := by
  have hok := h.state c t hon
  cases hact : s.active c with
  | nil =>
    rw [hact] at hok
    exact Or.inl hok
  | cons f rest =>
    rw [hact] at hok
    change f.stateOk _ at hok
    unfold Frame.stateOk at hok
    split at hok <;> simp_all

theorem on_ne_unused : (s.mem.table.slot t).state ≠ .unused := by
  intro hu
  have hst := h.on_state hon
  rw [hu] at hst
  exact absurd hst (by decide)

theorem on_ne_used : (s.mem.table.slot t).state ≠ .used := by
  intro hu
  have hst := h.on_state hon
  rw [hu] at hst
  exact absurd hst (by decide)

end

end Core

end Xv6
