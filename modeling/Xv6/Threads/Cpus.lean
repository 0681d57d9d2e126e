import Xv6.Machine.History
import Xv6.Threads.Sched

set_option autoImplicit false

/-! # Threads and the cpus that run them

A thread that is `t_RUNNING` has a cpu of its own: the one whose scheduler has set its state, which
does not leave it before the state has changed. The cpu's `c->thread` is the machine's `cur`; its
`c->proc` is a variable that only the cpu's own scheduler writes, around its loop over the threads
of a process, so that it can be read off the place of the scheduler (`cpuProc`).

The context that a thread is resumed from is compared with a history of the run (`keepStacks`): for
each thread the stack that it had when a cpu last switched away from it, or the entry of `forkret`
if it has not run since it was started. -/

namespace Xv6

open Function Machine

/-- The process in whose thread table the scheduler is. -/
def SchedulerPc.proc : SchedulerPc → Option PIdx
  | .scan p _ | .back p _ => some p
  | _ => none

/-- `c->proc`: what the scheduler at the bottom of the cpu's own stack has set it to, also while a
    thread runs. -/
def cpuProc (s : KState) (c : CpuId) : Option PIdx :=
  match (if (s.cur c).isSome then s.home c else s.active c).getLast? with
  | some (.scheduler pc) => pc.proc
  | _ => none

/-- The stack that a thread goes on with after cpu `c` has switched away from it: it comes back from
    the `swtch` in `sched`. -/
def leftStack (s : KState) (c : CpuId) : List Frame :=
  match s.active c with
  | .sched me lk .check :: below => .sched me lk (.resumed (s.regs c).intena) :: below
  | st => st

/-- The states of a thread that has been started. -/
def ThreadState.started : ThreadState → Bool
  | .unused | .used => false
  | _ => true

/-- The stacks of the threads at their last completed switch, after a step. -/
def keepStacks (s : KState) (c : CpuId) (e : Env) (saved : ThreadRef → List Frame) :
    ThreadRef → List Frame := fun t =>
  if s.cur c = some t ∧ (exec kernel s c e).cur c = none then leftStack s c
  else if (s.mem.thread t).state.started = false ∧
      ((exec kernel s c e).mem.thread t).state.started = true then [.forkret t]
  else saved t

/-- Every thread that is `t_RUNNING` is on a cpu, and the scheduler of that cpu waits for it. -/
structure Placed (s : KState) : Prop where
  running : ∀ t, (s.mem.thread t).state = .running → ∃ c, s.cur c = some t
  home : ∀ c t, s.cur c = some t → s.home c = [.scheduler (.back t.p t.i)]

section

variable {s s' : KState} {c : CpuId} {e : Env} {t : ThreadRef} {pc : SchedulerPc}
  {below : List Frame} {saved : ThreadRef → List Frame}

theorem Core.scheduler_bottom (h : Core s) (hact : s.active c = .scheduler pc :: below) : below = [] := by
  cases below with
  | nil => rfl
  | cons k rest =>
    obtain hadj | hadj : Fn.bottom = .kerneltrap ∨ k.awaits .bottom := (h.stack hact).wf.1
    · cases hadj
    · unfold Frame.awaits at hadj
      split at hadj <;> first | exact absurd hadj id | simp_all

theorem unmarked_on (h : AllFrames (fun f => f.killedBranch = false) s)
    (hcur : s.cur c = some t) : On s c t := by
  refine ⟨hcur, ?_⟩
  cases hact : s.active c with
  | nil => rfl
  | cons f rest =>
    have hf := h.active c f (by rw [hact]; exact List.mem_cons_self ..)
    show f.doomed = false
    unfold Frame.doomed
    split
    · cases hf
    · cases hf
    · rfl

theorem enters_of_step (hstep : Step kernel s c e s') (hcur : s.cur c ≠ some t)
    (hcur' : s'.cur c = some t) :
    ∃ below, s.Runs c (.scheduler (.scan t.p t.i)) below ∧
      s'.home c = .scheduler (.back t.p t.i) :: below ∧ s'.active c = s.ctx t ∧
      (s.mem.thread t).state = .runnable := by
  cases hstep with
  | giveup hr hk hc => cases hcur'.symm.trans (update_self ..)
  | @dispatch f k a t' below hr hk =>
    have heff : Effect s.mem f _ := effect_of_code hk
    obtain ⟨p, i, rfl, rfl, rfl, rfl, hst⟩ := heff
    have hcur'' : (s.enter c ⟨p, i⟩ (.scheduler (.back p i) :: below)
        (kernel.apply (.setState ⟨p, i⟩ .running) s.mem)).cur c = some ⟨p, i⟩ :=
      update_self ..
    obtain rfl : ⟨p, i⟩ = t := Option.some.inj (hcur''.symm.trans hcur')
    exact ⟨below, hr, update_self .., update_self .., hst⟩
  | _ => exact absurd hcur' hcur

/-- The scheduler finds only threads with a trapframe: a slot that has been reused without one is
    `t_RUNNABLE` in a process whose lock is never released. -/
theorem Core.scan_framed (h : Core s) (hr : s.Runs c (.scheduler (.scan t.p t.i)) below)
    (hst : (s.mem.thread t).state = .runnable) : (s.mem.thread t).trapframe ≠ 0 := by
  intro htf
  have hlive : (s.mem.table.slot t).state.dead = false := by
    rw [show (s.mem.table.slot t).state = _ from hst]
    rfl
  obtain ⟨i, c', fn, stack, rest, -, hact⟩ := h.null t hlive htf
  have hlock : s.lock (.proc t.p) = some c := h.lock hr.active (by simp)
  have hlock' : s.lock (.proc t.p) = some c' := h.lock hact (by simp)
  cases hlock.symm.trans hlock'
  cases (List.cons.inj (hr.active.symm.trans hact)).1

/-- **A thread that runs keeps its cpu**: every step keeps it so. -/
theorem Placed.step (hp : Placed s) (h : Core s)
    (hall : AllFrames (fun f => f.killedBranch = false) s) (hstep : Step kernel s c e s') :
    Placed s' where
  running := fun t hrun => by
    by_cases hold : (s.mem.thread t).state = .running
    · obtain ⟨c0, hc0⟩ := hp.running t hold
      by_cases hne : c0 = c
      · subst hne
        refine ⟨c0, ?_⟩
        by_contra hcur
        have hst := h.leaves_state hstep (unmarked_on hall hc0) hcur
        rw [show (s.mem.table.slot t).state = .running from hold] at hst
        exact absurd hst (by decide)
      · exact ⟨c0, (hstep.other hne).cur.trans hc0⟩
    · cases turns_of_step hstep hold hrun rfl with
      | started _ hcur => exact ⟨c, hcur⟩
  home := fun c0 t hcur => by
    by_cases hne : c0 = c
    · subst hne
      by_cases hold : s.cur c0 = some t
      · rw [← hp.home c0 t hold]
        cases hstep with
        | @dispatch f k a t' below hr hk =>
          have heff : Effect s.mem f (kernel.code (s.view c0 e) f) := code_effect (s.view c0 e) f
          rw [hk] at heff
          obtain ⟨p, i, rfl, -⟩ := heff
          have hidle : s.cur c0 = none := h.mine hr.active
          cases hidle.symm.trans hold
        | _ => rfl
      · obtain ⟨below, hr, hhome, -⟩ := enters_of_step hstep hold hcur
        rw [hhome, h.scheduler_bottom hr.active]
    · rw [(hstep.other hne).home]
      exact hp.home c0 t ((hstep.other hne).cur.symm.trans hcur)

/-- The saved contexts are those of the last switches, as far as the threads can run. -/
def Kept (s : KState) (saved : ThreadRef → List Frame) : Prop :=
  ∀ t, (s.mem.thread t).state.started = true → (s.mem.thread t).trapframe ≠ 0 → s.ctx t = saved t

theorem leaves_of_step (hstep : Step kernel s c e s') (hcur : s.cur c = some t)
    (hcur' : s'.cur c = none) : s'.ctx t = leftStack s c := by
  cases hstep with
  | @giveup f k t' below hr hk hc =>
    obtain rfl := Option.some.inj (hc.symm.trans hcur)
    have heff : Effect s.mem f _ := effect_of_code hk
    obtain ⟨me, lk, b, rfl, rfl, -⟩ := heff
    have hb : b = (s.regs c).intena := by
      change schedCode (s.view c e) me lk .check = _ at hk
      simp only [schedCode] at hk
      repeat' split at hk
      all_goals cases hk
      rfl
    show update s.ctx t' _ t' = _
    rw [update_self, leftStack, hr.active, hb]
  | @dispatch f k a t' below hr hk =>
    have hcur'' : (s.enter c t' (k :: below) (kernel.apply a s.mem)).cur c = some t' :=
      update_self ..
    cases hcur'.symm.trans hcur''
  | _ => cases hcur.symm.trans hcur'

theorem Core.ctx_kept (h : Core s) (hstep : Step kernel s c e s') (hadv : Advances s c s')
    (hst : (s.mem.thread t).state.started = true) (hstay : ¬ (s.cur c = some t ∧ s'.cur c = none)) :
    s'.ctx t = s.ctx t := by
  rcases hadv.proceeds.ctx t with hctx | hnew | hon
  · exact hctx
  · rcases hnew.slot with hu | hu
    · rw [show (s.mem.thread t).state = _ from hu] at hst
      cases hst
    · rw [show (s.mem.thread t).state = _ from hu] at hst
      cases hst
  cases hstep with
  | @giveup f k t' below hr hk hc =>
    cases hc.symm.trans hon.cur
    exact absurd ⟨hc, update_self ..⟩ hstay
  | @spawn f g k a t0 below hr hk =>
    refine update_of_ne ?_ _ _
    rintro rfl
    -- the slot of a new thread is free
    have heff : Effect s.mem f _ := effect_of_code hk
    have hfree : (s.mem.thread t).state = .unused := by
      cases heff with
      | create me fn stack k hfirst => exact (firstUnused_spec hfirst).unused
      | alloc me j g => exact h.table.unused _ (h.held c _ _ hr.active)
    rw [hfree] at hst
    cases hst
  | _ => rfl

/-- **The saved contexts stay those of the last switches.** -/
theorem Kept.step (hk : Kept s saved) (h : Core s) (hadv : Advances s c (exec kernel s c e)) :
    Kept (exec kernel s c e) (keepStacks s c e saved) := by
  intro t hst htf
  have hstep : Step kernel s c e (exec kernel s c e) := exec_step
  unfold keepStacks
  split
  · next hleft => exact leaves_of_step hstep hleft.1 hleft.2
  next hstay =>
  split
  · next hnew =>
    have hne : ∀ {st}, (s.mem.table.slot t).state = st → st.started = false := by
      rintro st rfl
      exact hnew.1
    cases hadv.proceeds.acts.slot h t with
    | same h' =>
      have hsame : ((exec kernel s c e).mem.thread t).state = (s.mem.thread t).state :=
        congrArg Slot.state h'
      rw [hsame, hnew.1] at hst
      cases hst
    | leave _ _ hrun | start _ _ hrun => cases hne hrun
    | wake _ hsl => cases hne hsl
    | born hown ht =>
      -- the child of a `fork`, whose context `allocproc` has set up
      obtain ⟨p, i⟩ := t
      obtain rfl : i = 0 := ht
      have hchild := h.owned hown
      rcases hadv.proceeds.ctx ⟨p, 0⟩ with hctx | hstarted | hon
      · exact hctx.trans hchild.ctx
      · exact hstarted.ctx
      · exact absurd hchild.embryo.first (h.on_ne_used hon)
    | alloc _ hu =>
      rcases hu with hu | hu
      · rw [show ((exec kernel s c e).mem.thread t).state = _ from hu] at hst
        cases hst
      · rw [show ((exec kernel s c e).mem.thread t).state = _ from hu] at hst
        cases hst
    | free _ _ hu =>
      rw [show ((exec kernel s c e).mem.thread t).state = _ from hu] at hst
      cases hst
    | create _ _ _ _ _ _ _ hctx => exact hctx
    | createFault _ _ _ _ _ _ _ htf' => exact absurd htf' htf
  · next hold =>
    have hold : (s.mem.thread t).state.started = true := by
      by_contra hs
      exact hold ⟨Bool.eq_false_iff.2 hs, hst⟩
    have hne : ∀ {st}, (s.mem.table.slot t).state = st → st.started = true := by
      rintro st rfl
      exact hold
    rw [h.ctx_kept hstep hadv hold hstay]
    refine hk t hold ?_
    cases hadv.proceeds.acts.slot h t with
    | same h' | leave _ _ _ _ h' | start _ _ _ h' | wake _ _ h' =>
      rwa [show ((exec kernel s c e).mem.thread t).trapframe = (s.mem.thread t).trapframe from
        congrArg Slot.trapframe h'] at htf
    | born hown =>
      rcases (h.owned hown).embryo.state with hu | hu
      · cases hne hu
      · cases hne hu
    | alloc hp => cases hne (h.table.unused t hp)
    | free _ _ hu =>
      rw [show ((exec kernel s c e).mem.thread t).state = _ from hu] at hst
      cases hst
    | create _ _ _ _ hfirst | createFault _ _ _ _ hfirst => cases hne hfirst.unused

end

theorem boot_placed {g : Pages} (hg : g.ok = true) (um : UserMem) : Placed (boot g um) where
  running := fun t hrun => by
    have hne : ((boot g um).mem.table.slot t).state ≠ .unused := by
      rw [show ((boot g um).mem.table.slot t).state = _ from hrun]
      nofun
    obtain rfl := (boot_slot hg um hne).1
    have hst : ((boot g um).mem.table.slot ⟨0, 0⟩).state = .runnable := by
      have htab : (boot g um).mem.table = _ := table_userinit hg um
      rw [htab, Table.setState_slot, if_pos rfl]
    cases hst.symm.trans hrun
  home := fun _ _ hcur => nomatch hcur

/-- **A thread that is `t_RUNNING` is the `c->thread` of exactly one cpu, whose `c->proc` is its
    process; no thread is executed by two cpus; and a cpu resumes a thread from the stack of its
    last completed switch**, as long as `kthread_join` frees only threads that have terminated and
    no thread marked as killed enters `killthreads`. -/
theorem running_on_one_cpu {g : Pages} (hg : g.ok = true) (um : UserMem)
    {tr : List (CpuId × Env)}
    (h : Along kernel (fun s c _ => reapsZombie s c = true ∧ entersUnmarked s c = true)
      (boot g um) tr) :
    let s := run kernel (boot g um) tr
    let saved := history kernel keepStacks (boot g um) (boot g um).ctx tr
    (∀ t, (s.mem.thread t).state = .running →
      ∃ c, s.cur c = some t ∧ cpuProc s c = some t.p ∧ ∀ c', s.cur c' = some t → c' = c) ∧
    (∀ c c' t, s.cur c = some t → s.cur c' = some t → c = c') ∧
    (∀ c e t, s.cur c = none → (exec kernel s c e).cur c = some t →
      (exec kernel s c e).active c = saved t) := by
  intro s saved
  obtain ⟨hcore, hall, hplaced, hkept⟩ : Core s ∧ AllFrames (fun f => f.killedBranch = false) s ∧
      Placed s ∧ Kept s saved := by
    refine h.history_invariant (fun s saved => Core s ∧
      AllFrames (fun f => f.killedBranch = false) s ∧ Placed s ∧ Kept s saved)
      ⟨boot_core hg um, boot_unmarked g um, boot_placed hg um, fun _ _ _ => rfl⟩ ?_
    intro s c e saved hc ⟨hcore, hall, hplaced, hkept⟩
    have hadv := hcore.step (e := e) hc.1 exec_step
    exact ⟨hadv.core, hall.step (unmarked_introduces hcore.locked hc.2) exec_step,
      hplaced.step hcore hall exec_step, hkept.step hcore hadv⟩
  have halone : ∀ c c' t, s.cur c = some t → s.cur c' = some t → c = c' := fun c c' t hc hc' =>
    hcore.alone c c' t (unmarked_on hall hc) (unmarked_on hall hc')
  refine ⟨fun t hrun => ?_, halone, fun c e t hcur hcur' => ?_⟩
  · obtain ⟨c, hc⟩ := hplaced.running t hrun
    refine ⟨c, hc, ?_, fun c' hc' => halone c' c t hc' hc⟩
    simp [cpuProc, hc, hplaced.home c t hc, SchedulerPc.proc]
  have hstep : Step kernel s c e (exec kernel s c e) := exec_step
  obtain ⟨below, hr, -, hact, hst⟩ :=
    enters_of_step hstep (fun hc => nomatch hcur.symm.trans hc) hcur'
  rw [hact]
  exact hkept t (by rw [hst]; rfl) (hcore.scan_framed hr hst)

/-- The first process is preempted on the first cpu, whose scheduler goes on to the next process,
    and the scheduler of the second cpu finds its thread. -/
def preempted : List (CpuId × Env) :=
  steps 0 14 ++ (0, { trap := some (.timer, fun _ => 0) }) :: steps 0 16 ++ steps 1 3

/-- The second cpu resumes the thread from the stack that the first one has left. -/
theorem running_on_one_cpu_preempted :
    let s := run kernel (boot firstPages fun _ => none) preempted
    let saved := history kernel keepStacks (boot firstPages fun _ => none)
      (boot firstPages fun _ => none).ctx preempted
    s.cur 1 = none ∧ (exec kernel s 1 {}).cur 1 = some ⟨0, 0⟩ ∧
      (exec kernel s 1 {}).active 1 = saved ⟨0, 0⟩ := by
  have hidle : (run kernel (boot firstPages fun _ => none) preempted).cur 1 = none := by
    decide +kernel
  have hnext : (exec kernel (run kernel (boot firstPages fun _ => none) preempted) 1 {}).cur 1 =
      some ⟨0, 0⟩ := by decide +kernel
  exact ⟨hidle, hnext, (running_on_one_cpu rfl _ (by decide +kernel)).2.2 1 {} ⟨0, 0⟩ hidle hnext⟩

end Xv6
