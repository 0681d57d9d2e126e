import Xv6.Machine.Frames
import Xv6.Threads.Exec

set_option autoImplicit false

/-! # The locks with which sched is called

`sched` panics unless its caller holds `p->lock` and nothing else, has left `t_RUNNING` and has
interrupts off. Four of its five callers see to that. The fifth is the branch of `killthreads` for a
thread that a sibling has marked as killed: it takes `t->lock` in place of `p->lock`, and `sched`
panics. So the panics are unreachable exactly as far as no marked thread enters `killthreads`. -/

namespace Xv6

open List Machine Xv6.Frame

/-- The branch of `killthreads` that a thread marked as killed takes, and its call of `sched`. -/
def Frame.killedBranch : Frame → Bool
  | .killthreads _ .wake | .killthreads _ .acquireT | .killthreads _ .zombie
  | .killthreads _ .sched | .killthreads _ .switched | .sched _ (.thread _) _ => true
  | _ => false

/-- The step is not the entry of a thread marked as killed into `killthreads`. -/
def entersUnmarked (s : KState) (c : CpuId) : Bool :=
  match s.top c with
  | some (.killthreads me .start) => !(s.mem.thread me).killed
  | _ => true

section

variable {s : KState} {c : CpuId} {e : Env} {f k : Frame} {below : List Frame} {me : ThreadRef}

theorem Frame.killedBranch_ctorIdx (h : f.killedBranch = true) : f.ctorIdx = 2 ∨ f.ctorIdx = 16 := by
  cases f <;> first | exact Or.inl rfl | exact Or.inr rfl | cases h

theorem Follows.killedBranch (h : Follows f k) (hs : ∀ me lk pc, f ≠ .sched me lk pc)
    (hk : ∀ me pc, f ≠ .killthreads me pc) : k.killedBranch = false := by
  cases h with
  | same hc =>
    by_contra hb
    have hidx := Frame.killedBranch_ctorIdx (Bool.eq_true_of_not_eq_false hb)
    rw [hc] at hidx
    cases f with
    | sched me lk pc => exact hs me lk pc rfl
    | killthreads me pc => exact hk me pc rfl
    | _ => exact absurd hidx (by simp [Frame.ctorIdx])
  | _ => rfl

theorem Frame.awaits_thread {t : ThreadRef} (h : k.awaits (.sched (.thread t))) : k.killedBranch = true := by
  unfold awaits at h
  split at h <;> first | rfl | exact absurd h id | simp_all

theorem Frame.entry_thread (h : f.entry = true) (hb : f.killedBranch = true) :
    ∃ me t, f = .sched me (.thread t) .check := by
  unfold killedBranch at hb
  split at hb
  case h_6 me t pc =>
    cases pc with
    | check => exact ⟨me, t, rfl⟩
    | _ => exact absurd h (by simp [entry])
  case h_7 => exact absurd hb (by simp)
  all_goals exact absurd h (by simp [entry])

theorem killthreads_unmarked {pc : KillthreadsPc} {v : KView}
    (hb : Frame.killedBranch (.killthreads me pc) = false)
    (hstart : pc = .start → (v.mem.thread me).killed = false) :
    ∀ k ∈ (killthreadsCode v me pc).pushes, k.killedBranch = false := by
  cases pc with
  | start =>
    simp only [killthreadsCode, hstart rfl]
    simp [killedBranch]
  | mark i =>
    simp only [killthreadsCode]
    split <;> simp only [Instr.pushes, Instr.frames, mem_singleton, forall_eq]
    · rfl
    · split <;> rfl
  | markWrite i =>
    simp only [killthreadsCode, Instr.pushes, Instr.frames, mem_singleton, forall_eq]
    split <;> rfl
  | scan i got =>
    simp only [killthreadsCode, Instr.pushes, Instr.frames, mem_singleton, forall_eq]
    split
    · rfl
    · split <;> rfl
  | yield => simp [killthreadsCode, killedBranch]
  | done => simp [killthreadsCode]
  | _ => cases hb

theorem sched_unmarked {lk : Lock} {pc : SchedPc} {v : KView}
    (hb : Frame.killedBranch (.sched me lk pc) = false) :
    ∀ k ∈ (schedCode v me lk pc).pushes, k.killedBranch = false := by
  have hlk : ∀ pc', killedBranch (.sched me lk pc') = false := by
    cases lk with
    | thread t => cases hb
    | _ => exact fun _ => rfl
  cases pc with
  | check =>
    simp only [schedCode]
    repeat' split
    all_goals simp [hlk]
  | resumed | done => simp [schedCode, hlk]

theorem unmarked_introduces (h : locking.Locked s) (hu : entersUnmarked s c = true) :
    Introduces kernel (fun f => f.killedBranch = false) s c e := by
  have hnext : ∀ f below k, s.Runs c f below → f.killedBranch = false → Follows f k →
      k ∈ (kernel.code (s.view c e) f).pushes → k.killedBranch = false := by
    intro f below k hr hb hs hk
    cases f with
    | sched me lk pc => exact sched_unmarked hb k hk
    | killthreads me pc =>
      refine killthreads_unmarked hb (fun hpc => ?_) k hk
      subst hpc
      show (s.mem.thread me).killed = false
      simpa [entersUnmarked, hr.top] using hu
    | _ => exact hs.killedBranch (fun _ _ _ hk => nomatch hk) fun _ _ hk => nomatch hk
  refine kernel_introduces h hnext (fun f below g k hr hb hk hs hentry hadj => ?_) (fun _ => rfl)
    (fun _ _ => rfl) (fun _ _ => rfl) fun k v hk => ?_
  · by_contra hg
    obtain ⟨me, t, rfl⟩ := entry_thread hentry (Bool.eq_true_of_not_eq_false hg)
    refine absurd (hnext f below k hr hb hs ?_) (by rw [awaits_thread hadj]; nofun)
    rw [hk]
    exact mem_cons_of_mem _ (mem_singleton_self _)
  · unfold resumeFrame
    split <;> first | rfl | exact hk

theorem boot_unmarked (g : Pages) (um : UserMem) :
    AllFrames (fun f => f.killedBranch = false) (boot g um) where
  active := by simp [boot, Frame.killedBranch]
  home := by simp [boot]
  ctx := fun t => by
    simp only [boot, Function.update_apply]
    split <;> simp [Frame.killedBranch]

/-- A call of `sched` that finds everything it asks for. -/
structure SchedOk (s : KState) (c : CpuId) (me : ThreadRef) : Prop where
  holding : s.lock (.proc me.p) = some c
  only : ∀ l, s.lock l = some c → l = .proc me.p
  noff : (s.regs c).noff = 1
  state : (s.mem.thread me).state ≠ .running
  intr : (s.regs c).intr = false

theorem SchedOk.giveup {lk : Lock} (h : SchedOk s c me) : code (s.view c e) (.sched me lk .check) =
      .giveup (.sched me lk (.resumed (s.regs c).intena)) := by
  have hhold : (s.view c e).holding (.proc me.p) = true := decide_eq_true h.holding
  have hview : (s.view c e).regs = s.regs c := rfl
  have hmem : (s.view c e).mem = s.mem := rfl
  simp [code, schedCode, hhold, hview, hmem, h.noff, h.state, h.intr]

theorem Core.schedOk {lk : Lock} (h : Core s) (hb : Frame.killedBranch (.sched me lk .check) = false)
    (hr : s.Runs c (.sched me lk .check) below) : SchedOk s c me := by
  have hdoomed : doomed (.sched me lk .check) = false := by
    cases lk with
    | thread t => cases hb
    | _ => rfl
  have hme := h.mine hr.active
  have hon : On s c me := .ofTop hr.active hme hdoomed
  obtain rfl := h.sched_lock hr.active hon
  have hquiet : quiet (.sched me (.proc me.p) .check) := ⟨nofun, nofun⟩
  have htotal : locking.total (s.active c) = {Lock.proc me.p} := by
    rw [hr.active, Discipline.total_cons, (h.stack hr.active).wf.quiet hquiet, add_zero]
    rfl
  refine ⟨h.lock hr.active (by simp), fun l hl => ?_, ?_, fun hrun => ?_, ?_⟩
  · simpa using h.lock_top hr.active hquiet hl
  · rw [(h.locked.cpu c).noff, htotal]
    rfl
  · have hst := h.top_state hr.active hme hdoomed
    rw [show (s.mem.table.slot me).state = .running from hrun] at hst
    exact absurd hst (by simp [stateOk])
  · by_contra hi
    exact absurd (h.intr_free hr.active (Bool.eq_true_of_not_eq_false hi)) (by simp)

end

/-- **Every call of `sched` holds `p->lock` and no other lock, with the thread not `t_RUNNING` and
    interrupts off, and does not panic**, as long as no thread marked as killed enters
    `killthreads`. -/
theorem sched_ok {g : Pages} (hg : g.ok = true) (um : UserMem) {tr : List (CpuId × Env)}
    (h : Along kernel (fun s c _ => reapsZombie s c = true ∧ entersUnmarked s c = true)
      (boot g um) tr) (c : CpuId) (e : Env) (me : ThreadRef) (lk : Lock) (below : List Frame)
    (hr : (run kernel (boot g um) tr).Runs c (.sched me lk .check) below) :
    SchedOk (run kernel (boot g um) tr) c me ∧
      ∃ k, code ((run kernel (boot g um) tr).view c e) (.sched me lk .check) = .giveup k := by
  have hcore := run_core hg um (h.mono fun _ _ _ hc => hc.1)
  have hall : AllFrames (fun f => f.killedBranch = false) (run kernel (boot g um) tr) := by
    refine (h.invariant (fun s => locking.Locked s ∧ AllFrames (fun f => f.killedBranch = false) s)
      ⟨boot_locked g um, boot_unmarked g um⟩ ?_).2
    intro s c e hc ⟨hl, ha⟩
    exact ⟨hl.step kernel_disciplined exec_step, ha.step (unmarked_introduces hl hc.2) exec_step⟩
  have hok := hcore.schedOk (hall.top hr).1 hr
  exact ⟨hok, _, hok.giveup⟩

/-- The first process has two threads and one calls `exec`: the run up to where the other one, on
    the second cpu, has been marked as killed and calls `exec` itself. -/
def markedExec : List (CpuId × Env) :=
  steps 0 14 ++ ecall 0 26 100 200 :: steps 0 20 ++ steps 1 15 ++
    ecall 0 7 0 0 :: steps 0 9 ++ [ecall 1 7 0 0]

/-- It calls `sched` with `t->lock` in place of `p->lock`, and the kernel panics. -/
theorem sched_panics :
    let s := run kernel (boot firstPages fun _ => none) (markedExec ++ steps 1 203)
    s.halted 1 = none ∧ s.lock (.proc 0) = none ∧ s.lock (.thread ⟨0, 1⟩) = some 1 ∧
      (exec kernel s 1 {}).halted 1 = some "sched p->lock" := by
  decide +kernel

/-- The first process yields to a timer interrupt: `sched` is called as it should be. -/
theorem sched_ok_yield : SchedOk (run kernel (boot firstPages fun _ => none)
      (steps 0 14 ++ (0, { trap := some (.timer, fun _ => 0) }) :: steps 0 6)) 0 ⟨0, 0⟩ :=
  (sched_ok rfl _ (by decide +kernel) 0 {} ⟨0, 0⟩ (.proc 0) _ ⟨by decide +kernel, rfl⟩).1

end Xv6
