import Xv6.Machine.Masked
import Xv6.Signals.Pending

set_option autoImplicit false

/-! # SIGKILL

`kill(pid, SIGKILL)` is to end its target whatever the target has done about signals. What it does
is to make the signals 0 and 3 pending, and signal 0 is then treated like any other:
`signal_handler` returns at once while a signal is being handled, and otherwise looks at the mask
and at the handler. This module follows one call of `signal_handler` from its entry to its return.
It runs with interrupts off (`run_masked`), so that it stays on its cpu, while the other cpus may
change whatever they like. -/

namespace Xv6

open Machine Xv6.Frame State

/-! ## Signals are handled with interrupts off -/

/-- The part of `usertrapret` after `intr_off`, with the handlers that never give up the cpu. -/
def Frame.shielded : Frame → Bool
  | .usertrapret _ .copy | .usertrapret _ .intrOff => false
  | .usertrapret _ _ | .signalHandler _ _ | .sigkillHandler _ _ | .sigcontHandler _ _
  | .signalhandlerUser _ _ _ => true
  | _ => false

/-- The functions that are partly or wholly in that region. -/
def Frame.handles : Frame → Bool
  | .usertrapret _ _ | .signalHandler _ _ | .sigkillHandler _ _ | .sigcontHandler _ _
  | .signalhandlerUser _ _ _ => true
  | _ => false

section

variable {s : KState} {c : CpuId} {e : Env} {f g k : Frame} {me : ThreadRef} {below : List Frame}
  {v : KView}

theorem Frame.shielded_handles (h : f.shielded = true) : f.handles = true := by
  unfold shielded at h
  split at h <;> first | rfl | cases h

theorem Frame.handles_ctorIdx (f : Frame) : f.handles = [8, 10, 11, 12, 14].contains f.ctorIdx := by
  cases f <;> rfl

theorem Frame.not_shielded (h : f.handles = false) : f.shielded = false := by
  by_contra hne
  cases h.symm.trans (shielded_handles (eq_true_of_ne_false hne))

theorem Follows.not_shielded (h : Follows f k) (hf : f.handles = false) : k.shielded = false := by
  cases h with
  | same h =>
    refine Frame.not_shielded ?_
    rw [Frame.handles_ctorIdx, h, ← Frame.handles_ctorIdx, hf]
  | _ => rfl

theorem entry_not_shielded (hentry : g.entry = true) (hadj : k.awaits g.fn)
    (hk : k.shielded = false) : g.shielded = false := by
  by_contra hne
  have hfn : g.fn = .signalHandler ∨ g.fn = .handler := by
    have hg := eq_true_of_ne_false hne
    unfold shielded at hg
    split at hg
    case h_3 => cases hentry
    case h_4 => exact .inl rfl
    case h_5 | h_6 | h_7 => exact .inr rfl
    all_goals cases hg
  rcases hfn with hfn | hfn
  · rw [hfn] at hadj
    obtain ⟨me, rfl⟩ := awaits_signalHandler hadj
    cases hk
  rw [hfn] at hadj
  obtain ⟨me, i, rfl⟩ := awaits_handler hadj
  cases hk

theorem masks_other (h : locking.Locked s) (hr : s.Runs c f below) (hf : f.handles = false) :
    (kernel.code (s.view c e) f).Masks Frame.shielded (s.regs c) f := by
  have hok := (h.cpu c).instrOk (i := e) kernel_disciplined hr rfl
  have heff : Effect s.mem f (kernel.code (s.view c e) f) := code_effect (s.view c e) f
  have hfs := not_shielded hf
  have hgo : ∀ {k : Frame}, Follows f k → k.shielded = f.shielded := fun hk =>
    (hk.not_shielded hf).trans hfs.symm
  cases hx : kernel.code (s.view c e) f with
  | goto k | act a k | acquire l k | release l k =>
    rw [hx] at hok
    exact hgo hok.1.follows
  | spawn a t g k =>
    rw [hx] at hok heff
    refine ⟨?_, hgo hok.1.follows⟩
    cases heff <;> rfl
  | call g k =>
    rw [hx] at hok
    obtain ⟨hst, -, -, hentry, hadj, hisr, -⟩ := hok
    have hk := hgo hst.follows
    exact ⟨(entry_not_shielded hentry (hadj.resolve_left hisr) (hk.trans hfs)).trans hfs.symm, hk⟩
  | giveup k | setIntena b k =>
    rw [hx] at hok
    exact ⟨hfs, hok.1.follows.not_shielded hf⟩
  | dispatch a t k =>
    rw [hx] at hok
    exact ⟨hfs, hok.2.1.follows.not_shielded hf⟩
  | setIntr b k =>
    rw [hx] at hok
    exact ⟨hfs, fun hk => nomatch (hok.1.follows.not_shielded hf).symm.trans hk⟩
  | iret => exact hfs
  | ret | userret | panic => trivial

theorem masks_usertrapret {pc : UsertrapretPc} (h : locking.Locked s)
    (hr : s.Runs c (.usertrapret me pc) below) :
    (usertrapretCode (s.view c e) me pc).Masks Frame.shielded (s.regs c) (.usertrapret me pc) := by
  cases pc with
  | copy =>
    simp only [usertrapretCode]
    split
    · trivial
    · split
      · trivial
      · rfl
  | intrOff =>
    -- `usertrapret` is at the bottom of its stack, so no lock is held
    have hwf := (h.cpu c).stack.wf
    have hnoff := (h.cpu c).noff
    rw [hr.active] at hwf hnoff
    have hquiet : locking.quiet (.usertrapret me .intrOff) := ⟨by rintro _ ⟨⟩, by rintro ⟨⟩⟩
    rw [Discipline.total_cons, hwf.quiet hquiet] at hnoff
    exact ⟨rfl, fun _ => ⟨rfl, hnoff⟩⟩
  | signal => exact ⟨rfl, rfl⟩
  | setup | handled => rfl
  | ret => trivial

theorem masks_signalHandler {pc : SignalHandlerPc} {r : Regs} :
    (signalHandlerCode v me pc).Masks Frame.shielded r (.signalHandler me pc) := by
  cases pc with
  | start | next i =>
    simp only [signalHandlerCode]
    split <;> rfl
  | loop i =>
    simp only [signalHandlerCode]
    split
    · next hd =>
      -- the one handler that gives up the cpu is never called
      obtain rfl := sigDeliverable_zero hd
      split
      · rfl
      · exact ⟨rfl, rfl⟩
      · exact ⟨rfl, rfl⟩
      · next ha => exact absurd ha sigActionOf_zero.2
      · exact ⟨rfl, rfl⟩
    · rfl
  | done => trivial

theorem masks_handler {r : Regs} (hf : f.handles = true) (hfn : f.fn = .handler) :
    (code v f).Masks Frame.shielded r f := by
  cases f with
  | sigkillHandler me pc =>
    cases pc with
    | releaseT k =>
      show shielded _ = _
      split <;> rfl
    | done => trivial
    | _ => rfl
  | sigcontHandler me pc =>
    cases pc with
    | start =>
      simp only [code, sigcontHandlerCode]
      split
      · rfl
      · trivial
    | done => trivial
    | _ => rfl
  | signalhandlerUser me n pc =>
    cases pc with
    | deliver =>
      simp only [code, signalhandlerUserCode]
      split
      · trivial
      · rfl
    | done => trivial
    | _ => rfl
  | usertrapret | signalHandler => cases hfn
  | _ => cases hf

theorem kernel_masks (h : locking.Locked s) : Masks kernel Frame.shielded s c e where
  code := fun f below hr => by
    cases f with
    | usertrapret me pc => exact masks_usertrapret h hr
    | signalHandler me pc => exact masks_signalHandler
    | sigkillHandler | sigcontHandler | signalhandlerUser => exact masks_handler (v := s.view c e) rfl rfl
    | _ => exact masks_other h hr rfl
  resume := fun k v => by
    show (resumeFrame k v).shielded = k.shielded
    unfold resumeFrame
    split <;> rfl
  trap := fun m t a f ht => by
    obtain ⟨cause, regs, rfl, rfl⟩ := trapEntry_some ht
    rfl
  irq := fun o g hq => by
    obtain ⟨cause, -, rfl⟩ := Option.map_eq_some_iff.1 hq
    rfl

end

theorem boot_masked (g : Pages) (um : UserMem) : Masked Frame.shielded (boot g um) where
  off := fun c f below hact hf => by
    cases show [Frame.scheduler .top] = f :: below from hact
    cases hf
  active := fun c => .of_outside (by simp)
  home := by simp [boot]
  ctx := fun t => by
    simp only [boot, Function.update_apply]
    split <;> simp [Frame.shielded]

/-- **Signals are handled with interrupts off**, in every run. -/
theorem run_masked (g : Pages) (um : UserMem) (tr : List (CpuId × Env)) :
    Masked Frame.shielded (run kernel (boot g um) tr) :=
  (run_invariant (fun s => locking.Locked s ∧ Masked shielded s)
    ⟨boot_locked g um, boot_masked g um⟩ fun _ _ _ h =>
      ⟨h.1.step kernel_disciplined exec_step, h.2.step (kernel_masks h.1) exec_step⟩).2

/-! ## One call of `signal_handler` -/

/-- The thread for which cpu `c` is about to enter `signal_handler`. -/
def entersHandler (s : KState) (c : CpuId) : Option ThreadRef :=
  match s.top c with
  | some (.signalHandler me .start) => some me
  | _ => none

/-- The thread for which cpu `c` is about to return from `signal_handler`. -/
def leavesHandler (s : KState) (c : CpuId) : Option ThreadRef :=
  match s.top c with
  | some (.signalHandler me .done) => some me
  | _ => none

/-- The thread for which cpu `c` is about to execute `p->killed = 1` in `sigkill_handler`. -/
def setsKilled (s : KState) (c : CpuId) : Option ThreadRef :=
  match s.top c with
  | some (.sigkillHandler me .kill) => some me
  | _ => none

/-- What the test of `signal_handler` has to find for a kill to get through: signal 0 is pending,
    not blocked, and has the default handler. -/
def killable (p : Proc) : Bool :=
  p.pendingsignals &&& sigBit 0 ≠ 0 && p.signalmask &&& sigBit 0 = 0 && p.signalhandlers 0 = SIG_DFL

/-- A call of `signal_handler` on cpu `c0`: whether everything it has looked at so far lets the kill
    through, and whether it has set `p->killed`. -/
@[simp] def verdict (c0 : CpuId) (s : KState) (c : CpuId) (_ : Env) (h : Bool × Bool) : Bool × Bool :=
  if c = c0 then
    match s.top c with
    | some (.signalHandler me .start) => (h.1 && !(s.mem.procs me.p).handlingSignal, h.2)
    | some (.signalHandler me (.loop i)) => (h.1 && (i ≠ 0 || killable (s.mem.procs me.p)), h.2)
    | some (.sigkillHandler _ .kill) => (h.1, true)
    | _ => h
  else h

/-- Where a call of `signal_handler` for `me` is, with the verdict so far. -/
inductive Handling (me : ThreadRef) (below : List Frame) : List Frame → Bool × Bool → Prop where
  | start : Handling me below (.signalHandler me .start :: below) (true, false)
  | loop : Handling me below (.signalHandler me (.loop 0) :: below) (true, false)
  | before (pc : SigkillPc) (hpc : pc = .acquire ∨ pc = .kill) :
      Handling me below (.sigkillHandler me pc :: .signalHandler me (.next 0) :: below) (true, false)
  | after (pc : SigkillPc) (hpc : pc ≠ .acquire ∧ pc ≠ .kill) :
      Handling me below (.sigkillHandler me pc :: .signalHandler me (.next 0) :: below) (true, true)
  | user (pc : SigUserPc) :
      Handling me below (.signalhandlerUser me 0 pc :: .signalHandler me (.next 0) :: below)
        (false, false)
  | rest (pc : SignalHandlerPc) (hpc : pc ≠ .start ∧ pc ≠ .loop 0) (b : Bool) :
      Handling me below (.signalHandler me pc :: below) (b, b)

section

variable {s : KState} {c : CpuId} {e : Env} {me : ThreadRef} {below st : List Frame} {b : Bool × Bool}
  {f k : Frame}

theorem killable_iff {x : Proc} :
    killable x = true ↔ sigDeliverable x 0 = true ∧ sigActionOf x 0 = .sigkill := by
  have hbit : sigBit 0 = 1#32 := by decide
  have hact : sigActionOf x 0 = .sigkill ↔ x.signalhandlers 0 = SIG_DFL := by
    unfold sigActionOf
    by_cases hi : x.signalhandlers 0 = SIG_IGN
    · simp [hi, SIG_IGN, SIG_DFL]
    rw [if_neg hi, if_neg (show (0 : Fin NUMOFSIGNALS) ≠ SIGKILL by decide),
      if_neg (show (0 : Fin NUMOFSIGNALS) ≠ SIGCONT by decide),
      if_neg (show (0 : Fin NUMOFSIGNALS) ≠ SIGSTOP by decide)]
    by_cases hd : x.signalhandlers 0 = SIG_DFL
    · simp [hd]
    · simp [hd]
  have hmask : sigDeliverable x 0 = true ↔
      x.pendingsignals &&& sigBit 0 ≠ 0 ∧ x.signalmask &&& sigBit 0 = 0 := by
    simp only [sigDeliverable, decide_eq_true_eq]
    split
    · next h0 => rw [hbit, BitVec.and_assoc, BitVec.and_self, ← hbit, and_iff_left h0]
    next h0 =>
    rw [BitVec.and_zero]
    exact ⟨fun h => absurd rfl h, fun h => absurd h.2 h0⟩
  rw [hact, hmask]
  simp [killable]

theorem handling_next (hl : locking.Locked s) (hf : f.shielded = true) (hr : s.Runs c f below)
    (hoff : (s.regs c).intr = false) (hk : (code (s.view c e) f).next = some k) :
    (exec kernel s c e).active c = f :: below ∨ (exec kernel s c e).active c = k :: below := by
  rw [exec_intr_off hr hoff, ← hr.active]
  refine execInstr_next below hk fun k' hg => ?_
  have hmask := (kernel_masks (e := e) hl).code f below hr
  rw [hg] at hmask
  cases hf.symm.trans hmask.1

theorem handling_start (hr : s.Runs c (.signalHandler me .start) below)
    (hoff : (s.regs c).intr = false) :
    Handling me below ((exec kernel s c e).active c) (verdict c s c e (true, false)) := by
  have hv : verdict c s c e (true, false) = (!(s.mem.procs me.p).handlingSignal, false) := by
    simp [hr.top]
  rw [hv, exec_intr_off hr hoff]
  show Handling me below ((execInstr kernel s c below
    (if (s.mem.procs me.p).handlingSignal then _ else _)).active c) _
  split
  · next hs =>
    rw [execInstr_goto, hs]
    exact .rest .done ⟨nofun, nofun⟩ false
  next hs =>
  rw [execInstr_goto, Bool.eq_false_iff.2 hs]
  exact .loop

theorem handling_loop (hr : s.Runs c (.signalHandler me (.loop 0)) below)
    (hoff : (s.regs c).intr = false) :
    Handling me below ((exec kernel s c e).active c) (verdict c s c e (true, false)) := by
  have hv : verdict c s c e (true, false) = (killable (s.mem.procs me.p), false) := by
    simp [hr.top]
  rw [hv, exec_intr_off hr hoff]
  show Handling me below ((execInstr kernel s c below
    (signalHandlerCode (s.view c e) me (.loop 0))).active c) _
  cases hk : killable (s.mem.procs me.p) with
  | true =>
    obtain ⟨hd, ha⟩ := killable_iff.1 hk
    have hcode : signalHandlerCode (s.view c e) me (.loop 0) =
        .call (.sigkillHandler me .acquire) (.signalHandler me (.next 0)) := by
      simp [signalHandlerCode, view, hd, ha]
    rw [hcode, execInstr_call]
    exact .before .acquire (.inl rfl)
  | false =>
    have hnot := mt killable_iff.2 (Bool.eq_false_iff.1 hk)
    simp only [signalHandlerCode]
    split
    · next hd =>
      split
      · rw [execInstr_goto]
        exact .rest (.next 0) (by simp) false
      · next ha => exact absurd ⟨hd, ha⟩ hnot
      · next ha => exact absurd ha sigActionOf_zero.1
      · next ha => exact absurd ha sigActionOf_zero.2
      · rw [execInstr_call]
        exact .user .acquire
    · rw [execInstr_goto]
      exact .rest .done (by simp) false

theorem handling_rest {pc : SignalHandlerPc} {b : Bool} (hr : s.Runs c (.signalHandler me pc) below)
    (hoff : (s.regs c).intr = false) (hpc : pc ≠ .start ∧ pc ≠ .loop 0) (hdone : pc ≠ .done) :
    Handling me below ((exec kernel s c e).active c) (verdict c s c e (b, b)) := by
  rw [exec_intr_off hr hoff]
  show Handling me below ((execInstr kernel s c below
    (signalHandlerCode (s.view c e) me pc)).active c) _
  cases pc with
  | start => exact absurd rfl hpc.1
  | loop i =>
    have hi : i ≠ 0 := fun hi => hpc.2 (by rw [hi])
    have hv : verdict c s c e (b, b) = (b, b) := by simp [hr.top, hi]
    rw [hv]
    simp only [signalHandlerCode]
    split
    · next hd => exact absurd (sigDeliverable_zero hd) hi
    · rw [execInstr_goto]
      exact .rest .done (by simp) b
  | next i =>
    have hv : verdict c s c e (b, b) = (b, b) := by simp [hr.top]
    rw [hv]
    simp only [signalHandlerCode]
    split
    · next i' hi' =>
      have hne : i' ≠ 0 := by
        unfold nextIdx at hi'
        split at hi'
        · cases hi'
          exact fun h => by cases congrArg Fin.val h
        · cases hi'
      rw [execInstr_goto]
      exact .rest (.loop i') ⟨(by simp), fun h => hne (SignalHandlerPc.loop.inj h)⟩ b
    · rw [execInstr_goto]
      exact .rest .done (by simp) b
  | done => exact absurd rfl hdone

theorem handling_sigkill {pc : SigkillPc} (hl : locking.Locked s)
    (hr : s.Runs c (.sigkillHandler me pc) (.signalHandler me (.next 0) :: below))
    (hoff : (s.regs c).intr = false)
    (h : Handling me below (.sigkillHandler me pc :: .signalHandler me (.next 0) :: below) b) :
    Handling me below ((exec kernel s c e).active c) (verdict c s c e b) := by
  cases h with
  | before _ hpc =>
    rcases hpc with rfl | rfl
    · -- the lock may have to be waited for
      have hv : verdict c s c e (true, false) = (true, false) := by simp [hr.top]
      rw [hv]
      rcases handling_next (e := e) hl rfl hr hoff rfl with hact | hact
      · rw [hact]
        exact .before .acquire (.inl rfl)
      · rw [hact]
        exact .before .kill (.inr rfl)
    have hv : verdict c s c e (true, false) = (true, true) := by simp [hr.top]
    have hact : (exec kernel s c e).active c =
        .sigkillHandler me (.acquireT 0) :: .signalHandler me (.next 0) :: below := by
      rw [exec_intr_off hr hoff]
      exact execInstr_act
    rw [hv, hact]
    exact .after (.acquireT 0) (by simp)
  | after _ hpc =>
    have hv : verdict c s c e (true, true) = (true, true) := by
      cases pc with
      | kill => exact absurd rfl hpc.2
      | _ => simp [hr.top]
    have hnext : ∀ pc' : SigkillPc, (sigkillHandlerCode me pc).next = some (.sigkillHandler me pc') →
        pc' ≠ .acquire ∧ pc' ≠ .kill →
        Handling me below ((exec kernel s c e).active c) (true, true) := by
      intro pc' hk hpc'
      rcases handling_next (e := e) hl rfl hr hoff hk with hact | hact
      · rw [hact]
        exact .after pc hpc
      · rw [hact]
        exact .after pc' hpc'
    rw [hv]
    cases pc with
    | acquire => exact absurd rfl hpc.1
    | kill => exact absurd rfl hpc.2
    | acquireT k => exact hnext (.wake k) rfl (by simp)
    | wake k => exact hnext (.releaseT k) rfl (by simp)
    | releaseT k =>
      cases hn : nextIdx k with
      | some k' =>
        exact hnext (.acquireT k') (by simp [sigkillHandlerCode, Instr.next, hn]) (by simp)
      | none => exact hnext .release (by simp [sigkillHandlerCode, Instr.next, hn]) (by simp)
    | release => exact hnext .done rfl (by simp)
    | done =>
      have hact : (exec kernel s c e).active c = .signalHandler me (.next 0) :: below := by
        rw [exec_intr_off hr hoff]
        exact execInstr_ret
      rw [hact]
      exact .rest (.next 0) (by simp) true

theorem handling_user {pc : SigUserPc} (hl : locking.Locked s)
    (hr : s.Runs c (.signalhandlerUser me 0 pc) (.signalHandler me (.next 0) :: below))
    (hoff : (s.regs c).intr = false) :
    Handling me below ((exec kernel s c e).active c) (verdict c s c e (false, false)) := by
  have hv : verdict c s c e (false, false) = (false, false) := by simp [hr.top]
  have hnext : ∀ pc' : SigUserPc, (signalhandlerUserCode (s.view c e) me 0 pc).next =
        some (.signalhandlerUser me 0 pc') →
      Handling me below ((exec kernel s c e).active c) (false, false) := by
    intro pc' hk
    rcases handling_next (e := e) hl rfl hr hoff hk with hact | hact
    · rw [hact]
      exact .user pc
    · rw [hact]
      exact .user pc'
  rw [hv]
  cases pc with
  | acquire => exact hnext .deliver rfl
  | deliver =>
    cases hx : Xv6.signalhandlerUser (s.mem.procs me.p) me.i 0 e.junk with
    | none =>
      have hcode : code (s.view c e) (.signalhandlerUser me 0 .deliver) = .panic "kerneltrap" := by
        simp [code, signalhandlerUserCode, view, hx]
      have hact : (exec kernel s c e).active c = s.active c := by
        rw [exec_intr_off hr hoff]
        exact congrArg (fun x => (execInstr kernel s c _ x).active c) hcode
      rw [hact, hr.active]
      exact .user .deliver
    | some x =>
      exact hnext .release (by simp [signalhandlerUserCode, view, hx, Instr.next])
  | release => exact hnext .done rfl
  | done =>
    have hact : (exec kernel s c e).active c = .signalHandler me (.next 0) :: below := by
      rw [exec_intr_off hr hoff]
      exact execInstr_ret
    rw [hact]
    exact .rest (.next 0) (by simp) false

theorem Handling.shielded (h : Handling me below st b) : ∃ f rest, st = f :: rest ∧ f.shielded = true := by
  cases h <;> exact ⟨_, _, rfl, rfl⟩

/-- **A step of the cpu on which `signal_handler` runs.** -/
theorem handling_step (hl : locking.Locked s) (hm : Masked Frame.shielded s)
    (h : Handling me below (s.active c) b) (hleft : leavesHandler s c = none) :
    Handling me below ((exec kernel s c e).active c) (verdict c s c e b) := by
  cases hh : s.halted c with
  | some msg =>
    rw [exec_halted hh]
    simpa [top, hh] using h
  | none =>
    obtain ⟨f, rest, hact, hf⟩ := h.shielded
    have hoff := (hm.off c f rest hact hf).intr
    have hr : s.Runs c f rest := ⟨hh, hact⟩
    rw [hact] at h
    cases h with
    | start => exact handling_start hr hoff
    | loop => exact handling_loop hr hoff
    | before pc hpc => exact handling_sigkill hl hr hoff (.before pc hpc)
    | after pc hpc => exact handling_sigkill hl hr hoff (.after pc hpc)
    | user pc => exact handling_user hl hr hoff
    | rest pc hpc b =>
      refine handling_rest hr hoff hpc ?_
      rintro rfl
      simp [leavesHandler, hr.top] at hleft

/-! ## Sending SIGKILL -/

/-- The step neither delivers a signal of process `p` to a user handler nor makes another process of
    `p`. -/
def keepsSignals (p : PIdx) (s : KState) (c : CpuId) : Bool :=
  match s.top c with
  | some (.signalhandlerUser me _ .deliver) => me.p ≠ p
  | some (.fork _ (.found j)) => j ≠ p
  | some (.fork _ (.copy j)) => j ≠ p
  | _ => true

/-- Cpu `c` is in `sigstop_handler`. -/
def stops (s : KState) (c : CpuId) : Bool :=
  match s.top c with
  | some (.sigstopHandler _ _) => true
  | _ => false

variable {p : PIdx}

theorem pending_stays {i : Fin NUMOFSIGNALS} (hz : SignalZero s) (hk : keepsSignals p s c = true)
    (h : (s.mem.procs p).pendingsignals &&& sigBit i ≠ 0) :
    ((exec kernel s c e).mem.procs p).pendingsignals &&& sigBit i ≠ 0 := by
  rw [and_sigBit] at h ⊢
  cases pending_of_step (e := e) exec_step p with
  | same heq => rw [heq, h]
  | reset me pc below hr hpc =>
    rcases hpc with rfl | rfl <;> simp [keepsSignals, hr.top] at hk
  | kill pid signum below hr _ _ heq => rw [heq, BitVec.getLsbD_or, h, Bool.true_or]
  | deliver me n below hr hp => simp [keepsSignals, hr.top, hp] at hk
  | cont me below hr | thaw me below hr => cases (hz.top hr).1

theorem setsKilled_killed (hl : locking.Locked s) (h : setsKilled s c = some me) :
    ((exec kernel s c e).mem.procs me.p).killed = true := by
  unfold setsKilled at h
  split at h
  · next me' htop =>
    obtain rfl := Option.some.inj h
    obtain ⟨below, hr⟩ := runs_of_top htop
    have hmem : (exec kernel s c e).mem = (Act.sigkill me').apply s.mem := by
      rw [exec_locked hl hr (by simp)]
      rfl
    rw [hmem]
    simp [Act.apply, Mem.modThread, Proc.modThread]
  · cases h

theorem entersHandler_runs (h : entersHandler s c = some me) :
    ∃ below, s.Runs c (.signalHandler me .start) below := by
  unfold entersHandler at h
  split at h
  · next htop =>
    cases h
    exact runs_of_top htop
  · cases h

/-- When `signal_handler` returns, it has set `p->killed` exactly if all its tests came out so. -/
theorem Handling.left (h : Handling me below (s.active c) b)
    (hleft : leavesHandler s c = some me) : b.2 = b.1 := by
  unfold leavesHandler at hleft
  split at hleft
  · next htop =>
    obtain ⟨rest, hr⟩ := runs_of_top htop
    rw [hr.active] at h
    cases h
    rfl
  · cases hleft

/-- **A whole call of `signal_handler`.** -/
theorem handling_run {c0 : CpuId} {tr : List (CpuId × Env)} (hl : locking.Locked s)
    (hm : Masked Frame.shielded s) (henter : entersHandler s c0 = some me)
    (htr : AlongHistory kernel (verdict c0) (fun s _ _ _ => leavesHandler s c0 = none) s
      (true, false) tr) (hleft : leavesHandler (run kernel s tr) c0 = some me) :
    (history kernel (verdict c0) s (true, false) tr).2 =
      (history kernel (verdict c0) s (true, false) tr).1 := by
  obtain ⟨below, hr⟩ := entersHandler_runs henter
  have hstart : Handling me below (s.active c0) (true, false) := by
    rw [hr.active]
    exact .start
  obtain ⟨-, -, hend⟩ := htr.invariant (fun s b => locking.Locked s ∧ Masked shielded s ∧
    Handling me below (s.active c0) b) ⟨hl, hm, hstart⟩ fun s c e b hnot ⟨hl, hm, h⟩ => by
      refine ⟨hl.step kernel_disciplined exec_step, hm.step (kernel_masks hl) exec_step, ?_⟩
      by_cases hc : c = c0
      · subst hc
        exact handling_step hl hm h hnot
      have hsame := (exec_step (P := kernel) (s := s) (c := c) (i := e)).other (Ne.symm hc)
      rw [hsame.active]
      simpa [hc] using h
  exact hend.left hleft

end

/-- **What becomes of a SIGKILL.** When `kill(pid, SIGKILL)` has succeeded, signal 0 is pending and
    stays so, unless a thread that was about to deliver it to a user handler does. A call of
    `signal_handler` by a thread of the process then sets `p->killed` exactly if it finds no signal
    being handled, and signal 0 pending, not blocked and with the default handler. No thread is ever
    stopped in `sigstop_handler`. -/
theorem sigkill_heeded_iff (g : Pages) (um : UserMem) (tr : List (CpuId × Env)) (c0 : CpuId) (e0 : Env)
    (p : PIdx)
    (hs : sends (run kernel (boot g um) tr) c0 = some (p, BitVec.ofNat 32 SIGKILL.val)) :
    let s := exec kernel (run kernel (boot g um) tr) c0 e0
    (∀ tr1, Along kernel (fun s c _ => keepsSignals p s c = true) s tr1 →
      ((run kernel s tr1).mem.procs p).pendingsignals &&& sigBit 0 ≠ 0) ∧
    (∀ tr1 tr2 c me, entersHandler (run kernel s tr1) c = some me → me.p = p →
      AlongHistory kernel (verdict c) (fun s _ _ _ => leavesHandler s c = none) (run kernel s tr1)
        (true, false) tr2 →
      leavesHandler (run kernel (run kernel s tr1) tr2) c = some me →
      let h := history kernel (verdict c) (run kernel s tr1) (true, false) tr2
      h.2 = h.1) ∧
    (∀ tr1 c e me, setsKilled (run kernel s tr1) c = some me →
      ((exec kernel (run kernel s tr1) c e).mem.procs me.p).killed = true) ∧
    ∀ tr1 c, stops (run kernel s tr1) c = false := by
  intro s
  -- every state from here on is one of a run from boot
  have hrun : ∀ tr1, run kernel s tr1 = run kernel (boot g um) (tr ++ (c0, e0) :: tr1) := by
    intro tr1
    rw [run_append]
    rfl
  have hl : ∀ tr1, locking.Locked (run kernel s tr1) := fun tr1 => hrun tr1 ▸ run_locked g um _
  have hz : ∀ tr1, SignalZero (run kernel s tr1) := fun tr1 => hrun tr1 ▸ run_signalZero g um _
  refine ⟨fun tr1 hkeep => ?_, fun tr1 tr2 c me henter _ htr hleft => ?_, fun tr1 c e me h => ?_,
    fun tr1 c => ?_⟩
  · have hpend : (s.mem.procs p).pendingsignals &&& sigBit 0 ≠ 0 := by
      have h9 : (BitVec.ofNat 32 SIGKILL.val).getLsbD (0 : Fin NUMOFSIGNALS).val = true := by decide
      rw [and_sigBit, (send_pending (e := e0) (run_locked g um tr) hs).1, BitVec.getLsbD_or, h9, Bool.or_true]
    obtain ⟨-, -, hend⟩ := hkeep.invariant (fun s => locking.Locked s ∧ SignalZero s ∧
      (s.mem.procs p).pendingsignals &&& sigBit 0 ≠ 0) ⟨hl [], hz [], hpend⟩
      fun s' c e hk ⟨hl, hz, h⟩ => ⟨hl.step kernel_disciplined exec_step,
        hz.step (signalZero_introduces hl) exec_step, pending_stays hz hk h⟩
    exact hend
  · exact handling_run (hl tr1) (hrun tr1 ▸ run_masked g um _) henter htr hleft
  · exact setsKilled_killed (hl tr1) h
  unfold stops
  split
  · next htop =>
    obtain ⟨below, hr⟩ := runs_of_top htop
    cases ((hz tr1).top hr).1
  · rfl

/-- The first process kills itself, with the default handlers and nothing blocked. -/
theorem sigkill_heeded_first :
    let s := exec kernel (run kernel (boot firstPages fun _ => none)
      (steps 0 14 ++ ecall 0 6 1 9 :: steps 0 5)) 0 {}
    let h := history kernel (verdict 0) (run kernel s (steps 0 9)) (true, false) (steps 0 32)
    h.1 = true ∧ h.2 = h.1 := by
  obtain ⟨-, hcall, -⟩ := sigkill_heeded_iff firstPages (fun _ => none)
    (steps 0 14 ++ ecall 0 6 1 9 :: steps 0 5) 0 {} 0 (by decide +kernel)
  exact ⟨by decide +kernel, hcall (steps 0 9) (steps 0 32) 0 ⟨0, 0⟩ (by decide +kernel) rfl
    (by decide +kernel) (by decide +kernel)⟩

/-- The first process blocks signal 0 and then kills itself: `kill` succeeds, `signal_handler` runs,
    and the process is back in user mode and not killed. -/
theorem sigkill_blocked :
    let s := run kernel (boot firstPages fun _ => none)
      (steps 0 14 ++ ecall 0 22 1 0 :: steps 0 20 ++ ecall 0 6 1 9 :: steps 0 5)
    sends s 0 = some (0, BitVec.ofNat 32 SIGKILL.val) ∧
      entersHandler (run kernel s (steps 0 10)) 0 = some ⟨0, 0⟩ ∧
      leavesHandler (run kernel s (steps 0 12)) 0 = some ⟨0, 0⟩ ∧
      ((run kernel s (steps 0 15)).active 0).isEmpty = true ∧
      ((run kernel s (steps 0 15)).mem.procs 0).killed = false := by
  decide +kernel

end Xv6
