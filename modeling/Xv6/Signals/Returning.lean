import Xv6.Signals.Actions
import Xv6.Threads.Resting

set_option autoImplicit false

/-! # Returning from a signal handler

`usertrapret` copies the registers of the thread to `user_trap_frame_backup` before it looks for
signals, delivery to a user handler then changes them, and `sigret` copies them back. There is one
such page for a process, and every return to user mode of any of its threads overwrites it; and
after `sigret` has restored the registers, `syscall` stores its return value in `a0`. This module
says what the thread has in its registers in the end, and when that is what it had before the
delivery. -/

namespace Xv6

open Function Machine Option

/-! ## Who changes the registers of a thread -/

/-- The thread whose registers a frame changes with its next instruction. -/
def Frame.setsRegs : Frame → Option ThreadRef
  | .usertrap me .skip | .usertrap me (.retval _) | .signalhandlerUser me _ .deliver
  | .sigret me .body | .exec me .commit => some me
  | _ => none

/-- The ways in which a step of cpu `c` can change the registers of thread `t`. -/
inductive RegsMove (s : KState) (c : CpuId) (s' : KState) (t : ThreadRef) : Prop where
  | same (h : (s'.mem.procs t.p).frames t.i = (s.mem.procs t.p).frames t.i)
  | trap (hact : s.active c = []) (hcur : s.cur c = some t)
  | own (f : Frame) (below : List Frame) (hr : s.Runs c f below) (hf : f.setsRegs = some t)
  | copy (me : ThreadRef) (below : List Frame) (hr : s.Runs c (.fork me (.copy t.p)) below)
  | create (h : (s.mem.thread t).state = .unused)

section

variable {s s' : KState} {c : CpuId} {e : Env} {t me : ThreadRef} {p : PIdx} {m : Mem}
  {b : Frame} {below rest st : List Frame}

theorem allocproc_frames (g : Pages) : ((Xv6.allocproc m p g).procs p).frames = (m.procs p).frames := by
  unfold Xv6.allocproc
  repeat' split
  all_goals simp [Mem.modThread, allocprocInit, Proc.modThread, Xv6.freeproc]

variable {i : TIdx} {junk : Junk} {n : Fin NUMOFSIGNALS} {x y : Proc} {f : Frame} {r : Int}

theorem signalhandlerUser_frames
    (h : signalhandlerUser x i n junk = some y) : ∃ tf, y.frames = update x.frames i tf := by
  unfold signalhandlerUser at h
  simp only at h
  split at h
  · cases h
  · cases h
    exact ⟨_, rfl⟩

theorem access_regs {k : Frame} {a : ProcAct} (ha : Unseen m f (.proc p a) k) :
    (a.apply (m.procs p)).frames = (m.procs p).frames ∨
      ∃ u tf, f.setsRegs = some u ∧ u.p = p ∧
        (a.apply (m.procs p)).frames = update (m.procs p).frames u.i tf := by
  cases ha with
  | skip me | retval me | sigret me | execCommit me => exact .inr ⟨me, _, rfl, rfl, rfl⟩
  | deliver me n junk x hx =>
    obtain ⟨tf, htf⟩ := signalhandlerUser_frames hx
    refine .inr ⟨me, tf, rfl, rfl, ?_⟩
    simp only [ProcAct.apply, hx, getD_some]
    exact htf
  | sigaction me signum act oldact pad k =>
    obtain ⟨handlers, hs⟩ := sigaction_signals (m.procs me.p) signum act oldact pad
    exact .inl (congrArg SigView.frames hs)
  | _ => exact .inl rfl

/-- **Every step changes the registers of a thread in one of the ways listed.** -/
theorem regs_of_step (hstep : Step kernel s c e s') (t : ThreadRef) : RegsMove s c s' t := by
  -- another thread of the process has its own registers
  have hother : ∀ {u : ThreadRef} {x : Trapframe}, u.p = t.p → u ≠ t →
      update (s.mem.procs t.p).frames u.i x t.i = (s.mem.procs t.p).frames t.i := by
    intro u x hp hne
    refine update_of_ne (fun hi => hne ?_) _ _
    obtain ⟨up, ui⟩ := u
    obtain ⟨tp, ti⟩ := t
    simp only at hp hi
    rw [hp, hi]
  cases sig_of_step hstep t.p with
  | same h | sigkill me below hr hp h => exact .same (congrFun (congrArg SigView.frames h) _)
  | trap u regs stores hu hact hcur h =>
    by_cases hut : u = t
    · subst hut
      exact .trap hact hcur
    refine .same ?_
    rw [h]
    exact hother hu hut
  | alloc me below hr g h =>
    refine .same ?_
    rw [h]
    exact congrFun (allocproc_frames g) _
  | copy me below hr h => exact .copy me below hr
  | uncopy me below hr h | reap me addr pid below hr h =>
    refine .same ?_
    rw [h]
    simp [Act.apply, Xv6.freeproc]
  | create me fn stack k below hr hp hk tf h =>
    by_cases hki : k = t.i
    · subst hki
      exact .create (firstUnused_spec hk).unused
    · refine .same ((congrFun (congrArg SigView.frames h) _).trans ?_)
      exact update_of_ne (Ne.symm hki) _ _
  | access f k a below hr ha hact hcur h =>
    rcases access_regs ha with hsame | ⟨u, tf, hf, hu, hframes⟩
    · refine .same ?_
      rw [h]
      exact congrFun hsame _
    by_cases hut : u = t
    · subst hut
      exact .own f below hr hf
    refine .same ?_
    rw [h, hframes]
    exact hother hu hut

theorem Frame.setsRegs_own (h : f.setsRegs = some t) :
    f.fn.resting = false ∧ f.doomed = false ∧ ∀ o, f.mine o → o = some t := by
  unfold Frame.setsRegs at h
  split at h
  all_goals first
    | (obtain rfl := some.inj h; exact ⟨rfl, rfl, fun _ hm => hm⟩)
    | exact absurd h (by simp)

/-- The registers of a thread change only in a step of its own: when it traps, and by the
    instruction on top of its stack. -/
theorem Core.regs_own (h : Core s) (hstep : Step kernel s c e s') (hv : Valid s t st) :
    (s'.mem.procs t.p).frames t.i = (s.mem.procs t.p).frames t.i ∨ On s c t ∧
      (st = [] ∨ ∃ f below, st = f :: below ∧ s.Runs c f below ∧ f.setsRegs = some t) := by
  have hstarted := hv.started h
  cases regs_of_step hstep t with
  | same heq => exact .inl heq
  | trap hact hcur =>
    have hon : On s c t := ⟨hcur, by rw [hact]; rfl⟩
    exact .inr ⟨hon, .inl ((h.valid_unique hv (.on c hon)).trans hact)⟩
  | own f below hr hf =>
    obtain ⟨-, hd, hmine⟩ := Frame.setsRegs_own hf
    have hon : On s c t := .ofTop hr.active (hmine _ (h.mine hr.active)) hd
    exact .inr ⟨hon, .inr ⟨f, below, (h.valid_unique hv (.on c hon)).trans hr.active, hr, hf⟩⟩
  | copy me below hr =>
    have hon : On s c me := .ofTop hr.active (h.mine hr.active) rfl
    refine absurd ⟨me, .fork me (.copy t.p), hon, ?_, rfl⟩ (h.owned_not_started hstarted.1 hstarted.2)
    rw [hr.active]
    exact List.mem_cons_self ..
  | create hu => exact absurd hu hstarted.1

/-- The registers of a thread stay as they are while it is at some point of its code, unless it is
    the instruction there that changes them. -/
theorem Core.regs_kept (h : Core s) (hstep : Step kernel s c e s') (hb : b.Calm) (hat : At s t b rest)
    (hown : s.Runs c b rest → b.setsRegs = some t → s'.mem = s.mem) :
    (s'.mem.procs t.p).frames t.i = (s.mem.procs t.p).frames t.i := by
  obtain ⟨pre, hv⟩ := hat.stack
  rcases h.regs_own hstep hv with heq | ⟨-, hnil | ⟨f, below, hst, hr, hf⟩⟩
  · exact heq
  · exact absurd hnil (by simp)
  cases pre with
  | nil =>
    cases hst
    rw [hown hr hf]
  | cons g pre =>
    -- the functions above the point leave the registers alone
    obtain ⟨rfl, -⟩ := List.cons.inj hst
    exact nomatch (Frame.setsRegs_own hf).1.symm.trans
      (resting_above hb (hv.wf h) g (List.mem_cons_self ..))

/-! ## From `sigret` to the end of the system call -/

/-- An interrupt comes before the next instruction of cpu `c`. -/
def takesIrq (s : KState) (c : CpuId) (e : Env) : Bool := (s.regs c).intr && e.irq.isSome

theorem exec_interrupted (hr : s.Runs c f rest) (h : takesIrq s c e = true) :
    ∃ timer, exec kernel s c e = s.flag c false (.kerneltrap (s.cur c) (.start timer) :: f :: rest) := by
  obtain ⟨hi, hq⟩ := Bool.and_eq_true_iff.1 h
  obtain ⟨cause, hcause⟩ := isSome_iff_exists.1 hq
  exact ⟨cause = .timer, by simp [exec, hr.halted, hr.active, hi, kernel, irqEntry, hcause]⟩

theorem exec_uninterrupted (hr : s.Runs c f rest) (h : takesIrq s c e = false) :
    exec kernel s c e = execInstr kernel s c rest (code (s.view c e) f) := by
  rcases Bool.and_eq_false_iff.1 h with hi | hq
  · exact exec_intr_off hr hi
  · exact exec_no_irq hr (by simpa [kernel, irqEntry] using hq)

/-- The thread whose return value `syscall` stores in the next step of cpu `c`. -/
def storesResult (s : KState) (c : CpuId) (e : Env) : Option ThreadRef :=
  match s.top c with
  | some (.usertrap me (.retval _)) => if takesIrq s c e then none else some me
  | _ => none

/-- Thread `me` is past the body of `sigret`, on the way to its return value. -/
inductive Restoring (s : KState) (me : ThreadRef) : Prop where
  | release (h : At s me (.sigret me (.release 0)) [.usertrap me .returned])
  | done (h : At s me (.sigret me (.done 0)) [.usertrap me .returned])
  | stored (h : At s me (.usertrap me (.retval 0)) [])

theorem sigret_calm {pc : SigSysPc} : (Frame.sigret me pc).Calm :=
  ⟨fun _ hx => (nomatch hx), rfl⟩

theorem retval_calm : (Frame.usertrap me (.retval r)).Calm :=
  ⟨fun _ hx => (nomatch hx), rfl⟩

theorem stores_interrupted (hr : s.Runs c (.usertrap me (.retval r)) rest)
    (hnot : storesResult s c e ≠ some me) : (exec kernel s c e).mem = s.mem ∧
      exec kernel s c e ≠ execInstr kernel s c rest (code (s.view c e) (.usertrap me (.retval r))) := by
  have hirq : takesIrq s c e = true := by
    by_contra hno
    exact hnot (by simp [storesResult, hr.top, hno])
  obtain ⟨timer, hexec⟩ := exec_interrupted hr hirq
  refine ⟨by rw [hexec]; rfl, fun heq => ?_⟩
  have hact := congrArg (fun s => State.active s c) (hexec.symm.trans heq)
  have hleft : ∀ st, (s.flag c false st).active c = st := fun st => update_self ..
  simp only [hleft] at hact
  cases hact.trans execInstr_act

theorem Core.restoring_step (h : Core s) (hadv : Advances s c (exec kernel s c e))
    (hst : Restoring s me) (hnot : storesResult s c e ≠ some me) :
    Restoring (exec kernel s c e) me ∧
      ((exec kernel s c e).mem.procs me.p).frames me.i = (s.mem.procs me.p).frames me.i := by
  cases hst with
  | release hat =>
    refine ⟨?_, h.regs_kept exec_step sigret_calm hat fun _ => nofun⟩
    rcases h.at_step hadv exec_step sigret_calm hat with hat' | ⟨hr, hcur, hs⟩
    · exact .release hat'
    rcases hadv.core.at_next hr hcur hs rfl nofun rfl rfl with hat' | hat'
    · exact .release hat'
    · exact .done hat'
  | done hat =>
    refine ⟨?_, h.regs_kept exec_step sigret_calm hat fun _ => nofun⟩
    rcases h.at_step hadv exec_step sigret_calm hat with hat' | ⟨hr, hcur, hs⟩
    · exact .done hat'
    · exact .stored (hadv.core.at_ret hcur hs rfl)
  | stored hat =>
    refine ⟨?_, h.regs_kept exec_step retval_calm hat fun hr _ => (stores_interrupted hr hnot).1⟩
    rcases h.at_step hadv exec_step retval_calm hat with hat' | ⟨hr, hcur, hs⟩
    · exact .stored hat'
    · exact absurd hs (stores_interrupted hr hnot).2

/-! ## Delivery and return -/

/-- The thread to whose user handler a signal is delivered in the next step of cpu `c`. -/
def delivers (s : KState) (c : CpuId) (e : Env) : Option ThreadRef :=
  match s.top c with
  | some (.signalhandlerUser me n .deliver) =>
    if (Xv6.signalhandlerUser (s.mem.procs me.p) me.i n e.junk).isSome then some me else none
  | _ => none

/-- The thread whose registers `sigret` restores in the next step of cpu `c`. -/
def restores (s : KState) (c : CpuId) : Option ThreadRef :=
  match s.top c with
  | some (.sigret me .body) => if (s.mem.procs me.p).strayBackup then none else some me
  | _ => none

/-- The thread that copies its registers to the backup page in the next step of cpu `c`, on its way
    back to user mode. -/
def copies (s : KState) (c : CpuId) (e : Env) : Option ThreadRef :=
  match s.top c with
  | some (.usertrapret t .copy) =>
    if takesIrq s c e ∨ (s.mem.thread t).trapframe = 0 ∨ (s.mem.procs t.p).strayBackup then none
    else some t
  | _ => none

/-- The step is not one in which a thread of process `p` copies its registers to the backup page, or
    in which `p` becomes another process. -/
def keepsBackup (p : PIdx) (s : KState) (c : CpuId) (e : Env) : Bool :=
  match s.top c with
  | some (.usertrapret t .copy) => t.p ≠ p ∨ takesIrq s c e
  | some (.fork _ (.found j)) => j ≠ p
  | _ => true

/-- The step is not one in which a signal is delivered in process `p`. -/
def keepsMask (p : PIdx) (s : KState) (c : CpuId) : Bool :=
  match s.top c with
  | some (.signalhandlerUser t _ .deliver) => t.p ≠ p
  | _ => true

/-- What is to become of the process `old`, in which a signal is delivered to thread `i`: the
    registers of the thread after the system call `sigret`, and the rest right after `sigret` has
    restored it. -/
def Resumed (old restored final : Proc) (i : TIdx) : Prop :=
  final.frames i = old.frames i ∧ restored.signalmask = old.signalmask ∧
    restored.handlingSignal = false

theorem signalhandlerUser_saves (h : signalhandlerUser x i n junk = some y) :
    y.backup = x.backup ∧ y.signalmaskOrigin = x.signalmask := by
  unfold signalhandlerUser at h
  simp only at h
  split at h
  · cases h
  · cases h
    exact ⟨rfl, rfl⟩

theorem deliver_saves (hl : locking.Locked s) (h : delivers s c e = some me) :
    ((exec kernel s c e).mem.procs me.p).backup = (s.mem.procs me.p).backup ∧
      ((exec kernel s c e).mem.procs me.p).signalmaskOrigin = (s.mem.procs me.p).signalmask := by
  unfold delivers at h
  split at h
  · next me' n htop =>
    obtain ⟨hsome, ⟨⟩⟩ := ite_none_right_eq_some.1 h
    obtain ⟨below, hr⟩ := State.runs_of_top htop
    obtain ⟨x, hx⟩ := isSome_iff_exists.1 hsome
    have hmem := deliver_exec (e := e) hl hr
    rw [hx] at hmem
    rw [hmem, procs_modProc, if_pos rfl]
    exact signalhandlerUser_saves hx
  · cases h

theorem copies_exec (h : copies s c e = some t) :
    (exec kernel s c e).mem.procs t.p = { s.mem.procs t.p with backup := (s.mem.procs t.p).frames t.i } := by
  unfold copies at h
  split at h
  · next u htop =>
    obtain ⟨hno, hu⟩ := ite_none_left_eq_some.1 h
    obtain rfl := some.inj hu
    obtain ⟨hirq, hno⟩ := not_or.1 hno
    obtain ⟨htf, hstray⟩ := not_or.1 hno
    obtain ⟨below, hr⟩ := State.runs_of_top htop
    have hcode : code (s.view c e) (.usertrapret u .copy) =
        .act (.proc u.p (.backup u.i)) (.usertrapret u .intrOff) :=
      (if_neg htf).trans (if_neg hstray)
    rw [exec_uninterrupted hr (Bool.eq_false_iff.2 hirq), hcode]
    show ((Act.proc u.p (.backup u.i)).apply s.mem).procs u.p = _
    simp [Act.apply, ProcAct.apply]
  · cases h

theorem saved_kept (h : keepsBackup p s c e = true) :
    ((exec kernel s c e).mem.procs p).backup = (s.mem.procs p).backup ∧ (keepsMask p s c = true →
      ((exec kernel s c e).mem.procs p).signalmaskOrigin = (s.mem.procs p).signalmaskOrigin) := by
  cases sig_of_step (exec_step (P := kernel) (s := s) (c := c) (i := e)) p with
  | same h' | sigkill _ _ _ _ h' | create _ _ _ _ _ _ _ _ _ h' =>
    exact ⟨(congrArg SigView.backup h' :), fun _ => (congrArg SigView.signalmaskOrigin h' :)⟩
  | trap _ _ _ _ _ _ h' => exact ⟨by rw [h']; rfl, fun _ => by rw [h']; rfl⟩
  | alloc me below hr => simp [keepsBackup, hr.top] at h
  | copy _ _ _ h' | uncopy _ _ _ h' | reap _ _ _ _ _ h' =>
    rw [h']
    simp [Act.apply, forkCopyProc, Xv6.freeproc]
  | access f k a below hr ha _ _ h' =>
    cases ha with
    | backup me =>
      have hirq : takesIrq s c e = true := by simpa [keepsBackup, hr.top] using h
      obtain ⟨timer, hexec⟩ := exec_interrupted hr hirq
      rw [hexec]
      exact ⟨rfl, fun _ => rfl⟩
    | deliver me n junk x hx =>
      refine ⟨?_, fun hm => by simp [keepsMask, hr.top] at hm⟩
      rw [h']
      simp only [ProcAct.apply, hx, getD_some]
      exact (signalhandlerUser_saves hx).1
    | sigaction me signum act oldact pad k =>
      obtain ⟨handlers, hs⟩ := sigaction_signals (s.mem.procs me.p) signum act oldact pad
      rw [h']
      exact ⟨(congrArg SigView.backup hs :), fun _ => (congrArg SigView.signalmaskOrigin hs :)⟩
    | _ => rw [h']; exact ⟨rfl, fun _ => rfl⟩

/-! ## From the copy to the delivery -/

/-- `usertrapret` past the copy. -/
def Frame.copied : Frame → Bool
  | .usertrapret _ .copy => false
  | .usertrapret .. => true
  | _ => false

/-- The frame at the bottom is on the way back to user mode, past the copy. -/
def copiedStack : List Frame → Bool
  | [] => false
  | [f] => f.copied
  | _ :: f :: rest => copiedStack (f :: rest)

theorem bottom_nil (hwf : locking.Wf (f :: below)) (hf : f.fn = .bottom) : below = [] := by
  cases below with
  | nil => rfl
  | cons x rest =>
    obtain hadj | hadj : f.fn = .kerneltrap ∨ x.awaits f.fn := hwf.1
    · cases hf.symm.trans hadj
    · rw [hf] at hadj
      unfold Frame.awaits at hadj
      split at hadj <;> first | exact absurd hadj id | simp_all

theorem resumeFrame_copied (v : Int) : (resumeFrame f v).copied = f.copied := by
  unfold resumeFrame
  split <;> rfl

/-- `usertrapret` gets past the copy only from there. -/
theorem copied_of_next {v : KView} {k : Frame} (hf : f.fn = .bottom)
    (hk : (code v f).next = some k ∨ ∃ g, code v f = .call g k) (hc : k.copied = true) :
    f.copied = true ∨ ∃ t, f = .usertrapret t .copy := by
  cases f with
  | usertrapret t pc =>
    cases pc with
    | copy => exact .inr ⟨t, rfl⟩
    | _ => exact .inl rfl
  | usertrap t pc =>
    refine absurd hk ?_
    cases pc <;> simp only [code, usertrapCode, devintr] <;> (repeat' split) <;>
      (rintro (hk | ⟨g, hk⟩) <;> cases hk <;> cases hc)
  | scheduler pc =>
    refine absurd hk ?_
    cases pc <;> simp only [code, schedulerCode, schedulerNext] <;> (repeat' split) <;>
      (rintro (hk | ⟨g, hk⟩) <;> cases hk <;> cases hc)
  | forkret | void => rcases hk with hk | ⟨g, hk⟩ <;> cases hk <;> cases hc
  | _ => cases hf

/-- A thread gets past the copy only in a step that copies. -/
theorem Core.copied_before (h : Core s) (hb : keepsBackup t.p s c e = true) (hon : On s c t)
    (hv : Valid (exec kernel s c e) t st) (hadv : Advances s c (exec kernel s c e))
    (hcont : Continues kernel s c e st) (hc : copiedStack st = true) :
    copiedStack (s.active c) = true := by
  have honly : ∀ {f k : Frame}, s.Runs c f [] → (code (s.view c e) f).next = some k ∨
      (∃ g, code (s.view c e) f = .call g k) → k.copied = true → f.copied = true := by
    intro f k hr hk hkc
    rcases copied_of_next (h.stack hr.active).wf hk hkc with hf | ⟨u, rfl⟩
    · exact hf
    -- the copy is interrupted before it is made
    obtain rfl : u = t := some.inj ((h.mine hr.active).symm.trans hon.cur)
    have hirq : takesIrq s c e = true := by simpa [keepsBackup, hr.top] using hb
    obtain ⟨timer, hexec⟩ := exec_interrupted hr hirq
    have hact : (exec kernel s c e).active c =
        [.kerneltrap (s.cur c) (.start timer), .usertrapret u .copy] := by
      rw [hexec]
      exact update_self ..
    have hst := hadv.core.valid_unique hv (.on c (.ofTop hact (by rw [hexec]; exact hon.cur) rfl))
    rw [hst, hact] at hc
    cases hc
  cases hcont with
  | same => exact hc
  | trap ha hcur ht =>
    obtain ⟨cause, regs, -, rfl⟩ := trapEntry_some ht
    cases hc
  | irq hr =>
    rw [hr.active]
    exact hc
  | @next f k below hr hk =>
    rw [hr.active]
    cases below with
    | nil => exact honly hr (.inl hk) hc
    | cons => exact hc
  | @call f g k below hr hk =>
    rw [hr.active]
    cases below with
    | nil => exact honly hr (.inr ⟨g, hk⟩) hc
    | cons => exact hc
  | @ret f k v rest hr =>
    rw [hr.active]
    cases rest with
    | nil => exact (resumeFrame_copied v).symm.trans hc
    | cons => exact hc
  | iret hr =>
    rw [hr.active]
    cases st with
    | nil => cases hc
    | cons => exact hc
  | userret => cases hc

theorem Core.not_setsRegs (h : Core s) (hm : keepsMask t.p s c = true) (hr : s.Runs c f below)
    (hc : copiedStack (f :: below) = true) : f.setsRegs ≠ some t := by
  intro hf
  have hwf := (h.stack hr.active).wf
  unfold Frame.setsRegs at hf
  split at hf
  · cases bottom_nil hwf rfl
    cases hc
  · cases bottom_nil hwf rfl
    cases hc
  · obtain rfl := some.inj hf
    simp [keepsMask, hr.top] at hm
  · obtain ⟨me, rfl⟩ := h.syscall_under hr.active rfl
    cases hc
  · obtain ⟨me, rfl⟩ := h.syscall_under hr.active rfl
    cases hc
  · cases hf

/-- **Between the copy and the delivery the registers stay as they were copied**, as long as the
    thread is on its way back to user mode. -/
theorem Core.copied_step (h : Core s) (hadv : Advances s c (exec kernel s c e))
    (hb : keepsBackup t.p s c e = true) (hm : keepsMask t.p s c = true) {x : Trapframe}
    (hs : ∀ st, Valid s t st → copiedStack st = true → (s.mem.procs t.p).frames t.i = x)
    (hv : Valid (exec kernel s c e) t st) (hc : copiedStack st = true) :
    ((exec kernel s c e).mem.procs t.p).frames t.i = x := by
  have hkeep : ∀ st, Valid s t st → copiedStack st = true →
      ((exec kernel s c e).mem.procs t.p).frames t.i = x := by
    intro st hv hc
    rcases h.regs_own exec_step hv with heq | ⟨-, rfl | ⟨f, below, rfl, hr, hf⟩⟩
    · exact heq.trans (hs st hv hc)
    · cases hc
    · exact absurd hf (h.not_setsRegs hm hr hc)
  rcases h.stack_origin hadv exec_step hv with ⟨hv', -⟩ | ⟨rfl, -⟩ | ⟨hon, hcont⟩
  · exact hkeep st hv' hc
  · cases hc
  · exact hkeep _ (.on c hon) (h.copied_before hb hon hv hadv hcont hc)

/-- A signal is delivered on the way back to user mode. -/
theorem Core.delivers_copied (h : Core s) (hd : delivers s c e = some t) :
    ∃ st, Valid s t st ∧ copiedStack st = true := by
  unfold delivers at hd
  split at hd
  · next me n htop =>
    obtain ⟨-, hme⟩ := ite_none_right_eq_some.1 hd
    obtain rfl := some.inj hme
    obtain ⟨below, hr⟩ := State.runs_of_top htop
    have hon : On s c me := .ofTop hr.active (h.mine hr.active) rfl
    refine ⟨_, .on c hon, ?_⟩
    rw [hr.active]
    -- `signalhandler_user` is called by `signal_handler`, and that by `usertrapret`
    have hwf := (h.stack hr.active).wf
    obtain _ | ⟨x, rest⟩ := below
    · cases hwf
    obtain hadj | hadj : Fn.handler = .kerneltrap ∨ x.awaits .handler := hwf.1
    · cases hadj
    obtain ⟨u, i, rfl⟩ := awaits_handler hadj
    have hwf := hwf.tail
    obtain _ | ⟨y, rest⟩ := rest
    · cases hwf
    obtain hadj | hadj : Fn.signalHandler = .kerneltrap ∨ y.awaits .signalHandler := hwf.1
    · cases hadj
    obtain ⟨u', rfl⟩ := awaits_signalHandler hadj
    rw [bottom_nil hwf.tail rfl]
    rfl
  · cases hd

theorem Core.restores_exec (h : Core s) (hadv : Advances s c (exec kernel s c e))
    (hr : restores s c = some me) :
    (exec kernel s c e).mem.procs me.p = sigretProc (s.mem.procs me.p) me.i ∧
      Restoring (exec kernel s c e) me := by
  unfold restores at hr
  split at hr
  · next me' htop =>
    obtain ⟨hstray, hme⟩ := ite_none_left_eq_some.1 hr
    obtain rfl := some.inj hme
    obtain ⟨below, hr⟩ := State.runs_of_top htop
    have hmine : s.cur c = some me' := h.mine hr.active
    obtain ⟨me, rfl⟩ := h.syscall_under hr.active rfl
    have hcur : s.cur c = some me := (h.stack hr.active).mine (.usertrap me .returned) (by simp)
    obtain rfl := some.inj (hcur.symm.trans hmine)
    have hcode : code (s.view c e) (.sigret me .body) =
        .act (.proc me.p (.sigret me.i)) (.sigret me (.release 0)) := if_neg hstray
    have hexec := h.exec_held (e := e) hr (by simp)
    rw [hcode] at hexec
    refine ⟨?_, .release (hadv.core.at_top ?_ (by rw [hexec]; exact hmine) rfl)⟩
    · rw [hexec]
      show ((Act.proc me.p (.sigret me.i)).apply s.mem).procs me.p = _
      simp [Act.apply, ProcAct.apply]
    · rw [hexec]
      exact execInstr_act
  · cases hr

theorem Core.stores_exec (h : Core s) (hst : Restoring s me) (hs : storesResult s c e = some me) :
    ((exec kernel s c e).mem.procs me.p).frames me.i =
      update ((s.mem.procs me.p).frames me.i) .a0 0 := by
  unfold storesResult at hs
  split at hs
  · next me' r htop =>
    split at hs
    · cases hs
    next hirq =>
    obtain rfl := some.inj hs
    obtain ⟨below, hr⟩ := State.runs_of_top htop
    -- the value is that of `sigret`
    have hzero : r = 0 := by
      have hvalid := Valid.on c (.ofTop hr.active (h.mine hr.active) rfl)
      rw [hr.active] at hvalid
      have hsame : ∀ {b : Frame} {rest : List Frame}, b.Calm → At s me' b rest →
          b = .usertrap me' (.retval r) := by
        rintro b rest hb ⟨⟨pre, hv⟩, -⟩
        have hst := h.valid_unique hv hvalid
        cases pre with
        | nil => exact (List.cons.inj hst).1
        | cons f pre =>
          cases hst
          cases resting_above hb (hv.wf h) _ (List.mem_cons_self ..)
      cases hst with
      | release hat | done hat => cases hsame sigret_calm hat
      | stored hat =>
        have heq := (Frame.usertrap.inj (hsame retval_calm hat)).2
        exact (UsertrapPc.retval.inj heq).symm
    subst hzero
    rw [exec_uninterrupted hr (Bool.eq_false_iff.2 hirq)]
    show (((Act.proc me'.p (.setA0 me'.i 0)).apply s.mem).procs me'.p).frames me'.i = _
    simp [Act.apply, ProcAct.apply]
  · cases hs

end

/-- **What a thread gets back from `sigret`.** Thread `u` of the process copies its registers on its
    way to user mode, and no thread of the process does so again before `sigret` restores `me` and
    `syscall` stores the return value. Whatever else happens, `me` ends up with the registers of
    `u`, except for `a0`. So if the signal was delivered to `me` in the course of that last return,
    and it was the last one, `me` has its old registers and the process its old mask exactly if the
    old `a0` was 0. -/
theorem sigret_resumes_iff {g : Pages} (hg : g.ok = true) (um : UserMem)
    (tr tr1 tr2 : List (CpuId × Env)) (c c1 c2 : CpuId) (e e1 e2 : Env) (me u : ThreadRef) :
    let s := run kernel (boot g um) tr
    let s1 := run kernel (exec kernel s c e) tr1
    let s2 := run kernel (exec kernel s1 c1 e1) tr2
    let restored := (exec kernel s1 c1 e1).mem.procs me.p
    let final := (exec kernel s2 c2 e2).mem.procs me.p
    ReapsZombies (boot g um) (tr ++ (c, e) :: (tr1 ++ (c1, e1) :: tr2)) →
    copies s c e = some u → u.p = me.p →
    Along kernel (fun s c e => keepsBackup me.p s c e = true) (exec kernel s c e) tr1 →
    restores s1 c1 = some me →
    Along kernel (fun s c e => storesResult s c e ≠ some me) (exec kernel s1 c1 e1) tr2 →
    storesResult s2 c2 e2 = some me →
    final.frames me.i = update ((s.mem.procs u.p).frames u.i) .a0 0 ∧
    ∀ tr0 c0 e0 tr0', tr1 = tr0 ++ (c0, e0) :: tr0' → u = me →
      let s0 := run kernel (exec kernel s c e) tr0
      delivers s0 c0 e0 = some me →
      Along kernel (fun s c _ => keepsMask me.p s c = true) (exec kernel s c e) tr0 →
      Along kernel (fun s c _ => keepsMask me.p s c = true) (exec kernel s0 c0 e0) tr0' →
      (Resumed (s0.mem.procs me.p) restored final me.i ↔ (s0.mem.procs me.p).frames me.i .a0 = 0) := by
  intro s s1 s2 restored final hreap hcopy hp hquiet hres hbefore hstore
  obtain ⟨hreap, hr, hreap1⟩ := Along.append.1 hreap
  obtain ⟨hreap1, hr1, hreap2⟩ := Along.append.1 hreap1
  have hcore : Core s := run_core hg um hreap
  have hcore' : Core (exec kernel s c e) := (hcore.step hr exec_step).core
  have hcore1 : Core s1 := hreap1.invariant Core hcore' fun _ _ _ hr h => (h.step hr exec_step).core
  have hadv1 := hcore1.step (e := e1) hr1 exec_step
  obtain ⟨hproc, hstage⟩ := hcore1.restores_exec hadv1 hres
  -- the backup page is as the copy has left it
  have hcopied := copies_exec hcopy
  have hbackup : (s1.mem.procs me.p).backup = (s.mem.procs u.p).frames u.i :=
    hquiet.invariant (fun s' => (s'.mem.procs me.p).backup = (s.mem.procs u.p).frames u.i)
      (by rw [← hp, hcopied]) fun _ _ _ hq h => (saved_kept hq).1.trans h
  -- the registers stay as `sigret` has left them until the return value is stored
  obtain ⟨hcore2, hstage2, hframes⟩ := (hreap2.and hbefore).invariant (fun s => Core s ∧
    Restoring s me ∧ (s.mem.procs me.p).frames me.i = (s1.mem.procs me.p).backup)
    ⟨hadv1.core, hstage, by rw [hproc]; exact update_self ..⟩
    fun s c e ⟨hr, hnot⟩ ⟨hcore, hst, hf⟩ => by
      have hadv := hcore.step (e := e) hr exec_step
      obtain ⟨hst', hf'⟩ := hcore.restoring_step hadv hst hnot
      exact ⟨hadv.core, hst', hf'.trans hf⟩
  have hfinal := hcore2.stores_exec (c := c2) (e := e2) hstage2 hstore
  rw [hframes, hbackup] at hfinal
  refine ⟨hfinal, ?_⟩
  rintro tr0 c0 e0 tr0' rfl rfl s0 hdel hmask0 hmask1
  obtain ⟨hquiet0, -, hquiet1⟩ := Along.append.1 hquiet
  obtain ⟨hreap0, hr0, hreap1⟩ := Along.append.1 hreap1
  -- at the delivery the registers are those of the copy
  obtain ⟨hcore0, hregs⟩ := (hreap0.and (hquiet0.and hmask0)).invariant (fun s' => Core s' ∧
    ∀ st, Valid s' u st → copiedStack st = true →
      (s'.mem.procs u.p).frames u.i = (s.mem.procs u.p).frames u.i)
    ⟨hcore', fun _ _ _ => by rw [hcopied]⟩
    fun s c e ⟨hr, hb, hm⟩ ⟨hcore, hs⟩ => by
      have hadv := hcore.step (e := e) hr exec_step
      exact ⟨hadv.core, fun _ => hcore.copied_step hadv hb hm hs⟩
  obtain ⟨st, hv, hc⟩ := hcore0.delivers_copied hdel
  have hregs := hregs st hv hc
  -- and the mask is still saved at `sigret`
  have horigin : (s1.mem.procs u.p).signalmaskOrigin = (s0.mem.procs u.p).signalmask := by
    show ((run kernel (exec kernel s c e) (tr0 ++ (c0, e0) :: tr0')).mem.procs u.p).signalmaskOrigin = _
    rw [run_append]
    exact (hquiet1.and hmask1).invariant (fun s' =>
      (s'.mem.procs u.p).signalmaskOrigin = (s0.mem.procs u.p).signalmask)
      (deliver_saves hcore0.locked hdel).2 fun _ _ _ ⟨hb, hm⟩ h => ((saved_kept hb).2 hm).trans h
  have hmask : restored.signalmask = (s0.mem.procs u.p).signalmask := by
    show ((exec kernel s1 c1 e1).mem.procs u.p).signalmask = _
    rw [hproc]
    exact horigin
  have hhandling : restored.handlingSignal = false := by
    show ((exec kernel s1 c1 e1).mem.procs u.p).handlingSignal = _
    rw [hproc]
    rfl
  constructor
  · rintro ⟨hold, -⟩
    rw [← hold]
    exact (congrFun hfinal .a0).trans (update_self ..)
  · intro ha0
    refine ⟨hfinal.trans ?_, hmask, hhandling⟩
    rw [← hregs, ← ha0, update_eq_self]

/-- The first process has installed a handler and sends itself signal 1, which makes signal 0
    pending; the signal is delivered on the way back, where `a0` is 0, and the handler returns at
    once. -/
theorem sigret_resumes_kill :
    let s := run kernel (boot firstPages sigactionMem) (installs ++ ecall 0 6 1 1 :: steps 0 11)
    let s0 := run kernel (exec kernel s 0 {}) (steps 0 6)
    let s1 := run kernel (exec kernel s 0 {})
      (steps 0 6 ++ (0, {}) :: (steps 0 7 ++ ecall 0 24 0 0 :: steps 0 5))
    let s2 := run kernel (exec kernel s1 0 {}) (steps 0 2)
    Resumed (s0.mem.procs 0) ((exec kernel s1 0 {}).mem.procs 0) ((exec kernel s2 0 {}).mem.procs 0)
      0 :=
  ((sigret_resumes_iff (g := firstPages) rfl sigactionMem (installs ++ ecall 0 6 1 1 :: steps 0 11)
    (steps 0 6 ++ (0, {}) :: (steps 0 7 ++ ecall 0 24 0 0 :: steps 0 5)) (steps 0 2) 0 0 0 {} {} {} ⟨0, 0⟩
    ⟨0, 0⟩ (by decide +kernel) (by decide +kernel) rfl (by decide +kernel) (by decide +kernel)
    (by decide +kernel) (by decide +kernel)).2 (steps 0 6) 0 {} _ rfl rfl (by decide +kernel)
    (by decide +kernel) (by decide +kernel)).2 (by decide +kernel)

/-- Here the signal waits until the process unblocks it with `sigprocmask`, which returns 1.
    Although nothing happens between the delivery and `sigret`, the thread gets back 0 in `a0`. -/
theorem sigret_loses_a0 :
    let s0 := run kernel (boot firstPages sigactionMem) (installs ++ ecall 0 22 1 0 :: steps 0 20 ++
      ecall 0 6 1 1 :: steps 0 20 ++ ecall 0 22 0 0 :: steps 0 16)
    let tr := steps 0 7 ++ ecall 0 24 0 0 :: steps 0 5
    let s1 := run kernel (exec kernel s0 0 {}) tr
    let s2 := run kernel (exec kernel s1 0 {}) (steps 0 2)
    delivers s0 0 {} = some ⟨0, 0⟩ ∧
      Along kernel (fun s c e => keepsBackup 0 s c e = true ∧ keepsMask 0 s c = true)
        (exec kernel s0 0 {}) tr ∧
      restores s1 0 = some ⟨0, 0⟩ ∧ storesResult s2 0 {} = some ⟨0, 0⟩ ∧
      (s0.mem.procs 0).frames 0 .a0 = 1 ∧ ((exec kernel s2 0 {}).mem.procs 0).frames 0 .a0 = 0 := by
  decide +kernel

end Xv6
