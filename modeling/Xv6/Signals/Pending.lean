import Xv6.Machine.History
import Xv6.Signals.Moves

set_option autoImplicit false

/-! # The pending set

`kill` is to set the bit of the signal it sends, and `signal_handler` to clear the bit of the signal
it acts on. Neither does: `kill` or-s in the number of the signal, which never has the bit of that
number among its own (`number_bit`); and of the branches of `signal_handler` only the one for user
handlers clears a bit. The test that selects the signals compares with a truth value, so that signal
0 is the only one that `signal_handler` ever acts on (`sigDeliverable_zero`), and `sigcont_handler`
and `sigstop_handler` are never called. -/

namespace Xv6

open BitVec Bool Machine Option

/-! ## Bits -/

theorem sigBit_bit : ∀ i k : Fin NUMOFSIGNALS, (sigBit i).getLsbD k.val = decide (k = i) := by
  decide +kernel

theorem number_bit : ∀ i : Fin NUMOFSIGNALS, (BitVec.ofNat 32 i.val).getLsbD i.val = false := by
  decide +kernel

section

variable {x y : BitVec 32} {i k : Fin NUMOFSIGNALS}

theorem ext_bits (h : ∀ k : Fin NUMOFSIGNALS, x.getLsbD k.val = y.getLsbD k.val) : x = y :=
  eq_of_getLsbD_eq fun k hk => h ⟨k, hk⟩

theorem and_sigBit : x &&& sigBit i ≠ 0 ↔ x.getLsbD i.val = true := by
  constructor
  · intro h
    by_contra hx
    refine h (ext_bits fun k => ?_)
    rw [getLsbD_and, sigBit_bit]
    by_cases hk : k = i
    · rw [hk, eq_false_iff.2 hx, Bool.false_and]
      simp
    · simp [hk]
  intro h h0
  have hbit : (x &&& sigBit i).getLsbD i.val = (0 : BitVec 32).getLsbD i.val := by rw [h0]
  rw [getLsbD_and, h, sigBit_bit] at hbit
  simp at hbit

theorem xor_sigBit : (x ^^^ sigBit i).getLsbD k.val = (x.getLsbD k.val ^^ decide (k = i)) := by
  rw [getLsbD_xor, sigBit_bit]

theorem sub_bit (h : x &&& ~~~y = 0) (hx : x.getLsbD k.val = true) : y.getLsbD k.val = true := by
  have hk : (x &&& ~~~y).getLsbD k.val = (0 : BitVec 32).getLsbD k.val := by rw [h]
  rw [getLsbD_and, getLsbD_not, hx, decide_eq_true (show k.val < 32 from k.isLt)] at hk
  simpa using hk

/-- The number of a signal sets the bit of the signal, and no other, only if it changes nothing. -/
theorem or_number : x ||| BitVec.ofNat 32 i.val = x ||| sigBit i ↔
      x &&& sigBit i ≠ 0 ∧ BitVec.ofNat 32 i.val &&& ~~~x = 0 := by
  have hbits : ∀ k : Fin NUMOFSIGNALS, (x ||| BitVec.ofNat 32 i.val).getLsbD k.val =
      (x.getLsbD k.val || (BitVec.ofNat 32 i.val).getLsbD k.val) := fun k => getLsbD_or ..
  constructor
  · intro h
    have hbit : ∀ k : Fin NUMOFSIGNALS, (x.getLsbD k.val || (BitVec.ofNat 32 i.val).getLsbD k.val) =
        (x.getLsbD k.val || decide (k = i)) := fun k => by
      rw [← hbits, h, getLsbD_or, sigBit_bit]
    have hi : x.getLsbD i.val = true := by
      have := hbit i
      rw [number_bit] at this
      simpa using this
    refine ⟨and_sigBit.2 hi, ext_bits fun k => ?_⟩
    rw [getLsbD_and, getLsbD_not]
    by_cases hk : k = i
    · rw [hk, number_bit]
      simp
    have := hbit k
    rw [decide_eq_false hk, Bool.or_false] at this
    cases hx : x.getLsbD k.val with
    | true => simp
    | false =>
      rw [hx, Bool.false_or] at this
      rw [this]
      simp
  · rintro ⟨hi, hsub⟩
    rw [and_sigBit] at hi
    refine ext_bits fun k => ?_
    rw [hbits, getLsbD_or, sigBit_bit]
    cases hx : x.getLsbD k.val with
    | true => simp
    | false =>
      have hki : k ≠ i := fun hki => by
        rw [hki, hi] at hx
        cases hx
      have hk : (BitVec.ofNat 32 i.val).getLsbD k.val = false := eq_false_iff.2 fun hk =>
        nomatch hx.symm.trans (sub_bit hsub hk)
      rw [hk, decide_eq_false hki]

end

theorem sigDeliverable_zero {p : Proc} {i : Fin NUMOFSIGNALS} (h : sigDeliverable p i = true) : i = 0 := by
  by_contra hi
  have hbit : ∀ i : Fin NUMOFSIGNALS, i ≠ 0 → sigBit i &&& 1#32 = 0 := by decide +kernel
  simp only [sigDeliverable] at h
  split at h
  · rw [BitVec.and_assoc, hbit i hi] at h
    simp at h
  · simp at h

/-! ## What a step does to the pending set -/

/-- The changes that cpu `c` makes to the pending set of process `p` in a step from `s` to `s'`. -/
inductive PendingMove (s : KState) (c : CpuId) (s' : KState) (p : PIdx) : Prop where
  | same (h : (s'.mem.procs p).pendingsignals = (s.mem.procs p).pendingsignals)
  | reset (me : ThreadRef) (pc : ForkPc) (below : List Frame) (hr : s.Runs c (.fork me pc) below)
      (hpc : pc = .found p ∨ pc = .copy p) (h : (s'.mem.procs p).pendingsignals = 0)
  | kill (pid : Int) (signum : BitVec 32) (below : List Frame)
      (hr : s.Runs c (.kill pid signum (.check p)) below) (hpid : (s.mem.procs p).pid = pid)
      (hstate : ¬ ((s.mem.procs p).state = .zombie ∨ (s.mem.procs p).state = .unused))
      (h : (s'.mem.procs p).pendingsignals = (s.mem.procs p).pendingsignals ||| signum)
  | deliver (me : ThreadRef) (n : Fin NUMOFSIGNALS) (below : List Frame)
      (hr : s.Runs c (.signalhandlerUser me n .deliver) below) (hp : me.p = p)
      (h : (s'.mem.procs p).pendingsignals = (s.mem.procs p).pendingsignals ^^^ sigBit n)
  | cont (me : ThreadRef) (below : List Frame) (hr : s.Runs c (.sigcontHandler me .clear) below)
      (hp : me.p = p)
  | thaw (me : ThreadRef) (below : List Frame) (hr : s.Runs c (.sigstopHandler me .check) below)
      (hp : me.p = p)

section

variable {s s' : KState} {c : CpuId} {e : Env} {p : PIdx} {m : Mem}

theorem allocproc_pending (g : Pages) :
    ((Xv6.allocproc m p g).procs p).pendingsignals = (m.procs p).pendingsignals ∨
      ((Xv6.allocproc m p g).procs p).pendingsignals = 0 := by
  unfold Xv6.allocproc
  repeat' split
  all_goals simp [Mem.modThread, allocprocInit, Proc.modThread, Xv6.freeproc]

theorem signalhandlerUser_pending {x y : Proc} {i : TIdx} {n : Fin NUMOFSIGNALS} {junk : Junk}
    (h : signalhandlerUser x i n junk = some y) :
    y.pendingsignals = x.pendingsignals ^^^ sigBit n := by
  unfold signalhandlerUser at h
  simp only at h
  split at h
  · cases h
  · cases h
    rfl

/-- **Every step changes a pending set in one of the ways listed.** -/
theorem pending_of_step (hstep : Step kernel s c e s') (p : PIdx) : PendingMove s c s' p := by
  cases sig_of_step hstep p with
  | same h | sigkill me below hr hp h | create me fn stack k below hr hp hk tf h =>
    exact .same (congrArg SigView.pendingsignals h)
  | trap t regs stores _ _ _ h => exact .same (by rw [h]; rfl)
  | alloc me below hr g h =>
    rcases allocproc_pending (m := s.mem) (p := p) g with hp | hp
    · exact .same (by rw [h]; exact hp)
    · exact .reset me _ below hr (.inl rfl) (by rw [h]; exact hp)
  | copy me below hr h =>
    refine .reset me _ below hr (.inr rfl) ?_
    rw [h]
    simp [Act.apply, forkCopyProc]
  | uncopy me below hr h | reap me addr pid below hr h =>
    refine .same ?_
    rw [h]
    simp [Act.apply, Xv6.freeproc]
  | access f k a below hr ha hact hcur h =>
    cases ha with
    | kill pid signum j hpid hstate => exact .kill pid signum below hr hpid hstate (by rw [h]; rfl)
    | deliver me n junk q hq =>
      refine .deliver me n below hr rfl ?_
      rw [h]
      simp only [ProcAct.apply, hq, getD_some]
      exact signalhandlerUser_pending hq
    | contClear me => exact .cont me below hr rfl
    | thaw me _ => exact .thaw me below hr rfl
    | sigaction me signum act oldact pad k =>
      obtain ⟨handlers, hs⟩ := sigaction_signals (s.mem.procs me.p) signum act oldact pad
      refine .same ?_
      rw [h]
      exact congrArg SigView.pendingsignals hs
    | _ => exact .same (by rw [h]; rfl)

end

/-! ## Only signal 0 -/

/-- The frames of a kernel in which only signal 0 is acted on. -/
@[simp] def Frame.signalZero : Frame → Bool
  | .sigcontHandler _ _ | .sigstopHandler _ _ => false
  | .signalhandlerUser _ n _ => n = 0
  | .signalHandler _ (.next i) => i = 0
  | _ => true

/-- Only signal 0 is acted on. -/
abbrev SignalZero (s : KState) : Prop := AllFrames (fun f : Frame => f.signalZero = true) s

section

variable {s : KState} {c : CpuId} {e : Env} {f k : Frame} {me : ThreadRef} {v : KView}

theorem Frame.signalZero_ctorIdx (h : f.signalZero = false) :
    f.ctorIdx = 10 ∨ f.ctorIdx = 12 ∨ f.ctorIdx = 13 ∨ f.ctorIdx = 14 := by
  cases f with
  | signalHandler => exact .inl rfl
  | sigcontHandler => exact .inr (.inl rfl)
  | sigstopHandler => exact .inr (.inr (.inl rfl))
  | signalhandlerUser => exact .inr (.inr (.inr rfl))
  | _ => cases h

theorem awaits_handler (h : k.awaits .handler) : ∃ me i, k = .signalHandler me (.next i) := by
  unfold Frame.awaits at h
  split at h <;> first | exact ⟨_, _, rfl⟩ | exact absurd h id | simp_all

theorem awaits_signalHandler (h : k.awaits .signalHandler) : ∃ me, k = .usertrapret me .handled := by
  unfold Frame.awaits at h
  split at h <;> first | exact ⟨_, rfl⟩ | exact absurd h id | simp_all

theorem sigActionOf_zero {x : Proc} : sigActionOf x 0 ≠ .sigcont ∧ sigActionOf x 0 ≠ .sigstop := by
  unfold sigActionOf
  split
  · exact ⟨nofun, nofun⟩
  split
  · exact ⟨nofun, nofun⟩
  rw [if_neg (by decide), if_neg (by decide), if_neg (by decide)]
  exact ⟨nofun, nofun⟩

theorem signalHandler_zero {pc : SignalHandlerPc} :
    ∀ k ∈ (signalHandlerCode v me pc).pushes, k.signalZero = true := by
  cases pc with
  | start | next i =>
    simp only [signalHandlerCode]
    split <;> simp
  | loop i =>
    simp only [signalHandlerCode]
    split
    · next hd =>
      obtain rfl := sigDeliverable_zero hd
      split
      · simp
      · simp
      · next ha => exact absurd ha sigActionOf_zero.1
      · next ha => exact absurd ha sigActionOf_zero.2
      · simp
    · simp
  | done => simp [signalHandlerCode]

theorem signalhandlerUser_zero {n : Fin NUMOFSIGNALS} {pc : SigUserPc} (hn : n = 0) :
    ∀ k ∈ (signalhandlerUserCode v me n pc).pushes, k.signalZero = true := by
  cases pc with
  | deliver =>
    simp only [signalhandlerUserCode]
    split <;> simp [hn]
  | _ => simp [signalhandlerUserCode, hn]

theorem signalZero_introduces (h : locking.Locked s) :
    Introduces kernel (fun f => f.signalZero = true) s c e := by
  -- a function other than the handlers goes on inside itself
  have hother : ∀ {f k : Frame}, Follows f k → (f.ctorIdx ≠ 10 ∧ f.ctorIdx ≠ 12 ∧ f.ctorIdx ≠ 13 ∧
      f.ctorIdx ≠ 14) → k.signalZero = true := by
    intro f k hs hne
    cases hs with
    | same hc =>
      by_contra hk
      have hidx := Frame.signalZero_ctorIdx (eq_false_iff.2 hk)
      rw [hc] at hidx
      omega
    | _ => rfl
  refine kernel_introduces h (fun f below k hr hf hs hk => ?_)
    (fun f below g k hr hf hk hs hentry hadj => ?_) (fun _ => rfl) (fun _ _ => rfl) (fun _ _ => rfl)
    fun k v hk => ?_
  · cases f with
    | signalHandler me pc => exact signalHandler_zero k hk
    | signalhandlerUser me n pc => exact signalhandlerUser_zero (of_decide_eq_true hf) k hk
    | sigcontHandler | sigstopHandler => cases hf
    | _ => exact hother hs (by simp [Frame.ctorIdx])
  · -- only `signal_handler` calls handlers
    have hhandler : g.fn = .handler → g.signalZero = true := by
      intro hg
      rw [hg] at hadj
      obtain ⟨me, i, rfl⟩ := awaits_handler hadj
      have hidx : Frame.ctorIdx (.signalHandler me (.next i)) = f.ctorIdx := by
        cases hs with
        | same hidx => exact hidx
      cases f with
      | signalHandler me pc =>
        have hpush : g ∈ (signalHandlerCode (s.view c e) me pc).pushes := by
          rw [show signalHandlerCode (s.view c e) me pc = .call g _ from hk]
          exact List.mem_cons_self ..
        exact signalHandler_zero g hpush
      | _ => cases hidx
    cases g with
    | signalHandler me pc =>
      cases pc with
      | next i => cases hentry
      | _ => rfl
    | sigcontHandler | sigstopHandler | signalhandlerUser => exact hhandler rfl
    | _ => rfl
  · unfold resumeFrame
    split <;> first | rfl | exact hk

theorem boot_signalZero (g : Pages) (um : UserMem) : SignalZero (boot g um) where
  active := by simp [boot]
  home := by simp [boot]
  ctx := fun t => by
    simp only [boot, Function.update_apply]
    split <;> simp

/-- **Only signal 0 is ever acted on**: no thread gets into `sigcont_handler` or
    `sigstop_handler`. -/
theorem run_signalZero (g : Pages) (um : UserMem) (tr : List (CpuId × Env)) :
    SignalZero (run kernel (boot g um) tr) :=
  (run_invariant (fun s => locking.Locked s ∧ SignalZero s)
    ⟨boot_locked g um, boot_signalZero g um⟩ fun _ _ _ h =>
      ⟨h.1.step kernel_disciplined exec_step, h.2.step (signalZero_introduces h.1) exec_step⟩).2

end

/-! ## Sending and acting -/

/-- The process to which the next step of cpu `c` sends a signal, and the number. -/
def sends (s : KState) (c : CpuId) : Option (PIdx × BitVec 32) :=
  match s.top c with
  | some (.kill pid signum (.check j)) =>
    if (s.mem.procs j).pid = pid ∧
      ¬ ((s.mem.procs j).state = .zombie ∨ (s.mem.procs j).state = .unused) then some (j, signum)
    else none
  | _ => none

/-- The process for which `signal_handler` acts on a signal in the next step of cpu `c`: it ignores
    the signal, or makes the change that the handler is for. -/
def actsOn (s : KState) (c : CpuId) (e : Env) : Option (PIdx × Fin NUMOFSIGNALS) :=
  match s.halted c, s.active c with
  | none, .signalHandler me (.loop i) :: _ =>
    if sigDeliverable (s.mem.procs me.p) i ∧ sigActionOf (s.mem.procs me.p) i = .ignore then
      some (me.p, i)
    else none
  | none, .sigkillHandler me .kill :: .signalHandler _ (.next i) :: _ => some (me.p, i)
  | none, .sigcontHandler me .clear :: _ => some (me.p, SIGCONT)
  | none, .sigstopHandler me .check :: _ =>
    if (s.mem.procs me.p).pendingsignals &&& sigBit SIGCONT = 0 then none
    else some (me.p, SIGSTOP)
  | none, .signalhandlerUser me n .deliver :: _ =>
    if (Xv6.signalhandlerUser (s.mem.procs me.p) me.i n e.junk).isSome then some (me.p, n) else none
  | _, _ => none

/-- It does so through a user handler. -/
def actsByUser (s : KState) (c : CpuId) : Bool :=
  match s.top c with
  | some (.signalhandlerUser _ _ .deliver) => true
  | _ => false

section

variable {s : KState} {c : CpuId} {e : Env} {j p : PIdx} {i n : Fin NUMOFSIGNALS} {signum : BitVec 32}
  {me : ThreadRef} {below : List Frame}

theorem send_exec (hl : locking.Locked s) (h : sends s c = some (j, signum)) :
    (exec kernel s c e).mem = (Act.proc j (.kill signum)).apply s.mem := by
  unfold sends at h
  split at h
  · next pid signum' j' htop =>
    obtain ⟨hc, h⟩ := ite_none_right_eq_some.1 h
    obtain ⟨rfl, rfl⟩ := Prod.mk.inj (some.inj h)
    obtain ⟨below, hr⟩ := State.runs_of_top htop
    have hcode : code (s.view c e) (.kill pid signum' (.check j')) =
        .act (.proc j' (.kill signum')) (.kill pid signum' (.finish j' 0)) := by
      show (if (s.mem.procs j').pid = pid then if (s.mem.procs j').state = .zombie ∨
        (s.mem.procs j').state = .unused then _ else _ else _) = _
      rw [if_pos hc.1, if_neg hc.2]
    rw [exec_locked hl hr (by simp), hcode]
    rfl
  · cases h

theorem send_pending (hl : locking.Locked s) (h : sends s c = some (j, signum)) :
    ((exec kernel s c e).mem.procs j).pendingsignals = (s.mem.procs j).pendingsignals ||| signum ∧
      ∀ q, q ≠ j → (exec kernel s c e).mem.procs q = s.mem.procs q := by
  rw [send_exec hl h]
  refine ⟨?_, fun q hq => ?_⟩
  · simp [Act.apply, ProcAct.apply, killPending]
  · simp [Act.apply, hq]

theorem deliver_exec (hl : locking.Locked s) (hr : s.Runs c (.signalhandlerUser me n .deliver) below) :
    (exec kernel s c e).mem =
      match Xv6.signalhandlerUser (s.mem.procs me.p) me.i n e.junk with
      | none => s.mem
      | some x => s.mem.modProc me.p fun _ => x := by
  rw [exec_locked hl hr (by simp)]
  show (execInstr kernel s c below
    (match Xv6.signalhandlerUser (s.mem.procs me.p) me.i n e.junk with
    | none => _
    | some _ => _)).mem = _
  split
  · rfl
  next x hx =>
  show s.mem.modProc me.p (ProcAct.apply (.deliver me.i n e.junk)) = _
  simp [Mem.modProc, ProcAct.apply, hx]

/-- What acting on a signal is to do: its bit is set, and is the only one that changes. -/
def Clears (s s' : KState) (p : PIdx) (i : Fin NUMOFSIGNALS) : Prop :=
  (s.mem.procs p).pendingsignals &&& sigBit i ≠ 0 ∧
    (s'.mem.procs p).pendingsignals = (s.mem.procs p).pendingsignals ^^^ sigBit i ∧
    ∀ q, q ≠ p → (s'.mem.procs q).pendingsignals = (s.mem.procs q).pendingsignals

theorem actsByUser_runs (h : actsByUser s c = true) :
    ∃ me n below, s.Runs c (.signalhandlerUser me n .deliver) below := by
  unfold actsByUser at h
  split at h
  · next htop =>
    obtain ⟨below, hr⟩ := State.runs_of_top htop
    exact ⟨_, _, below, hr⟩
  · cases h

theorem act_clears (hl : locking.Locked s) (ha : actsOn s c e = some (p, i))
    (hu : actsByUser s c = true) (hp : (s.mem.procs p).pendingsignals &&& sigBit i ≠ 0) :
    Clears s (exec kernel s c e) p i := by
  obtain ⟨me, n, below, hr⟩ := actsByUser_runs hu
  simp only [actsOn, hr.halted, hr.active] at ha
  obtain ⟨hsome, ha⟩ := ite_none_right_eq_some.1 ha
  cases ha
  obtain ⟨x, hx⟩ := isSome_iff_exists.1 hsome
  have hmem := deliver_exec (e := e) hl hr
  rw [hx] at hmem
  refine ⟨hp, ?_, fun q hq => ?_⟩
  · rw [hmem, procs_modProc, if_pos rfl]
    exact signalhandlerUser_pending hx
  · rw [hmem, procs_modProc, if_neg hq]

theorem clears_user (hz : SignalZero s) (ha : actsOn s c e = some (p, i))
    (hc : Clears s (exec kernel s c e) p i) : actsByUser s c = true := by
  obtain ⟨hbit, hpend, -⟩ := hc
  have hzero : ∀ {f : Frame} {below : List Frame}, s.Runs c f below → f.signalZero = true :=
    fun hr => (hz.top hr).1
  cases pending_of_step (e := e) exec_step p with
  | same h =>
    have hi := congrArg (fun x : BitVec 32 => x.getLsbD i.val) (h.symm.trans hpend)
    simp only [xor_sigBit, and_sigBit.1 hbit] at hi
    simp at hi
  | reset me pc below hr | kill pid signum below hr => simp [actsOn, hr.halted, hr.active] at ha
  | deliver me n below hr => simp [actsByUser, hr.top]
  | cont me below hr | thaw me below hr => cases hzero hr

/-! ## Counting -/

/-- How often signal `i` has been sent to process `p`, and how often it has been acted on. -/
def tally (p : PIdx) (i : Fin NUMOFSIGNALS) (s : KState) (c : CpuId) (e : Env) (h : Nat × Nat) :
    Nat × Nat :=
  (if sends s c = some (p, BitVec.ofNat 32 i.val) then h.1 + 1 else h.1,
    if actsOn s c e = some (p, i) then h.2 + 1 else h.2)

/-- If the step sends a signal, its bit and those of its number are pending already. -/
def sendsExact (s : KState) (c : CpuId) : Bool :=
  match sends s c with
  | some (j, signum) =>
    (List.finRange NUMOFSIGNALS).any fun i => signum = BitVec.ofNat 32 i.val &&
      (s.mem.procs j).pendingsignals &&& sigBit i ≠ 0 &&
      signum &&& ~~~(s.mem.procs j).pendingsignals = 0
  | none => true

/-- If the step acts on a signal, it does so through a user handler, and the signal is pending. -/
def actsExact (s : KState) (c : CpuId) (e : Env) : Bool :=
  match actsOn s c e with
  | some (p, i) => actsByUser s c && (s.mem.procs p).pendingsignals &&& sigBit i ≠ 0
  | none => true

/-- Signal `i` of process `p`, as a number. -/
def pendingCount (s : KState) (p : PIdx) (i : Fin NUMOFSIGNALS) : Nat :=
  if (s.mem.procs p).pendingsignals &&& sigBit i ≠ 0 then 1 else 0

theorem pendingCount_eq (h : (s.mem.procs p).pendingsignals &&& sigBit i ≠ 0) :
    pendingCount s p i = 1 := if_pos h

theorem pendingCount_zero (h : (s.mem.procs p).pendingsignals.getLsbD i.val = false) :
    pendingCount s p i = 0 := by
  refine if_neg fun hne => ?_
  cases h.symm.trans (and_sigBit.1 hne)

theorem pendingCount_mono {s' : KState} (h : (s'.mem.procs p).pendingsignals.getLsbD i.val = true →
      (s.mem.procs p).pendingsignals.getLsbD i.val = true) :
    pendingCount s' p i ≤ pendingCount s p i := by
  cases hs : (s'.mem.procs p).pendingsignals.getLsbD i.val with
  | true => rw [pendingCount_eq (and_sigBit.2 hs), pendingCount_eq (and_sigBit.2 (h hs))]
  | false =>
    rw [pendingCount_zero hs]
    exact Nat.zero_le _

theorem pending_kept (hl : locking.Locked s) (hz : SignalZero s)
    (hs : sendsExact s c = true) (hne : actsOn s c e ≠ some (p, i)) :
    pendingCount (exec kernel s c e) p i ≤ pendingCount s p i := by
  refine pendingCount_mono fun hbit => ?_
  cases pending_of_step (e := e) exec_step p with
  | same h => exact h ▸ hbit
  | reset me pc below hr hpc h =>
    rw [h] at hbit
    simp at hbit
  | kill pid signum below hr hpid hstate h =>
    have hsends : sends s c = some (p, signum) := by simp [sends, hr.top, hpid, hstate]
    simp only [sendsExact, hsends, List.any_eq_true, and_eq_true, decide_eq_true_eq] at hs
    obtain ⟨n, -, ⟨-, -⟩, hsub⟩ := hs
    rw [h, getLsbD_or, or_eq_true] at hbit
    rcases hbit with hbit | hbit
    · exact hbit
    · exact sub_bit hsub hbit
  | deliver me n below hr hp h =>
    subst hp
    have hmem := deliver_exec (e := e) hl hr
    cases hx : Xv6.signalhandlerUser (s.mem.procs me.p) me.i n e.junk with
    | none =>
      rw [hx] at hmem
      rw [hmem] at hbit
      exact hbit
    | some x =>
      have hacts : actsOn s c e = some (me.p, n) := by
        simp [actsOn, hr.halted, hr.active, hx]
      -- another signal is delivered, and this one stays as it is
      have hni : i ≠ n := fun hni => hne (hni ▸ hacts)
      rw [h, xor_sigBit, decide_eq_false hni] at hbit
      simpa using hbit
  | cont me below hr | thaw me below hr => cases (hz.top hr).1

/-- **A signal is acted on at most as often as it was sent**, as far as the steps are exact. -/
theorem tally_step {h : Nat × Nat} {k : Nat} (hl : locking.Locked s)
    (hz : SignalZero s) (hs : sendsExact s c = true)
    (ha : actsExact s c e = true) (hinv : h.2 + pendingCount s p i ≤ h.1 + k) :
    (tally p i s c e h).2 + pendingCount (exec kernel s c e) p i ≤ (tally p i s c e h).1 + k := by
  have hsent : h.1 ≤ (tally p i s c e h).1 := by
    show h.1 ≤ if _ then _ else _
    split
    · exact Nat.le_succ _
    · exact Nat.le_refl _
  by_cases hacts : actsOn s c e = some (p, i)
  · simp only [actsExact, hacts, and_eq_true, decide_eq_true_eq] at ha
    obtain ⟨-, hpend, -⟩ := act_clears hl hacts ha.1 ha.2
    have hzero : pendingCount (exec kernel s c e) p i = 0 := by
      refine pendingCount_zero ?_
      rw [hpend, xor_sigBit, and_sigBit.1 ha.2]
      simp
    have hacted : (tally p i s c e h).2 = h.2 + 1 := if_pos hacts
    rw [pendingCount_eq ha.2] at hinv
    omega
  have hkept := pending_kept hl hz hs hacts
  have hacted : (tally p i s c e h).2 = h.2 := if_neg hacts
  omega

end

/-- **What `kill` and `signal_handler` do to the pending set.** `kill(pid, i)` sets the bit `i` and
    no other exactly if that bit and the bits of the number `i` are set already; acting on a signal
    clears its bit and no other exactly if it is delivered to a user handler while its bit is set;
    and in every run in which all steps meet these conditions a signal is acted on at most as often
    as it was sent, not counting one that was pending before. -/
theorem signals_exact (g : Pages) (um : UserMem) (tr : List (CpuId × Env)) :
    let s := run kernel (boot g um) tr
    (∀ c e j (i : Fin NUMOFSIGNALS), sends s c = some (j, BitVec.ofNat 32 i.val) →
      ((((exec kernel s c e).mem.procs j).pendingsignals = (s.mem.procs j).pendingsignals ||| sigBit i ∧
          ∀ q, q ≠ j →
            ((exec kernel s c e).mem.procs q).pendingsignals = (s.mem.procs q).pendingsignals) ↔
        (s.mem.procs j).pendingsignals &&& sigBit i ≠ 0 ∧
          BitVec.ofNat 32 i.val &&& ~~~(s.mem.procs j).pendingsignals = 0)) ∧
    (∀ c e p i, actsOn s c e = some (p, i) → (Clears s (exec kernel s c e) p i ↔
        actsByUser s c = true ∧ (s.mem.procs p).pendingsignals &&& sigBit i ≠ 0)) ∧
    ∀ p i tr', AlongHistory kernel (tally p i) (fun s c e _ => sendsExact s c = true ∧
        actsExact s c e = true) s (0, 0) tr' →
      let h := history kernel (tally p i) s (0, 0) tr'
      h.2 ≤ h.1 + pendingCount s p i := by
  intro s
  have hl : locking.Locked s := run_locked g um tr
  have hz : SignalZero s := run_signalZero g um tr
  refine ⟨fun c e j i hs => ?_, fun c e p i ha => ?_, fun p i tr' h => ?_⟩
  · obtain ⟨hpend, hother⟩ := send_pending (e := e) hl hs
    rw [hpend, and_iff_left fun q hq => congrArg Proc.pendingsignals (hother q hq)]
    exact or_number
  · exact ⟨fun hc => ⟨clears_user hz ha hc, hc.1⟩, fun ⟨hu, hp⟩ => act_clears hl ha hu hp⟩
  obtain ⟨-, -, hinv⟩ := h.invariant (fun s' h => locking.Locked s' ∧
    SignalZero s' ∧
      h.2 + pendingCount s' p i ≤ h.1 + pendingCount s p i)
    ⟨hl, hz, by simp⟩ fun s' c e h ⟨hs, ha⟩ ⟨hl, hz, hinv⟩ =>
      ⟨hl.step kernel_disciplined exec_step, hz.step (signalZero_introduces hl) exec_step,
        tally_step hl hz hs ha hinv⟩
  exact Nat.le_trans (Nat.le_add_right _ _) hinv

/-- With signal 0 blocked and pending, together with the bits of 9, sending it once more is
    exact. -/
theorem signals_exact_blocked :
    let s := run kernel (boot firstPages fun _ => none) (steps 0 14 ++ ecall 0 22 1 0 :: steps 0 20 ++
      ecall 0 6 1 9 :: steps 0 30 ++ ecall 0 6 1 0 :: steps 0 5)
    sends s 0 = some (0, 0) ∧
      ((exec kernel s 0 {}).mem.procs 0).pendingsignals = (s.mem.procs 0).pendingsignals ||| sigBit 0 := by
  obtain ⟨hsend, -⟩ := signals_exact firstPages (fun _ => none) (steps 0 14 ++ ecall 0 22 1 0 ::
    steps 0 20 ++ ecall 0 6 1 9 :: steps 0 30 ++ ecall 0 6 1 0 :: steps 0 5)
  exact ⟨by decide +kernel, ((hsend 0 {} 0 0 (by decide +kernel)).2 (by decide +kernel)).1⟩

/-- The first process sends itself signal 9: the bits 0 and 3 are set, and 9 is not. On the way back
    to user mode signal 0, which nobody has sent, is acted on, and its bit stays set. -/
theorem signals_mixed_up :
    let s := run kernel (boot firstPages fun _ => none) (steps 0 14 ++ ecall 0 6 1 9 :: steps 0 5)
    let s' := run kernel s (steps 0 13)
    (sends s 0 = some (0, 9) ∧ (s.mem.procs 0).pendingsignals = 0 ∧
      ((exec kernel s 0 {}).mem.procs 0).pendingsignals = sigBit 0 ||| sigBit 3) ∧
    actsOn s' 0 {} = some (0, 0) ∧
      ((exec kernel s' 0 {}).mem.procs 0).pendingsignals = sigBit 0 ||| sigBit 3 := by
  decide +kernel

end Xv6
