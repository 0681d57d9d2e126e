import Xv6.Signals.Actions

set_option autoImplicit false

/-! # Which signals are acted on, and how they get to the user

`signal_handler` is to act on every signal that is pending and not blocked, in the order of their
numbers. Its test combines the two bits with a truth value, so that it holds for signal 0 only, and
it leaves the loop at the first signal for which it does not hold. So it acts on signal 0 if that
one is to be acted on, and on no other (`signalHandlerRun_eq`).

A signal with a user handler is delivered by `signalhandler_user`, after `usertrapret` has loaded
the address at which the user code goes on. It takes the handler and the mask of the signal, which
are values, for user addresses, and reads from the address in the user's stack pointer as if it were
one of its own. `deliver_iff` says in which states the user code starts all the same as it
should. -/

namespace Xv6

open Function List Machine Option

/-! ## One run of `signal_handler` -/

/-- The loop of `signal_handler` over the given signals: those it acts on, and what it does. The
    process is what `after` says when the action for a signal has been taken. -/
def signalHandlerFrom (after : Fin NUMOFSIGNALS → Proc → Proc) :
    List (Fin NUMOFSIGNALS) → Proc → List (Fin NUMOFSIGNALS × SigAction)
  | [], _ => []
  | i :: is, p =>
    if sigDeliverable p i then (i, sigActionOf p i) :: signalHandlerFrom after is (after i p) else []

def signalHandlerRun (after : Fin NUMOFSIGNALS → Proc → Proc) (p : Proc) :
    List (Fin NUMOFSIGNALS × SigAction) :=
  if p.handlingSignal then [] else signalHandlerFrom after (List.finRange NUMOFSIGNALS) p

/-- The call that takes an action. -/
def SigAction.call (me : ThreadRef) (i : Fin NUMOFSIGNALS) : SigAction → KInstr
  | .ignore => .goto (.signalHandler me (.next i))
  | .sigkill => .call (.sigkillHandler me .acquire) (.signalHandler me (.next i))
  | .sigcont => .call (.sigcontHandler me .start) (.signalHandler me (.next i))
  | .sigstop => .call (.sigstopHandler me .start) (.signalHandler me (.next i))
  | .user => .call (.signalhandlerUser me i .acquire) (.signalHandler me (.next i))

/-- One round of the loop in the kernel's code takes the next action of the run, or ends it. -/
theorem signalHandlerCode_loop (v : KView) (me : ThreadRef) (i : Fin NUMOFSIGNALS)
    (after : Fin NUMOFSIGNALS → Proc → Proc) (is : List (Fin NUMOFSIGNALS)) :
    signalHandlerCode v me (.loop i) =
      match signalHandlerFrom after (i :: is) (v.mem.procs me.p) with
      | [] => .goto (.signalHandler me .done)
      | a :: _ => a.2.call me i := by
  simp only [signalHandlerCode, signalHandlerFrom]
  split
  · cases sigActionOf (v.mem.procs me.p) i <;> rfl
  · rfl

/-- The signal is pending and not blocked. -/
def toBeActedOn (p : Proc) (i : Fin NUMOFSIGNALS) : Bool :=
  p.pendingsignals.getLsbD i.val && !p.signalmask.getLsbD i.val

/-- What is to be done with a signal. -/
def actionFor (p : Proc) (i : Fin NUMOFSIGNALS) : SigAction :=
  if p.signalhandlers i = SIG_IGN then .ignore
  else if i = SIGKILL then .sigkill
  else if p.signalhandlers i = SIG_DFL then
    if i = SIGSTOP then .sigstop else if i = SIGCONT then .sigcont else .sigkill
  else .user

/-- The actions up to the first one that installs a user handler. -/
def uptoUser : List (Fin NUMOFSIGNALS × SigAction) → List (Fin NUMOFSIGNALS × SigAction)
  | [] => []
  | a :: as => if a.2 = .user then [a] else a :: uptoUser as

/-- What a run of `signal_handler` is to do. -/
def actionsFor (p : Proc) : List (Fin NUMOFSIGNALS × SigAction) :=
  uptoUser (((List.finRange NUMOFSIGNALS).filter (toBeActedOn p)).map fun i => (i, actionFor p i))

/-- The actions that are more than going on to the next signal. -/
def effective (as : List (Fin NUMOFSIGNALS × SigAction)) : List (Fin NUMOFSIGNALS × SigAction) :=
  as.filter fun a => a.2 ≠ .ignore

section

variable {p : Proc} {i : Fin NUMOFSIGNALS}

theorem sigDeliverable_first : sigDeliverable p 0 = toBeActedOn p 0 := by
  have hone : sigBit 0 = 1#32 := rfl
  have hp := and_sigBit (x := p.pendingsignals) (i := 0)
  have hm := and_sigBit (x := p.signalmask) (i := 0)
  by_cases hmask : p.signalmask &&& sigBit 0 = 0
  · have hbit : p.signalmask.getLsbD (0 : Fin NUMOFSIGNALS).val = false := by
      by_contra hne
      exact hm.2 (eq_true_of_ne_false hne) hmask
    rw [sigDeliverable, toBeActedOn, if_pos hmask, hbit, Bool.eq_iff_iff, decide_eq_true_iff,
      BitVec.and_assoc, hone, BitVec.and_self, ← hone, hp, Bool.not_false, Bool.and_true]
  · rw [sigDeliverable, toBeActedOn, if_neg hmask, hm.1 hmask]
    simp

theorem actionFor_first : sigActionOf p 0 = actionFor p 0 := by
  unfold sigActionOf actionFor
  split
  · rfl
  split
  · rfl
  · rfl

/-- **A run of `signal_handler` acts on signal 0 if that one is pending and not blocked, and on no
    other.** -/
theorem signalHandlerRun_eq (after : Fin NUMOFSIGNALS → Proc → Proc) (h : p.handlingSignal = false) :
    signalHandlerRun after p = if toBeActedOn p 0 then [(0, actionFor p 0)] else [] := by
  have hrest : ∀ q, signalHandlerFrom after ((List.finRange 31).map Fin.succ) q = [] := by
    intro q
    have hone : sigDeliverable q 1 = false := by
      by_contra hne
      exact absurd (sigDeliverable_zero (eq_true_of_ne_false hne)) (by decide)
    rw [finRange_succ, map_cons, signalHandlerFrom]
    exact if_neg (ne_true_of_eq_false hone)
  rw [signalHandlerRun, h, if_neg (by decide), finRange_succ, signalHandlerFrom, hrest,
    sigDeliverable_first, actionFor_first]

theorem effective_uptoUser (as : List (Fin NUMOFSIGNALS × SigAction)) :
    effective (uptoUser as) = [] ↔ ∀ a, a ∈ as → a.2 = .ignore := by
  induction as with
  | nil => simp [uptoUser, effective]
  | cons a as ih =>
    rw [uptoUser]
    split
    · next h => simp [effective, h]
    next h =>
    rw [forall_mem_cons, ← ih, effective, filter_cons]
    split
    · next hne => simp_all
    · next heq => simp_all [effective]

/-- **`signal_handler` does what it is to do if signal 0 gets a user handler, or no other signal
    that is pending and not blocked asks for anything; in all other states it does not.** -/
theorem signal_handler_acts_iff (p : Proc) (after : Fin NUMOFSIGNALS → Proc → Proc)
    (h : p.handlingSignal = false) :
    effective (signalHandlerRun after p) = effective (actionsFor p) ↔
      (toBeActedOn p 0 = true ∧ actionFor p 0 = .user) ∨
        ∀ i, i ≠ 0 → toBeActedOn p i = true → p.signalhandlers i = SIG_IGN := by
  have hignore : ∀ i, actionFor p i = .ignore ↔ p.signalhandlers i = SIG_IGN := by
    intro i
    unfold actionFor
    repeat' split
    all_goals simp_all
  -- what is to be done for the signals after the first
  let later := (((List.finRange 31).map Fin.succ).filter (toBeActedOn p)).map fun i => (i, actionFor p i)
  have hlater : effective (uptoUser later) = [] ↔
      ∀ i, i ≠ 0 → toBeActedOn p i = true → p.signalhandlers i = SIG_IGN := by
    rw [effective_uptoUser]
    constructor
    · intro hall i hi hact
      obtain ⟨j, rfl⟩ : ∃ j : Fin 31, j.succ = i := ⟨i.pred hi, Fin.succ_pred i hi⟩
      refine (hignore _).1 (hall (j.succ, _) (mem_map_of_mem ?_))
      exact mem_filter.2 ⟨mem_map_of_mem (mem_finRange j), hact⟩
    intro hall a ha
    obtain ⟨i, hi, rfl⟩ := mem_map.1 ha
    obtain ⟨hmem, hact⟩ := mem_filter.1 hi
    obtain ⟨j, -, rfl⟩ := mem_map.1 hmem
    exact (hignore _).2 (hall _ (Fin.succ_ne_zero j) hact)
  have hspec : actionsFor p = if toBeActedOn p 0 then
      if actionFor p 0 = .user then [(0, actionFor p 0)] else (0, actionFor p 0) :: uptoUser later
      else uptoUser later := by
    rw [actionsFor, finRange_succ, filter_cons]
    split
    · rw [map_cons, uptoUser]
    · rfl
  rw [← hlater, signalHandlerRun_eq after h, hspec]
  by_cases hzero : toBeActedOn p 0 = true
  · rw [if_pos hzero, if_pos hzero]
    by_cases huser : actionFor p 0 = .user
    · simp [huser, hzero]
    have hcons : effective ((0, actionFor p 0) :: uptoUser later)
        = effective [(0, actionFor p 0)] ++ effective (uptoUser later) := by
      rw [← singleton_append, effective, filter_append]
      rfl
    rw [if_neg huser, hcons, self_eq_append_right]
    simp [huser]
  rw [if_neg hzero, if_neg hzero]
  constructor
  · intro heq
    exact .inr heq.symm
  rintro (⟨hpos, -⟩ | heq)
  · exact absurd hpos hzero
  · exact heq.symm

end

/-- Signals 0 and 2 are pending, and there is a handler for signal 0. -/
def handled : Proc :=
  { pendingsignals := sigBit 0 ||| sigBit 2, signalhandlers := fun i => if i = 0 then 64 else 0 }

theorem signal_handler_acts_user : actionsFor handled = [(0, .user)] ∧
    effective (signalHandlerRun (fun _ p => p) handled) = effective (actionsFor handled) :=
  ⟨by decide +kernel, (signal_handler_acts_iff handled (fun _ p => p) rfl).2 (.inl (by decide +kernel))⟩

/-- Signal 2 is pending, with its default action, and the process should be killed. -/
def interrupted : Proc := { pendingsignals := sigBit 2 }

theorem signal_handler_passes :
    interrupted.handlingSignal = false ∧ actionsFor interrupted = [(2, .sigkill)] ∧
      ∀ after, signalHandlerRun after interrupted = [] := by
  refine ⟨rfl, by decide +kernel, fun after => ?_⟩
  rfl

/-! ## Delivery to a user handler -/

/-- `usertrapret` from the assignment to `sepc` on, when signal `n` goes to a user handler; `none`
    is the page fault in the kernel. -/
def deliverSignal (m : Mem) (c : CpuId) (me : ThreadRef) (n : Fin NUMOFSIGNALS) (junk : Junk) : Option Mem :=
  let m := (Act.setSepc c me).apply m
  match signalhandlerUser (m.procs me.p) me.i n junk with
  | none => none
  | some _ => some ((Act.proc me.p (.deliver me.i n junk)).apply m)

/-- The user code goes on in the handler, with the number of the signal as its argument, and the
    handler returns to the code of `sigret` on the stack. -/
structure Delivered (m m' : Mem) (c : CpuId) (me : ThreadRef) (n : Fin NUMOFSIGNALS)
    (a : Sigaction) : Prop where
  sepc : m'.sepc c = a.handler
  a0 : (m'.procs me.p).frames me.i .a0 = BitVec.ofNat 64 n.val
  ra : (m'.procs me.p).frames me.i .ra = (m'.procs me.p).frames me.i .sp
  stub : copyin (m'.procs me.p).umem ((m'.procs me.p).frames me.i .sp).toNat sigretStub.length = some sigretStub
  mask : (m'.procs me.p).signalmask = a.mask
  others : ∀ r, r ≠ .epc → r ≠ .ra → r ≠ .sp → r ≠ .a0 →
    (m'.procs me.p).frames me.i r = (m.procs me.p).frames me.i r

/-- Where `signalhandler_user` stores a word for no purpose. -/
def wordAddr (p : Proc) (i : TIdx) : Nat := (p.frames i .sp - BitVec.ofNat 64 sizeofTrapframe).toNat

/-- Where it puts the code of `sigret`. -/
def stubAddr (p : Proc) (i : TIdx) : Nat := (p.frames i .sp - BitVec.ofNat 64 sigretStub.length).toNat

/-- The mask that it installs: the word at the user address which is the value of the mask. -/
def maskRead (p : Proc) (n : Fin NUMOFSIGNALS) (junk : Junk) : BitVec 32 :=
  ((copyin p.umem (p.signalmasks n).toNat 4).map fun bs => BitVec.ofNat 32 (leNat bs)).getD junk.mask

section

variable {p q : Proc} {i : TIdx} {n : Fin NUMOFSIGNALS} {junk : Junk} {um um' : UserMem} {m m' : Mem}
  {c : CpuId} {me : ThreadRef} {va : Nat} {bs : List (BitVec 8)}

theorem copyout_mapped (a : Nat) : ((copyout um va bs).1 a).isSome = (um a).isSome := by
  induction bs generalizing um va with
  | nil => rfl
  | cons b bs ih =>
    rw [copyout]
    split
    · rfl
    next h =>
    rw [ih, update_apply]
    split
    · next heq => rw [heq, h]; rfl
    · rfl

theorem copyout_succeeds (h : ∀ k, k < bs.length → (um (va + k)).isSome) : (copyout um va bs).2 = true := by
  induction bs generalizing um va with
  | nil => rfl
  | cons b bs ih =>
    rw [copyout]
    split
    · next hnone =>
      have := h 0 (Nat.succ_pos _)
      rw [Nat.add_zero, hnone] at this
      cases this
    refine ih fun k hk => ?_
    rw [update_of_ne (by omega), Nat.add_assoc, Nat.add_comm 1 k]
    exact h (k + 1) (Nat.succ_lt_succ hk)

variable {len src : Nat} {byte : Nat → BitVec 8} {b : BitVec 8}

theorem copyin_mapped (h : copyin um va len = some bs) (k : Nat) (hk : k < len) : (um (va + k)).isSome := by
  induction len generalizing va bs k with
  | zero => exact absurd hk (Nat.not_lt_zero k)
  | succ len ih =>
    rw [copyin] at h
    split at h
    · cases h
    next b hb =>
    cases k with
    | zero => rw [Nat.add_zero, hb]; rfl
    | succ k =>
      obtain ⟨bs', hbs', -⟩ := map_eq_some_iff.1 h
      have := ih hbs' k (Nat.lt_of_succ_lt_succ hk)
      rwa [Nat.add_assoc, Nat.add_comm 1 k] at this

theorem copyoutFrom_unmapped (h : um va = none) : copyoutFrom um va src byte len = some um := by
  cases len with
  | zero => rfl
  | succ len => rw [copyoutFrom, h]

theorem copyoutFrom_below {a : Nat} (ha : a < va)
    (h : copyoutFrom um va src byte len = some um') : um' a = um a := by
  induction len generalizing um va src with
  | zero => exact (congrFun (some.inj h) a).symm
  | succ len ih =>
    rw [copyoutFrom] at h
    split at h
    · exact (congrFun (some.inj h) a).symm
    split at h
    · rw [ih (Nat.lt_succ_of_lt ha) h, update_of_ne (Nat.ne_of_lt ha)]
    · cases h

theorem copyoutFrom_first (hb : um va = some b)
    (h : copyoutFrom um va src byte (len + 1) = some um') : um' va = some (byte src) := by
  rw [copyoutFrom, hb] at h
  simp only at h
  split at h
  · rw [copyoutFrom_below (Nat.lt_succ_self va) h, update_self]
  · cases h

theorem signalhandlerUser_some (h : signalhandlerUser p i n junk = some q) :
    ∃ um, copyoutFrom p.umem (wordAddr p i) (p.frames i .sp).toNat junk.byte 8 = some um ∧
      q.umem = (copyout um (stubAddr p i) sigretStub).1 ∧ q.signalmask = maskRead p n junk ∧
      q.frames i .a0 = BitVec.ofNat 64 n.val ∧ q.frames i .ra = q.frames i .sp ∧
      (q.frames i .sp).toNat = stubAddr p i ∧
      ∀ r, r ≠ .epc → r ≠ .ra → r ≠ .sp → r ≠ .a0 → q.frames i r = p.frames i r := by
  unfold signalhandlerUser at h
  simp only at h
  split at h
  · cases h
  next um hum =>
  cases h
  refine ⟨um, hum, rfl, rfl, ?_, ?_, ?_, ?_⟩
  · simp
  · simp
  · simp [stubAddr]
  · intro r h1 h2 h3 h4
    simp [h1, h2, h3, h4]

theorem signalhandlerUser_unmapped (h : p.umem (wordAddr p i) = none) :
    ∃ q, ∀ byte, signalhandlerUser p i n { junk with byte := byte } = some q := by
  have hcopy : ∀ byte, copyoutFrom p.umem (p.frames i .sp - BitVec.ofNat 64 sizeofTrapframe).toNat
      (p.frames i .sp).toNat byte 8 = some p.umem := fun byte => copyoutFrom_unmapped h
  simp only [signalhandlerUser, hcopy]
  exact ⟨_, fun _ => rfl⟩

theorem word_not_stub (p : Proc) (i : TIdx) :
    wordAddr p i < stubAddr p i ∨ stubAddr p i + sigretStub.length ≤ wordAddr p i := by
  have hlen : sigretStub.length = 6 := rfl
  rw [wordAddr, stubAddr, sizeofTrapframe, hlen]
  bv_omega

theorem signalhandlerUser_word (hb : p.umem (wordAddr p i) = some b)
    (h : signalhandlerUser p i n junk = some q) :
    q.umem (wordAddr p i) = some (junk.byte (p.frames i .sp).toNat) := by
  obtain ⟨um, hcopy, humem, -⟩ := signalhandlerUser_some h
  rw [humem, copyout_outside (word_not_stub p i)]
  exact copyoutFrom_first hb hcopy

theorem deliverSignal_eq (m : Mem) (c : CpuId) (me : ThreadRef) (n : Fin NUMOFSIGNALS) (junk : Junk) :
    deliverSignal m c me n junk = (signalhandlerUser (m.procs me.p) me.i n junk).map fun q =>
      { m with
        sepc := update m.sepc c ((m.procs me.p).frames me.i .epc)
        procs := update m.procs me.p q } := by
  have hprocs : ((Act.setSepc c me).apply m).procs = m.procs := rfl
  simp only [deliverSignal, hprocs]
  cases h : signalhandlerUser (m.procs me.p) me.i n junk with
  | none => rfl
  | some q =>
    simp only [Act.apply, ProcAct.apply, Mem.modProc, h, getD_some, map_some]

/-- **The handler of a signal is entered as it should be, and the kernel reads no address of the
    user's directly, exactly if the user code was about to go on at the handler's address anyway,
    there is no memory where the kernel stores its word, the mask is at the address which is its
    value, and there is memory for the code of `sigret`.** -/
theorem deliver_iff (m : Mem) (c : CpuId) (me : ThreadRef) (n : Fin NUMOFSIGNALS) (junk : Junk) :
    (∃ m', (∀ byte, deliverSignal m c me n { junk with byte := byte } = some m') ∧
        Delivered m m' c me n ((m.procs me.p).action n)) ↔
      (m.procs me.p).frames me.i .epc = (m.procs me.p).signalhandlers n ∧
      (m.procs me.p).umem (wordAddr (m.procs me.p) me.i) = none ∧
      maskRead (m.procs me.p) n junk = (m.procs me.p).signalmasks n ∧
      ∀ k, k < sigretStub.length → ((m.procs me.p).umem (stubAddr (m.procs me.p) me.i + k)).isSome := by
  constructor
  · rintro ⟨m', hall, hdel⟩
    have hcall : ∀ byte, ∃ q, signalhandlerUser (m.procs me.p) me.i n { junk with byte := byte } = some q ∧
        { m with
          sepc := update m.sepc c ((m.procs me.p).frames me.i .epc)
          procs := update m.procs me.p q } = m' := fun byte => by
      have h := hall byte
      rw [deliverSignal_eq] at h
      exact map_eq_some_iff.1 h
    have hproc : ∀ byte q, { m with
        sepc := update m.sepc c ((m.procs me.p).frames me.i .epc)
        procs := update m.procs me.p q } = m' →
        signalhandlerUser (m.procs me.p) me.i n { junk with byte := byte } = some q → m'.procs me.p = q := by
      rintro byte q rfl -
      exact update_self ..
    obtain ⟨q, hq, hm'⟩ := hcall junk.byte
    have hself := hproc _ q hm' hq
    have hword : (m.procs me.p).umem (wordAddr (m.procs me.p) me.i) = none := by
      cases hb : (m.procs me.p).umem (wordAddr (m.procs me.p) me.i) with
      | none => rfl
      | some b =>
        -- two contents of the kernel's memory give two contents of the user's
        obtain ⟨q₀, hq₀, hm₀⟩ := hcall fun _ => 0
        obtain ⟨q₁, hq₁, hm₁⟩ := hcall fun _ => 1
        have h₀ := signalhandlerUser_word hb hq₀
        have h₁ := signalhandlerUser_word hb hq₁
        rw [← hproc _ q₀ hm₀ hq₀] at h₀
        rw [← hproc _ q₁ hm₁ hq₁, h₀] at h₁
        have hsame : (0 : BitVec 8) = 1 := some.inj h₁
        exact absurd hsame (by decide)
    obtain ⟨um, hcopy, humem, hmask, -, -, hsp, -⟩ := signalhandlerUser_some hq
    obtain rfl : _ = um := some.inj ((copyoutFrom_unmapped hword).symm.trans hcopy)
    refine ⟨?_, hword, ?_, ?_⟩
    · rw [← hm'] at hdel
      have hsepc := hdel.sepc
      rwa [show ({ m with sepc := _, procs := _ } : Mem).sepc c = _ from update_self ..] at hsepc
    · have h := hdel.mask
      rw [hself, hmask] at h
      exact h
    intro k hk
    have h := hdel.stub
    rw [hself, hsp, humem] at h
    have hmapped := copyin_mapped h k hk
    rwa [copyout_mapped] at hmapped
  · rintro ⟨hepc, hword, hmask, hmapped⟩
    obtain ⟨q, hq⟩ : ∃ q, ∀ byte, signalhandlerUser _ _ n { junk with byte := byte } = some q :=
      signalhandlerUser_unmapped hword
    refine ⟨{ m with
        sepc := update m.sepc c ((m.procs me.p).frames me.i .epc)
        procs := update m.procs me.p q }, fun byte => ?_, ?_⟩
    · rw [deliverSignal_eq, hq byte]
      rfl
    obtain ⟨um, hcopy, humem, hmask', ha0, hra, hsp, hregs⟩ := signalhandlerUser_some (hq junk.byte)
    obtain rfl : _ = um := some.inj ((copyoutFrom_unmapped hword).symm.trans hcopy)
    have hself : (update m.procs me.p q) me.p = q := update_self ..
    constructor <;> simp only [hself]
    · exact (update_self ..).trans hepc
    · exact ha0
    · exact hra
    · rw [hsp, humem]
      exact copyin_copyout (copyout_succeeds hmapped)
    · exact hmask'.trans hmask
    · exact hregs

end

/-- A process with its code in page 0 and its stack in page 2; page 1 is not for the user. It has
    called `sigaction` for signal 0, which is pending, with the structure at the address 64: the
    handler is at 2, and there is no mask. -/
def handlerProc (epc sp : BitVec 64) : Proc :=
  (sigactionProc
    { umem := fun a => if a < 4096 ∨ 8192 ≤ a ∧ a < 12288 then some (if a = 64 then 2 else 0) else none
      frames := fun _ => update (update (fun _ => 0) .epc epc) .sp sp
      pendingsignals := sigBit 0 }
    0 64 0 0).1

def handlerMem (epc sp : BitVec 64) : Mem := { bootMem with procs := fun _ => handlerProc epc sp }

/-- The code has come to the handler's address by itself, and there is no room left on its stack. -/
theorem deliver_low_stack :
    ∃ m', (∀ byte, deliverSignal (handlerMem 2 8300) 0 ⟨0, 0⟩ 0 { byte := byte } = some m') ∧
      Delivered (handlerMem 2 8300) m' 0 ⟨0, 0⟩ 0 ⟨2, 0⟩ :=
  (deliver_iff (handlerMem 2 8300) 0 ⟨0, 0⟩ 0 {}).2 (by decide +kernel)

/-- Anywhere else on the stack the kernel takes the stack pointer for an address of its own and
    faults; and where it does not, the user code goes on where it was. -/
theorem deliver_faults : (handlerProc 1024 12000).action 0 = ⟨2, 0⟩ ∧
      sigDeliverable (handlerProc 1024 12000) 0 = true ∧ sigActionOf (handlerProc 1024 12000) 0 = .user ∧
      deliverSignal (handlerMem 1024 12000) 0 ⟨0, 0⟩ 0 {} = none ∧
      (deliverSignal (handlerMem 1024 8300) 0 ⟨0, 0⟩ 0 {}).map (fun m => m.sepc 0) = some 1024 := by
  decide +kernel

end Xv6
