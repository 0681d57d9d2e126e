import Xv6.Signals.Pending
import Xv6.Threads.Status

set_option autoImplicit false

/-! # The actions of a process

For every signal a process has an action: a handler and the mask that goes with it. `sigaction` is
to replace one of them and to report the old one, and `fork` is to hand all of them on to the child.

`sigaction_proc` takes numbers up to 33 for a table of 32 entries. The two numbers too many reach
the fields behind the tables; for all others the call does what it is for, or fails and changes
nothing but the user's memory at `oldact`. `fork` copies the handlers and not their masks. -/

namespace Xv6

open BitVec Function List Machine Option SigView

/-! ## `struct sigaction` in user memory -/

structure Sigaction where
  handler : BitVec 64
  mask : BitVec 32
  deriving DecidableEq

/-- The sixteen bytes of a structure; the last four are padding. -/
def Sigaction.ofBytes (bs : List (BitVec 8)) : Sigaction :=
  ⟨BitVec.ofNat 64 (leNat (bs.take 8)), BitVec.ofNat 32 (leNat ((bs.drop 8).take 4))⟩

/-- The structure at a user address. -/
def readAction (um : UserMem) (va : Nat) : Option Sigaction := (copyin um va 16).map .ofBytes

def Proc.action (p : Proc) (i : Fin NUMOFSIGNALS) : Sigaction := ⟨p.signalhandlers i, p.signalmasks i⟩

def Proc.setAction (p : Proc) (i : Fin NUMOFSIGNALS) (a : Sigaction) : Proc :=
  { p with
    signalhandlers := update p.signalhandlers i a.handler
    signalmasks := update p.signalmasks i a.mask }

theorem Proc.action_setAction (p : Proc) (i : Fin NUMOFSIGNALS) (a : Sigaction) :
    (p.setAction i a).action i = a := by
  simp only [Proc.action, Proc.setAction, update_self]

section

variable {um um' : UserMem} {p : Proc} {i : Fin NUMOFSIGNALS} {signum : Int} {act oldact pad : Nat}

theorem leBytes_length (n v : Nat) : (leBytes n v).length = n := by
  induction n generalizing v with
  | zero => rfl
  | succ n ih => rw [leBytes, length_cons, ih]

theorem leNat_leBytes (n v : Nat) : leNat (leBytes n v) = v % 256 ^ n := by
  induction n generalizing v with
  | zero => rw [leBytes, leNat, Nat.pow_zero, Nat.mod_one]
  | succ n ih =>
    have hpow : 256 ^ (n + 1) = 256 * 256 ^ n := Nat.pow_succ'
    rw [leBytes, leNat, ih, toNat_ofNat, hpow, Nat.mod_mul]

theorem ofBytes_action (a : Sigaction) (pad : Nat) :
    Sigaction.ofBytes (leBytes 8 a.handler.toNat ++ leBytes 4 a.mask.toNat ++ leBytes 4 pad) = a := by
  have hlen := leBytes_length 8 a.handler.toNat
  have hlen' := leBytes_length 4 a.mask.toNat
  have htake : (leBytes 8 a.handler.toNat ++ leBytes 4 a.mask.toNat ++ leBytes 4 pad).take 8
      = leBytes 8 a.handler.toNat := by
    rw [List.append_assoc, take_left' hlen]
  have hdrop : ((leBytes 8 a.handler.toNat ++ leBytes 4 a.mask.toNat ++ leBytes 4 pad).drop 8).take 4
      = leBytes 4 a.mask.toNat := by
    rw [List.append_assoc, drop_left' hlen, take_left' hlen']
  have hhandler : a.handler.toNat % 256 ^ 8 = a.handler.toNat := Nat.mod_eq_of_lt a.handler.isLt
  have hmask : a.mask.toNat % 256 ^ 4 = a.mask.toNat := Nat.mod_eq_of_lt a.mask.isLt
  rw [Sigaction.ofBytes, htake, hdrop, leNat_leBytes, leNat_leBytes, hhandler, hmask,
    ofNat_toNat, ofNat_toNat, setWidth_eq, setWidth_eq]

theorem copyout_outside {va a : Nat} {bs : List (BitVec 8)} (h : a < va ∨ va + bs.length ≤ a) :
    (copyout um va bs).1 a = um a := by
  induction bs generalizing um va with
  | nil => rfl
  | cons b bs ih =>
    rw [length_cons] at h
    rw [copyout]
    split
    · rfl
    · rw [ih (by omega), update_of_ne (by omega)]

theorem copyin_congr {va n : Nat} (h : ∀ a, va ≤ a → a < va + n → um a = um' a) :
    copyin um va n = copyin um' va n := by
  induction n generalizing va with
  | zero => rfl
  | succ n ih =>
    rw [copyin, copyin, h va (Nat.le_refl _) (by omega), ih fun a hge hlt => h a (by omega) (by omega)]

/-! ## `sigaction_proc` -/

/-- `sigaction_proc` once more, with the indices at which it accesses `signalhandlers` and
    `signalmasks`. -/
def sigactionLogged (p : Proc) (signum : Int) (act oldact pad : Nat) : (Proc × Int) × List Nat :=
  if signum > 33 ∨ signum < 0 then ((p, -1), [])
  else
    let n := signum.toNat
    -- `tmp_old.sa_handler = p->signalhandlers[signum]`, and the mask
    let (r, log) := if oldact = 0 then ((p, true), []) else (sigactionOld p n oldact pad, [n, n])
    if r.2 = false then ((r.1, -1), log)
    else if act = 0 then ((r.1, 0), log)
    else if n = SIGKILL.val ∨ n = SIGSTOP.val then ((r.1, -1), log)
    else
      match copyin r.1.umem act 16 with
      | none => ((r.1, -1), log)
      -- `p->signalhandlers[signum] = tmp_sig.sa_handler`, and the mask
      | some bs =>
        ((setMaskAt (setHandlerAt r.1 n (BitVec.ofNat 64 (leNat (bs.take 8)))) n
          (BitVec.ofNat 32 (leNat ((bs.drop 8).take 4))), 0), log ++ [n, n])

theorem sigactionLogged_fst (p : Proc) (signum : Int) (act oldact pad : Nat) :
    (sigactionLogged p signum act oldact pad).1 = sigactionProc p signum act oldact pad := by
  unfold sigactionLogged sigactionProc sigactionNew
  by_cases hold : oldact = 0
  · simp only [hold, sigactionOld, if_true]
    split_ifs <;> try rfl
    cases copyin p.umem act 16 <;> rfl
  · simp only [hold, if_false]
    split_ifs <;> try rfl
    cases copyin _ act 16 <;> rfl

theorem sigactionOld_spec (p : Proc) (i : Fin NUMOFSIGNALS) (oldact pad : Nat) :
    ∃ um ok, sigactionOld p i.val oldact pad = ({ p with umem := um }, ok) ∧
      (∀ a, a < oldact ∨ oldact + 16 ≤ a → um a = p.umem a) ∧ (oldact = 0 → um = p.umem) ∧
      (ok = true → oldact ≠ 0 → readAction um oldact = some (p.action i)) := by
  rw [sigactionOld]
  split
  · next h => exact ⟨p.umem, true, rfl, fun _ _ => rfl, fun _ => rfl, fun _ hne => absurd h hne⟩
  next h =>
  have hh : handlerAt p i.val = (p.action i).handler := dif_pos i.isLt
  have hm : maskAt p i.val = (p.action i).mask := dif_pos i.isLt
  have hlen : (leBytes 8 (p.action i).handler.toNat ++ leBytes 4 (p.action i).mask.toNat ++
      leBytes 4 pad).length = 16 := by
    simp only [length_append, leBytes_length]
  rw [hh, hm]
  refine ⟨_, _, rfl, ?_, fun hzero => absurd hzero h, ?_⟩
  · intro a ha
    exact copyout_outside (by rwa [hlen])
  intro hok _
  have hread := copyin_copyout hok
  rw [hlen] at hread
  rw [readAction, hread, map_some, ofBytes_action]

theorem sigactionNew_spec (p : Proc) (i : Fin NUMOFSIGNALS) (act : Nat) :
    sigactionNew p i.val act = (p, -1) ∨
      (act = 0 ∧ sigactionNew p i.val act = (p, 0)) ∨
      ∃ a, act ≠ 0 ∧ readAction p.umem act = some a ∧ sigactionNew p i.val act = (p.setAction i a, 0) := by
  rw [sigactionNew]
  split
  · next h => exact .inr (.inl ⟨h, rfl⟩)
  next h =>
  split
  · exact .inl rfl
  split
  · exact .inl rfl
  next bs hbs =>
  refine .inr (.inr ⟨.ofBytes bs, h, ?_, ?_⟩)
  · rw [readAction, hbs, map_some]
  · rw [setHandlerAt, dif_pos i.isLt, setMaskAt, dif_pos i.isLt]
    rfl

theorem sigactionProc_signal (p : Proc) (i : Fin NUMOFSIGNALS) (act oldact pad : Nat) :
    sigactionProc p i.val act oldact pad =
      if (sigactionOld p i.val oldact pad).2 = false then ((sigactionOld p i.val oldact pad).1, -1)
      else sigactionNew (sigactionOld p i.val oldact pad).1 i.val act := by
  have hlt : i.val < 32 := i.isLt
  rw [sigactionProc, if_neg (by omega), Int.toNat_natCast]

theorem sigaction_reports (p : Proc) (i : Fin NUMOFSIGNALS) {old : Nat} (hold : old ≠ 0)
    (h : (sigactionProc p i.val 0 old pad).2 = 0) :
    readAction (sigactionProc p i.val 0 old pad).1.umem old = some (p.action i) := by
  obtain ⟨um, ok, heq, -, -, hread⟩ := sigactionOld_spec p i old pad
  rw [sigactionProc_signal, heq] at h ⊢
  cases ok with
  | false =>
    have : (-1 : Int) = 0 := h
    omega
  | true => exact hread rfl hold

/-- What `sigaction` is to do: it reports the old action and replaces it, or it fails and leaves all
    actions; of the process, nothing else changes but the user's memory at `oldact`. A structure at
    `act` that does not overlap the one at `oldact` is the one that the caller has put there. -/
def Replaces (p : Proc) (signum : Int) (act oldact : Nat) (r : Proc × Int) : Prop :=
  ∃ um, (∀ a, a < oldact ∨ oldact + 16 ≤ a → um a = p.umem a) ∧ (oldact = 0 → um = p.umem) ∧
    (r = ({ p with umem := um }, -1) ∨ ∃ p', r = (p', 0) ∧
      (oldact ≠ 0 → ∃ i : Fin NUMOFSIGNALS, signum = i.val ∧ readAction um oldact = some (p.action i)) ∧
      (act = 0 → p' = { p with umem := um }) ∧
      (act ≠ 0 → ∃ (i : Fin NUMOFSIGNALS) (a : Sigaction), signum = i.val ∧ readAction um act = some a ∧
        (act + 16 ≤ oldact ∨ oldact + 16 ≤ act → readAction p.umem act = some a) ∧
        p' = { p with umem := um }.setAction i a ∧
        ∀ old pad, old ≠ 0 → (sigactionProc p' signum 0 old pad).2 = 0 →
          readAction (sigactionProc p' signum 0 old pad).1.umem old = some a))

theorem sigaction_replaces (p : Proc) (i : Fin NUMOFSIGNALS) (act oldact pad : Nat) :
    Replaces p i.val act oldact (sigactionProc p i.val act oldact pad) := by
  obtain ⟨um, ok, heq, hout, hzero, hread⟩ := sigactionOld_spec p i oldact pad
  refine ⟨um, hout, hzero, ?_⟩
  rw [sigactionProc_signal, heq]
  cases ok with
  | false => exact .inl rfl
  | true =>
    have hold : oldact ≠ 0 → ∃ j : Fin NUMOFSIGNALS, (i.val : Int) = j.val ∧
      readAction um oldact = some (p.action j) :=
      fun hne => ⟨i, rfl, hread rfl hne⟩
    rcases sigactionNew_spec { p with umem := um } i act with hnew | ⟨hact, hnew⟩ | ⟨a, hact, ha, hnew⟩
    · exact .inl hnew
    · exact .inr ⟨_, hnew, hold, fun _ => rfl, fun hne => absurd hact hne⟩
    refine .inr ⟨_, hnew, hold, fun h => absurd h hact, fun _ => ⟨i, a, rfl, ha, ?_, rfl, ?_⟩⟩
    · intro hapart
      rw [← ha]
      refine congrArg (Option.map Sigaction.ofBytes) (copyin_congr fun b hge hlt => ?_)
      exact (hout b (by omega)).symm
    · intro old pad' hne hok
      rw [sigaction_reports _ i hne hok, Proc.action_setAction]

/-- The call gets to an entry behind the tables. -/
def Overruns (p : Proc) (signum : Int) (act oldact : Nat) : Prop :=
  (signum = 32 ∨ signum = 33) ∧ (oldact ≠ 0 ∨ act ≠ 0 ∧ copyin p.umem act 16 ≠ none)

theorem sigactionLogged_inside (hsig : signum ≠ 32 ∧ signum ≠ 33) :
    ∀ n, n ∈ (sigactionLogged p signum act oldact pad).2 → n < NUMOFSIGNALS := by
  intro n hn
  have hlog : n = signum.toNat ∧ ¬ (signum > 33 ∨ signum < 0) := by
    unfold sigactionLogged at hn
    by_cases hrange : signum > 33 ∨ signum < 0
    · simp [hrange] at hn
    · refine ⟨?_, hrange⟩
      revert hn
      simp only [hrange, if_false]
      repeat' split
      all_goals simp_all
  show n < 32
  omega

theorem sigactionLogged_overruns (h : Overruns p signum act oldact) :
    signum.toNat ∈ (sigactionLogged p signum act oldact pad).2 := by
  obtain ⟨hsig, hacc⟩ := h
  have hnot : ¬ (signum > 33 ∨ signum < 0) := by omega
  have hkill : ¬ (signum.toNat = SIGKILL.val ∨ signum.toNat = SIGSTOP.val) := by
    show ¬ (signum.toNat = 9 ∨ signum.toNat = 17)
    omega
  unfold sigactionLogged
  by_cases hold : oldact = 0
  · obtain ⟨hact, hmap⟩ := hacc.resolve_left fun h => h hold
    obtain ⟨bs, hbs⟩ := ne_none_iff_exists'.1 hmap
    simp [hnot, hold, hact, hbs, hkill]
  · simp only [hnot, hold, if_false]
    repeat' split
    all_goals simp

/-- **`sigaction_proc` does what it is to do, with all its accesses inside the tables, exactly if it
    does not get to an entry behind them.** -/
theorem sigaction_exact_iff (p : Proc) (signum : Int) (act oldact pad : Nat) :
    ((∀ n, n ∈ (sigactionLogged p signum act oldact pad).2 → n < NUMOFSIGNALS) ∧
      Replaces p signum act oldact (sigactionProc p signum act oldact pad)) ↔
        ¬ Overruns p signum act oldact := by
  constructor
  · rintro ⟨hin, -⟩ hover
    have hlt : signum.toNat < 32 := hin _ (sigactionLogged_overruns hover)
    have := hover.1
    omega
  intro hover
  by_cases hsig : signum = 32 ∨ signum = 33
  · -- neither `oldact` nor `act` gives anything to do
    have hold : oldact = 0 := by
      by_contra hne
      exact hover ⟨hsig, .inl hne⟩
    have hnot : ¬ (signum > 33 ∨ signum < 0) := by omega
    subst hold
    by_cases hact : act = 0
    · refine ⟨?_, p.umem, fun _ _ => rfl, fun _ => rfl, .inr ⟨p, ?_, fun h => absurd rfl h, fun _ => rfl,
        fun h => absurd hact h⟩⟩
      · simp [sigactionLogged, hnot, hact]
      · simp [sigactionProc, hnot, sigactionOld, sigactionNew, hact]
    have hnone : copyin p.umem act 16 = none := by
      by_contra hne
      exact hover ⟨hsig, .inr ⟨hact, hne⟩⟩
    refine ⟨?_, p.umem, fun _ _ => rfl, fun _ => rfl, .inl ?_⟩
    · simp [sigactionLogged, hnot, hact, hnone]
    · simp [sigactionProc, hnot, sigactionOld, sigactionNew, hact, hnone]
  · refine ⟨sigactionLogged_inside (by omega), ?_⟩
    by_cases hrange : signum > 33 ∨ signum < 0
    · exact ⟨p.umem, fun _ _ => rfl, fun _ => rfl, .inl (by rw [sigactionProc, if_pos hrange])⟩
    obtain ⟨i, rfl⟩ : ∃ i : Fin NUMOFSIGNALS, signum = i.val :=
      ⟨⟨signum.toNat, show signum.toNat < 32 by omega⟩, by show signum = (signum.toNat : Int); omega⟩
    exact sigaction_replaces p i act oldact pad

end

/-- User memory with a `struct sigaction` of the bytes 1 to 16 at the address 64. -/
def actionMem : UserMem := fun a => if 64 ≤ a ∧ a < 80 then some (BitVec.ofNat 8 (a - 63)) else none

/-- Number 32: the handler goes to the masks of the signals 0 and 1, and the mask to the pointer to
    the saved registers. -/
theorem sigaction_overflows :
    let r := sigactionProc { umem := actionMem, userTrapFrameBackup := 0x87f00000 } 32 64 0 0
    r.2 = 0 ∧
      32 ∈ (sigactionLogged { umem := actionMem, userTrapFrameBackup := 0x87f00000 } 32 64 0 0).2 ∧
        r.1.signalmasks 0 = 0x04030201 ∧
      r.1.signalmasks 1 = 0x08070605 ∧ r.1.userTrapFrameBackup = 0x0c0b0a09 := by
  decide +kernel

/-! ## What a child gets from `fork` -/

section

variable {s s' : KState} {c : CpuId} {e : Env} {p : PIdx} {m : Mem}

theorem allocproc_freeze (g : Pages) : ((Xv6.allocproc m p g).procs p).freeze = (m.procs p).freeze := by
  unfold Xv6.allocproc
  repeat' split
  all_goals simp [Mem.modThread, allocprocInit, Proc.modThread, Xv6.freeproc]

theorem signalhandlerUser_freeze {x y : Proc} {i : TIdx} {n : Fin NUMOFSIGNALS} {junk : Junk}
    (h : signalhandlerUser x i n junk = some y) : y.freeze = x.freeze := by
  unfold signalhandlerUser at h
  simp only at h
  split at h
  · cases h
  · cases h
    rfl

theorem freeze_step (hz : SignalZero s) (hstep : Step kernel s c e s') (h : (s.mem.procs p).freeze = false) :
    (s'.mem.procs p).freeze = false := by
  cases sig_of_step hstep p with
  | same hs | sigkill me below hr hp hs | create me fn stack k below hr hp hk tf hs =>
    exact (congrArg freeze hs).trans h
  | trap t regs stores _ _ _ hs =>
    rw [hs]
    exact h
  | alloc me below hr g hs =>
    rw [hs]
    exact (allocproc_freeze g).trans h
  | copy me below hr hs =>
    rw [hs]
    simp [Act.apply, forkCopyProc, h]
  | uncopy me below hr hs | reap me addr pid below hr hs =>
    rw [hs]
    simp [Act.apply, Xv6.freeproc, h]
  | access f k a below hr ha hact hcur hs =>
    rw [hs]
    cases ha with
    | freeze me => cases (hz.top hr).1
    | contThaw me | thaw me _ => rfl
    | deliver me n junk q hq =>
      simp only [ProcAct.apply, hq, getD_some]
      exact (signalhandlerUser_freeze hq).trans h
    | sigaction me signum act oldact pad k =>
      obtain ⟨handlers, hsig⟩ := sigaction_signals (s.mem.procs me.p) signum act oldact pad
      exact (congrArg freeze hsig).trans h
    | _ => exact h

/-- **No process is ever stopped**: `sigstop_handler` is not called. -/
theorem run_not_frozen (g : Pages) (um : UserMem) (tr : List (CpuId × Env)) (p : PIdx) :
    ((run kernel (boot g um) tr).mem.procs p).freeze = false := by
  refine (run_invariant (fun s => locking.Locked s ∧ SignalZero s ∧ ∀ p, (s.mem.procs p).freeze = false)
    ⟨boot_locked g um, boot_signalZero g um, ?_⟩ ?_).2.2 p
  · intro q
    have halloc : ((Xv6.allocproc bootMem 0 g).procs q).freeze = false := by
      by_cases hq : q = 0
      · rw [hq, allocproc_freeze]
        rfl
      · exact congrArg freeze (signals_allocproc (m := bootMem) (g := g) hq)
    refine Eq.trans (congrArg freeze (signals_modThread (m := Mem.modProc _ 0 _) _ _)) ?_
    rw [procs_modProc]
    split
    · next hq => rw [hq] at halloc; exact halloc
    · exact halloc
  rintro s c e ⟨hl, hz, hf⟩
  exact ⟨hl.step kernel_disciplined exec_step, hz.step (signalZero_introduces hl) exec_step,
    fun q => freeze_step hz exec_step (hf q)⟩

/-- What `fork` does to the tables when it uses the slot `j`. -/
def forkActs (me : ThreadRef) (j : PIdx) (g : Pages) : List Act :=
  [.allocproc j g, .forkCopy me j, .setParent j (some me.p), .forkRunnable j]

/-- The child that `fork` returns. -/
def forkChild (m : Mem) (me : ThreadRef) (j : PIdx) (g : Pages) : Proc :=
  ((forkActs me j g).foldl (fun m a => a.apply m) m).procs j

/-- The child has the parent's actions and its mask, no signal is pending for it, and it is not
    stopped. -/
def Inherits (p child : Proc) : Prop :=
  (∀ i, child.action i = p.action i) ∧ child.signalmask = p.signalmask ∧ child.pendingsignals = 0 ∧
    child.freeze = false

/-- Everything that a process with the given handlers and mask has to do with signals when it
    starts. -/
structure FreshSignals (child : Proc) (handlers : Fin NUMOFSIGNALS → BitVec 64) (mask : BitVec 32) : Prop where
  handlers : child.signalhandlers = handlers
  masks : ∀ i, child.signalmasks i = 0
  mask : child.signalmask = mask
  pending : child.pendingsignals = 0
  freeze : child.freeze = false
  handling : child.handlingSignal = false
  origin : child.signalmaskOrigin = 0

theorem allocproc_fresh {j : PIdx} {g : Pages} (hg : g.ok = true) :
    (∀ i, ((Xv6.allocproc m j g).procs j).signalmasks i = 0) ∧
      ((Xv6.allocproc m j g).procs j).handlingSignal = false ∧
      ((Xv6.allocproc m j g).procs j).signalmaskOrigin = 0 := by
  obtain ⟨⟨htf, hpt⟩, hbackup⟩ : (g.tf ≠ 0 ∧ g.pagetable = true) ∧ g.backup ≠ 0 := by
    simpa [Pages.ok] using hg
  have hpt' : ¬ g.pagetable = false := ne_false_of_eq_true hpt
  simp only [Xv6.allocproc, if_neg htf, if_neg hpt', if_neg hbackup]
  simp [allocprocInit, Mem.modThread, Proc.modThread]

theorem forkChild_eq {me : ThreadRef} {j : PIdx} {g : Pages} : ∃ tbl, forkChild m me j g =
      { forkCopyProc ((Xv6.allocproc m j g).procs me.p) ((Xv6.allocproc m j g).procs j) me.i with
        parent := some me.p, state := .used, threadTbl := tbl } := by
  simp only [forkChild, forkActs, foldl_cons, foldl_nil, Act.apply]
  simp only [Mem.modThread, procs_modProc, if_true, Proc.modThread]
  exact ⟨_, rfl⟩

theorem forkChild_fresh {me : ThreadRef} {j : PIdx} {g : Pages} (hj : j ≠ me.p) (hg : g.ok = true)
    (hf : (m.procs j).freeze = false) :
    FreshSignals (forkChild m me j g) (m.procs me.p).signalhandlers (m.procs me.p).signalmask := by
  have hparent := signals_allocproc (m := m) (g := g) hj.symm
  have hhandlers : ((Xv6.allocproc m j g).procs me.p).signalhandlers = (m.procs me.p).signalhandlers :=
    congrArg signalhandlers hparent
  have hmask : ((Xv6.allocproc m j g).procs me.p).signalmask = (m.procs me.p).signalmask :=
    congrArg signalmask hparent
  obtain ⟨hmasks, hhandling, horigin⟩ := allocproc_fresh (m := m) (j := j) hg
  obtain ⟨tbl, heq⟩ : ∃ tbl, forkChild m me j g = _ := forkChild_eq
  rw [heq]
  exact ⟨hhandlers, hmasks, hmask, rfl, (allocproc_freeze g).trans hf, hhandling, horigin⟩

/-- **In every run, the child of `fork` gets the handlers and the mask of the parent, and no mask of
    a handler; what was in its slot before does not matter.** -/
theorem fork_inherits_iff (g : Pages) (um : UserMem) (tr : List (CpuId × Env)) (me : ThreadRef) (j : PIdx)
    (pages : Pages) (hg : pages.ok = true) :
    let m := (run kernel (boot g um) tr).mem
    (m.procs me.p).state ≠ .unused → (m.procs j).state = .unused →
    FreshSignals (forkChild m me j pages) (m.procs me.p).signalhandlers (m.procs me.p).signalmask ∧
      (Inherits (m.procs me.p) (forkChild m me j pages) ↔ ∀ i, (m.procs me.p).signalmasks i = 0) := by
  intro m hparent hslot
  have hj : j ≠ me.p := by
    rintro rfl
    exact hparent hslot
  have hfresh : FreshSignals (forkChild m me j pages) _ _ :=
    forkChild_fresh hj hg (run_not_frozen g um tr j)
  refine ⟨hfresh, ?_⟩
  constructor
  · rintro ⟨hact, -⟩ i
    have hmask : (forkChild m me j pages).signalmasks i = (m.procs me.p).signalmasks i :=
      congrArg Sigaction.mask (hact i)
    rw [← hmask, hfresh.masks i]
  intro hzero
  refine ⟨fun i => ?_, hfresh.mask, hfresh.pending, hfresh.freeze⟩
  rw [Proc.action, Proc.action, hfresh.handlers, hfresh.masks i, hzero i]

end

/-- User memory with a `struct sigaction` at the address 64: a handler at 2 and no mask. -/
def sigactionMem : UserMem := fun a =>
  if 64 ≤ a ∧ a < 80 then some (if a = 64 then 2 else 0) else none

/-- The first process installs a handler for signal 0. -/
def installs : List (CpuId × Env) := steps 0 14 ++ ecall 0 23 0 64 :: steps 0 20

/-- It forks after that, and the child has the handler. -/
theorem fork_inherits_handler :
    let m := (run kernel (boot firstPages sigactionMem) installs).mem
    (m.procs 0).signalhandlers 0 = 2 ∧ Inherits (m.procs 0) (forkChild m ⟨0, 0⟩ 1 firstPages) ∧
      (forkChild m ⟨0, 0⟩ 1 firstPages).signalhandlers 0 = 2 := by
  intro m
  obtain ⟨hfresh, hiff⟩ := fork_inherits_iff firstPages sigactionMem installs ⟨0, 0⟩ 1 firstPages rfl
    (by decide +kernel) (by decide +kernel)
  have hset : (m.procs 0).signalhandlers 0 = 2 := by decide +kernel
  exact ⟨hset, hiff.2 (by decide +kernel), (congrFun hfresh.handlers 0).trans hset⟩

/-- The first process installs a handler with a mask for signal 0 and calls `fork`, which returns 2.
    The child has the handler and not its mask. -/
theorem fork_drops_masks :
    let s := run kernel (boot firstPages actionMem) (steps 0 14 ++ ecall 0 23 0 64 :: steps 0 20 ++
      ecall 0 1 0 0 :: List.replicate 30 (0, { pages := firstPages }))
    (s.mem.procs 0).frames 0 .a0 = 2 ∧ (s.mem.procs 1).pid = 2 ∧
      (s.mem.procs 1).signalhandlers 0 = (s.mem.procs 0).signalhandlers 0 ∧
      (s.mem.procs 0).signalmasks 0 = 0x0c0b0a09 ∧ (s.mem.procs 1).signalmasks 0 = 0 := by
  decide +kernel

end Xv6
