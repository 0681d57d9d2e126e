import Xv6.Threads.Exec

set_option autoImplicit false

/-! # What a step does to the signals of a process

`SigMove` lists the ways in which a step can change what a process has to do with signals: the
pending set, the mask and the handlers, the flags of the handlers, and the registers that delivery
saves and replaces. Most of them are accesses by a thread of the process itself (`access`); the
others are those of `sigkill_handler` and of the calls that set up and give back processes and
threads. -/

namespace Xv6

open Function Machine

/-- The part of a process that signals are about. -/
structure SigView where
  pendingsignals : BitVec 32
  signalmask : BitVec 32
  signalhandlers : Fin NUMOFSIGNALS → BitVec 64
  handlingSignal : Bool
  signalmaskOrigin : BitVec 32
  freeze : Bool
  killed : Bool
  backup : Trapframe
  frames : TIdx → Trapframe

def Proc.signals (p : Proc) : SigView :=
  ⟨p.pendingsignals, p.signalmask, p.signalhandlers, p.handlingSignal, p.signalmaskOrigin, p.freeze,
    p.killed, p.backup, p.frames⟩

/-- The changes that cpu `c` makes to the signals of process `p` in a step from `s` to `s'`. -/
inductive SigMove (s : KState) (c : CpuId) (s' : KState) (p : PIdx) : Prop where
  | same (h : (s'.mem.procs p).signals = (s.mem.procs p).signals)
  | trap (t : ThreadRef) (regs : Trapframe) (stores : UserMem) (ht : t.p = p)
      (hact : s.active c = []) (hcur : s.cur c = some t)
      (h : s'.mem.procs p = (ProcAct.saveUser t.i regs stores).apply (s.mem.procs p))
  | access (f k : Frame) (a : ProcAct) (below : List Frame) (hr : s.Runs c f below)
      (ha : Unseen s.mem f (.proc p a) k) (hact : s'.active c = k :: below) (hcur : s'.cur = s.cur)
      (h : s'.mem.procs p = a.apply (s.mem.procs p))
  | sigkill (me : ThreadRef) (below : List Frame) (hr : s.Runs c (.sigkillHandler me .kill) below)
      (hp : me.p = p)
      (h : (s'.mem.procs p).signals = { (s.mem.procs p).signals with killed := true })
  | alloc (me : ThreadRef) (below : List Frame) (hr : s.Runs c (.fork me (.found p)) below)
      (g : Pages) (h : s'.mem = (Act.allocproc p g).apply s.mem)
  | copy (me : ThreadRef) (below : List Frame) (hr : s.Runs c (.fork me (.copy p)) below)
      (h : s'.mem = (Act.forkCopy me p).apply s.mem)
  | uncopy (me : ThreadRef) (below : List Frame) (hr : s.Runs c (.fork me (.uncopy p)) below)
      (h : s'.mem = (Act.freeproc p).apply s.mem)
  | reap (me : ThreadRef) (addr : Nat) (pid : Int) (below : List Frame)
      (hr : s.Runs c (.wait me addr (.reap p pid)) below)
      (h : s'.mem = (Act.freeproc p).apply s.mem)
  | create (me : ThreadRef) (fn stack : BitVec 64) (k : TIdx) (below : List Frame)
      (hr : s.Runs c (.kthreadCreate me fn stack .find) below) (hp : me.p = p)
      (hk : firstUnused (s.mem.procs p) = some k) (tf : Trapframe)
      (h : (s'.mem.procs p).signals =
        { (s.mem.procs p).signals with
          frames := update (s.mem.procs p).frames k tf })

section

variable {s s' : KState} {c : CpuId} {e : Env} {p : PIdx} {m : Mem}

theorem signals_modThread (t : ThreadRef) (f : Thread → Thread) :
    ((m.modThread t f).procs p).signals = (m.procs p).signals := by
  simp only [Mem.modThread, procs_modProc]
  split
  · next h =>
    subst h
    rfl
  · rfl

theorem signals_modProc {q : PIdx} {f : Proc → Proc} (hf : ∀ x, (f x).signals = x.signals) :
    ((m.modProc q f).procs p).signals = (m.procs p).signals := by
  rw [procs_modProc]
  split
  · next h =>
    subst h
    exact hf _
  · rfl

theorem signals_other {q : PIdx} {f : Proc → Proc} (hne : p ≠ q) :
    ((m.modProc q f).procs p).signals = (m.procs p).signals := by
  rw [procs_modProc, if_neg hne]

theorem signals_allocproc {q : PIdx} {g : Pages} (hne : p ≠ q) :
    ((Xv6.allocproc m q g).procs p).signals = (m.procs p).signals := by
  rw [procs_allocproc_other m g hne]

/-- The accesses that leave the signals of every process alone. -/
def Act.mute : Act → Bool
  | .proc _ _ | .sigkill _ | .allocproc _ _ | .freeproc _ | .forkCopy _ _ | .createThread _ _ _ => false
  | _ => true

theorem Act.signals_mute {a : Act} (h : a.mute = true) :
    ((a.apply m).procs p).signals = (m.procs p).signals := by
  cases a with
  | setState | sleepOn | clearChan | wakeSlot | markKilled | freeThread => exact signals_modThread _ _
  | createFault t => exact signals_modThread (m := m) t _
  | wakeup | setParent =>
    simp only [Act.apply]
    exact signals_modProc fun _ => by rfl
  | exitProc t status | forkRunnable np =>
    refine (signals_modThread (m := m.modProc _ _) _ _).trans ?_
    exact signals_modProc fun _ => rfl
  | bsem | setSepc => rfl
  | _ => cases h

theorem sigaction_signals (x : Proc) (signum : Int) (act oldact pad : Nat) :
    ∃ h, (sigactionProc x signum act oldact pad).1.signals = { x.signals with signalhandlers := h } := by
  have hold : ∀ n, (sigactionOld x n oldact pad).1.signals = x.signals := by
    intro n
    unfold sigactionOld
    split <;> rfl
  have hnew : ∀ (y : Proc) (n : Nat), ∃ h, (sigactionNew y n act).1.signals =
      { y.signals with signalhandlers := h } := by
    intro y n
    unfold sigactionNew
    split
    · exact ⟨_, rfl⟩
    split
    · exact ⟨_, rfl⟩
    split
    · exact ⟨_, rfl⟩
    simp only [setMaskAt, setHandlerAt]
    repeat' split
    all_goals exact ⟨_, rfl⟩
  unfold sigactionProc
  split
  · exact ⟨_, rfl⟩
  simp only
  split
  · rw [hold]
    exact ⟨_, rfl⟩
  obtain ⟨h, hh⟩ := hnew (sigactionOld x signum.toNat oldact pad).1 signum.toNat
  rw [hh, hold]
  exact ⟨h, rfl⟩

/-- **Every step changes the signals of a process in one of the ways listed.** -/
theorem sig_of_step (hstep : Step kernel s c e s') (p : PIdx) : SigMove s c s' p := by
  have hmute : ∀ {a : Act}, s'.mem = a.apply s.mem → a.mute = true → SigMove s c s' p :=
    fun hmem ha => .same (by rw [hmem, Act.signals_mute ha])
  cases writes_of_step hstep with
  | none h => exact .same (by rw [h])
  | trap t regs stores hact hcur h =>
    by_cases hp : t.p = p
    · refine .trap t regs stores hp hact hcur ?_
      rw [h]
      simp [Act.apply, hp]
    refine .same ?_
    rw [h]
    exact signals_other (Ne.symm hp)
  | unseen f k a below hr ha hact hcur h =>
    cases a with
    | proc q a =>
      by_cases hp : q = p
      · subst hp
        refine .access f k a below hr ha hact hcur ?_
        rw [h]
        simp [Act.apply]
      refine .same ?_
      rw [h]
      exact signals_other (Ne.symm hp)
    | forkCopy me j =>
      by_cases hp : j = p
      · subst hp
        cases ha
        exact .copy me below hr h
      refine .same ?_
      rw [h]
      simp only [Act.apply]
      exact signals_other (Ne.symm hp)
    | sigkill | allocproc | freeproc | createThread => cases ha
    | _ => exact hmute h rfl
  | alters f k a below hr ha hact hcur h =>
    cases ha with
    | sigkill me =>
      by_cases hp : me.p = p
      · refine .sigkill me below hr hp ?_
        rw [h]
        refine (signals_modThread (m := s.mem.modProc _ _) _ _).trans ?_
        rw [procs_modProc, if_pos hp.symm, hp]
        rfl
      refine .same ?_
      rw [h]
      refine (signals_modThread (m := s.mem.modProc _ _) _ _).trans ?_
      exact signals_other (Ne.symm hp)
    | allocFail me j g hg =>
      by_cases hp : j = p
      · subst hp
        exact .alloc me below hr _ h
      refine .same ?_
      rw [h]
      exact signals_allocproc (Ne.symm hp)
    | uncopy me j =>
      by_cases hp : j = p
      · subst hp
        exact .uncopy me below hr h
      refine .same ?_
      rw [h]
      exact signals_other (Ne.symm hp)
    | reap me addr j pid =>
      by_cases hp : j = p
      · subst hp
        exact .reap me addr pid below hr h
      refine .same ?_
      rw [h]
      exact signals_other (Ne.symm hp)
    | _ => exact hmute h rfl
  | spawns f g k a t below hr ha _ _ h =>
    cases ha with
    | create me fn stack i hk htf =>
      have hmem : (s'.mem.procs p).signals = ((s.mem.modProc me.p fun x =>
          { x with
            frames := update x.frames i (update (update (x.frames i) .epc fn) .sp
                (stack + BitVec.ofNat 64 (MAX_STACK_SIZE - 16))) }).procs p).signals := by
        rw [h]
        exact signals_modThread (m := s.mem.modProc _ _) _ _
      by_cases hp : me.p = p
      · refine .create me fn stack i below hr hp (hp ▸ hk) (update (update
          ((s.mem.procs p).frames i) .epc fn) .sp
            (stack + BitVec.ofNat 64 (MAX_STACK_SIZE - 16))) ?_
        rw [hmem, procs_modProc, if_pos hp.symm, hp]
        rfl
      refine .same ?_
      rw [hmem]
      exact signals_other (Ne.symm hp)
    | alloc me j g hg =>
      by_cases hp : j = p
      · subst hp
        exact .alloc me below hr _ h
      refine .same ?_
      rw [h]
      exact signals_allocproc (Ne.symm hp)
  | dispatch q i below hr _ h => exact hmute h rfl

end

end Xv6
