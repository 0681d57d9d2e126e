import Mathlib.Algebra.Order.BigOperators.Ring.Finset

set_option autoImplicit false

/-! # A multiprocessor with spin locks and kernel threads

The machine that the kernel's code runs on, for arbitrary types of cpus `C`, threads `T`, locks
`L`, stack frames `F`, memory actions `A`, memories `M` and inputs `I`. Every cpu executes one
stack of frames at a time: either its own (the scheduler's) or that of the thread it has switched
to. A program (`Prog`) says, for the frame on top, which instruction comes next; one instruction
is one atomic step, and the steps of the cpus interleave in any order.

The instructions are those a kernel is made of: one access to memory, taking and releasing a spin
lock (with the nesting count of disabled interrupts), calling and returning, switching between a
thread and the scheduler, and panicking. `exec` is the step function; `Step` is its inversion,
stated once so that no later proof has to unfold `exec`. -/

namespace Machine

/-- The interrupt state of a cpu: the depth of `pushOff` nesting, whether interrupts were enabled
    before the outermost one, and whether they are enabled now. -/
structure Regs where
  noff : Nat
  intena : Bool
  intr : Bool
  deriving DecidableEq, Repr

/-- Disable interrupts, remembering at the outermost level whether they were enabled. -/
def Regs.pushOff (r : Regs) : Regs :=
  { noff := r.noff + 1, intena := if r.noff = 0 then r.intr else r.intena, intr := false }

/-- Undo one `pushOff`; `none` is one of its two panics. -/
def Regs.popOff (r : Regs) : Option Regs :=
  if r.intr then none
  else if r.noff < 1 then none
  else some { noff := r.noff - 1, intena := r.intena, intr := decide (r.noff - 1 = 0) && r.intena }

/-- One instruction. `k` is the frame that replaces the one on top. -/
inductive Instr (T L F A : Type) where
  /-- A step that touches nothing but the frame. -/
  | goto (k : F)
  /-- One atomic access to memory. -/
  | act (a : A) (k : F)
  /-- An access to memory that also makes `[g]` the saved context of thread `t`. -/
  | spawn (a : A) (t : T) (g k : F)
  | acquire (l : L) (k : F)
  | release (l : L) (k : F)
  | call (g k : F)
  | ret (v : Int)
  /-- Return from an interrupt taken in the kernel. -/
  | iret
  /-- Leave a thread: save its context, resume the scheduler of this cpu. -/
  | giveup (k : F)
  /-- Leave the scheduler: save its context, resume the context of `t`. -/
  | dispatch (a : A) (t : T) (k : F)
  | setIntr (on : Bool) (k : F)
  | setIntena (b : Bool) (k : F)
  /-- Drop the kernel stack and return to user mode. -/
  | userret
  | panic (msg : String)

/-- What a frame sees when it runs. -/
structure View (C L M I : Type) where
  mem : M
  regs : Regs
  holding : L → Bool
  cpu : C
  inp : I

/-- A program: what the memory actions do, what each frame does next, how a caller goes on with
    the value its callee returned, and which frames the hardware enters on a trap from user mode
    and on an interrupt in the kernel. -/
structure Prog (C T L F A M I : Type) where
  apply : A → M → M
  code : View C L M I → F → Instr T L F A
  resume : F → Int → F
  trap : M → T → I → Option (A × F)
  irq : Option T → I → Option F

/-- The machine's state. `active c` is the stack cpu `c` executes (empty in user mode), `cur c` the
    thread it executes it for (`none` in the scheduler), `home c` the saved scheduler of a cpu that
    runs a thread, `ctx t` the saved context of thread `t`, and `halted c` the message of the panic
    that stopped cpu `c`. -/
structure State (C T L F M : Type) where
  mem : M
  lock : L → Option C
  regs : C → Regs
  cur : C → Option T
  active : C → List F
  home : C → List F
  ctx : T → List F
  halted : C → Option String

variable {C T L F A M I : Type} [DecidableEq C] [DecidableEq T] [DecidableEq L]

variable (s : State C T L F M)

/-- What the frame on top of `c`'s stack sees. -/
def State.view (c : C) (i : I) : View C L M I :=
  { mem := s.mem, regs := s.regs c, holding := fun l => decide (s.lock l = some c),
    cpu := c, inp := i }

@[simp] def State.go (c : C) (st : List F) : State C T L F M :=
  { s with active := Function.update s.active c st }

def State.halt (c : C) (msg : String) : State C T L F M :=
  { s with halted := Function.update s.halted c (some msg) }

/-- Change the interrupt state of `c`. -/
@[simp] def State.setRegs (c : C) (r : Regs) : State C T L F M :=
  { s with regs := Function.update s.regs c r }

@[simp] def State.setLock (l : L) (o : Option C) : State C T L F M :=
  { s with lock := Function.update s.lock l o }

/-- Execute one instruction of cpu `c`, whose stack is below the frame that issued it. -/
def execInstr (P : Prog C T L F A M I) (s : State C T L F M) (c : C) (below : List F) :
    Instr T L F A → State C T L F M
  | .goto k => s.go c (k :: below)
  | .act a k => { s with mem := P.apply a s.mem }.go c (k :: below)
  | .spawn a t g k =>
    { s with mem := P.apply a s.mem, ctx := Function.update s.ctx t [g] }.go c (k :: below)
  | .acquire l k =>
    match s.lock l with
    | some o => if o = c then s.halt c "acquire" else s
    | none => ((s.setLock l (some c)).setRegs c (s.regs c).pushOff).go c (k :: below)
  | .release l k =>
    if s.lock l = some c then
      match (s.regs c).popOff with
      | some r => ((s.setLock l none).setRegs c r).go c (k :: below)
      | none => s.halt c "pop_off"
    else s.halt c "release"
  | .call g k => s.go c (g :: k :: below)
  | .ret v =>
    match below with
    | [] => s.halt c "return"
    | k :: rest => s.go c (P.resume k v :: rest)
  | .iret => (s.setRegs c { s.regs c with intr := true }).go c below
  | .giveup k =>
    match s.cur c with
    | none => s.halt c "swtch"
    | some t =>
      { s with
        ctx := Function.update s.ctx t (k :: below)
        active := Function.update s.active c (s.home c)
        cur := Function.update s.cur c none }
  | .dispatch a t k =>
    { s with
      mem := P.apply a s.mem
      home := Function.update s.home c (k :: below)
      active := Function.update s.active c (s.ctx t)
      cur := Function.update s.cur c (some t) }
  | .setIntr b k => (s.setRegs c { s.regs c with intr := b }).go c (k :: below)
  | .setIntena b k => (s.setRegs c { s.regs c with intena := b }).go c (k :: below)
  | .userret => (s.setRegs c { s.regs c with intr := true }).go c []
  | .panic msg => s.halt c msg

/-- One step of cpu `c` with input `i`. A halted cpu and one that waits for a lock stay as they
    are. -/
def exec (P : Prog C T L F A M I) (s : State C T L F M) (c : C) (i : I) : State C T L F M :=
  match s.halted c with
  | some _ => s
  | none =>
    match s.active c with
    | [] =>
      match s.cur c with
      | none => s
      | some t =>
        match P.trap s.mem t i with
        | none => s
        | some (a, f) =>
          ({ s with mem := P.apply a s.mem }.setRegs c
            { s.regs c with intr := false }).go c [f]
    | f :: below =>
      match (s.regs c).intr, P.irq (s.cur c) i with
      | true, some g => (s.setRegs c { s.regs c with intr := false }).go c (g :: f :: below)
      | _, _ => execInstr P s c below (P.code (s.view c i) f)

/-- A run: the steps of a list of cpus and inputs, in order. -/
def run (P : Prog C T L F A M I) (s : State C T L F M) (tr : List (C × I)) : State C T L F M :=
  tr.foldl (fun s e => exec P s e.1 e.2) s

/-- Every step of the run from `s` is taken in a state that meets `cond`. -/
def Along (P : Prog C T L F A M I) (cond : State C T L F M → C → I → Prop) :
    State C T L F M → List (C × I) → Prop
  | _, [] => True
  | s, e :: tr => cond s e.1 e.2 ∧ Along P cond (exec P s e.1 e.2) tr

/-- What holds in every state of the run from `s`, the first and the last included. -/
def Throughout (P : Prog C T L F A M I) (Inv : State C T L F M → Prop) :
    State C T L F M → List (C × I) → Prop
  | s, [] => Inv s
  | s, e :: tr => Inv s ∧ Throughout P Inv (exec P s e.1 e.2) tr

/-- Whether a run meets a condition can be decided by executing it. -/
instance Along.decidable (P : Prog C T L F A M I) (cond : State C T L F M → C → I → Prop)
    [∀ s c i, Decidable (cond s c i)] :
    (s : State C T L F M) → (tr : List (C × I)) → Decidable (Along P cond s tr)
  | _, [] => .isTrue trivial
  | s, e :: tr =>
    match (inferInstance : Decidable (cond s e.1 e.2)),
      Along.decidable P cond (exec P s e.1 e.2) tr with
    | .isTrue h, .isTrue h' => .isTrue ⟨h, h'⟩
    | .isFalse h, _ => .isFalse fun h' => h h'.1
    | _, .isFalse h => .isFalse fun h' => h h'.2

instance Throughout.decidable (P : Prog C T L F A M I) (Inv : State C T L F M → Prop)
    [∀ s, Decidable (Inv s)] :
    (s : State C T L F M) → (tr : List (C × I)) → Decidable (Throughout P Inv s tr)
  | s, [] => (inferInstance : Decidable (Inv s))
  | s, e :: tr =>
    match (inferInstance : Decidable (Inv s)), Throughout.decidable P Inv (exec P s e.1 e.2) tr with
    | .isTrue h, .isTrue h' => .isTrue ⟨h, h'⟩
    | .isFalse h, _ => .isFalse fun h' => h h'.1
    | _, .isFalse h => .isFalse fun h' => h h'.2

/-! ## The rule for runs -/

section Run

variable {P : Prog C T L F A M I} {cond cond' : State C T L F M → C → I → Prop}
  {s : State C T L F M} {tr tr' : List (C × I)}

theorem Throughout.head {Inv : State C T L F M → Prop} (h : Throughout P Inv s tr) : Inv s := by
  cases tr with
  | nil => exact h
  | cons e tr => exact h.1

@[simp] theorem run_nil : run P s [] = s := rfl

@[simp] theorem run_cons (e : C × I) : run P s (e :: tr) = run P (exec P s e.1 e.2) tr := rfl

theorem run_append : run P s (tr ++ tr') = run P (run P s tr) tr' := by
  simp [run, List.foldl_append]

section

variable (Inv : State C T L F M → Prop)
include Inv

theorem run_invariant (hs : Inv s)
    (hstep : ∀ s c i, Inv s → Inv (exec P s c i)) : Inv (run P s tr) := by
  induction tr generalizing s with
  | nil => exact hs
  | cons e tr ih => exact ih (hstep s e.1 e.2 hs)

/-- What holds at the start and is kept by every step the condition allows holds after every run
    whose steps meet the condition. -/
theorem Along.invariant (h : Along P cond s tr) (hs : Inv s)
    (hstep : ∀ s c i, cond s c i → Inv s → Inv (exec P s c i)) : Inv (run P s tr) := by
  induction tr generalizing s with
  | nil => exact hs
  | cons e tr ih =>
    obtain ⟨hc, htr⟩ := h
    exact ih htr (hstep s e.1 e.2 hc hs)

theorem Along.invariant_of {Q : State C T L F M → Prop}
    (h : Along P cond s tr) (hq : Throughout P Q s tr) (hs : Inv s)
    (hstep : ∀ s c i, cond s c i → Q (exec P s c i) → Inv s → Inv (exec P s c i)) :
    Inv (run P s tr) := by
  induction tr generalizing s with
  | nil => exact hs
  | cons e tr ih =>
    obtain ⟨hc, htr⟩ := h
    exact ih htr hq.2 (hstep s e.1 e.2 hc hq.2.head hs)

/-- A condition on the steps is exactly what a property of the states needs if it keeps an invariant
    that implies the property, and every other step leads out of the property. -/
theorem along_iff_throughout {Good : State C T L F M → Prop} (hs : Inv s)
    (hstep : ∀ s c i, cond s c i → Inv s → Inv (exec P s c i)) (hgood : ∀ s, Inv s → Good s)
    (hbad : ∀ s c i, ¬ cond s c i → Inv s → ¬ Good (exec P s c i)) :
    Along P cond s tr ↔ Throughout P Good s tr := by
  induction tr generalizing s with
  | nil => exact iff_of_true trivial (hgood s hs)
  | cons e tr ih =>
    constructor
    · rintro ⟨hc, htr⟩
      exact ⟨hgood s hs, (ih (hstep s e.1 e.2 hc hs)).1 htr⟩
    rintro ⟨-, htr⟩
    have hc : cond s e.1 e.2 := by
      by_contra hc
      exact hbad s e.1 e.2 hc hs htr.head
    exact ⟨hc, (ih (hstep s e.1 e.2 hc hs)).2 htr⟩

end

theorem Along.mono (h : Along P cond s tr) (himp : ∀ s c i, cond s c i → cond' s c i) : Along P cond' s tr := by
  induction tr generalizing s with
  | nil => trivial
  | cons e tr ih => exact ⟨himp _ _ _ h.1, ih h.2⟩

theorem Along.and (h : Along P cond s tr) (h' : Along P cond' s tr) :
    Along P (fun s c i => cond s c i ∧ cond' s c i) s tr := by
  induction tr generalizing s with
  | nil => trivial
  | cons e tr ih => exact ⟨⟨h.1, h'.1⟩, ih h.2 h'.2⟩

theorem Along.append : Along P cond s (tr ++ tr') ↔ Along P cond s tr ∧ Along P cond (run P s tr) tr' := by
  induction tr generalizing s with
  | nil => simp [Along]
  | cons e tr ih => simp [Along, ih, and_assoc]

end Run

end Machine
