import Xv6.Machine.Basic

set_option autoImplicit false

/-! # What one step of the machine can do

`Step` lists the outcomes of `exec`, each with what was tested on the way to it, and `exec_step` is
the inversion lemma: every invariant of the machine is proved by going through these cases, and no
later proof unfolds `exec`. -/

namespace Machine

open Function

variable {C T L F A M I : Type} [DecidableEq C] [DecidableEq T] [DecidableEq L]

theorem Regs.popOff_some {r r' : Regs} (h : r.popOff = some r') :
    r.noff = r'.noff + 1 ∧ (r'.intr = true → r'.noff = 0) := by
  unfold Regs.popOff at h
  split at h
  · exact absurd h (by simp)
  split at h
  · exact absurd h (by simp)
  next hlt =>
  simp only [Option.some.injEq] at h
  subst h
  refine ⟨?_, fun hi => ?_⟩
  · show r.noff = r.noff - 1 + 1
    omega
  · simp only [Bool.and_eq_true, decide_eq_true_eq] at hi
    exact hi.1

/-- Cpu `c` executes the frame `f`, with `below` waiting for it. -/
structure State.Runs (s : State C T L F M) (c : C) (f : F) (below : List F) : Prop where
  halted : s.halted c = none
  active : s.active c = f :: below

/-- The frame that `c` executes next, unless it has halted or executes user code. -/
def State.top (s : State C T L F M) (c : C) : Option F :=
  match s.halted c with
  | none => (s.active c).head?
  | some _ => none

section

omit [DecidableEq C] [DecidableEq T] [DecidableEq L]

variable {s : State C T L F M} {c : C} {f : F} {below : List F}

theorem State.Runs.top (h : s.Runs c f below) : s.top c = some f := by
  simp [State.top, h.halted, h.active]

theorem State.runs_of_top (h : s.top c = some f) : ∃ below, s.Runs c f below := by
  unfold State.top at h
  split at h
  · next hh =>
    obtain ⟨below, hact⟩ := List.head?_eq_some_iff.1 h
    exact ⟨below, hh, hact⟩
  · cases h

end

variable (s : State C T L F M)

/-- The state after cpu `c` has taken the free lock `l` and goes on with `st`. -/
@[simp] def State.take (c : C) (l : L) (st : List F) : State C T L F M :=
  ((s.setLock l (some c)).setRegs c (s.regs c).pushOff).go c st

/-- The state after cpu `c` has given the lock `l` back and goes on with `st`. -/
@[simp] def State.drop (c : C) (l : L) (r : Regs) (st : List F) : State C T L F M :=
  ((s.setLock l none).setRegs c r).go c st

/-- The state after the interrupt flag of `c` was set and `c` goes on with `st`. -/
@[simp] def State.flag (c : C) (b : Bool) (st : List F) : State C T L F M :=
  (s.setRegs c { s.regs c with intr := b }).go c st

/-- The state after `c` left the thread `t`, whose stack `st` is saved. -/
@[simp] def State.leave (c : C) (t : T) (st : List F) : State C T L F M :=
  { s with
    ctx := update s.ctx t st
    active := update s.active c (s.home c)
    cur := update s.cur c none }

/-- The state after the scheduler of `c`, whose stack `st` is saved, entered the thread `t`. -/
@[simp] def State.enter (c : C) (t : T) (st : List F) (m : M) : State C T L F M :=
  { s with
    mem := m
    home := update s.home c st
    active := update s.active c (s.ctx t)
    cur := update s.cur c (some t) }

/-- The state after a change of memory, when `c` goes on with `st`. -/
@[simp] def State.write (c : C) (m : M) (st : List F) : State C T L F M :=
  { s with mem := m }.go c st

/-- The outcomes of a step of `c` with input `i`. -/
inductive Step (P : Prog C T L F A M I) (s : State C T L F M) (c : C) (i : I) :
    State C T L F M → Prop where
  /-- A halted cpu, user code that does not trap, or a cpu that waits for a lock. -/
  | idle : Step P s c i s
  | halt (msg : String) (hh : s.halted c = none) : Step P s c i (s.halt c msg)
  | trap {t : T} {a : A} {f : F} (hh : s.halted c = none) (ha : s.active c = [])
      (hc : s.cur c = some t) (ht : P.trap s.mem t i = some (a, f)) :
      Step P s c i ({ s with mem := P.apply a s.mem }.flag c false [f])
  | irq {f g : F} {below : List F} (hr : s.Runs c f below) (hi : (s.regs c).intr = true)
      (hq : P.irq (s.cur c) i = some g) : Step P s c i (s.flag c false (g :: f :: below))
  | goto {f k : F} {below : List F} (hr : s.Runs c f below)
      (hk : P.code (s.view c i) f = .goto k) : Step P s c i (s.go c (k :: below))
  | act {f k : F} {a : A} {below : List F} (hr : s.Runs c f below)
      (hk : P.code (s.view c i) f = .act a k) :
      Step P s c i (s.write c (P.apply a s.mem) (k :: below))
  | spawn {f g k : F} {a : A} {t : T} {below : List F} (hr : s.Runs c f below)
      (hk : P.code (s.view c i) f = .spawn a t g k) :
      Step P s c i
        ({ s with ctx := update s.ctx t [g] }.write c (P.apply a s.mem) (k :: below))
  | acquire {f k : F} {l : L} {below : List F} (hr : s.Runs c f below)
      (hk : P.code (s.view c i) f = .acquire l k) (hl : s.lock l = none) :
      Step P s c i (s.take c l (k :: below))
  | release {f k : F} {l : L} {r : Regs} {below : List F} (hr : s.Runs c f below)
      (hk : P.code (s.view c i) f = .release l k) (hl : s.lock l = some c)
      (hp : (s.regs c).popOff = some r) : Step P s c i (s.drop c l r (k :: below))
  | call {f g k : F} {below : List F} (hr : s.Runs c f below)
      (hk : P.code (s.view c i) f = .call g k) : Step P s c i (s.go c (g :: k :: below))
  | ret {f k : F} {v : Int} {rest : List F} (hr : s.Runs c f (k :: rest))
      (hk : P.code (s.view c i) f = .ret v) : Step P s c i (s.go c (P.resume k v :: rest))
  | iret {f : F} {below : List F} (hr : s.Runs c f below)
      (hk : P.code (s.view c i) f = .iret) : Step P s c i (s.flag c true below)
  | giveup {f k : F} {t : T} {below : List F} (hr : s.Runs c f below)
      (hk : P.code (s.view c i) f = .giveup k) (hc : s.cur c = some t) :
      Step P s c i (s.leave c t (k :: below))
  | dispatch {f k : F} {a : A} {t : T} {below : List F} (hr : s.Runs c f below)
      (hk : P.code (s.view c i) f = .dispatch a t k) :
      Step P s c i (s.enter c t (k :: below) (P.apply a s.mem))
  | setIntr {f k : F} {b : Bool} {below : List F} (hr : s.Runs c f below)
      (hk : P.code (s.view c i) f = .setIntr b k) : Step P s c i (s.flag c b (k :: below))
  | setIntena {f k : F} {b : Bool} {below : List F} (hr : s.Runs c f below)
      (hk : P.code (s.view c i) f = .setIntena b k) :
      Step P s c i ((s.setRegs c { s.regs c with intena := b }).go c (k :: below))
  | userret {f : F} {below : List F} (hr : s.Runs c f below)
      (hk : P.code (s.view c i) f = .userret) : Step P s c i (s.flag c true [])

section

variable {P : Prog C T L F A M I} {s : State C T L F M} {c : C} {i : I}

theorem execInstr_step {f : F} {below : List F} (hr : s.Runs c f below) :
    Step P s c i (execInstr P s c below (P.code (s.view c i) f)) := by
  cases hk : P.code (s.view c i) f with
  | goto k => exact .goto hr hk
  | act a k => exact .act hr hk
  | spawn a t g k => exact .spawn hr hk
  | acquire l k =>
    simp only [execInstr]
    split
    · split
      · exact .halt _ hr.halted
      · exact .idle
    · next hl => exact .acquire hr hk hl
  | release l k =>
    simp only [execInstr]
    split
    · next hl =>
      split
      · next r hp => exact .release hr hk hl hp
      · exact .halt _ hr.halted
    · exact .halt _ hr.halted
  | call g k => exact .call hr hk
  | ret v =>
    cases below with
    | nil => exact .halt _ hr.halted
    | cons k rest => exact .ret hr hk
  | iret => exact .iret hr hk
  | giveup k =>
    simp only [execInstr]
    split
    · exact .halt _ hr.halted
    · next t hc => exact .giveup hr hk hc
  | dispatch a t k => exact .dispatch hr hk
  | setIntr b k => exact .setIntr hr hk
  | setIntena b k => exact .setIntena hr hk
  | userret => exact .userret hr hk
  | panic msg => exact .halt msg hr.halted

theorem execInstr_goto {k : F} {below : List F} :
    (execInstr P s c below (.goto k)).active c = k :: below := update_self ..

theorem execInstr_act {a : A} {k : F} {below : List F} :
    (execInstr P s c below (.act a k)).active c = k :: below := update_self ..

theorem execInstr_call {g k : F} {below : List F} :
    (execInstr P s c below (.call g k)).active c = g :: k :: below := update_self ..

theorem execInstr_ret {v : Int} {k : F} {rest : List F} :
    (execInstr P s c (k :: rest) (.ret v)).active c = P.resume k v :: rest := update_self ..

/-- **Every step of the machine is one of the listed ones.** -/
theorem exec_step : Step P s c i (exec P s c i) := by
  unfold exec
  split
  · exact .idle
  next hh =>
  split
  · next ha =>
    split
    · exact .idle
    next t hc =>
    split
    · exact .idle
    · next a f ht => exact .trap hh ha hc ht
  next f below ha =>
  split
  · next g hi hq => exact .irq ⟨hh, ha⟩ hi hq
  · exact execInstr_step ⟨hh, ha⟩

theorem exec_halted {msg : String} (h : s.halted c = some msg) : exec P s c i = s := by
  simp [exec, h]

theorem exec_intr_off {f : F} {below : List F} (hr : s.Runs c f below)
    (hi : (s.regs c).intr = false) :
    exec P s c i = execInstr P s c below (P.code (s.view c i) f) := by
  simp [exec, hr.halted, hr.active, hi]

theorem exec_no_irq {f : F} {below : List F} (hr : s.Runs c f below)
    (hi : P.irq (s.cur c) i = none) :
    exec P s c i = execInstr P s c below (P.code (s.view c i) f) := by
  simp [exec, hr.halted, hr.active, hi]

end

theorem Step.executes {P : Prog C T L F A M I} {s s' : State C T L F M} {c : C} {i : I} {f : F}
    {below : List F} (h : Step P s c i s') (hact : s.active c = f :: below) :
    s' = s ∨ (∃ msg, s' = s.halt c msg) ∨
      (∃ g, (s.regs c).intr = true ∧ P.irq (s.cur c) i = some g ∧
        s' = s.flag c false (g :: f :: below)) ∨
      s.Runs c f below ∧ s' = execInstr P s c below (P.code (s.view c i) f) := by
  cases h with
  | idle => exact .inl rfl
  | halt msg => exact .inr (.inl ⟨msg, rfl⟩)
  | trap _ ha => cases ha.symm.trans hact
  | irq hr hi hq =>
    cases hr.active.symm.trans hact
    exact .inr (.inr (.inl ⟨_, hi, hq, rfl⟩))
  | goto hr hk | act hr hk | spawn hr hk | call hr hk | dispatch hr hk | setIntr hr hk
  | setIntena hr hk | iret hr hk | userret hr hk | ret hr hk =>
    cases hr.active.symm.trans hact
    exact .inr (.inr (.inr ⟨hr, by rw [hk]; rfl⟩))
  | acquire hr hk hl =>
    cases hr.active.symm.trans hact
    exact .inr (.inr (.inr ⟨hr, by rw [hk]; simp only [execInstr, hl]; rfl⟩))
  | release hr hk hl hp =>
    cases hr.active.symm.trans hact
    exact .inr (.inr (.inr ⟨hr, by rw [hk]; simp only [execInstr, hl, hp, if_true]; rfl⟩))
  | giveup hr hk hc =>
    cases hr.active.symm.trans hact
    exact .inr (.inr (.inr ⟨hr, by rw [hk]; simp only [execInstr, hc]; rfl⟩))

theorem Step.instr {P : Prog C T L F A M I} {s s' : State C T L F M} {c : C} {i : I} {f : F}
    {below : List F} (h : Step P s c i s') (hact : s.active c = f :: below)
    (hi : (s.regs c).intr = false) :
    s' = s ∨ (∃ msg, s' = s.halt c msg) ∨
      s.Runs c f below ∧ s' = execInstr P s c below (P.code (s.view c i) f) := by
  rcases h.executes hact with hs | hs | ⟨g, hi', -⟩ | hs
  · exact .inl hs
  · exact .inr (.inl hs)
  · cases hi.symm.trans hi'
  · exact .inr (.inr hs)

theorem Step.mem {P : Prog C T L F A M I} {s s' : State C T L F M} {c : C} {i : I}
    (h : Step P s c i s') : s'.mem = s.mem ∨ ∃ a, s'.mem = P.apply a s.mem := by
  cases h with
  | trap | act | spawn | dispatch => exact .inr ⟨_, rfl⟩
  | _ => exact .inl rfl

/-- The instructions that do not access memory. -/
def Instr.silent : Instr T L F A → Bool
  | .act _ _ | .spawn _ _ _ _ | .dispatch _ _ _ => false
  | _ => true

theorem Step.mem_silent {P : Prog C T L F A M I} {s s' : State C T L F M} {c : C} {i : I} {f : F}
    {below : List F} (h : Step P s c i s') (hact : s.active c = f :: below)
    (hs : (P.code (s.view c i) f).silent = true) : s'.mem = s.mem := by
  cases h with
  | trap _ ha => cases ha.symm.trans hact
  | act hr hk | spawn hr hk | dispatch hr hk =>
    cases hr.active.symm.trans hact
    rw [hk] at hs
    cases hs
  | _ => rfl

/-! ## The other cpus -/

/-- Cpu `c` is the same in both states: what it executes, its registers and the locks it holds. -/
structure SameAt (s s' : State C T L F M) (c : C) : Prop where
  active : s'.active c = s.active c
  cur : s'.cur c = s.cur c
  home : s'.home c = s.home c
  regs : s'.regs c = s.regs c
  halted : s'.halted c = s.halted c
  lock : ∀ l, s'.lock l = some c ↔ s.lock l = some c

theorem Step.other {P : Prog C T L F A M I} {s s' : State C T L F M} {c c' : C} {i : I}
    (h : Step P s c i s') (hne : c' ≠ c) : SameAt s s' c' := by
  have hne' : c ≠ c' := fun h => hne h.symm
  cases h with
  | idle => exact ⟨rfl, rfl, rfl, rfl, rfl, fun _ => Iff.rfl⟩
  | acquire _ _ hl =>
    refine ⟨?_, rfl, rfl, ?_, rfl, fun l' => ?_⟩
    · simp [hne]
    · simp [hne]
    · simp only [State.take, State.go, State.setRegs, State.setLock, update_apply]
      split
      · next he => simp [he, hl, hne']
      · rfl
  | release _ _ hl _ =>
    refine ⟨?_, rfl, rfl, ?_, rfl, fun l' => ?_⟩
    · simp [hne]
    · simp [hne]
    · simp only [State.drop, State.go, State.setRegs, State.setLock, update_apply]
      split
      · next he => simp [he, hl, hne']
      · rfl
  | _ =>
    refine ⟨?_, ?_, ?_, ?_, ?_, fun _ => Iff.rfl⟩ <;>
      simp [State.halt, hne]

end Machine
