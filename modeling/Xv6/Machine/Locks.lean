import Xv6.Machine.Frames

set_option autoImplicit false

/-! # A lock discipline for kernel code

A way to prove, function by function, that code takes and releases its spin locks in a balanced way.
A `Discipline` says of every frame which locks it holds while it is on top (`held`) and which ones
while it waits for a callee (`kept`: a function that sleeps hands its lock to the callee, so the two
differ), which frame may stand above which (`adj`), and which functions may only be entered while
nothing is held below them (`quiet`: those that give up the cpu). `runs` singles out the frames that
may be on top at all, `entry` those at which functions are called, and `follows` says which frames a
function may go on at; later proofs use these to look only at the functions they are about.

`InstrOk` is the check of one instruction against the discipline. `Disciplined` states it for a
whole program, and `Locked.step` is the soundness theorem: a lock is held by a cpu exactly if a
frame of the stack it executes holds it, the nesting count of disabled interrupts is the number of
locks, and interrupts are enabled only if that number is zero. -/

namespace Machine

open List Function State

variable {C T L F A M I : Type}

/-- The discipline of a program. `base` frames stand at the bottom of a stack, `isr` frames are
    entered by an interrupt, `mine o f` says that `f` may run on behalf of the thread `o` (of the
    scheduler, for `none`), and `hand t` is the lock that is handed over whenever a cpu switches
    between the scheduler and `t`. -/
structure Discipline (T L F : Type) where
  held : F → Multiset L
  kept : F → Multiset L
  runs : F → Prop
  entry : F → Prop
  follows : F → F → Prop
  quiet : F → Prop
  base : F → Prop
  isr : F → Prop
  adj : F → F → Prop
  mine : Option T → F → Prop
  hand : T → L

namespace Discipline

variable (D : Discipline T L F)

/-- The locks of the frames that wait. -/
def waiting (st : List F) : Multiset L := (st.map D.kept).sum

def total : List F → Multiset L
  | [] => 0
  | f :: below => D.held f + D.waiting below

/-- A well-formed stack. -/
def Wf : List F → Prop
  | [] => True
  | [f] => D.base f
  | f :: k :: rest =>
    D.adj f k ∧ (D.isr f → D.runs k ∧ D.held k = 0) ∧
      (D.quiet f → D.waiting (k :: rest) = 0) ∧ Wf (k :: rest)

/-- `k` is a later point of the function that `f` is a point of, reached by `o`. -/
structure Stays (o : Option T) (f k : F) : Prop where
  mine : D.mine o k
  follows : D.follows f k
  base : D.base f → D.base k
  adj : ∀ x, D.adj f x → D.adj k x
  quiet : D.quiet k → D.quiet f
  isr : D.isr k → D.isr f

/-- A stack that runs on behalf of `o`. -/
structure Stack (o : Option T) (st : List F) : Prop where
  wf : D.Wf st
  runs : ∀ f ∈ st.head?, D.runs f
  mine : ∀ f ∈ st, D.mine o f

/-- A saved stack of thread `t` (or of the scheduler that waits for it): it will be resumed by a cpu
    that holds exactly `hand t`. -/
structure Saved (o : Option T) (t : T) (st : List F) : Prop extends D.Stack o st where
  total : D.total st = {D.hand t}

/-- The check of one instruction of the frame `f`, on behalf of `o`. -/
def InstrOk (P : Prog C T L F A M I) (o : Option T) (f : F) : Instr T L F A → Prop
  | .goto k | .act _ k | .setIntena _ k => D.Stays o f k ∧ D.runs k ∧ D.held k = D.held f
  | .spawn _ t g k =>
    D.Stays o f k ∧ D.runs k ∧ D.held k = D.held f ∧
      D.base g ∧ D.runs g ∧ D.mine (some t) g ∧ D.held g = {D.hand t}
  -- a lock that is held already is not taken a second time: the `acquire` panics
  | .acquire l k => D.Stays o f k ∧ (l ∈ D.held f ∨ D.runs k ∧ D.held k = l ::ₘ D.held f)
  | .release l k => D.Stays o f k ∧ D.runs k ∧ D.held f = l ::ₘ D.held k
  | .call g k =>
    D.Stays o f k ∧ D.mine o g ∧ D.runs g ∧ D.entry g ∧ D.adj g k ∧ ¬ D.isr g ∧
      (D.quiet g → D.quiet f ∧ D.kept k = 0) ∧ D.held f = D.held g + D.kept k
  | .ret v =>
    ∀ k, D.adj f k → D.mine o k → D.Stays o k (P.resume k v) ∧ D.runs (P.resume k v) ∧
        D.held (P.resume k v) = D.held f + D.kept k
  | .iret => D.isr f ∧ D.quiet f ∧ D.held f = 0
  | .giveup k =>
    D.Stays o f k ∧ D.runs k ∧ D.quiet f ∧ D.held k = D.held f ∧
      ∀ t, o = some t → D.held f = {D.hand t}
  | .dispatch _ t k =>
    o = none ∧ D.Stays o f k ∧ D.runs k ∧ D.quiet f ∧ D.held k = D.held f ∧
      D.held f = {D.hand t}
  | .setIntr b k =>
    D.Stays o f k ∧ D.runs k ∧ D.held k = D.held f ∧ (b = true → D.held f = 0 ∧ D.quiet f)
  | .userret => D.held f = 0 ∧ D.quiet f
  | .panic _ => True

/-- Every frame's code passes the check, and so do the frames that the hardware enters. The check of
    `code` may use that the frame sees itself holding only locks it has, if nothing is held
    below. -/
structure Disciplined (P : Prog C T L F A M I) : Prop where
  kept_le : ∀ f, D.kept f ≤ D.held f
  code : ∀ v o f, D.mine o f → D.runs f → (D.quiet f → ∀ l, v.holding l = true → l ∈ D.held f) →
    D.InstrOk P o f (P.code v f)
  trap : ∀ m t i a f, P.trap m t i = some (a, f) →
    D.base f ∧ D.runs f ∧ D.mine (some t) f ∧ D.held f = 0
  irq : ∀ o i g, P.irq o i = some g →
    D.isr g ∧ D.quiet g ∧ D.runs g ∧ D.mine o g ∧ D.held g = 0 ∧ ∀ x, D.adj g x

variable {D} in
/-- A frame that the code of `f` pushes is a later point of the same function or the entry of
    another. -/
theorem InstrOk.pushes {P : Prog C T L F A M I} {o : Option T} {f k : F} {x : Instr T L F A}
    (h : D.InstrOk P o f x) (hk : k ∈ x.pushes) : D.follows f k ∨ D.entry k := by
  cases x with
  | goto | act | setIntena | acquire | release | giveup | setIntr | spawn a t g k =>
    obtain rfl := mem_singleton.1 hk
    exact .inl h.1.follows
  | dispatch a t k =>
    obtain rfl := mem_singleton.1 hk
    exact .inl h.2.1.follows
  | call g k =>
    rcases mem_cons.1 hk with rfl | hk
    · exact .inr h.2.2.2.1
    · obtain rfl := mem_singleton.1 hk
      exact .inl h.1.follows
  | ret | iret | userret | panic => cases hk

variable {D} in
theorem InstrOk.next {P : Prog C T L F A M I} {o : Option T} {f k : F} {x : Instr T L F A}
    (h : D.InstrOk P o f x) (hk : x.next = some k) : D.Stays o f k := by
  cases x with
  | goto | act | spawn | acquire | release | giveup | setIntr | setIntena =>
    cases hk
    exact h.1
  | _ => cases hk

/-! ## Stacks -/

variable {D} {P : Prog C T L F A M I} {o : Option T} {f g k : F} {below rest : List F}

@[simp] theorem waiting_nil : D.waiting [] = 0 := rfl

@[simp] theorem waiting_cons : D.waiting (k :: rest) = D.kept k + D.waiting rest := by
  simp [waiting]

@[simp] theorem total_nil : D.total [] = 0 := rfl

@[simp] theorem total_cons : D.total (f :: below) = D.held f + D.waiting below := rfl

section

variable (h : D.Wf (f :: below))
include h

theorem Wf.tail : D.Wf below := by
  cases below with
  | nil => trivial
  | cons k rest => exact h.2.2.2

theorem Wf.quiet (hq : D.quiet f) : D.waiting below = 0 := by
  cases below with
  | nil => rfl
  | cons k rest => exact h.2.2.1 hq

theorem Wf.replace (hs : D.Stays o f k) : D.Wf (k :: below) := by
  cases below with
  | nil => exact hs.base h
  | cons x rest =>
    obtain ⟨hadj, hisr, hquiet, hwf⟩ := h
    exact ⟨hs.adj x hadj, fun hk => hisr (hs.isr hk), fun hk => hquiet (hs.quiet hk), hwf⟩

theorem Wf.push (hs : D.Stays o f k) (hadj : D.adj g k) (hisr : ¬ D.isr g)
    (hquiet : D.quiet g → D.quiet f ∧ D.kept k = 0) : D.Wf (g :: k :: below) := by
  refine ⟨hadj, fun hg => absurd hg hisr, fun hg => ?_, h.replace hs⟩
  obtain ⟨hf, hk⟩ := hquiet hg
  rw [waiting_cons, hk, h.quiet hf, zero_add]

end

theorem Stack.intro (hwf : D.Wf (k :: below)) (hr : D.runs k) (hk : D.mine o k)
    (hb : ∀ x ∈ below, D.mine o x) : D.Stack o (k :: below) where
  wf := hwf
  runs := by simpa using hr
  mine := by
    intro x hx
    rcases mem_cons.1 hx with rfl | hx
    · exact hk
    · exact hb x hx

theorem Stack.nil : D.Stack o [] := ⟨trivial, by simp, by simp⟩

theorem Stack.single (hb : D.base f) (hr : D.runs f) (hf : D.mine o f) : D.Stack o [f] :=
  .intro hb hr hf (by simp)

theorem Stack.mineBelow (h : D.Stack o (f :: below)) : ∀ x ∈ below, D.mine o x :=
  fun x hx => h.mine x (mem_cons_of_mem f hx)

theorem Stack.replace (h : D.Stack o (f :: below)) (hs : D.Stays o f k) (hr : D.runs k) :
    D.Stack o (k :: below) :=
  .intro (h.wf.replace hs) hr hs.mine h.mineBelow

theorem Stack.push (h : D.Stack o (f :: below)) (hs : D.Stays o f k) (hg : D.mine o g)
    (hr : D.runs g) (hwf : D.Wf (g :: k :: below)) : D.Stack o (g :: k :: below) := by
  refine .intro hwf hr hg fun x hx => ?_
  rcases mem_cons.1 hx with rfl | hx
  · exact hs.mine
  · exact h.mineBelow x hx

theorem Stack.pop {k' : F} (h : D.Stack o (f :: k :: rest)) (hs : D.Stays o k k')
    (hr : D.runs k') : D.Stack o (k' :: rest) :=
  .intro (h.wf.tail.replace hs) hr hs.mine fun x hx => h.mineBelow x (mem_cons_of_mem k hx)

theorem Stack.resume (h : D.Stack o (f :: below)) (hisr : D.isr f) : D.Stack o below where
  wf := h.wf.tail
  runs := by
    cases below with
    | nil => simp
    | cons k rest => simpa using (h.wf.2.1 hisr).1
  mine := h.mineBelow

theorem Stack.total_below (h : D.Stack o (f :: below)) (hisr : D.isr f) (hquiet : D.quiet f) :
    D.total below = 0 := by
  cases below with
  | nil => rfl
  | cons k rest =>
    have hwait := h.wf.quiet hquiet
    rw [waiting_cons, add_eq_zero] at hwait
    rw [total_cons, (h.wf.2.1 hisr).2, hwait.2, zero_add]

/-! ## Soundness -/

/-- What the discipline guarantees of cpu `c`. -/
structure CpuLocked (D : Discipline T L F) (s : State C T L F M) (c : C) : Prop where
  stack : D.Stack (s.cur c) (s.active c)
  lock : ∀ l, s.lock l = some c ↔ l ∈ D.total (s.active c)
  nodup : (D.total (s.active c)).Nodup
  noff : (s.regs c).noff = (D.total (s.active c)).card
  intr : (s.regs c).intr = true → D.total (s.active c) = 0
  home : ∀ t, s.cur c = some t → D.Saved none t (s.home c)

/-- What the discipline guarantees of the machine. -/
structure Locked (D : Discipline T L F) (s : State C T L F M) : Prop where
  cpu : ∀ c, CpuLocked D s c
  ctx : ∀ t, D.Saved (some t) t (s.ctx t)

section Soundness

variable {s s' : State C T L F M} {c c' : C} {i : I} {l : L}

theorem CpuLocked.other (h : CpuLocked D s c) (hs : SameAt s s' c) : CpuLocked D s' c where
  stack := by rw [hs.cur, hs.active]; exact h.stack
  lock := fun l => by rw [hs.lock, hs.active]; exact h.lock l
  nodup := by rw [hs.active]; exact h.nodup
  noff := by rw [hs.active, hs.regs]; exact h.noff
  intr := by rw [hs.active, hs.regs]; exact h.intr
  home := by rw [hs.cur, hs.home]; exact h.home

theorem CpuLocked.go {st : List F} (h : CpuLocked D s c) (hstack : D.Stack (s.cur c) st)
    (htotal : D.total st = D.total (s.active c)) (hactive : s'.active c = st)
    (hcur : s'.cur c = s.cur c) (hhome : s'.home c = s.home c) (hlock : s'.lock = s.lock)
    (hnoff : (s'.regs c).noff = (s.regs c).noff)
    (hintr : (s'.regs c).intr = true → D.total (s.active c) = 0) : CpuLocked D s' c where
  stack := by rw [hcur, hactive]; exact hstack
  lock := fun l => by rw [hlock, hactive, htotal]; exact h.lock l
  nodup := by rw [hactive, htotal]; exact h.nodup
  noff := by rw [hactive, htotal, hnoff]; exact h.noff
  intr := by rw [hactive, htotal]; exact hintr
  home := by rw [hcur, hhome]; exact h.home

theorem CpuLocked.replace (h : CpuLocked D s c) (hr : s.Runs c f below)
    (hs : D.Stays (s.cur c) f k) (hk : D.runs k) (hheld : D.held k = D.held f)
    (hactive : s'.active c = k :: below) (hcur : s'.cur c = s.cur c)
    (hhome : s'.home c = s.home c) (hlock : s'.lock = s.lock)
    (hnoff : (s'.regs c).noff = (s.regs c).noff)
    (hintr : (s'.regs c).intr = true → D.total (s.active c) = 0) : CpuLocked D s' c := by
  refine h.go ((hr.active ▸ h.stack).replace hs hk) ?_ hactive hcur hhome hlock hnoff hintr
  rw [hr.active, total_cons, total_cons, hheld]

theorem CpuLocked.switch {st : List F} (h : CpuLocked D s c) (hstack : D.Stack o st)
    (htotal : D.total st = D.total (s.active c)) (hactive : s'.active c = st)
    (hcur : s'.cur c = o) (hhome : ∀ t, s'.cur c = some t → D.Saved none t (s'.home c))
    (hlock : s'.lock = s.lock) (hregs : s'.regs = s.regs) : CpuLocked D s' c where
  stack := by rw [hactive, hcur]; exact hstack
  lock := fun l => by rw [hlock, hactive, htotal]; exact h.lock l
  nodup := by rw [hactive, htotal]; exact h.nodup
  noff := by rw [hactive, htotal, hregs]; exact h.noff
  intr := by rw [hactive, htotal, hregs]; exact h.intr
  home := hhome

variable [DecidableEq C]

theorem CpuLocked.instrOk {x : Instr T L F A} (hD : D.Disciplined P) (h : CpuLocked D s c)
    (hr : s.Runs c f below) (hx : P.code (s.view c i) f = x) : D.InstrOk P (s.cur c) f x := by
  have hstack := h.stack
  rw [hr.active] at hstack
  rw [← hx]
  refine hD.code _ _ _ (hstack.mine f (by simp)) (hstack.runs f (by simp)) fun hq l hl => ?_
  have hmem : l ∈ D.total (s.active c) := (h.lock l).1 (by simpa [view] using hl)
  rw [hr.active, total_cons, hstack.wf.quiet hq, add_zero] at hmem
  exact hmem

variable [DecidableEq L]

theorem CpuLocked.take (h : CpuLocked D s c) (hr : s.Runs c f below) (hl : s.lock l = none)
    (hs : D.Stays (s.cur c) f k) (hrun : D.runs k) (hk : D.held k = l ::ₘ D.held f) :
    CpuLocked D (s.take c l (k :: below)) c := by
  have htotal : D.total (k :: below) = l ::ₘ D.total (s.active c) := by
    rw [hr.active, total_cons, total_cons, hk, Multiset.cons_add]
  have hnew : l ∉ D.total (s.active c) := fun hmem => by
    rw [← h.lock, hl] at hmem
    exact absurd hmem (by simp)
  have hactive : (s.take c l (k :: below)).active c = k :: below := by
    simp
  have hregs : (s.take c l (k :: below)).regs c = (s.regs c).pushOff := by
    simp
  refine ⟨?_, fun l' => ?_, ?_, ?_, ?_, h.home⟩
  · rw [hactive]
    exact (hr.active ▸ h.stack).replace hs hrun
  · rw [hactive, htotal, Multiset.mem_cons, ← h.lock]
    simp only [State.take, State.go, State.setRegs, State.setLock, update_apply]
    split
    · next he => simp [he]
    · next he => simp [he]
  · rw [hactive, htotal]
    exact Multiset.nodup_cons.2 ⟨hnew, h.nodup⟩
  · rw [hactive, hregs, htotal, Multiset.card_cons, ← h.noff]
    rfl
  · rw [hregs]
    intro hi
    exact absurd hi (by simp [Regs.pushOff])

theorem CpuLocked.drop {r : Regs} (h : CpuLocked D s c) (hr : s.Runs c f below)
    (hp : (s.regs c).popOff = some r) (hs : D.Stays (s.cur c) f k) (hrun : D.runs k)
    (hk : D.held f = l ::ₘ D.held k) : CpuLocked D (s.drop c l r (k :: below)) c := by
  have htotal : D.total (s.active c) = l ::ₘ D.total (k :: below) := by
    rw [hr.active, total_cons, total_cons, hk, Multiset.cons_add]
  have hnodup := h.nodup
  rw [htotal, Multiset.nodup_cons] at hnodup
  have hactive : (s.drop c l r (k :: below)).active c = k :: below := by
    simp
  have hregs : (s.drop c l r (k :: below)).regs c = r := by
    simp
  obtain ⟨hdec, hzero⟩ := Regs.popOff_some hp
  have hnoff : r.noff = (D.total (k :: below)).card := by
    have hcard := h.noff
    rw [htotal, Multiset.card_cons, hdec] at hcard
    exact Nat.succ.inj hcard
  refine ⟨?_, fun l' => ?_, ?_, ?_, ?_, h.home⟩
  · rw [hactive]
    exact (hr.active ▸ h.stack).replace hs hrun
  · rw [hactive]
    simp only [State.drop, State.go, State.setRegs, State.setLock, update_apply]
    split
    · next he =>
      subst he
      exact ⟨fun hno => absurd hno (by simp), fun hmem => absurd hmem hnodup.1⟩
    · next he => rw [h.lock, htotal, Multiset.mem_cons]; simp [he]
  · rw [hactive]
    exact hnodup.2
  · rw [hactive, hregs]
    exact hnoff
  · rw [hactive, hregs]
    intro hi
    rw [← Multiset.card_eq_zero, ← hnoff]
    exact hzero hi

variable [DecidableEq T]

section

variable (hD : D.Disciplined P) (h : Locked D s) (hstep : Step P s c i s')
include hD h hstep

theorem Locked.cpu_self : CpuLocked D s' c := by
  have hc := h.cpu c
  have hstack := hc.stack
  cases hstep with
  | idle => exact hc
  | halt msg _ => exact hc.go hstack rfl rfl rfl rfl rfl rfl hc.intr
  | trap _ ha hcur ht =>
    obtain ⟨hb, hrun, hm, hheld⟩ := hD.trap _ _ _ _ _ ht
    refine hc.go (hcur ▸ Stack.single hb hrun hm) ?_ (by simp) rfl rfl rfl
      ?_ ?_
    · simp [ha, hheld]
    · simp
    · simp
  | @irq f g below hr hi hq =>
    obtain ⟨hisr, hquiet, hrun, hm, hheld, hadj⟩ := hD.irq _ _ _ hq
    have hzero := hc.intr hi
    rw [hr.active] at hstack
    rw [hr.active, total_cons, add_eq_zero] at hzero
    have hkept := Multiset.le_zero.1 (hzero.1 ▸ hD.kept_le f)
    have hwf : D.Wf (g :: f :: below) :=
      ⟨hadj f, fun _ => ⟨hstack.runs f (by simp), hzero.1⟩,
        fun _ => by rw [waiting_cons, hkept, hzero.2, zero_add], hstack.wf⟩
    refine hc.go (.intro hwf hrun hm hstack.mine) ?_ (by simp) rfl rfl rfl
      ?_ ?_
    · rw [hr.active, total_cons, total_cons, waiting_cons, hheld, hkept, hzero.1, zero_add]
    · simp
    · simp
  | goto hr hk | act hr hk =>
    obtain ⟨hs, hrun, hheld⟩ := hc.instrOk hD hr hk
    exact hc.replace hr hs hrun hheld (by simp) rfl rfl rfl rfl hc.intr
  | spawn hr hk =>
    obtain ⟨hs, hrun, hheld, -⟩ := hc.instrOk hD hr hk
    exact hc.replace hr hs hrun hheld (by simp) rfl rfl rfl rfl hc.intr
  | setIntena hr hk =>
    obtain ⟨hs, hrun, hheld⟩ := hc.instrOk hD hr hk
    refine hc.replace hr hs hrun hheld (by simp) rfl rfl rfl ?_ ?_
    · simp
    · simpa using hc.intr
  | @acquire f k l below hr hk hl =>
    obtain ⟨hs, hmem | ⟨hrun, hheld⟩⟩ := hc.instrOk hD hr hk
    · have hown : s.lock l = some c := by
        rw [hc.lock, hr.active, total_cons]
        exact Multiset.mem_add.2 (.inl hmem)
      cases hl.symm.trans hown
    · exact hc.take hr hl hs hrun hheld
  | release hr hk hl hp =>
    obtain ⟨hs, hrun, hheld⟩ := hc.instrOk hD hr hk
    exact hc.drop hr hp hs hrun hheld
  | call hr hk =>
    obtain ⟨hs, hmg, hrun, -, hadj, hisr, hquiet, hheld⟩ := hc.instrOk hD hr hk
    rw [hr.active] at hstack
    refine hc.go (hstack.push hs hmg hrun (hstack.wf.push hs hadj hisr hquiet)) ?_
      (by simp) rfl rfl rfl rfl hc.intr
    rw [hr.active, total_cons, total_cons, waiting_cons, hheld, add_assoc]
  | ret hr hk =>
    have hok := hc.instrOk hD hr hk
    rw [hr.active] at hstack
    obtain ⟨hs, hrun, hheld⟩ := hok _ hstack.wf.1 (hstack.mine _ (by simp))
    refine hc.go (hstack.pop hs hrun) ?_ (by simp) rfl rfl rfl rfl hc.intr
    rw [hr.active, total_cons, total_cons, waiting_cons, hheld, add_assoc]
  | iret hr hk =>
    obtain ⟨hisr, hquiet, hheld⟩ := hc.instrOk hD hr hk
    rw [hr.active] at hstack
    have hbelow := hstack.total_below hisr hquiet
    have htotal : D.total (s.active c) = 0 := by
      rw [hr.active, total_cons, hheld, hstack.wf.quiet hquiet, zero_add]
    refine hc.go (hstack.resume hisr) (hbelow.trans htotal.symm) (by simp)
      rfl rfl rfl ?_ fun _ => htotal
    simp
  | @giveup f k t below hr hk hcur =>
    obtain ⟨-, -, hquiet, -, hheld⟩ := hc.instrOk hD hr hk
    rw [hr.active] at hstack
    have htotal : D.total (s.active c) = {D.hand t} := by
      rw [hr.active, total_cons, hstack.wf.quiet hquiet, add_zero, hheld t hcur]
    have hhome := hc.home t hcur
    exact hc.switch hhome.toStack (hhome.total.trans htotal.symm) (by simp)
      (by simp) (fun _ h => absurd h (by simp)) rfl rfl
  | @dispatch f k a t below hr hk =>
    obtain ⟨hnone, hs, hrun, hquiet, hkheld, hheld⟩ := hc.instrOk hD hr hk
    rw [hnone] at hs
    rw [hr.active, hnone] at hstack
    have hwait := hstack.wf.quiet hquiet
    have htotal : D.total (s.active c) = {D.hand t} := by
      rw [hr.active, total_cons, hwait, add_zero, hheld]
    have hsaved := h.ctx t
    refine hc.switch hsaved.toStack (hsaved.total.trans htotal.symm) (by simp)
      (by simp) (fun t' ht => ?_) rfl rfl
    simp only [enter, update_self, Option.some.injEq] at ht ⊢
    subst ht
    refine ⟨hstack.replace hs hrun, ?_⟩
    rw [total_cons, hkheld, hheld, hwait, add_zero]
  | setIntr hr hk =>
    obtain ⟨hs, hrun, hheld, hon⟩ := hc.instrOk hD hr hk
    refine hc.replace hr hs hrun hheld (by simp) rfl rfl rfl ?_ ?_
    · simp
    intro hb
    obtain ⟨hf, hq⟩ := hon (by simpa using hb)
    rw [hr.active] at hstack ⊢
    rw [total_cons, hf, hstack.wf.quiet hq, zero_add]
  | userret hr hk =>
    obtain ⟨hheld, hquiet⟩ := hc.instrOk hD hr hk
    rw [hr.active] at hstack
    have htotal : D.total (s.active c) = 0 := by
      rw [hr.active, total_cons, hheld, hstack.wf.quiet hquiet, zero_add]
    refine hc.go Stack.nil htotal.symm (by simp) rfl rfl rfl ?_
      fun _ => htotal
    simp

theorem Locked.ctx_step (t : T) : D.Saved (some t) t (s'.ctx t) := by
  have hc := h.cpu c
  cases hstep with
  | spawn hr hk =>
    obtain ⟨-, -, -, hb, hrun, hm, hheld⟩ := hc.instrOk hD hr hk
    simp only [write, go, update_apply]
    split
    · next he =>
      subst he
      exact ⟨Stack.single hb hrun hm, by simp [hheld]⟩
    · exact h.ctx t
  | giveup hr hk hcur =>
    obtain ⟨hs, hrun, hquiet, hkheld, hheld⟩ := hc.instrOk hD hr hk
    have hstack := hc.stack
    rw [hr.active] at hstack
    simp only [leave, update_apply]
    split
    · next he =>
      subst he
      refine ⟨hcur ▸ hstack.replace hs hrun, ?_⟩
      rw [total_cons, hkheld, hheld _ hcur, hstack.wf.quiet hquiet, add_zero]
    · exact h.ctx t
  | _ => exact h.ctx t

/-- **Soundness of the discipline**: a step keeps `Locked`. -/
theorem Locked.step : Locked D s' where
  cpu := by
    intro c'
    by_cases hc : c' = c
    · subst hc
      exact h.cpu_self hD hstep
    · exact (h.cpu c').other (hstep.other hc)
  ctx := h.ctx_step hD hstep

end

end Soundness

end Discipline

end Machine
