import Xv6.Machine.Step

set_option autoImplicit false

/-! # Properties of all frames

A property of frames that does not depend on the state holds of every frame of every stack if it
holds of the frames that the code introduces. `AllFrames.step` is the rule: it asks only for the
frames that the instruction of the frame on top puts on the stack, and for those entered by the
hardware. -/

namespace Machine

open Function List

variable {C T L F A M I : Type}

/-- The frames that an instruction puts on a stack. -/
@[simp] def Instr.frames : Instr T L F A → List F
  | .goto k | .act _ k | .acquire _ k | .release _ k | .giveup k | .dispatch _ _ k | .setIntr _ k
  | .setIntena _ k => [k]
  | .spawn _ _ g k | .call g k => [g, k]
  | .ret _ | .iret | .userret | .panic _ => []

/-- Every frame of every stack, running or saved, satisfies `Q`. -/
structure AllFrames (Q : F → Prop) (s : State C T L F M) : Prop where
  active : ∀ c, ∀ f ∈ s.active c, Q f
  home : ∀ c, ∀ f ∈ s.home c, Q f
  ctx : ∀ t, ∀ f ∈ s.ctx t, Q f

/-- The frames that can be introduced by a step of `c` satisfy `Q`. -/
structure Introduces [DecidableEq C] (P : Prog C T L F A M I) (Q : F → Prop)
    (s : State C T L F M) (c : C) (i : I) : Prop where
  code : ∀ f below, s.Runs c f below → Q f → ∀ k ∈ (P.code (s.view c i) f).frames, Q k
  resume : ∀ k v, Q k → Q (P.resume k v)
  trap : ∀ m t a f, P.trap m t i = some (a, f) → Q f
  irq : ∀ o g, P.irq o i = some g → Q g

section

variable {P : Prog C T L F A M I} {Q : F → Prop} {s s' : State C T L F M} {c : C} {i : I}

theorem AllFrames.top {f : F} {below : List F} (h : AllFrames Q s) (hr : s.Runs c f below) :
    Q f ∧ ∀ k ∈ below, Q k := by
  have hall := h.active c
  rw [hr.active] at hall
  exact ⟨hall f (by simp), fun k hk => hall k (by simp [hk])⟩

variable [DecidableEq C]

theorem AllFrames.go (st : List F) (h : AllFrames Q s) (hst : ∀ f ∈ st, Q f)
    (hactive : s'.active = update s.active c st) (hhome : s'.home = s.home)
    (hctx : s'.ctx = s.ctx) : AllFrames Q s' where
  active := fun c' f hf => by
    rw [hactive, update_apply] at hf
    split at hf
    · exact hst f hf
    · exact h.active c' f hf
  home := hhome ▸ h.home
  ctx := hctx ▸ h.ctx

variable [DecidableEq T] [DecidableEq L]

/-- **A step keeps a property of all frames** that the frames it introduces have. -/
theorem AllFrames.step (h : AllFrames Q s) (hnew : Introduces P Q s c i)
    (hstep : Step P s c i s') : AllFrames Q s' := by
  have hcode : ∀ {f below x}, s.Runs c f below → P.code (s.view c i) f = x →
      ∀ k ∈ x.frames, Q k := fun hr hk => hk ▸ hnew.code _ _ hr (h.top hr).1
  cases hstep with
  | idle => exact h
  | halt => exact ⟨h.active, h.home, h.ctx⟩
  | trap _ _ _ ht => exact h.go _ (by simpa using hnew.trap _ _ _ _ ht) rfl rfl rfl
  | irq hr _ hq =>
    obtain ⟨hf, hbelow⟩ := h.top hr
    exact h.go _ (by simpa using ⟨hnew.irq _ _ hq, hf, hbelow⟩) rfl rfl rfl
  | goto hr hk | act hr hk | setIntr hr hk | setIntena hr hk | acquire hr hk _ | release hr hk _ _ =>
    exact h.go _ (by simpa using ⟨hcode hr hk _ (by simp), (h.top hr).2⟩) rfl rfl rfl
  | @spawn f g k a t below hr hk =>
    have hg := hcode hr hk g (by simp)
    refine AllFrames.go (s := { s with ctx := update s.ctx t [g] }) (k :: below)
      ⟨h.active, h.home, fun t' f hf => ?_⟩ ?_ rfl rfl rfl
    · simp only [update_apply] at hf
      split at hf
      · obtain rfl := mem_singleton.1 hf
        exact hg
      · exact h.ctx t' f hf
    · simpa using ⟨hcode hr hk k (by simp), (h.top hr).2⟩
  | @call f g k below hr hk =>
    refine h.go (g :: k :: below) ?_ rfl rfl rfl
    simpa using ⟨hcode hr hk g (by simp), hcode hr hk k (by simp),
      (h.top hr).2⟩
  | ret hr hk =>
    obtain ⟨-, hbelow⟩ := h.top hr
    refine h.go _ ?_ rfl rfl rfl
    simp only [mem_cons, forall_eq_or_imp] at hbelow ⊢
    exact ⟨hnew.resume _ _ hbelow.1, hbelow.2⟩
  | iret hr hk => exact h.go _ (h.top hr).2 rfl rfl rfl
  | @giveup f k t below hr hk hc =>
    refine ⟨fun c' f hf => ?_, h.home, fun t' f hf => ?_⟩
    · simp only [State.leave, update_apply] at hf
      split at hf
      · exact h.home c f hf
      · exact h.active c' f hf
    simp only [State.leave, update_apply] at hf
    split at hf
    · rcases mem_cons.1 hf with rfl | hf
      · exact hcode hr hk _ (by simp)
      · exact (h.top hr).2 f hf
    · exact h.ctx t' f hf
  | @dispatch f k a t below hr hk =>
    refine ⟨fun c' f hf => ?_, fun c' f hf => ?_, h.ctx⟩
    · simp only [State.enter, update_apply] at hf
      split at hf
      · exact h.ctx t f hf
      · exact h.active c' f hf
    simp only [State.enter, update_apply] at hf
    split at hf
    · rcases mem_cons.1 hf with rfl | hf
      · exact hcode hr hk _ (by simp)
      · exact (h.top hr).2 f hf
    · exact h.home c' f hf
  | userret hr hk => exact h.go _ (by simp) rfl rfl rfl

end

/-! ## The stack of one cpu -/

/-- The frames that an instruction puts on the stack of the cpu that executes it. -/
@[simp] def Instr.pushes : Instr T L F A → List F
  | .spawn _ _ _ k => [k]
  | x => x.frames

/-- A step of `c` puts `f` on the stack that `c` executes. -/
inductive Pushes [DecidableEq C] (P : Prog C T L F A M I) (s : State C T L F M) (c : C) (i : I) :
    F → Prop where
  | code {f k : F} {below : List F} (hr : s.Runs c f below)
      (hk : k ∈ (P.code (s.view c i) f).pushes) : Pushes P s c i k
  | resume {f k : F} {v : Int} {below : List F} (hr : s.Runs c f (k :: below))
      (hk : P.code (s.view c i) f = .ret v) : Pushes P s c i (P.resume k v)
  | trap {t : T} {a : A} {f : F} (hc : s.cur c = some t) (h : P.trap s.mem t i = some (a, f)) :
      Pushes P s c i f
  | irq {g : F} (h : P.irq (s.cur c) i = some g) : Pushes P s c i g

/-- The frame that an instruction goes on at in the function that issues it. -/
def Instr.next : Instr T L F A → Option F
  | .goto k | .act _ k | .spawn _ _ _ k | .acquire _ k | .release _ k | .giveup k | .setIntr _ k
  | .setIntena _ k => some k
  | _ => none

theorem Instr.next_pushes {x : Instr T L F A} {k : F} (h : x.next = some k) : k ∈ x.pushes := by
  cases x with
  | goto | act | spawn | acquire | release | giveup | setIntr | setIntena =>
    cases h
    exact mem_singleton_self _
  | _ => cases h

/-- An instruction that goes on in its function leads to the frame it names, or does not get through
    (for a lock that is not free, or with a panic). -/
theorem execInstr_next [DecidableEq C] [DecidableEq T] [DecidableEq L] {P : Prog C T L F A M I}
    {s : State C T L F M} {c : C} {x : Instr T L F A} {k : F} (below : List F) (h : x.next = some k)
    (hg : ∀ k, x ≠ .giveup k) :
    (execInstr P s c below x).active c = s.active c ∨
      (execInstr P s c below x).active c = k :: below := by
  cases x with
  | goto | act | spawn | setIntr | setIntena =>
    cases h
    exact .inr (update_self ..)
  | acquire l k0 =>
    cases h
    simp only [execInstr]
    split
    · split
      · exact .inl rfl
      · exact .inl rfl
    · exact .inr (update_self ..)
  | release l k0 =>
    cases h
    simp only [execInstr]
    split
    · split
      · exact .inr (update_self ..)
      · exact .inl rfl
    · exact .inl rfl
  | giveup k0 => exact absurd rfl (hg k0)
  | _ => cases h

theorem execInstr_cur [DecidableEq C] [DecidableEq T] [DecidableEq L] {P : Prog C T L F A M I}
    {s : State C T L F M} {c : C} {x : Instr T L F A} {k : F} (below : List F) (h : x.next = some k)
    (hg : ∀ k, x ≠ .giveup k) : (execInstr P s c below x).cur = s.cur := by
  cases x with
  | goto | act | spawn | setIntr | setIntena => rfl
  | acquire l k0 | release l k0 =>
    simp only [execInstr]
    split
    · split <;> rfl
    · rfl
  | giveup k0 => exact absurd rfl (hg k0)
  | _ => cases h

/-- The stacks that a step of `c` leads to for the thread that it executes. -/
inductive Continues [DecidableEq C] (P : Prog C T L F A M I) (s : State C T L F M) (c : C) (i : I) :
    List F → Prop where
  | same : Continues P s c i (s.active c)
  | trap {t : T} {a : A} {f : F} (ha : s.active c = []) (hc : s.cur c = some t)
      (ht : P.trap s.mem t i = some (a, f)) : Continues P s c i [f]
  | irq {f g : F} {below : List F} (hr : s.Runs c f below) (hi : (s.regs c).intr = true)
      (hq : P.irq (s.cur c) i = some g) : Continues P s c i (g :: f :: below)
  | next {f k : F} {below : List F} (hr : s.Runs c f below)
      (hk : (P.code (s.view c i) f).next = some k)
      (hl : ∀ l k, P.code (s.view c i) f = .acquire l k → s.lock l = none) :
      Continues P s c i (k :: below)
  | call {f g k : F} {below : List F} (hr : s.Runs c f below)
      (hk : P.code (s.view c i) f = .call g k) : Continues P s c i (g :: k :: below)
  | ret {f k : F} {v : Int} {rest : List F} (hr : s.Runs c f (k :: rest))
      (hk : P.code (s.view c i) f = .ret v) : Continues P s c i (P.resume k v :: rest)
  | iret {f : F} {below : List F} (hr : s.Runs c f below)
      (hk : P.code (s.view c i) f = .iret) : Continues P s c i below
  | userret {f : F} {below : List F} (hr : s.Runs c f below)
      (hk : P.code (s.view c i) f = .userret) : Continues P s c i []

section

variable [DecidableEq C] [DecidableEq T] [DecidableEq L] {P : Prog C T L F A M I}
  {s s' : State C T L F M} {c : C} {i : I} {t : T} {f : F}

theorem Step.continues (h : Step P s c i s') (hcur' : s'.cur c = some t)
    (hstart : ∀ f below a k, s.Runs c f below → P.code (s.view c i) f ≠ .dispatch a t k) :
    Continues P s c i (s'.active c) := by
  -- what the cpu executes next is the stack it was told to go on with
  have hgo : ∀ {s0 : State C T L F M} {st : List F}, Continues P s c i st →
      Continues P s c i ((s0.go c st).active c) := by
    intro s0 st hst
    simpa using hst
  cases h with
  | idle | halt => exact .same
  | trap hh ha hc ht => exact hgo (.trap ha hc ht)
  | irq hr hi hq => exact hgo (.irq hr hi hq)
  | goto hr hk | act hr hk | spawn hr hk | setIntr hr hk | setIntena hr hk | release hr hk _ _ =>
    exact hgo (.next hr (by rw [hk]; rfl) fun _ _ ha => nomatch hk.symm.trans ha)
  | acquire hr hk hl =>
    refine hgo (.next hr (by rw [hk]; rfl) fun l k ha => ?_)
    cases hk.symm.trans ha
    exact hl
  | call hr hk => exact hgo (.call hr hk)
  | ret hr hk => exact hgo (.ret hr hk)
  | iret hr hk => exact hgo (.iret hr hk)
  | giveup => simp at hcur'
  | @dispatch f0 k a t0 below hr hk =>
    obtain rfl : t0 = t := by simpa using hcur'
    exact absurd hk (hstart _ _ _ _ hr)
  | userret hr hk => exact hgo (.userret hr hk)

theorem Step.continues_left (h : Step P s c i s') (hcur : s.cur c = some t)
    (hcur' : s'.cur c = none) : Continues P s c i (s'.ctx t) := by
  cases h with
  | @giveup f0 k t0 below hr hk hc =>
    cases hc.symm.trans hcur
    have hst : Continues P s c i (k :: below) :=
      .next hr (by rw [hk]; rfl) fun _ _ ha => nomatch hk.symm.trans ha
    simpa using hst
  | dispatch => simp at hcur'
  | _ => cases hcur.symm.trans hcur'

omit [DecidableEq T] [DecidableEq L] in
theorem Continues.pushes {st : List F} (h : Continues P s c i st) (hf : f ∈ st) :
    f ∈ s.active c ∨ Pushes P s c i f := by
  cases h with
  | same => exact .inl hf
  | trap ha hc ht =>
    obtain rfl := mem_singleton.1 hf
    exact .inr (.trap hc ht)
  | irq hr hi hq =>
    rcases mem_cons.1 hf with rfl | hf
    · exact .inr (.irq hq)
    · exact .inl (hr.active ▸ hf)
  | next hr hk =>
    rcases mem_cons.1 hf with rfl | hf
    · exact .inr (.code hr (Instr.next_pushes hk))
    · exact .inl (hr.active ▸ mem_cons_of_mem _ hf)
  | @call f0 g k below hr hk =>
    have hcode : ∀ x ∈ [g, k], Pushes P s c i x := fun x hx => .code hr (by rw [hk]; exact hx)
    rcases mem_cons.1 hf with rfl | hf
    · exact .inr (hcode f (by simp))
    rcases mem_cons.1 hf with rfl | hf
    · exact .inr (hcode f (by simp))
    · exact .inl (hr.active ▸ mem_cons_of_mem _ hf)
  | ret hr hk =>
    rcases mem_cons.1 hf with rfl | hf
    · exact .inr (.resume hr hk)
    · exact .inl (hr.active ▸ mem_cons_of_mem _ (mem_cons_of_mem _ hf))
  | iret hr hk => exact .inl (hr.active ▸ mem_cons_of_mem _ hf)
  | userret => cases hf

end

end Machine
