import Xv6.Machine.Step

set_option autoImplicit false

/-! # Code that runs with interrupts off

A region `Q` of the code that is entered by turning interrupts off and left by dropping the stack,
by returning from the function that entered it, or with a panic. `Masks` is what one instruction has
to keep to, and `Masked.step` the result: a cpu that executes a frame of the region has interrupts
off, and so will be neither interrupted nor taken away from its thread before it is through. A spin
lock that is taken and released inside does not change that, since `popOff` turns interrupts on
again only if they were on before. -/

namespace Machine

open Function List

variable {C T L F A M I : Type}

/-- Interrupts are off, and the release of the last lock leaves them so. -/
structure Regs.Off (r : Regs) : Prop where
  intr : r.intr = false
  intena : r.noff ≠ 0 → r.intena = false

theorem Regs.Off.pushOff {r : Regs} (h : r.Off) : r.pushOff.Off where
  intr := rfl
  intena := fun _ => by
    unfold Regs.pushOff
    split
    · exact h.intr
    · next hn => exact h.intena hn

theorem Regs.Off.popOff {r r' : Regs} (h : r.Off) (hp : r.popOff = some r') : r'.Off := by
  have hn : r.noff ≠ 0 := by
    rw [(Regs.popOff_some hp).1]
    omega
  have hi := h.intena hn
  simp only [Regs.popOff, h.intr, hi, Bool.and_false] at hp
  split at hp
  · cases hp
  · obtain ⟨-, ⟨⟩⟩ := Option.ite_none_left_eq_some.1 hp
    exact ⟨rfl, fun _ => rfl⟩

/-- What an instruction of the frame `f` may do: go on inside the region or outside of it, and pass
    from the outside to the inside only by turning interrupts off. -/
def Instr.Masks (Q : F → Bool) (r : Regs) (f : F) : Instr T L F A → Prop
  | .goto k | .act _ k | .acquire _ k | .release _ k => Q k = Q f
  | .spawn _ _ g k => Q g = false ∧ Q k = Q f
  | .call g k => Q g = Q f ∧ Q k = Q f
  | .giveup k | .dispatch _ _ k | .setIntena _ k => Q f = false ∧ Q k = false
  | .setIntr b k => Q f = false ∧ (Q k = true → b = false ∧ r.noff = 0)
  | .iret => Q f = false
  | .ret _ | .userret | .panic _ => True

/-- The frames that a step of `c` can introduce keep to the region. -/
structure Masks [DecidableEq C] [DecidableEq L] (P : Prog C T L F A M I) (Q : F → Bool)
    (s : State C T L F M) (c : C) (i : I) : Prop where
  code : ∀ f below, s.Runs c f below → (P.code (s.view c i) f).Masks Q (s.regs c) f
  resume : ∀ k v, Q (P.resume k v) = Q k
  trap : ∀ m t a f, P.trap m t i = some (a, f) → Q f = false
  irq : ∀ o g, P.irq o i = some g → Q g = false

/-- Above a frame of the region there are only such frames. -/
abbrev Covered (Q : F → Bool) (st : List F) : Prop := st.Pairwise fun f g => Q g = true → Q f = true

/-- The cpus in the region have interrupts off, and no saved stack is in it. -/
structure Masked (Q : F → Bool) (s : State C T L F M) : Prop where
  off : ∀ c f below, s.active c = f :: below → Q f = true → (s.regs c).Off
  active : ∀ c, Covered Q (s.active c)
  home : ∀ c, ∀ f ∈ s.home c, Q f = false
  ctx : ∀ t, ∀ f ∈ s.ctx t, Q f = false

section

variable {Q : F → Bool} {f g k : F} {below st : List F}

theorem Covered.tail (h : Covered Q (f :: below)) : Covered Q below := (pairwise_cons.1 h).2

theorem Covered.outside (h : Covered Q (f :: below)) (hf : Q f = false) : ∀ x ∈ below, Q x = false := by
  intro x hx
  by_contra hne
  have hin := (pairwise_cons.1 h).1 x hx (eq_true_of_ne_false hne)
  cases hf.symm.trans hin

theorem Covered.all_outside (h : ∀ x ∈ st, Q x = false) : Covered Q st := by
  induction st with
  | nil => exact List.Pairwise.nil
  | cons f below ih =>
    have hbelow : ∀ x ∈ below, Q x = false := fun x hx => h x (mem_cons_of_mem _ hx)
    refine pairwise_cons.2 ⟨fun x hx hx' => ?_, ih hbelow⟩
    cases (hbelow x hx).symm.trans hx'

theorem Covered.push (h : Covered Q below) (hk : Q k = false → ∀ x ∈ below, Q x = false) :
    Covered Q (k :: below) := by
  refine pairwise_cons.2 ⟨fun x hx hx' => ?_, h⟩
  by_contra hne
  cases (hk (Bool.eq_false_iff.2 hne) x hx).symm.trans hx'

theorem Covered.of_outside (h : ∀ x ∈ below, Q x = false) : Covered Q (f :: below) :=
  (Covered.all_outside h).push fun _ => h

theorem Covered.replace (h : Covered Q (f :: below)) (hk : Q k = Q f) : Covered Q (k :: below) :=
  h.tail.push fun hout => h.outside (hk.symm.trans hout)

end

section

variable [DecidableEq C] [DecidableEq T] [DecidableEq L] {P : Prog C T L F A M I} {Q : F → Bool}
  {s s' : State C T L F M} {c : C} {i : I} {st : List F}

section

omit [DecidableEq C] [DecidableEq T] [DecidableEq L]

theorem Masked.go (h : Masked Q s) (hother : ∀ c', c' ≠ c → SameAt s s' c') (hcov : Covered Q (s'.active c))
    (hoff : ∀ f below, s'.active c = f :: below → Q f = true → (s'.regs c).Off)
    (hhome : ∀ f ∈ s'.home c, Q f = false) (hctx : ∀ t, ∀ f ∈ s'.ctx t, Q f = false) : Masked Q s' where
  off := fun c' f below hact hf => by
    by_cases hc : c' = c
    · subst hc
      exact hoff f below hact hf
    rw [(hother c' hc).active] at hact
    rw [(hother c' hc).regs]
    exact h.off c' f below hact hf
  active := fun c' => by
    by_cases hc : c' = c
    · exact hc ▸ hcov
    · rw [(hother c' hc).active]
      exact h.active c'
  home := fun c' => by
    by_cases hc : c' = c
    · exact hc ▸ hhome
    · rw [(hother c' hc).home]
      exact h.home c'
  ctx := hctx

variable {f g k : F} {below : List F}

theorem Masked.top (h : Masked Q s) (hr : s.Runs c f below) : Covered Q (f :: below) := hr.active ▸ h.active c

/-- The cpu goes on with a stack whose top is in the region only if interrupts are off. -/
theorem Masked.goto (h : Masked Q s) (hother : ∀ c', c' ≠ c → SameAt s s' c')
    (hactive : s'.active c = k :: below)
    (hcov : Covered Q (k :: below)) (hoff : Q k = true → (s'.regs c).Off) (hhome : s'.home = s.home)
    (hctx : ∀ t, ∀ f ∈ s'.ctx t, Q f = false) : Masked Q s' := by
  refine h.go hother (hactive ▸ hcov) (fun f' below' hact => ?_) (hhome ▸ h.home c) hctx
  cases hactive.symm.trans hact
  exact hoff

/-- The cpu goes on outside the region. -/
theorem Masked.leave (h : Masked Q s) (hother : ∀ c', c' ≠ c → SameAt s s' c') (hactive : s'.active c = st)
    (hout : ∀ x ∈ st, Q x = false) (hhome : ∀ f ∈ s'.home c, Q f = false)
    (hctx : ∀ t, ∀ f ∈ s'.ctx t, Q f = false) : Masked Q s' := by
  refine h.go hother (hactive ▸ .all_outside hout) (fun f below hact hf => ?_) hhome hctx
  have hf' := hout f (by rw [← hactive, hact]; exact mem_cons_self ..)
  cases hf'.symm.trans hf

end

/-- **Code in the region runs with interrupts off.** -/
theorem Masked.step (h : Masked Q s) (hm : Masks P Q s c i) (hstep : Step P s c i s') : Masked Q s' := by
  have hcode : ∀ {f below x}, s.Runs c f below → P.code (s.view c i) f = x →
      x.Masks Q (s.regs c) f := fun hr hk => hk ▸ hm.code _ _ hr
  have hother : ∀ c', c' ≠ c → SameAt s s' c' := fun c' hne => hstep.other hne
  have hhome := h.home c
  -- no frame of a stack is in the region if the one on top is not
  have hout : ∀ {f below k}, s.Runs c f below → Q f = false → Q k = false → ∀ x ∈ k :: below, Q x = false :=
    fun hr hf hk => forall_mem_cons.2 ⟨hk, (h.top hr).outside hf⟩
  cases hstep with
  | idle => exact h
  | halt => exact ⟨h.off, h.active, h.home, h.ctx⟩
  | @trap t a f _ _ _ ht =>
    exact h.leave hother (update_self ..) (by simpa using hm.trap _ _ _ _ ht) hhome h.ctx
  | @irq f g below hr hi hq =>
    have hf : Q f = false := by
      by_contra hne
      have hoff := h.off c f below hr.active (eq_true_of_ne_false hne)
      cases hoff.intr.symm.trans hi
    exact h.leave hother (update_self ..) (forall_mem_cons.2 ⟨hm.irq _ _ hq, hout hr hf hf⟩) hhome h.ctx
  | @goto f k below hr hk | @act f k a below hr hk =>
    have hk' : Q k = Q f := hcode hr hk
    exact h.goto hother (update_self ..) ((h.top hr).replace hk')
      (fun hin => h.off c f below hr.active (hk'.symm.trans hin)) rfl h.ctx
  | @spawn f g k a t below hr hk =>
    obtain ⟨hg, hk'⟩ := hcode hr hk
    refine h.goto hother (update_self ..) ((h.top hr).replace hk')
      (fun hin => h.off c f below hr.active (hk'.symm.trans hin)) rfl fun t' x hx => ?_
    simp only [State.write, State.go, update_apply] at hx
    split at hx
    · obtain rfl := mem_singleton.1 hx
      exact hg
    · exact h.ctx t' x hx
  | @acquire f k l below hr hk hl =>
    have hk' : Q k = Q f := hcode hr hk
    refine h.goto hother (update_self ..) ((h.top hr).replace hk') (fun hin => ?_) rfl h.ctx
    have hoff := h.off c f below hr.active (hk'.symm.trans hin)
    simpa using hoff.pushOff
  | @release f k l r below hr hk hl hp =>
    have hk' : Q k = Q f := hcode hr hk
    refine h.goto hother (update_self ..) ((h.top hr).replace hk') (fun hin => ?_) rfl h.ctx
    have hoff := h.off c f below hr.active (hk'.symm.trans hin)
    simpa using hoff.popOff hp
  | @call f g k below hr hk =>
    obtain ⟨hg, hk'⟩ := hcode hr hk
    have hcov : Covered Q (k :: below) := (h.top hr).replace hk'
    refine h.goto hother (update_self ..) (hcov.push fun hgo => ?_)
      (fun hin => h.off c f below hr.active (hg.symm.trans hin)) rfl h.ctx
    have hf : Q f = false := hg.symm.trans hgo
    exact hout hr hf (hk'.trans hf)
  | @ret f k v rest hr hk =>
    have hk' := hm.resume k v
    refine h.goto hother (update_self ..) ((h.top hr).tail.replace hk') (fun hin => ?_) rfl h.ctx
    -- the callee of a frame of the region is in the region
    have hf : Q f = true :=
      (pairwise_cons.1 (h.top hr)).1 k (mem_cons_self ..) (hk'.symm.trans hin)
    exact h.off c f _ hr.active hf
  | @iret f below hr hk =>
    exact h.leave hother (update_self ..) ((h.top hr).outside (hcode hr hk)) hhome h.ctx
  | @giveup f k t below hr hk hc =>
    obtain ⟨hf, hk'⟩ := hcode hr hk
    refine h.leave hother (update_self ..) hhome hhome fun t' x hx => ?_
    simp only [State.leave, update_apply] at hx
    split at hx
    · exact hout hr hf hk' x hx
    · exact h.ctx t' x hx
  | @dispatch f k a t below hr hk =>
    obtain ⟨hf, hk'⟩ := hcode hr hk
    refine h.leave hother (update_self ..) (h.ctx t) (fun x hx => ?_) h.ctx
    simp only [State.enter, update_self] at hx
    exact hout hr hf hk' x hx
  | @setIntr f k b below hr hk =>
    obtain ⟨hf, hin⟩ := hcode hr hk
    refine h.goto hother (update_self ..) (.of_outside ((h.top hr).outside hf)) (fun hk' => ?_) rfl h.ctx
    obtain ⟨rfl, hn⟩ := hin hk'
    refine ⟨?_, fun hne => absurd ?_ hne⟩ <;> simp [hn]
  | @setIntena f k b below hr hk =>
    obtain ⟨hf, hk'⟩ := hcode hr hk
    exact h.leave hother (update_self ..) (hout hr hf hk') hhome h.ctx
  | userret hr hk => exact h.leave hother (update_self ..) (by simp) hhome h.ctx

end

end Machine
