import Xv6.Threads.Exec

set_option autoImplicit false

/-! # Following a thread through its code

A thread that has got to some point of a function stays there until it executes the next instruction
itself: an interrupt puts frames above it, the timer takes the cpu away, another cpu takes the
thread up again, but all these come back to the point (`Fn.resting`). `At` says where a thread is in
this sense, and `Core.at_step` is the rule for following it: a step leaves the thread where it is,
or is the execution of the instruction there. It applies to the points that are not waiting for a
callee outside of these (`Frame.Calm`). -/

namespace Xv6

open List Machine

/-- The functions that interrupt a thread, or put it to rest, and come back. -/
def Fn.resting : Fn → Bool
  | .sleep _ _ | .sched (.proc _) | .kerneltrap | .yield | .notify | .wakeup _ => true
  | _ => false

/-- A point that waits for no other functions than these. -/
structure Frame.Calm (b : Frame) : Prop where
  awaits : ∀ x, b.awaits x → x.resting = true
  sane : b.doomed = false

/-- Thread `t` is at the point `b`, with `rest` waiting below. -/
structure At (s : KState) (t : ThreadRef) (b : Frame) (rest : List Frame) : Prop where
  stack : ∃ pre, Valid s t (pre ++ b :: rest)
  live : (s.mem.table.slot t).state.dead = false

section

variable {s s' : KState} {c : CpuId} {e : Env} {t : ThreadRef} {b f k : Frame}
  {pre rest below st : List Frame}

/-! ## What stands above a calm point -/

theorem awaits_resting {x : Fn} (hk : k.awaits x) (hr : k.fn.resting = true) : x.resting = true := by
  unfold Frame.awaits at hk
  split at hk
  all_goals first
    | exact absurd hr Bool.false_ne_true
    | rfl
    | exact hk.elim
    | (subst hk; rfl)

theorem resting_above (hb : b.Calm) (hwf : locking.Wf (pre ++ b :: rest)) : ∀ f ∈ pre, f.fn.resting = true := by
  induction pre with
  | nil => exact fun _ hf => nomatch hf
  | cons g pre ih =>
    have hrest := ih hwf.tail
    intro f hf
    rcases mem_cons.1 hf with rfl | hf
    · cases pre with
      | nil =>
        obtain hisr | hadj : f.fn = .kerneltrap ∨ b.awaits f.fn := hwf.1
        · rw [hisr]
          rfl
        · exact hb.awaits _ hadj
      | cons x pre =>
        obtain hisr | hadj : f.fn = .kerneltrap ∨ x.awaits f.fn := hwf.1
        · rw [hisr]
          rfl
        · exact awaits_resting hadj (hrest x (mem_cons_self ..))
    · exact hrest f hf

theorem Frame.resting_sane (h : f.fn.resting = true) : f.doomed = false := by
  unfold Frame.doomed
  split
  · cases h
  · cases h
  · rfl

theorem Frame.Calm.stack_sane (hb : b.Calm) (hwf : locking.Wf (pre ++ b :: rest)) :
    doomedStack (pre ++ b :: rest) = false := by
  cases pre with
  | nil => exact hb.sane
  | cons f pre => exact Frame.resting_sane (resting_above hb hwf f (mem_cons_self ..))

theorem Frame.Calm.resume (hb : b.Calm) (v : Int) : resumeFrame b v = b := by
  unfold resumeFrame
  split
  · cases hb.awaits .syscall trivial
  · cases hb.awaits .killthreads trivial
  · cases hb.awaits .killthreads trivial
  · rfl

theorem continues_above (hb : b.Calm) (hf : f.fn.resting = true)
    (hact : s.active c = f :: (pre ++ b :: rest)) (hcont : Continues kernel s c e st) :
    ∃ pre', st = pre' ++ b :: rest := by
  have hbelow : ∀ {g : Frame} {below : List Frame}, s.Runs c g below → g = f ∧
      below = pre ++ b :: rest := fun hr => List.cons.inj (hr.active.symm.trans hact)
  cases hcont with
  | same => exact ⟨f :: pre, hact⟩
  | trap ha => cases ha.symm.trans hact
  | @irq f g below hr =>
    obtain ⟨-, rfl⟩ := hbelow hr
    exact ⟨g :: f :: pre, rfl⟩
  | @next f k below hr =>
    obtain ⟨-, rfl⟩ := hbelow hr
    exact ⟨k :: pre, rfl⟩
  | @call f g k below hr =>
    obtain ⟨-, rfl⟩ := hbelow hr
    exact ⟨g :: k :: pre, rfl⟩
  | @ret f k v rest' hr =>
    obtain ⟨-, heq⟩ := hbelow hr
    cases pre with
    | nil =>
      obtain ⟨rfl, rfl⟩ := List.cons.inj heq
      exact ⟨[], congrArg (· :: rest') (hb.resume v)⟩
    | cons x pre =>
      cases heq
      exact ⟨resumeFrame k v :: pre, rfl⟩
  | iret hr =>
    obtain ⟨-, rfl⟩ := hbelow hr
    exact ⟨pre, rfl⟩
  | @userret g below hr hk =>
    have heff : Effect s.mem g (kernel.code (s.view c e) g) := code_effect (s.view c e) g
    rw [hk] at heff
    obtain ⟨me, rfl⟩ := heff
    obtain ⟨rfl, -⟩ := hbelow hr
    cases hf

/-! ## Where a thread is -/

theorem Core.at_top (h : Core s) (hact : s.active c = b :: rest) (hcur : s.cur c = some t)
    (hb : b.plain = true) : At s t b rest := by
  have hd := Frame.plain_doomed hb
  refine ⟨⟨[], ?_⟩, ?_⟩
  · show Valid s t (b :: rest)
    rw [← hact]
    exact .on c (.ofTop hact hcur hd)
  · rw [(Frame.plain_state hb).1 (h.top_state hact hcur hd)]
    rfl

theorem dies (hstep : Step kernel s c e s') (hne : (s.mem.thread t).state ≠ .zombie)
    (hz : (s'.mem.thread t).state = .zombie) :
    ∃ f below, s.Runs c f below ∧
      (f = .killthreads t .zombie ∨ (∃ status q, f = .kthreadExit t status (.zombie q)) ∨
        ∃ status, f = .exit t status .zombie) := by
  cases turns_of_step hstep hne hz rfl with
  | killed below hr => exact ⟨_, below, hr, .inl rfl⟩
  | kthreadExit status q below hr => exact ⟨_, below, hr, .inr (.inl ⟨status, q, rfl⟩)⟩
  | exit status below hr => exact ⟨_, below, hr, .inr (.inr ⟨status, rfl⟩)⟩

theorem Core.not_dies (h : Core s) (hstep : Step kernel s c e s')
    (hlive : (s.mem.table.slot t).state.dead = false)
    (hrest : ∀ f below, On s c t → s.Runs c f below → f.fn.resting = true) :
    (s'.mem.table.slot t).state ≠ .zombie := by
  intro hz
  have hne : (s.mem.table.slot t).state ≠ .zombie := fun hz => by
    rw [hz] at hlive
    cases hlive
  obtain ⟨f, below, hr, hf⟩ := dies hstep hne hz
  have hfrest : s.cur c = some t → f.doomed = false → f.fn.resting = true := fun hcur hd =>
    hrest f below (.ofTop hr.active hcur hd) hr
  rcases hf with rfl | ⟨status, q, rfl⟩ | ⟨status, rfl⟩ <;>
    cases hfrest (h.mine hr.active) rfl

/-- A thread at a calm point is still there after a step in which its cpu, if it has one, executes
    nothing but the functions above the point. -/
theorem Core.at_stays (h : Core s) (hadv : Advances s c s') (hstep : Step kernel s c e s')
    (hb : b.Calm) (hv : Valid s t (pre ++ b :: rest))
    (hlive : (s.mem.table.slot t).state.dead = false)
    (htop : On s c t → ∃ f pre', pre = f :: pre') : At s' t b rest := by
  have hrest := resting_above hb (hv.wf h)
  have hcont : ∀ {st : List Frame}, On s c t → Continues kernel s c e st →
      ∃ pre', st = pre' ++ b :: rest := by
    intro st hon hcont
    obtain ⟨f, pre', rfl⟩ := htop hon
    exact continues_above hb (hrest f (mem_cons_self ..)) (h.valid_unique (.on c hon) hv) hcont
  have hz : (s'.mem.table.slot t).state ≠ .zombie := by
    refine h.not_dies hstep hlive fun f below hon hr => ?_
    obtain ⟨g, pre', rfl⟩ := htop hon
    cases hr.active.symm.trans (h.valid_unique (.on c hon) hv)
    exact hrest f (mem_cons_self ..)
  have hown := h.owned_not_started (c := c) (hv.started h).1 (hv.started h).2
  refine ⟨?_, (h.slot_live hadv hlive hown hz).2⟩
  obtain ⟨st', hv'⟩ := h.valid_stays hadv hstep hv hlive hz fun hon hcur => by
    have hst := (hadv.core.locked.cpu c).stack.wf
    obtain ⟨pre', heq⟩ := hcont hon (h.continues hstep hon hcur)
    rw [heq] at hst ⊢
    exact hb.stack_sane hst
  rcases h.stack_origin hadv hstep hv' with ⟨hv0, -⟩ | ⟨-, hnew⟩ | ⟨hon, hst⟩
  · rw [← h.valid_unique hv hv0] at hv'
    exact ⟨pre, hv'⟩
  · rcases hnew.slot with hu | hu
    · exact absurd hu (hv.started h).1
    · exact absurd hu (hv.started h).2
  · obtain ⟨pre', rfl⟩ := hcont hon hst
    exact ⟨pre', hv'⟩

/-- **A step leaves a thread at a calm point, or executes the instruction there.** -/
theorem Core.at_step (h : Core s) (hadv : Advances s c s') (hstep : Step kernel s c e s')
    (hb : b.Calm) (hat : At s t b rest) :
    At s' t b rest ∨ s.Runs c b rest ∧ s.cur c = some t ∧
      s' = execInstr kernel s c rest (code (s.view c e) b) := by
  obtain ⟨⟨pre, hv⟩, hlive⟩ := hat
  by_cases hown : On s c t ∧ pre = []
  · obtain ⟨hon, rfl⟩ := hown
    have hact : s.active c = b :: rest := h.valid_unique (.on c hon) hv
    rcases hstep.executes hact with rfl | ⟨msg, rfl⟩ | ⟨g, -, hq, rfl⟩ | ⟨hr, hs⟩
    · exact .inl ⟨⟨[], hv⟩, hlive⟩
    · refine .inl ⟨⟨[], ?_⟩, hlive⟩
      have hon' : On (s.halt c msg) c t := ⟨hon.cur, hon.sane⟩
      rw [← hact]
      exact .on c hon'
    · -- the interrupt comes on top
      obtain ⟨cause, -, rfl⟩ := Option.map_eq_some_iff.1 hq
      have hact' : (s.flag c false (.kerneltrap (s.cur c) (.start (cause = .timer)) :: b :: rest)).active
          c = .kerneltrap (s.cur c) (.start (cause = .timer)) :: b :: rest := Function.update_self ..
      refine .inl ⟨⟨[.kerneltrap (s.cur c) (.start (cause = .timer))], ?_⟩, hlive⟩
      have hval := Valid.on (t := t) c (.ofTop hact' hon.cur rfl)
      rw [hact'] at hval
      exact hval
    · exact .inr ⟨hr, hon.cur, hs⟩
  · refine .inl (h.at_stays hadv hstep hb hv hlive fun hon => ?_)
    cases pre with
    | nil => exact absurd ⟨hon, rfl⟩ hown
    | cons f pre => exact ⟨f, pre, rfl⟩

theorem Core.at_next {x : KInstr} (h : Core s') (hr : s.Runs c b rest) (hcur : s.cur c = some t)
    (hs : s' = execInstr kernel s c rest x) (hx : x.next = some k) (hg : ∀ k, x ≠ .giveup k)
    (hb : b.plain = true) (hk : k.plain = true) : At s' t b rest ∨ At s' t k rest := by
  have hcur' : s'.cur c = some t := by rw [hs, execInstr_cur rest hx hg, hcur]
  rcases execInstr_next (P := kernel) (s := s) (c := c) rest hx hg with hact | hact
  · rw [← hs, hr.active] at hact
    exact .inl (h.at_top hact hcur' hb)
  · rw [← hs] at hact
    exact .inr (h.at_top hact hcur' hk)

theorem Core.at_ret {v : Int} (h : Core s') (hcur : s.cur c = some t)
    (hs : s' = execInstr kernel s c (k :: rest) (.ret v)) (hk : (resumeFrame k v).plain = true) :
    At s' t (resumeFrame k v) rest := by
  refine h.at_top (c := c) ?_ (by rw [hs]; exact hcur) hk
  rw [hs]
  exact execInstr_ret

end

end Xv6
