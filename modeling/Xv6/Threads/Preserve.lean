import Xv6.Threads.Acts
import Xv6.Threads.Inversion

set_option autoImplicit false

/-! # Every step keeps the invariant

`Core.exec`: a step of any cpu keeps `Core`, as long as `kthread_join` frees only threads that are
`TZOMBIE` (`reapsZombie`). What a step does to the other cpus and to the threads that wait is the
same for all steps (`Core.next`). For the cpu that takes the step there are three kinds: it goes on
with its thread (`Moves`), it gives the thread up, or it starts one. -/

namespace Xv6

open Machine

section

variable {s s' : KState} {c c' : CpuId} {t : ThreadRef} {f k : Frame} {below : List Frame}

/-! ## The other cpus and the threads that wait -/

/-- What is common to all steps of `c` from `s` to `s'`. -/
structure Proceeds (s : KState) (c : CpuId) (s' : KState) : Prop where
  other : ∀ c', c' ≠ c → SameAt s s' c'
  locked : locking.Locked s'
  acts : Acts s c s'
  stuck : ∀ t, Stuck s t → Stuck s' t
  ctx : ∀ t, s'.ctx t = s.ctx t ∨ Started s s' t ∨ On s c t

theorem Proceeds.on (hp : Proceeds s c s') (hne : c' ≠ c) : On s' c' t ↔ On s c' t := by
  have h := hp.other c' hne
  constructor
  · rintro ⟨hcur, hsane⟩
    exact ⟨h.cur ▸ hcur, h.active ▸ hsane⟩
  · rintro ⟨hcur, hsane⟩
    exact ⟨h.cur.symm ▸ hcur, h.active.symm ▸ hsane⟩

/-- The frame `f` on the stack of `c` in `s'` either was there before or finds what it relies on;
    the child it is setting up was being set up before, or its slot was free. -/
structure Arrives (s : KState) (c : CpuId) (s' : KState) (f : Frame) : Prop where
  asserts : Asserts s' f
  child : ∀ j, f.child = some j →
    (∃ f0 ∈ s.active c, f0.child = some j) ∨ s.mem.table.proc j = .unused

/-- Where the stacks of threads that can run come from: the thread has waited for the whole step, it
    is new, or `c` executes it, and goes on with it or gives it up. -/
inductive Origin (s : KState) (c : CpuId) (s' : KState) (t : ThreadRef) (st : List Frame) : Prop where
  | old (hv : Valid s t st) (hne : ¬ On s c t)
  | fresh (h : st = [.forkret t]) (hnew : Started s s' t)
  | own (hon : On s c t) (hcur : s'.cur c = some t) (hst : s'.active c = st)
      (h : ∀ f ∈ st, Arrives s c s' f)
  | left (hon : On s c t) (hcur : s'.cur c = none) (hst : s'.ctx t = st)
      (h : ∀ f ∈ st, Arrives s c s' f)

theorem Core.held_other (h : Core s) (hp : Proceeds s c s') (hne : c' ≠ c)
    (hact : s.active c' = f :: below) : HeldAsserts s'.mem.table f := by
  have hold := h.held c' f below hact
  have hproc : ∀ {j : PIdx}, Lock.proc j ∈ f.held → s'.mem.table.proc j = s.mem.table.proc j := by
    intro j hj
    refine hp.acts.proc fun hl => hne ?_
    exact Option.some.inj ((h.lock hact hj).symm.trans hl)
  unfold HeldAsserts at hold ⊢
  split at hold
  · exact (hproc (by simp)).trans hold
  · exact (hproc (by simp)).trans hold
  · exact (hproc (by simp)).trans hold
  · trivial

variable {st : List Frame} {j : PIdx}

theorem Origin.asserts (ho : Origin s c s' t st) (h : Core s)
    (hp : Proceeds s c s') (hf : f ∈ st) : Asserts s' f := by
  cases ho with
  | old hv hne => exact hp.acts.asserts h hp.stuck hp.ctx (fun hc => hne hc.1) hv hf
  | fresh h' _ =>
    subst h'
    obtain rfl := List.mem_singleton.1 hf
    trivial
  | own _ _ _ h' | left _ _ _ h' => exact (h' f hf).asserts

/-- A frame that sets up a child belongs to a thread that did so before, or the child is new. -/
theorem Origin.child (ho : Origin s c s' t st) (hf : f ∈ st) (hj : f.child = some j) :
    (∃ st0 f0, Valid s t st0 ∧ f0 ∈ st0 ∧ f0.child = some j) ∨
      On s c t ∧ s.mem.table.proc j = .unused := by
  cases ho with
  | old hv _ => exact .inl ⟨st, f, hv, hf, hj⟩
  | fresh h' _ =>
    subst h'
    obtain rfl := List.mem_singleton.1 hf
    cases hj
  | own hon _ _ h' | left hon _ _ h' =>
    rcases (h' f hf).child j hj with ⟨f0, hf0, hj0⟩ | hu
    · exact .inl ⟨_, f0, .on c hon, hf0, hj0⟩
    · exact .inr ⟨hon, hu⟩

theorem Core.child_used (h : Core s) (hv : Valid s t st)
    (hf : f ∈ st) (hj : f.child = some j) : s.mem.table.proc j = .used := by
  have ha := h.asserts t st hv f hf
  cases f with
  | fork me pc => exact (ha j hj).embryo.proc
  | _ => cases hj

theorem Core.child_unique {t' : ThreadRef} {st' : List Frame} {f' : Frame}
    (h : Core s) (ho : Origin s c s' t st) (ho' : Origin s c s' t' st') (hf : f ∈ st)
    (hf' : f' ∈ st') (hj : f.child = some j) (hj' : f'.child = some j) : t = t' := by
  rcases ho.child hf hj with ⟨st0, f0, hv0, hf0, hj0⟩ | ⟨hon, hu⟩ <;>
    rcases ho'.child hf' hj' with ⟨st1, f1, hv1, hf1, hj1⟩ | ⟨hon', hu'⟩
  · exact h.child t t' st0 st1 f0 f1 j hv0 hv1 hf0 hf1 hj0 hj1
  · cases (h.child_used hv0 hf0 hj0).symm.trans hu'
  · cases (h.child_used hv1 hf1 hj1).symm.trans hu
  · exact Option.some.inj (hon.cur.symm.trans hon'.cur)

/-- What a step of `c` comes to, seen from the threads. -/
structure Advances (s : KState) (c : CpuId) (s' : KState) : Prop where
  core : Core s'
  proceeds : Proceeds s c s'
  origin : ∀ t st, Valid s' t st → Origin s c s' t st

section

variable (h : Core s) (hadv : Advances s c s') (hlive : (s.mem.table.slot t).state.dead = false)
    (hown : ¬ Owns s c t.p)
include h hadv hlive hown

/-- **A slot in use stays in use** until its thread terminates, and only its state changes. -/
theorem Core.slot_stays (hz : (s'.mem.table.slot t).state ≠ .zombie) :
    ∃ st, s'.mem.table.slot t = { s.mem.table.slot t with state := st } ∧
      (st = (s.mem.table.slot t).state ∨ st = .runnable ∨ st = .sleeping ∨ st = .running) := by
  have hproc := h.table.alive t hlive
  have hunused : (s.mem.table.slot t).state ≠ .unused := fun hu => by
    rw [hu] at hlive
    cases hlive
  cases hadv.proceeds.acts.slot h t with
  | same h' => exact ⟨_, h', .inl rfl⟩
  | leave st _ _ hst h' =>
    refine ⟨st, h', .inr ?_⟩
    rw [h'] at hz
    rcases hst with hst | hst | hst
    · exact .inl hst
    · exact .inr (.inl hst)
    · exact absurd hst hz
  | start _ _ _ h' => exact ⟨_, h', .inr (.inr (.inr rfl))⟩
  | wake _ _ h' => exact ⟨_, h', .inr (.inl rfl)⟩
  | born hj _ _ _ => exact absurd hj hown
  | alloc hp _ _ => cases hproc.symm.trans hp
  | free _ hwhy _ =>
    rcases hwhy with hp | hzombie | ⟨hp | hj, -⟩
    · cases hproc.symm.trans hp
    · rw [hzombie] at hlive
      cases hlive
    · cases hproc.symm.trans hp
    · exact absurd hj hown
  | create _ _ _ _ hk | createFault _ _ _ _ hk => exact absurd hk.unused hunused

theorem Core.slot_live (hz : (s'.mem.table.slot t).state ≠ .zombie) :
    (s'.mem.table.slot t).tid = (s.mem.table.slot t).tid ∧
      (s'.mem.table.slot t).state.dead = false := by
  obtain ⟨st, h', hst⟩ := h.slot_stays hadv hlive hown hz
  rw [h']
  refine ⟨rfl, ?_⟩
  rcases hst with rfl | rfl | rfl | rfl
  · exact hlive
  · rfl
  · rfl
  · rfl

end

theorem Core.owned_not_started (h : Core s) (hunused : (s.mem.table.slot t).state ≠ .unused)
    (hused : (s.mem.table.slot t).state ≠ .used) : ¬ Owns s c t.p := fun hj =>
  (h.owned hj).embryo.state.elim hused hunused

/-- **The part of the invariant that does not depend on the kind of step.** -/
theorem Core.next (h : Core s) (hp : Proceeds s c s')
    (hsaved : ∀ t, On s c t → ∃ f rest, s'.ctx t = f :: rest ∧ f.saved = true)
    (hstate : ∀ t, On s' c t → stackStateOk (s'.active c) (s'.mem.table.slot t).state)
    (halone : ∀ c' t, c' ≠ c → On s' c t → ¬ On s c' t)
    (hframed : ∀ t, On s' c t → (s'.mem.table.slot t).trapframe ≠ 0)
    (horigin : ∀ t st, Valid s' t st → Origin s c s' t st)
    (hheld : ∀ f rest, s'.active c = f :: rest → HeldAsserts s'.mem.table f) : Core s' where
  locked := hp.locked
  table := (hp.acts.move h).ok h.table
  used := (hp.acts.move h).used h.table h.used
  saved := fun t => by
    rcases hp.ctx t with hc | hc | hon
    · rw [hc]
      exact h.saved t
    · exact ⟨_, _, hc.ctx, rfl⟩
    · exact hsaved t hon
  state := fun c' t hon => by
    by_cases hc : c' = c
    · subst hc
      exact hstate t hon
    have hon' := (hp.on hc).1 hon
    rw [(hp.other c' hc).active, hp.acts.other h hc hon']
    exact h.state c' t hon'
  alone := fun c1 c2 t h1 h2 => by
    by_cases hc1 : c1 = c <;> by_cases hc2 : c2 = c
    · exact hc1.trans hc2.symm
    · subst hc1
      exact absurd ((hp.on hc2).1 h2) (halone c2 t hc2 h1)
    · subst hc2
      exact absurd ((hp.on hc1).1 h1) (halone c1 t hc1 h2)
    · exact h.alone c1 c2 t ((hp.on hc1).1 h1) ((hp.on hc2).1 h2)
  framed := fun c' t hon => by
    by_cases hc : c' = c
    · subst hc
      exact hframed t hon
    have hon' := (hp.on hc).1 hon
    rw [hp.acts.other h hc hon']
    exact h.framed c' t hon'
  null := fun t => hp.acts.null h hp.stuck
  asserts := fun t st hv f hf => (horigin t st hv).asserts h hp hf
  child := fun t t' st st' f f' j hv hv' =>
    h.child_unique (horigin t st hv) (horigin t' st' hv')
  held := fun c' f rest hact => by
    by_cases hc : c' = c
    · subst hc
      exact hheld f rest hact
    · rw [(hp.other c' hc).active] at hact
      exact h.held_other hp hc hact

/-! ## The cpu that takes the step -/

/-- Cpu `c` goes on with the thread it executes. -/
structure Moves (s : KState) (c : CpuId) (s' : KState) : Prop where
  cur : s'.cur c = s.cur c
  sane : doomedStack (s'.active c) = false → doomedStack (s.active c) = false
  state : ∀ t, On s c t → doomedStack (s'.active c) = false →
    stackStateOk (s'.active c) (s'.mem.table.slot t).state
  gone : ∀ t, On s c t → doomedStack (s'.active c) = true → (s'.mem.table.slot t).state = .zombie
  /-- A thread that changes its own state was running. -/
  acts : ∀ t, On s c t → s'.mem.table = s.mem.table ∨ (s.mem.table.slot t).state = .running
  new : ∀ f ∈ s'.active c, f ∈ s.active c ∨ ∀ t, On s c t → Arrives s c s' f
  held : ∀ f rest, s'.active c = f :: rest → HeldAsserts s'.mem.table f

theorem Moves.back (hm : Moves s c s') (hon : On s' c t) : On s c t :=
  ⟨hm.cur ▸ hon.cur, hm.sane hon.sane⟩

theorem Core.stays (h : Core s) (hp : Proceeds s c s') (hon : On s c t) (hf : f ∈ s.active c)
    (hf' : f ∈ s'.active c) : Arrives s c s' f := by
  refine ⟨?_, fun j hj => .inl ⟨f, hf, hj⟩⟩
  by_cases hplain : AllPlain s' c
  · exact Frame.plain_asserts (hplain f hf')
  · exact hp.acts.asserts h hp.stuck hp.ctx (fun hc => hplain hc.2) (.on c hon) hf

theorem Moves.origin (hm : Moves s c s') (h : Core s) (hp : Proceeds s c s')
    (hv : Valid s' t st) : Origin s c s' t st := by
  cases hv with
  | on c' hon =>
    by_cases hc : c' = c
    · subst hc
      have hon' := hm.back hon
      refine .own hon' hon.cur rfl fun f hf => ?_
      rcases hm.new f hf with hold | hnew
      · exact h.stays hp hon' hold hf
      · exact hnew t hon'
    have hon' := (hp.on hc).1 hon
    rw [(hp.other c' hc).active]
    exact .old (.on c' hon') fun hne => hc (h.alone c' c t hon' hne)
  | parked hpark hoff =>
    -- a thread on `c` that is not on it any more has become a zombie
    have hnot : ¬ On s c t := fun hon => by
      have hd : doomedStack (s'.active c) = true := by
        by_contra hd
        exact hoff c ⟨hm.cur.trans hon.cur, Bool.eq_false_iff.2 hd⟩
      have hz := hpark.1
      rw [hm.gone t hon hd] at hz
      exact absurd hz (by decide)
    have hoff' : ∀ c', ¬ On s c' t := fun c' hon => by
      by_cases hc : c' = c
      · exact hnot (hc ▸ hon)
      · exact hoff c' ((hp.on hc).2 hon)
    rcases hp.acts.parked h hp.ctx hpark with hold | hc | hon
    · rcases hp.ctx t with hc | hc | hon
      · rw [hc]
        exact .old (.parked hold hoff') hnot
      · exact .fresh hc.ctx hc
      · exact absurd hon hnot
    · exact .fresh hc.ctx hc
    · exact absurd hon hnot

theorem Core.moves (h : Core s) (hp : Proceeds s c s') (hctx : ∀ t, On s c t → s'.ctx t = s.ctx t)
    (hm : Moves s c s') : Advances s c s' := by
  refine ⟨h.next hp (fun t hon => ?_) (fun t hon => hm.state t (hm.back hon) hon.sane) ?_ ?_
    (fun t st hv => hm.origin h hp hv) hm.held, hp, fun t st hv => hm.origin h hp hv⟩
  · rw [hctx t hon]
    exact h.saved t
  · intro c' t hc hon hon'
    exact hc (h.alone c' c t hon' (hm.back hon))
  intro t hon
  have hframed := h.framed c t (hm.back hon)
  rcases hm.acts t (hm.back hon) with htab | hrun
  · rw [htab]
    exact hframed
  · rcases hp.acts.running h hrun with h' | ⟨-, st, -, h'⟩ <;> rw [h'] <;> exact hframed

theorem Asserts.same (ha : Asserts s f) (htab : s'.mem.table = s.mem.table)
    (hstuck : ∀ t, Stuck s t → Stuck s' t)
    (hctx : ∀ j, Child s j → s'.ctx ⟨j, 0⟩ = s.ctx ⟨j, 0⟩) : Asserts s' f := by
  have hswept : ∀ {me n}, Swept s me n → Swept s' me n := by
    rintro me n (hs | ⟨k, hk, hne, hst⟩)
    · exact .inl (htab.symm ▸ hs)
    · exact .inr ⟨k, hk, hne, hstuck _ hst⟩
  unfold Asserts at ha ⊢
  split at ha
  · exact hswept ha
  · exact hswept ha
  · exact fun hpc => hswept (ha hpc)
  · exact ha
  · intro j hj
    have hchild := ha j hj
    exact ⟨htab.symm ▸ hchild.embryo, (hctx j hchild).trans hchild.ctx⟩
  · trivial

theorem Core.leaves (h : Core s) (hp : Proceeds s c s') (hon : On s c t) (hcur : s'.cur c = none)
    (htab : s'.mem.table = s.mem.table)
    (hctx : s'.ctx = Function.update s.ctx t (k :: below)) (hsaved : k.saved = true)
    (hbelow : ∀ f ∈ below, f ∈ s.active c)
    (hheld : ∀ f rest, s'.active c = f :: rest → HeldAsserts s'.mem.table f) :
    Advances s c s' := by
  have hk := Frame.saved_plain hsaved
  have hoff : ∀ t', ¬ On s' c t' := fun t' hon' => nomatch hcur.symm.trans hon'.cur
  have hown : ∀ t', On s c t' → t' = t := fun t' hon' =>
    Option.some.inj (hon'.cur.symm.trans hon.cur)
  have hctxt : s'.ctx t = k :: below := by rw [hctx, Function.update_self]
  have horigin : ∀ t' st, Valid s' t' st → Origin s c s' t' st := by
    intro t' st hv
    cases hv with
    | on c' hon' =>
      by_cases hc : c' = c
      · exact absurd (hc ▸ hon') (hoff t')
      have hon'' := (hp.on hc).1 hon'
      rw [(hp.other c' hc).active]
      exact .old (.on c' hon'') fun hne => hc (h.alone c' c t' hon'' hne)
    | parked hpark hoff' =>
      by_cases ht : t' = t
      · subst ht
        refine .left hon hcur rfl fun f hf => ?_
        rw [hctxt] at hf
        rcases List.mem_cons.1 hf with rfl | hf
        · exact ⟨Frame.plain_asserts hk, fun j hj => by
            rw [Frame.plain_child hk] at hj
            cases hj⟩
        refine ⟨(h.asserts t' _ (.on c hon) f (hbelow f hf)).same htab hp.stuck ?_,
          fun j hj => .inl ⟨f, hbelow f hf, hj⟩⟩
        intro j hj
        have hne : (⟨j, 0⟩ : ThreadRef) ≠ t' := fun he =>
          h.on_ne_used hon (he ▸ hj.embryo.first)
        rw [hctx, Function.update_of_ne hne]
      have hnot : ¬ On s c t' := fun hon' => ht (hown t' hon')
      rw [hctx, Function.update_of_ne ht]
      refine .old (.parked (htab ▸ hpark) fun c' hon' => ?_) hnot
      by_cases hc : c' = c
      · exact hnot (hc ▸ hon')
      · exact hoff' c' ((hp.on hc).2 hon')
  refine ⟨h.next hp (fun t' hon' => ?_) (fun t' hon' => absurd hon' (hoff t'))
    (fun _ t' _ hon' => absurd hon' (hoff t')) (fun t' hon' => absurd hon' (hoff t'))
    horigin hheld, hp, horigin⟩
  rw [hown t' hon', hctxt]
  exact ⟨k, below, rfl, hsaved⟩

theorem Core.enters (h : Core s) (hp : Proceeds s c s') (hidle : s.cur c = none)
    (hlock : s.lock (.proc t.p) = some c) (hst : (s.mem.table.slot t).state = .runnable)
    (htab : s'.mem.table = s.mem.table.setState t .running) (hcur : s'.cur c = some t)
    (hact : s'.active c = s.ctx t) (hctx : s'.ctx = s.ctx)
    (hsched : ∀ fn stack me rest, s.active c ≠ .kthreadCreate me fn stack .fault :: rest) :
    Advances s c s' := by
  have hnot : ∀ t', ¬ On s c t' := fun t' hon => nomatch hidle.symm.trans hon.cur
  have hoff : ∀ c', ¬ On s c' t := by
    intro c' hon
    have hl := h.window hon (by rw [hst]; nofun)
    cases hl.symm.trans hlock
    exact hnot t hon
  -- a thread without a trapframe is in a process whose lock is never released
  have htf : (s.mem.table.slot t).trapframe ≠ 0 := by
    intro htf
    obtain ⟨i, c', fn, stack, rest, hcur', hact'⟩ := h.null t (by rw [hst]; rfl) htf
    have hl : s.lock (.proc t.p) = some c' := h.lock hact' (by simp)
    cases hl.symm.trans hlock
    exact hsched _ _ _ _ hact'
  have hslot : s'.mem.table.slot t = { s.mem.table.slot t with state := .running } := by
    rw [htab, Table.setState_slot, if_pos rfl]
  have hself : ∀ t', On s' c t' → t' = t := fun t' hon =>
    Option.some.inj (hon.cur.symm.trans hcur)
  obtain ⟨f, rest, hf, hsaved⟩ := h.saved t
  have hplain := Frame.saved_plain hsaved
  have horigin : ∀ t' st, Valid s' t' st → Origin s c s' t' st := by
    intro t' st hv
    cases hv with
    | on c' hon =>
      by_cases hc : c' = c
      · subst hc
        obtain rfl := hself t' hon
        rw [hact]
        exact .old (.parked ⟨.inl hst, htf⟩ hoff) (hnot _)
      · rw [(hp.other c' hc).active]
        exact .old (.on c' ((hp.on hc).1 hon)) (hnot _)
    | parked hpark hoff' =>
      rcases hp.acts.parked h hp.ctx hpark with hold | hc | hon
      · rw [hctx]
        refine .old (.parked hold fun c' hon => ?_) (hnot _)
        by_cases hc : c' = c
        · exact hnot t' (hc ▸ hon)
        · exact hoff' c' ((hp.on hc).2 hon)
      · exact .fresh hc.ctx hc
      · exact absurd hon (hnot t')
  refine ⟨h.next hp (fun t' hon => absurd hon (hnot t')) (fun t' hon => ?_)
    (fun c' t' _ hon => ?_) (fun t' hon => ?_) horigin (fun g below hg => ?_), hp, horigin⟩
  · rw [hself t' hon, hact, hf, hslot]
    exact (Frame.plain_state hplain).2 rfl
  · rw [hself t' hon]
    exact hoff c'
  · rw [hself t' hon, hslot]
    exact htf
  · rw [hact, hf] at hg
    cases hg
    exact Frame.plain_held hplain

end

end Xv6
