import Xv6.Threads.Flow

set_option autoImplicit false

/-! # What one cpu does to the tables while the others run

`Acts s c s'` lists the changes cpu `c` makes to the thread tables in a step from `s` to `s'`, with
what gives it the right to make each: the thread it executes, or the lock it holds. `Acts.slot` says
what that means for a single slot. From this and `Core` it follows what the others may rely on: the
slot of a thread on another cpu does not change (`Acts.other`), a process whose lock another cpu
holds keeps its state (`Acts.proc`), and what the frames of the other threads rely on stays true
(`Acts.asserts`). -/

namespace Xv6

open Machine

/-- Cpu `c` is in a `fork` that is setting up the process `j`. -/
def Owns (s : KState) (c : CpuId) (j : PIdx) : Prop :=
  ∃ t f, On s c t ∧ f ∈ s.active c ∧ f.child = some j

/-- Thread `t` is new in `s'`: its slot was free, or belonged to a child that was being set up. -/
structure Started (s s' : KState) (t : ThreadRef) : Prop where
  ctx : s'.ctx t = [.forkret t]
  slot : (s.mem.table.slot t).state = .unused ∨ (s.mem.table.slot t).state = .used

/-- The frames on the stack of `c` are all plain. -/
def AllPlain (s : KState) (c : CpuId) : Prop := ∀ f ∈ s.active c, f.plain = true

/-- The changes of the tables that cpu `c` makes in a step from `s` to `s'`. -/
inductive Acts (s : KState) (c : CpuId) (s' : KState) : Prop where
  | stay (h : s'.mem.table = s.mem.table)
  | leave (t : ThreadRef) (st : ThreadState) (hon : On s c t)
      (hrun : (s.mem.table.slot t).state = .running)
      (hst : st = .runnable ∨ st = .sleeping ∨ st = .zombie)
      (h : s'.mem.table = s.mem.table.setState t st)
  | start (t : ThreadRef) (hidle : s.cur c = none) (hlock : s.lock (.proc t.p) = some c)
      (hst : (s.mem.table.slot t).state = .runnable)
      (h : s'.mem.table = s.mem.table.setState t .running)
  | wake (p : PIdx) (S : TIdx → Bool) (hlock : s.lock (.proc p) = some c)
      (hS : ∀ i, S i = true → (s.mem.table.slot ⟨p, i⟩).state = .sleeping)
      (h : s'.mem.table = s.mem.table.wake p S)
  | exit (t : ThreadRef) (hon : On s c t) (hlock : s.lock (.proc t.p) = some c)
      (hrun : (s.mem.table.slot t).state = .running)
      (hrest : ∀ i, i ≠ t.i → (s.mem.table.slot ⟨t.p, i⟩).state.dead = true)
      (h : s'.mem.table = s.mem.table.exit t)
  | alloc (j : PIdx) (tf : Nat) (hlock : s.lock (.proc j) = some c)
      (hj : s.mem.table.proc j = .unused) (htf : tf ≠ 0)
      (h : s'.mem.table = s.mem.table.alloc j tf)
  | allocFail (j : PIdx) (hlock : s.lock (.proc j) = some c) (hj : s.mem.table.proc j = .unused)
      (h : s'.mem.table = s.mem.table.allocFail j)
  | free (j : PIdx) (hlock : s.lock (.proc j) = some c)
      (hj : s.mem.table.proc j = .zombie ∨ Owns s c j) (hplain : AllPlain s' c)
      (h : s'.mem.table = s.mem.table.free j)
  | forkRun (j : PIdx) (hj : Owns s c j) (hplain : AllPlain s' c)
      (h : s'.mem.table = s.mem.table.setState ⟨j, 0⟩ .runnable)
  | create (t : ThreadRef) (k : TIdx) (hon : On s c t)
      (hrun : (s.mem.table.slot t).state = .running) (hk : s.mem.table.FirstUnused ⟨t.p, k⟩)
      (htf : (s.mem.table.slot ⟨t.p, k⟩).trapframe ≠ 0) (hplain : AllPlain s' c)
      (hctx : s'.ctx ⟨t.p, k⟩ = [.forkret ⟨t.p, k⟩])
      (h : s'.mem.table = s.mem.table.create ⟨t.p, k⟩)
  | createFault (t : ThreadRef) (k : TIdx) (hon : On s c t)
      (hrun : (s.mem.table.slot t).state = .running) (hk : s.mem.table.FirstUnused ⟨t.p, k⟩)
      (htf : (s.mem.table.slot ⟨t.p, k⟩).trapframe = 0) (hstuck : Stuck s' t)
      (hplain : AllPlain s' c) (h : s'.mem.table = s.mem.table.createFault ⟨t.p, k⟩)
  | reap (t : ThreadRef) (hlock : s.lock (.proc t.p) = some c)
      (hst : (s.mem.table.slot t).state = .zombie) (h : s'.mem.table = s.mem.table.reap t)

/-- The change of the slot `t` in such a step. -/
inductive SlotMove (s : KState) (c : CpuId) (s' : KState) (t : ThreadRef) : Prop where
  | same (h : s'.mem.table.slot t = s.mem.table.slot t)
  | leave (st : ThreadState) (hon : On s c t) (hrun : (s.mem.table.slot t).state = .running)
      (hst : st = .runnable ∨ st = .sleeping ∨ st = .zombie)
      (h : s'.mem.table.slot t = { s.mem.table.slot t with state := st })
  | start (hidle : s.cur c = none) (hlock : s.lock (.proc t.p) = some c)
      (hst : (s.mem.table.slot t).state = .runnable)
      (h : s'.mem.table.slot t = { s.mem.table.slot t with state := .running })
  | wake (hlock : s.lock (.proc t.p) = some c) (hst : (s.mem.table.slot t).state = .sleeping)
      (h : s'.mem.table.slot t = { s.mem.table.slot t with state := .runnable })
  | born (hj : Owns s c t.p) (ht : t.i = 0) (hplain : AllPlain s' c)
      (h : s'.mem.table.slot t = { s.mem.table.slot t with state := .runnable })
  | alloc (hp : s.mem.table.proc t.p = .unused)
      (hst : (s'.mem.table.slot t).state = .used ∨ (s'.mem.table.slot t).state = .unused)
      (htf : (s'.mem.table.slot t).trapframe ≠ 0)
  | free (hlock : s.lock (.proc t.p) = some c)
      (hwhy : s.mem.table.proc t.p = .unused ∨ (s.mem.table.slot t).state = .zombie ∨
        (s.mem.table.proc t.p = .zombie ∨ Owns s c t.p) ∧ AllPlain s' c)
      (hst : (s'.mem.table.slot t).state = .unused)
  | create (t0 : ThreadRef) (hp : t.p = t0.p) (hon : On s c t0)
      (hrun : (s.mem.table.slot t0).state = .running) (hk : s.mem.table.FirstUnused t)
      (htf : (s.mem.table.slot t).trapframe ≠ 0) (hplain : AllPlain s' c)
      (hctx : s'.ctx t = [.forkret t])
      (htf' : (s'.mem.table.slot t).trapframe ≠ 0)
      (hst' : (s'.mem.table.slot t).state = .runnable)
  | createFault (t0 : ThreadRef) (hp : t.p = t0.p) (hon : On s c t0)
      (hrun : (s.mem.table.slot t0).state = .running) (hk : s.mem.table.FirstUnused t)
      (hstuck : Stuck s' t0) (hplain : AllPlain s' c)
      (htf' : (s'.mem.table.slot t).trapframe = 0)
      (hst' : (s'.mem.table.slot t).state = .runnable)

section

variable {s s' : KState} {c c' : CpuId} {t : ThreadRef} {j : PIdx} {f : Frame}

theorem Core.owned (h : Core s) (hj : Owns s c j) : Child s j := by
  obtain ⟨t, f, hon, hf, hchild⟩ := hj
  have ha := h.asserts t _ (.on c hon) f hf
  cases f with
  | fork me pc => exact ha j hchild
  | _ => cases hchild

namespace Acts

section

variable (ha : Acts s c s')
include ha

theorem move (h : Core s) : Table.Move s.mem.table s'.mem.table := by
  cases ha with
  | stay h' => rw [h']; exact .stay _
  | leave t st _ hrun hst h' => rw [h']; exact .leave _ t st hrun hst
  | start t _ _ hst h' => rw [h']; exact .start _ t hst
  | wake p S _ hS h' => rw [h']; exact .wake _ p S hS
  | exit t _ _ hrun hrest h' => rw [h']; exact .exit _ t hrun hrest
  | alloc j tf _ hj htf h' => rw [h']; exact .alloc _ j tf hj htf
  | allocFail j _ hj h' => rw [h']; exact .allocFail _ j hj
  | free j _ hj _ h' => rw [h']; exact .free _ j (hj.imp id fun hj => (h.owned hj).embryo)
  | forkRun j hj _ h' => rw [h']; exact .forkRun _ j (h.owned hj).embryo
  | create t k _ hrun hk htf _ _ h' => rw [h']; exact .create _ t k hrun hk htf
  | createFault t k _ hrun hk htf _ _ h' => rw [h']; exact .createFault _ t k hrun hk htf
  | reap t _ hst h' => rw [h']; exact .reap _ t hst

/-- **What a step does to a single slot.** -/
theorem slot (h : Core s) (t : ThreadRef) : SlotMove s c s' t := by
  cases ha with
  | stay h' => exact .same (by rw [h'])
  | leave t0 st hon hrun hst h' =>
    by_cases ht : t = t0
    · subst ht
      exact .leave st hon hrun hst (by rw [h', Table.setState_slot, if_pos rfl])
    · exact .same (by rw [h', Table.setState_other ht])
  | start t0 hidle hlock hst h' =>
    by_cases ht : t = t0
    · subst ht
      exact .start hidle hlock hst (by rw [h', Table.setState_slot, if_pos rfl])
    · exact .same (by rw [h', Table.setState_other ht])
  | wake p S hlock hS h' =>
    by_cases ht : t.p = p ∧ S t.i = true
    · obtain ⟨rfl, hi⟩ := ht
      exact .wake hlock (hS t.i hi) (by rw [h']; exact if_pos ⟨rfl, hi⟩)
    · exact .same (by rw [h', Table.wake_other ht])
  | exit t0 hon hlock hrun hrest h' =>
    by_cases ht : t = t0
    · subst ht
      exact .leave .zombie hon hrun (.inr (.inr rfl)) (by
        rw [h']
        exact (Table.setState_slot _ _ _ _).trans (if_pos rfl))
    · exact .same (by rw [h', Table.exit_other ht])
  | alloc j tf hlock hj htf h' =>
    by_cases ht : t.p = j
    · subst ht
      have hunused := h.table.unused t hj
      by_cases hi : t.i = 0 <;> refine .alloc hj ?_ ?_ <;> rw [h'] <;> simp [hi, htf, hunused]
    · exact .same (by rw [h', Table.alloc_other ht])
  | allocFail j hlock hj h' =>
    by_cases ht : t.p = j
    · subst ht
      refine .free hlock (.inl hj) ?_
      rw [h']
      by_cases hi : t.i = 0 <;> simp [hi]
    · exact .same (by rw [h', Table.allocFail_other ht])
  | free j hlock hj hplain h' =>
    by_cases ht : t.p = j
    · subst ht
      refine .free hlock (.inr (.inr ⟨hj, hplain⟩)) ?_
      rw [h']
      simp
    · exact .same (by rw [h', Table.free_other ht])
  | forkRun j hj hplain h' =>
    by_cases ht : t = ⟨j, 0⟩
    · subst ht
      exact .born hj rfl hplain (by rw [h', Table.setState_slot, if_pos rfl])
    · exact .same (by rw [h', Table.setState_other ht])
  | create t0 k hon hrun hk htf hplain hctx h' =>
    by_cases ht : t = ⟨t0.p, k⟩
    · subst ht
      exact .create t0 rfl hon hrun hk htf hplain hctx (by rw [h']; simpa using htf)
        (by rw [h']; simp)
    · exact .same (by rw [h', Table.create_other ht])
  | createFault t0 k hon hrun hk htf hstuck hplain h' =>
    by_cases ht : t = ⟨t0.p, k⟩
    · subst ht
      exact .createFault t0 rfl hon hrun hk hstuck hplain
        (by rw [h']; simpa using htf) (by rw [h']; simp)
    · exact .same (by rw [h', Table.createFault_other ht])
  | reap t0 hlock hst h' =>
    by_cases ht : t = t0
    · subst ht
      exact .free hlock (.inr (.inl hst)) (by rw [h']; simp [Table.reap])
    · exact .same (by rw [h', Table.reap_other ht])

theorem proc (hne : s.lock (.proc j) ≠ some c) : s'.mem.table.proc j = s.mem.table.proc j := by
  cases ha with
  | stay h' => rw [h']
  | leave _ _ _ _ _ h' | start _ _ _ _ h' | wake _ _ _ _ h' | forkRun _ _ _ h'
  | create _ _ _ _ _ _ _ _ h' | createFault _ _ _ _ _ _ _ _ h' | reap _ _ _ h' => rw [h']; rfl
  | exit t _ hlock _ _ h' =>
    have hj : j ≠ t.p := fun he => hne (he ▸ hlock)
    rw [h']
    simp [hj]
  | alloc j' tf hlock _ _ h' =>
    have hj : j ≠ j' := fun he => hne (he ▸ hlock)
    rw [h']
    simp [hj]
  | allocFail j' hlock _ h' =>
    have hj : j ≠ j' := fun he => hne (he ▸ hlock)
    rw [h']
    simp [hj]
  | free j' hlock _ _ h' =>
    have hj : j ≠ j' := fun he => hne (he ▸ hlock)
    rw [h']
    simp [hj]

theorem running (h : Core s) (hrun : (s.mem.table.slot t).state = .running) :
    s'.mem.table.slot t = s.mem.table.slot t ∨ On s c t ∧ ∃ st,
      (st = .runnable ∨ st = .sleeping ∨ st = .zombie) ∧
      s'.mem.table.slot t = { s.mem.table.slot t with state := st } := by
  have hp : s.mem.table.proc t.p = .used := h.table.alive t (by rw [hrun]; rfl)
  have hembryo : ¬ Owns s c t.p := fun hj => by
    have hst := (h.owned hj).embryo.state
    rw [hrun] at hst
    exact absurd hst (by decide)
  cases ha.slot h t with
  | same h' => exact .inl h'
  | leave st hon _ hst h' => exact .inr ⟨hon, st, hst, h'⟩
  | start _ _ hst _ | wake _ hst _ => cases hrun.symm.trans hst
  | born hj _ _ _ => exact absurd hj hembryo
  | alloc hp' _ _ => cases hp.symm.trans hp'
  | free _ hwhy _ =>
    rcases hwhy with hp' | hst | ⟨hp' | hj, -⟩
    · cases hp.symm.trans hp'
    · cases hrun.symm.trans hst
    · cases hp.symm.trans hp'
    · exact absurd hj hembryo
  | create _ _ _ _ hk | createFault _ _ _ _ hk =>
    cases hrun.symm.trans hk.unused

/-- **The slot of a thread on another cpu does not change.** -/
theorem other (h : Core s) (hne : c' ≠ c) (hon : On s c' t) : s'.mem.table.slot t = s.mem.table.slot t := by
  by_cases hrun : (s.mem.table.slot t).state = .running
  · rcases ha.running h hrun with h' | ⟨hon', -⟩
    · exact h'
    · exact absurd (h.alone c' c t hon hon') hne
  -- the thread is in a window, and its cpu holds the lock of its process
  have hlock : s.lock (.proc t.p) ≠ some c := fun hl =>
    hne (Option.some.inj ((h.window hon hrun).symm.trans hl))
  have hunused := h.on_ne_unused hon
  cases ha.slot h t with
  | same h' => exact h'
  | leave _ _ hrun' _ _ => exact absurd hrun' hrun
  | start _ hl _ _ | wake hl _ _ | free hl _ _ => exact absurd hl hlock
  | born hj _ _ _ =>
    rcases (h.owned hj).embryo.state with hst | hst
    · exact absurd hst (h.on_ne_used hon)
    · exact absurd hst hunused
  | alloc hp _ _ => exact absurd (h.table.unused t hp) hunused
  | create _ _ _ _ hk | createFault _ _ _ _ hk => exact absurd hk.unused hunused

theorem null (h : Core s) (hstuck : ∀ t, Stuck s t → Stuck s' t)
    (hlive : (s'.mem.table.slot t).state.dead = false)
    (htf : (s'.mem.table.slot t).trapframe = 0) : ∃ i, Stuck s' ⟨t.p, i⟩ := by
  have hold : (s.mem.table.slot t).state.dead = false → (s.mem.table.slot t).trapframe = 0 →
      ∃ i, Stuck s' ⟨t.p, i⟩ := fun h1 h2 =>
    let ⟨i, hi⟩ := h.null t h1 h2
    ⟨i, hstuck _ hi⟩
  cases ha.slot h t with
  | same h' =>
    rw [h'] at hlive htf
    exact hold hlive htf
  | leave _ _ hst _ h' | start _ _ hst h' | wake _ hst h' =>
    rw [h'] at htf
    exact hold (by rw [hst]; rfl) htf
  | born hj ht _ h' =>
    rw [h', show t = ⟨t.p, 0⟩ from congrArg (ThreadRef.mk t.p) ht] at htf
    exact absurd htf (h.owned hj).embryo.trapframe
  | alloc _ _ htf' | create _ _ _ _ _ _ _ _ htf' _ => exact absurd htf htf'
  | free _ _ hst =>
    rw [hst] at hlive
    cases hlive
  | createFault t0 hp _ _ _ hs => exact ⟨t0.i, hp ▸ hs⟩

theorem parked (h : Core s) (hctx : ∀ t, s'.ctx t = s.ctx t ∨ Started s s' t ∨ On s c t)
    (hp : (s'.mem.table.slot t).parked) :
    (s.mem.table.slot t).parked ∨ Started s s' t ∨ On s c t := by
  obtain ⟨hst', htf'⟩ := hp
  cases ha.slot h t with
  | same h' => exact .inl (h' ▸ ⟨hst', htf'⟩)
  | leave _ hon _ _ _ => exact .inr (.inr hon)
  | start _ _ _ h' =>
    rw [h'] at hst'
    exact absurd hst' (by simp)
  | wake _ hst h' =>
    rw [h'] at htf'
    exact .inl ⟨.inr hst, htf'⟩
  | born hj ht _ _ =>
    rcases hctx t with hc | hc
    · have hchild := h.owned hj
      rw [show t = ⟨t.p, 0⟩ from congrArg (ThreadRef.mk t.p) ht] at hc ⊢
      exact .inr (.inl ⟨hc.trans hchild.ctx, .inr hchild.embryo.first⟩)
    · exact .inr hc
  | alloc _ hst _ =>
    rcases hst with hst | hst <;>
      · rw [hst] at hst'
        exact absurd hst' (by decide)
  | free _ _ hst =>
    rw [hst] at hst'
    exact absurd hst' (by decide)
  | create _ _ _ _ hk _ _ hc => exact .inr (.inl ⟨hc, .inl hk.unused⟩)
  | createFault _ _ _ _ _ _ _ htf _ => exact absurd htf htf'

end

/-- What `killthreads` has found out stays true: threads are created only above their creator. -/
theorem swept {me : ThreadRef} {n : Nat} (ha : Acts s c s') (h : Core s)
    (hstuck : ∀ t, Stuck s t → Stuck s' t) (hunused : (s.mem.table.slot me).state ≠ .unused)
    (hused : (s.mem.table.slot me).state ≠ .used) (hne : ¬ (On s c me ∧ AllPlain s' c))
    (hs : Swept s me n) : Swept s' me n := by
  rcases hs with hs | ⟨k, hk, hki, hst⟩
  · -- a creator has a slot that has not been passed yet
    have hcreator : ∀ t0 : ThreadRef, me.p = t0.p → On s c t0 → AllPlain s' c →
        (s.mem.table.slot t0).state = .running → t0.i ≠ me.i ∧ n ≤ t0.i.val := by
      intro t0 hp hon hplain hrun
      have hi : t0.i ≠ me.i := fun hi =>
        hne ⟨(show t0 = me from by cases t0; cases me; simp_all) ▸ hon, hplain⟩
      refine ⟨hi, ?_⟩
      by_contra hlt
      have hd := hs t0.i (by omega) hi
      rw [hp, hrun] at hd
      cases hd
    by_cases hall : ∀ k : TIdx, k.val < n → k ≠ me.i →
        (s'.mem.table.slot ⟨me.p, k⟩).state.dead = true
    · exact .inl hall
    obtain ⟨k, hk, hki, hd'⟩ : ∃ k : TIdx, k.val < n ∧ k ≠ me.i ∧
        (s'.mem.table.slot ⟨me.p, k⟩).state.dead ≠ true := by
      simpa only [not_forall, exists_prop] using hall
    have hd := hs k hk hki
    cases ha.slot h ⟨me.p, k⟩ with
    | same h' =>
      rw [h'] at hd'
      exact absurd hd hd'
    | leave _ _ hst _ _ | start _ _ hst _ | wake _ hst _ =>
      rw [hst] at hd
      cases hd
    | born hj _ _ _ =>
      rcases (h.owned (show Owns s c me.p from hj)).embryo.state with hst | hst
      · exact absurd hst hused
      · exact absurd hst hunused
    | alloc hp _ _ => exact absurd (h.table.unused me hp) hunused
    | free _ _ hst =>
      rw [hst] at hd'
      exact absurd rfl hd'
    | create t0 hp hon hrun hk' htf hplain =>
      obtain ⟨-, hn⟩ := hcreator t0 hp hon hplain hrun
      have hu := h.table.order me.p k t0.i (Fin.lt_def.2 (by omega)) hk'.unused htf
      rw [show (⟨me.p, t0.i⟩ : ThreadRef) = t0 from by rw [show me.p = t0.p from hp], hrun] at hu
      cases hu
    | createFault t0 hp hon hrun _ hst hplain =>
      obtain ⟨hi, hn⟩ := hcreator t0 hp hon hplain hrun
      exact .inr ⟨t0.i, hn, hi, (show me.p = t0.p from hp) ▸ hst⟩
  · exact .inr ⟨k, hk, hki, hstuck _ hst⟩

theorem child (ha : Acts s c s') (h : Core s)
    (hctx : ∀ t, s'.ctx t = s.ctx t ∨ Started s s' t ∨ On s c t) (hj : Child s j)
    (hne : ¬ (Owns s c j ∧ AllPlain s' c)) : Child s' j := by
  have hslot : ∀ i, s'.mem.table.slot ⟨j, i⟩ = s.mem.table.slot ⟨j, i⟩ := by
    intro i
    have hstate := hj.embryo.state (t := ⟨j, i⟩)
    have hproc := hj.embryo.proc
    have hcreator : ∀ t0 : ThreadRef, j = t0.p → (s.mem.table.slot t0).state ≠ .running := by
      rintro t0 rfl hrun
      have hst := hj.embryo.state (t := t0)
      rw [hrun] at hst
      exact absurd hst (by decide)
    cases ha.slot h ⟨j, i⟩ with
    | same h' => exact h'
    | leave _ _ hst _ _ | start _ _ hst _ | wake _ hst _ =>
      rw [hst] at hstate
      exact absurd hstate (by decide)
    | born ho _ hplain _ => exact absurd ⟨ho, hplain⟩ hne
    | alloc hp _ _ => cases hproc.symm.trans hp
    | free _ hwhy _ =>
      rcases hwhy with hp | hst | ⟨hp | ho, hplain⟩
      · cases hproc.symm.trans hp
      · rw [hst] at hstate
        exact absurd hstate (by decide)
      · cases hproc.symm.trans hp
      · exact absurd ⟨ho, hplain⟩ hne
    | create t0 hp _ hrun | createFault t0 hp _ hrun => exact absurd hrun (hcreator t0 hp)
  have hfirst : (s'.mem.table.slot ⟨j, 0⟩).state = .used := by rw [hslot]; exact hj.embryo.first
  refine ⟨⟨?_, hfirst, fun i hi => ?_, ?_⟩, ?_⟩
  · exact ((ha.move h).ok h.table).alive ⟨j, 0⟩ (by rw [hfirst]; rfl)
  · rw [hslot]
    exact hj.embryo.rest i hi
  · rw [hslot]
    exact hj.embryo.trapframe
  · rcases hctx ⟨j, 0⟩ with hc | hc | hon
    · exact hc.trans hj.ctx
    · exact hc.ctx
    · exact absurd hj.embryo.first (h.on_ne_used hon)

end Acts

variable {st : List Frame}

theorem Valid.mine (hv : Valid s t st) (h : Core s) (hf : f ∈ st) : f.mine (some t) := by
  cases hv with
  | on c hon =>
    have hm := (h.locked.cpu c).stack.mine f hf
    rw [hon.cur] at hm
    exact hm
  | parked _ _ => exact (h.locked.ctx t).mine f hf

theorem Core.valid_unique {st' : List Frame} (h : Core s) (hv : Valid s t st)
    (hv' : Valid s t st') : st = st' := by
  cases hv with
  | on c hon =>
    cases hv' with
    | on c' hon' => rw [h.alone c c' t hon hon']
    | parked _ hoff => exact absurd hon (hoff c)
  | parked _ hoff =>
    cases hv' with
    | on c' hon' => exact absurd hon' (hoff c')
    | parked => rfl

theorem Valid.framed (hv : Valid s t st) (h : Core s) : (s.mem.table.slot t).trapframe ≠ 0 := by
  cases hv with
  | on c hon => exact h.framed c t hon
  | parked hp _ => exact hp.2

theorem Valid.wf (hv : Valid s t st) (h : Core s) : locking.Wf st := by
  cases hv with
  | on c hon => exact (h.locked.cpu c).stack.wf
  | parked => exact (h.locked.ctx t).wf

theorem Valid.started (hv : Valid s t st) (h : Core s) :
    (s.mem.table.slot t).state ≠ .unused ∧ (s.mem.table.slot t).state ≠ .used := by
  cases hv with
  | on c hon => exact ⟨h.on_ne_unused hon, h.on_ne_used hon⟩
  | parked hp _ => rcases hp.1 with hst | hst <;> rw [hst] <;> exact ⟨nofun, nofun⟩

/-- **What the frames of a thread rely on stays true** while other cpus act. -/
theorem Acts.asserts (ha : Acts s c s') (h : Core s) (hstuck : ∀ t, Stuck s t → Stuck s' t)
    (hctx : ∀ t, s'.ctx t = s.ctx t ∨ Started s s' t ∨ On s c t)
    (hne : ¬ (On s c t ∧ AllPlain s' c)) (hv : Valid s t st) (hf : f ∈ st) : Asserts s' f := by
  have hold := h.asserts t st hv f hf
  have hmine := hv.mine h hf
  obtain ⟨hunused, hused⟩ := hv.started h
  have hsweep : ∀ {me : ThreadRef} {n : Nat}, some t = some me → Swept s me n → Swept s' me n := by
    rintro me n ⟨⟩ hs
    exact ha.swept h hstuck hunused hused hne hs
  unfold Asserts at hold ⊢
  split at hold
  · exact hsweep hmine hold
  · exact hsweep hmine hold
  · exact fun hpc => hsweep hmine (hold hpc)
  · exact hold
  · next me pc =>
    intro j hj
    refine ha.child h hctx (hold j hj) ?_
    rintro ⟨⟨t', f', hon', hf', hj'⟩, hplain⟩
    obtain rfl := h.child t t' st _ _ f' j hv (.on c hon') hf hf' hj hj'
    exact hne ⟨hon', hplain⟩
  · trivial

end

end Xv6
