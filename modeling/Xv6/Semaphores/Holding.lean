import Xv6.Machine.History
import Xv6.Semaphores.Down

set_option autoImplicit false

/-! # Who holds a semaphore

A thread holds the semaphore from the critical section of `bsem_down` in which it takes it to that
of its `bsem_up`. The state does not show this while the thread is elsewhere, so it is kept as a
history of the run (`Use`). As long as only its holder ups it and nobody frees it, the semaphore has
at most one holder, its value says whether there is one, and `currentThread` says which (`Held`). -/

namespace Xv6

open List Machine

/-! ## The holders -/

/-- What the threads have done with a semaphore: those that took it and have not upped it since, and
    those that returned from `bsem_down` and have not upped it since. -/
structure Use where
  holders : List ThreadRef := []
  inside : List ThreadRef := []

def useStep (d : BIdx) (s : KState) (c : CpuId) (e : Env) (u : Use) : Use :=
  match takes s c d with
  | some me => { u with holders := me :: u.holders }
  | none =>
    if ups s c d then
      { holders := u.holders.filter fun t => s.cur c ≠ some t
        inside := u.inside.filter fun t => s.cur c ≠ some t }
    else
      match returns s c e d with
      | some me => { u with inside := me :: u.inside }
      | none => u

/-- If the step ups the semaphore, it is a step of one of its holders; and it does not free it. -/
def byHolder (d : BIdx) (s : KState) (c : CpuId) (u : Use) : Bool :=
  match s.top c with
  | some (.bsemUp d' .test) => d' ≠ d ∨ ∃ t ∈ u.holders, s.cur c = some t
  | some (.bsemFree d' .test) => d' ≠ d
  | _ => true

/-- The semaphore `d` has at most one holder, and its entry says so. -/
structure Held (s : KState) (d : BIdx) (u : Use) : Prop where
  descriptor : (s.mem.bsems d).descriptor ≠ -1
  holder : ((s.mem.bsems d).value = 1 ∧ u.holders = []) ∨
    (s.mem.bsems d).value = 0 ∧ ∃ t, u.holders = [t] ∧ (s.mem.bsems d).currentThread = some t
  past : ∀ t st pc, Valid s t st → .bsemDown t d pc ∈ st → pc = .release ∨ pc = .done →
    t ∈ u.holders
  inside : ∀ t ∈ u.inside, t ∈ u.holders

section

variable {s s' : KState} {c : CpuId} {e : Env} {d : BIdx} {t me : ThreadRef} {u u' : Use}

theorem Held.value (hh : Held s d u) : (s.mem.bsems d).value ≠ -1 := by
  rcases hh.holder with ⟨hv, -⟩ | ⟨hv, -⟩ <;> omega

theorem byHolder_up {below : List Frame} (hb : byHolder d s c u = true)
    (hr : s.Runs c (.bsemUp d .test) below) : ∃ t ∈ u.holders, s.cur c = some t := by
  simpa [byHolder, hr.top] using hb

theorem byHolder_free {below : List Frame} (hb : byHolder d s c u = true) :
    ¬ s.Runs c (.bsemFree d .test) below := by
  intro hr
  simp [byHolder, hr.top] at hb

section

variable (hh : Held s d u) (h : Core s)
include hh h

theorem Held.past_step (hadv : Advances s c s') (hstep : Step kernel s c e s')
    (hold : ∀ t st pc, Valid s t st → .bsemDown t d pc ∈ st → t ∈ u.holders → t ∈ u'.holders)
    (hnew : ∀ t, takes s c d = some t → t ∈ u'.holders) (t : ThreadRef) (st : List Frame)
    (pc : BsemDownPc) (hv : Valid s' t st) (hf : .bsemDown t d pc ∈ st)
    (hpc : pc = .release ∨ pc = .done) : t ∈ u'.holders := by
  rcases h.past_origin hadv hstep hv hf hpc with ⟨st0, pc0, hv0, hf0, hpc0⟩ | ht | ⟨below, -, hd⟩
  · exact hold t st0 pc0 hv0 hf0 (hh.past t st0 pc0 hv0 hf0 hpc0)
  · exact hnew t ht
  · exact absurd hd hh.descriptor

section

variable (hadv : Advances s c (exec kernel s c e))
include hadv

theorem Held.take_step
    (ht : takes s c d = some me) : Held (exec kernel s c e) d { u with holders := me :: u.holders } := by
  obtain ⟨below, -, -, hv⟩ := takes_runs ht
  have hentry := h.take_exec (e := e) ht
  obtain ⟨-, hnone⟩ : (s.mem.bsems d).value = 1 ∧ u.holders = [] :=
    hh.holder.resolve_right fun hz => by omega
  refine ⟨?_, .inr ⟨?_, me, ?_, ?_⟩, ?_, ?_⟩
  · rw [hentry]
    exact hh.descriptor
  · rw [hentry]
    rfl
  · rw [hnone]
  · rw [hentry]
    rfl
  · refine hh.past_step h hadv exec_step (fun t _ _ _ _ hmem => mem_cons_of_mem _ hmem) ?_
    intro t ht'
    cases ht.symm.trans ht'
    exact mem_cons_self ..
  · exact fun t hmem => mem_cons_of_mem _ (hh.inside t hmem)

theorem Held.up_step
    (hb : byHolder d s c u = true) (ht : takes s c d = none) (hu : ups s c d = true) :
    Held (exec kernel s c e) d
      { holders := u.holders.filter fun t => s.cur c ≠ some t
        inside := u.inside.filter fun t => s.cur c ≠ some t } := by
  obtain ⟨below, hr, hd⟩ := ups_runs hu
  have hentry := h.up_exec (e := e) hu
  obtain ⟨t0, hmem0, hcur⟩ := byHolder_up hb hr
  obtain ⟨-, t1, hone, -⟩ : (s.mem.bsems d).value = 0 ∧ ∃ t, u.holders = [t] ∧
      (s.mem.bsems d).currentThread = some t :=
    hh.holder.resolve_left fun hz => by simp [hz.2] at hmem0
  obtain rfl : t0 = t1 := by simpa [hone] using hmem0
  have hon : On s c t0 := .ofTop hr.active hcur rfl
  refine ⟨?_, .inl ⟨?_, ?_⟩, ?_, ?_⟩
  · rw [hentry]
    exact hh.descriptor
  · rw [hentry]
    rfl
  · simp [hone, hcur]
  · refine hh.past_step h hadv exec_step (fun t st0 pc hv0 hf0 hmem => ?_) (fun t ht' => ?_)
    · -- the holder is in `bsem_up`, so it is not in `bsem_down`
      obtain rfl : t = t0 := by simpa [hone] using hmem
      obtain ⟨me, hbelow⟩ := h.syscall_under hr.active rfl
      rw [h.valid_unique hv0 (.on c hon), hr.active, hbelow] at hf0
      simp at hf0
    · cases ht.symm.trans ht'
  · intro t hmem
    obtain ⟨hin, hne⟩ := mem_filter.1 hmem
    exact mem_filter.2 ⟨hh.inside t hin, hne⟩

theorem Held.keep_step
    (hb : byHolder d s c u = true) (ht : takes s c d = none) (hu : ups s c d = false)
    (hsame : u'.holders = u.holders) (hin : ∀ t ∈ u'.inside, t ∈ u.holders) :
    Held (exec kernel s c e) d u' := by
  obtain ⟨hv, hcur, hd⟩ := bsem_keeps (e := e) exec_step ht hu (fun _ => byHolder_free hb) hh.value
  refine ⟨?_, ?_, ?_, ?_⟩
  · rw [hd]
    exact hh.descriptor
  · rw [hv, hcur, hsame]
    exact hh.holder
  · refine hh.past_step h hadv exec_step (fun t _ _ _ _ hmem => hsame ▸ hmem) fun t ht' => ?_
    cases ht.symm.trans ht'
  · rw [hsame]
    exact hin

/-- **The entry keeps track of the holder**: every step that meets the conditions keeps it so. -/
theorem Held.step
    (hb : byHolder d s c u = true) : Held (exec kernel s c e) d (useStep d s c e u) := by
  unfold useStep
  split
  · next me ht => exact hh.take_step h hadv ht
  next ht =>
  split
  · next hu => exact hh.up_step h hadv hb ht hu
  next hu =>
  have hu := Bool.eq_false_iff.2 hu
  split
  · next me hret =>
    refine hh.keep_step h hadv hb ht hu rfl fun t hmem => ?_
    rcases mem_cons.1 hmem with rfl | hmem
    · -- the thread is at the end of `bsem_down`
      obtain ⟨below, hr⟩ := returns_runs hret
      have hon : On s c t := .ofTop hr.active (h.mine hr.active) rfl
      refine hh.past t _ .done (.on c hon) ?_ (.inr rfl)
      rw [hr.active]
      exact mem_cons_self ..
    · exact hh.inside t hmem
  · exact hh.keep_step h hadv hb ht hu rfl hh.inside

end

end

end

/-- **Mutual exclusion.** As long as an allocated semaphore is upped by its holders only and not
    freed, it has at most one holder; its value is 0 exactly while there is one, which is
    `currentThread`; and the threads between their `bsem_down` and their `bsem_up` hold it. -/
theorem bsem_mutex {g : Pages} (hg : g.ok = true) (um : UserMem) {b : BIdx → Bsem} {d : BIdx}
    (hd : (b d).descriptor ≠ -1) (hv : (b d).value = 1) (tr : List (CpuId × Env))
    (h : AlongHistory kernel (useStep d) (fun s c _ u => reapsZombie s c = true ∧
      byHolder d s c u = true) (bootWith b g um) {} tr) :
    let s := run kernel (bootWith b g um) tr
    let u := history kernel (useStep d) (bootWith b g um) {} tr
    (u.holders.length ≤ 1 ∧ ∀ t ∈ u.inside, t ∈ u.holders) ∧
      ((s.mem.bsems d).value = 0 ↔ u.holders ≠ []) ∧
      ∀ t ∈ u.holders, (s.mem.bsems d).currentThread = some t := by
  intro s u
  obtain ⟨-, hheld⟩ : Core s ∧ Held s d u := h.invariant (fun s u => Core s ∧ Held s d u)
    ⟨bootWith_core hg um b, hd, .inl ⟨hv, rfl⟩,
      fun t st pc hvalid hf _ => (nomatch bootWith_frame hg um hvalid hf), nofun⟩
    fun s c e u ⟨hreap, hb⟩ ⟨hcore, hheld⟩ => by
      have hadv := hcore.step (e := e) hreap exec_step
      exact ⟨hadv.core, hheld.step hcore hadv hb⟩
  rcases hheld.holder with ⟨hv, hnone⟩ | ⟨hv, t, hone, hcur⟩
  · refine ⟨⟨by simp [hnone], hheld.inside⟩, ?_, ?_⟩
    · simp [hnone, hv]
    · simp [hnone]
  refine ⟨⟨by simp [hone], hheld.inside⟩, ?_, ?_⟩
  · simp [hone, hv]
  · simp [hone, hcur]

/-- In `downTwice` the first thread holds the semaphore, and the second does not get in. -/
theorem bsem_mutex_two :
    let s := run kernel (bootWith oneBsem firstPages fun _ => none) downTwice
    let u := history kernel (useStep 0) (bootWith oneBsem firstPages fun _ => none) {} downTwice
    u.inside = [⟨0, 0⟩] ∧ u.holders.length ≤ 1 ∧
      (s.mem.bsems 0).currentThread = some ⟨0, 0⟩ := by
  obtain ⟨⟨hle, hin⟩, -, hcur⟩ := bsem_mutex (g := firstPages) rfl (fun _ => none) (b := oneBsem)
    (d := 0) (by decide) (by decide) downTwice (by decide +kernel)
  exact ⟨by decide +kernel, hle, hcur _ (hin _ (by decide +kernel))⟩

end Xv6
