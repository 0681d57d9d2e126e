import Xv6.Machine.History
import Xv6.Semaphores.Down
import Xv6.Threads.Marked

set_option autoImplicit false

/-! # Returning from bsem_down

`bsem_down` returns to a thread that has taken the semaphore, and also to one that finds it not
allocated. The second can happen to a call that was made on an allocated semaphore: `bsem_free` may
come between the call and its test. A thread that waits is not concerned, because it never gets to
another test. -/

namespace Xv6

open List Machine

/-- The threads that have taken the semaphore `d` in the call of `bsem_down` they are in. -/
def takersStep (d : BIdx) (s : KState) (c : CpuId) (e : Env) (l : List ThreadRef) :
    List ThreadRef :=
  match takes s c d with
  | some me => me :: l
  | none =>
    match returns s c e d with
    | some me => l.filter fun t => t ≠ me
    | none => l

/-- A call of `bsem_down` on `d` that has not made its test. -/
def Frame.entering (d : BIdx) : Frame → Bool
  | .bsemDown _ d' .acquire | .bsemDown _ d' .test => d' = d
  | _ => false

/-- If the step is a call of `bsem_down` on `d`, the semaphore is allocated; and if it frees `d`, no
    thread is between its call of `bsem_down` and its test. -/
def freesIdle (d : BIdx) (s : KState) (c : CpuId) : Bool :=
  (!callsDown s c d || (s.mem.bsems d).descriptor ≠ -1) &&
    match s.top c with
    | some (.bsemFree d' .test) =>
      d' ≠ d || (s.mem.bsems d).descriptor = -1 || (s.mem.bsems d).value = 0 ||
        (List.finRange NPROC).all fun p => (List.finRange NTHREAD).all fun i =>
        (stackOf s ⟨p, i⟩).all fun f => !f.entering d
    | _ => true

/-- The threads before the test of `bsem_down` find the semaphore allocated, and those past it have
    taken it. -/
structure Takers (s : KState) (d : BIdx) (l : List ThreadRef) : Prop where
  value : (s.mem.bsems d).value ≠ -1
  entering : ∀ t st f, Valid s t st → f ∈ st → f.entering d = true → (s.mem.bsems d).descriptor ≠ -1
  past : ∀ t st pc, Valid s t st → .bsemDown t d pc ∈ st → pc = .release ∨ pc = .done → t ∈ l

section

variable {s s' : KState} {c : CpuId} {e : Env} {d : BIdx} {t me : ThreadRef} {f : Frame}
  {st : List Frame} {l : List ThreadRef}

theorem freesIdle_call (h : freesIdle d s c = true) (hc : callsDown s c d = true) :
    (s.mem.bsems d).descriptor ≠ -1 := by
  simp only [freesIdle, hc, Bool.not_true, Bool.false_or, Bool.and_eq_true] at h
  exact of_decide_eq_true h.1

theorem freesIdle_free {below : List Frame} (h : freesIdle d s c = true)
    (hr : s.Runs c (.bsemFree d .test) below) (hd : (s.mem.bsems d).descriptor ≠ -1)
    (hvalue : (s.mem.bsems d).value ≠ 0) (hcore : Core s) (hv : Valid s t st) (hf : f ∈ st) :
    f.entering d = false := by
  simp only [freesIdle, hr.top, Bool.and_eq_true] at h
  have hall := h.2
  simp only [ne_eq, not_true, decide_false, Bool.false_or, hd, hvalue, all_eq_true] at hall
  have hst := hall t.p (mem_finRange _) t.i (mem_finRange _) f
  rw [show (⟨t.p, t.i⟩ : ThreadRef) = t from rfl, hcore.stackOf_eq hv] at hst
  simpa using hst hf

theorem Valid.entering (hv : Valid s t st) (h : Core s) (hf : f ∈ st) (he : f.entering d = true) :
    f = .bsemDown t d .acquire ∨ f = .bsemDown t d .test := by
  have hm := hv.mine h hf
  unfold Frame.entering at he
  split at he
  · obtain rfl := of_decide_eq_true he
    cases hm
    exact .inl rfl
  · obtain rfl := of_decide_eq_true he
    cases hm
    exact .inr rfl
  · cases he

theorem Takers.entering_step (hh : Takers s d l) (h : Core s) (hadv : Advances s c s')
    (hstep : Step kernel s c e s') (hidle : freesIdle d s c = true) (hv : Valid s' t st)
    (hf : f ∈ st) (he : f.entering d = true) : (s'.mem.bsems d).descriptor ≠ -1 := by
  -- a semaphore that is allocated stays so, unless the step frees it
  have hkeep : (s.mem.bsems d).descriptor ≠ -1 →
      (∀ below, s.Runs c (.bsemFree d .test) below → (s.mem.bsems d).value = 0) →
      (s'.mem.bsems d).descriptor ≠ -1 := by
    intro hd hnot
    cases bsem_of_step hstep d with
    | same h' | place _ _ _ _ _ _ _ _ _ h' | take _ _ _ _ _ _ h' | up _ _ _ _ h' => rw [h']; exact hd
    | alloc _ _ _ h' =>
      rw [h']
      show (d.val : Int) ≠ -1
      omega
    | free below hr _ hvalue => exact absurd (hnot below hr) hvalue
  have hstart : ∃ pc, f = .bsemDown t d pc := by
    rcases hv.entering hadv.core hf he with hf | hf
    · exact ⟨_, hf⟩
    · exact ⟨_, hf⟩
  obtain ⟨pc, rfl⟩ := hstart
  rcases h.down_origin hadv hstep hv hf with ⟨st0, hv0, hf0⟩ | ⟨hon, ⟨-, hcall⟩ | ⟨pc0, below, hr, hn⟩⟩
  · have hd := hh.entering t st0 _ hv0 hf0 he
    refine hkeep hd fun below hr => ?_
    by_contra hvalue
    cases he.symm.trans (freesIdle_free hidle hr hd hvalue h hv0 hf0)
  · refine hkeep (freesIdle_call hidle hcall) fun below hr => ?_
    simp [callsDown, calls, hr.top] at hcall
  have hmem : .bsemDown t d pc0 ∈ s.active c := by
    rw [hr.active]
    exact mem_cons_self ..
  cases hn with
  | locked =>
    refine hkeep (hh.entering t _ _ (.on c hon) hmem (decide_eq_true rfl)) fun below' hr' => ?_
    cases (List.cons.inj (hr.active.symm.trans hr'.active)).1
  | _ => cases he

theorem Takers.past_step {l' : List ThreadRef} (hh : Takers s d l) (h : Core s)
    (hadv : Advances s c s') (hstep : Step kernel s c e s')
    (hold : ∀ st0 pc0 pc, Valid s t st0 → .bsemDown t d pc0 ∈ st0 → Valid s' t st →
      .bsemDown t d pc ∈ st → t ∈ l → t ∈ l')
    (hnew : takes s c d = some t → t ∈ l') {pc : BsemDownPc} (hv : Valid s' t st)
    (hf : .bsemDown t d pc ∈ st) (hpc : pc = .release ∨ pc = .done) : t ∈ l' := by
  rcases h.past_origin hadv hstep hv hf hpc with ⟨st0, pc0, hv0, hf0, hpc0⟩ | ht | ⟨below, hr, hd⟩
  · exact hold st0 pc0 pc hv0 hf0 hv hf (hh.past t st0 pc0 hv0 hf0 hpc0)
  · exact hnew ht
  -- the thread was entering, and the semaphore was allocated
  have hon : On s c t := .ofTop hr.active (h.mine hr.active) rfl
  refine absurd hd (hh.entering t _ (.bsemDown t d .test) (.on c hon) ?_ (decide_eq_true rfl))
  rw [hr.active]
  exact mem_cons_self ..

theorem Core.return_exec (h : Core s) (hret : returns s c e d = some me) :
    (exec kernel s c e).cur c = some me ∧
      ∃ me', (exec kernel s c e).active c = [.usertrap me' (.retval 0)] := by
  obtain ⟨below, hr⟩ := returns_runs hret
  have hirq : (s.regs c).intr = false ∨ kernel.irq (s.cur c) e = none := by
    simp only [returns, hr.top] at hret
    obtain ⟨hc, hret⟩ := Option.ite_none_right_eq_some.1 hret
    refine (Bool.and_eq_false_iff.1 hc.2).imp_right fun he => ?_
    exact Option.map_eq_none_iff.2 (Option.not_isSome_iff_eq_none.1 (by simp [he]))
  obtain ⟨me', rfl⟩ := h.syscall_under hr.active rfl
  have hexec : exec kernel s c e = execInstr kernel s c [.usertrap me' .returned] (.ret 0) := by
    rcases hirq with hoff | hnone
    · exact exec_intr_off hr hoff
    · exact exec_no_irq hr hnone
  rw [hexec]
  exact ⟨h.mine hr.active, me', Function.update_self ..⟩

/-- **Who is past the test has taken the semaphore**: every step that meets the condition keeps it
    so. -/
theorem Takers.step (hh : Takers s d l) (h : Core s) (hadv : Advances s c (exec kernel s c e))
    (hidle : freesIdle d s c = true) : Takers (exec kernel s c e) d (takersStep d s c e l) := by
  refine ⟨value_stays exec_step hh.value, fun t st f hv hf he =>
    hh.entering_step h hadv exec_step hidle hv hf he, fun t st pc hv hf hpc => ?_⟩
  refine hh.past_step h hadv exec_step (fun st0 pc0 pc hv0 hf0 hv hf hmem => ?_) (fun ht => ?_) hv hf
    hpc
  · unfold takersStep
    split
    · exact mem_cons_of_mem _ hmem
    split
    · next me hret =>
      refine mem_filter.2 ⟨hmem, ?_⟩
      -- the thread that returns is not in `bsem_down` any more
      simp only [ne_eq, decide_not, Bool.not_eq_true', decide_eq_false_iff_not]
      rintro rfl
      obtain ⟨hcur, me', hact⟩ := h.return_exec hret
      have hst := hadv.core.valid_unique hv (.on c (.ofTop hact hcur rfl))
      rw [hst, hact] at hf
      simp at hf
    · exact hmem
  · simp only [takersStep, ht]
    exact mem_cons_self ..

end

/-- **Who returns from `bsem_down` has taken the semaphore**, in every run in which it is called on
    an allocated semaphore only and `bsem_free` does not come between a call and its test. -/
theorem bsem_down_returns {g : Pages} (hg : g.ok = true) (um : UserMem) {b : BIdx → Bsem} {d : BIdx}
    (hv : (b d).value ≠ -1) (tr : List (CpuId × Env))
    (h : AlongHistory kernel (takersStep d) (fun s c _ _ => reapsZombie s c = true ∧
      freesIdle d s c = true) (bootWith b g um) [] tr) :
    let s := run kernel (bootWith b g um) tr
    ∀ c e me, returns s c e d = some me →
      me ∈ history kernel (takersStep d) (bootWith b g um) [] tr := by
  intro s c e me hret
  -- at boot no thread is in `bsem_down`
  have hboot : Takers (bootWith b g um) d [] := by
    refine ⟨hv, fun t st f hvalid hf he => ?_, fun t st pc hvalid hf _ => ?_⟩
    · rw [bootWith_frame hg um hvalid hf] at he
      cases he
    · cases bootWith_frame hg um hvalid hf
  obtain ⟨hcore, htakers⟩ := h.invariant (fun s l => Core s ∧ Takers s d l)
    ⟨bootWith_core hg um b, hboot⟩ fun s c e l ⟨hreap, hidle⟩ ⟨hcore, htakers⟩ => by
      have hadv := hcore.step (e := e) hreap exec_step
      exact ⟨hadv.core, htakers.step hcore hadv hidle⟩
  obtain ⟨below, hr⟩ := returns_runs hret
  have hon : On s c me := .ofTop hr.active (hcore.mine hr.active) rfl
  refine htakers.past me _ .done (.on c hon) ?_ (.inr rfl)
  rw [hr.active]
  exact mem_cons_self ..

/-- One thread is in `bsem_down` past its test when another calls `bsem_free`, which leaves the
    semaphore as it is. -/
theorem bsem_down_returns_taker :
    let tr := steps 0 14 ++ ecall 0 26 100 200 :: steps 0 20 ++ steps 1 15 ++
      ecall 1 31 0 0 :: steps 1 7 ++ ecall 0 30 0 0 :: steps 0 20
    returns (run kernel (bootWith oneBsem firstPages fun _ => none) tr) 1 {} 0 = some ⟨0, 1⟩ ∧
      ⟨0, 1⟩ ∈ history kernel (takersStep 0) (bootWith oneBsem firstPages fun _ => none) [] tr := by
  intro tr
  have hret : returns (run kernel (bootWith oneBsem firstPages fun _ => none) tr) 1 {} 0 =
      some ⟨0, 1⟩ := by decide +kernel
  exact ⟨hret, bsem_down_returns (g := firstPages) rfl (fun _ => none) (b := oneBsem) (d := 0)
    (by decide) tr (by decide +kernel) 1 {} _ hret⟩

/-- If the semaphore is freed between the call of `bsem_down` and its test, the thread returns
    without having taken it. -/
theorem bsem_down_returns_freed :
    let tr := steps 0 14 ++ ecall 0 26 100 200 :: steps 0 20 ++ steps 1 15 ++
      ecall 1 31 0 0 :: steps 1 4 ++ ecall 0 30 0 0 :: steps 0 20 ++ steps 1 3
    let s := run kernel (bootWith oneBsem firstPages fun _ => none) tr
    Along kernel (fun s c _ => reapsZombie s c = true ∧
        (callsDown s c 0 = true → (s.mem.bsems 0).descriptor ≠ -1))
      (bootWith oneBsem firstPages fun _ => none) tr ∧
    returns s 1 {} 0 = some ⟨0, 1⟩ ∧ (s.mem.bsems 0).value = 1 ∧
      history kernel (takersStep 0) (bootWith oneBsem firstPages fun _ => none) [] tr = [] := by
  decide +kernel

end Xv6
