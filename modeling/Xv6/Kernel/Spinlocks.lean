import Mathlib.Data.Set.Card
import Xv6.Kernel.Locking

set_option autoImplicit false

/-! # Spin locks and interrupts (`spinlock.c`)

What the lock discipline says about `acquire`, `release`, `push_off` and `pop_off` in the whole
kernel, and about the switches of a cpu between the scheduler, a thread and user mode. -/

namespace Xv6

open Machine

/-- **Whatever the cpus do, from boot on**: `noff` is the number of locks that the cpu holds,
interrupts are off while it holds one, and a `release` finds the lock held and neither of the panics
of `pop_off`; it turns interrupts on exactly with the last lock, and if `intena` says so. -/
theorem run_spinlocks (g : Pages) (um : UserMem) (tr : List (CpuId × Env)) (c : CpuId) :
    let s := run kernel (boot g um) tr
    (s.regs c).noff = {l | s.lock l = some c}.ncard ∧
    ((s.regs c).intr = true → ∀ l, s.lock l ≠ some c) ∧
    ∀ f below e l k, s.Runs c f below → code (s.view c e) f = .release l k →
      s.lock l = some c ∧ ∃ r, (s.regs c).popOff = some r ∧
        (r.intr = true ↔ (∀ m, s.lock m = some c → m = l) ∧ (s.regs c).intena = true) := by
  intro s
  have h : locking.CpuLocked s c := (run_locked g um tr).cpu c
  have hcard : {l | s.lock l = some c}.ncard = (locking.total (s.active c)).card := by
    have hset : {l | s.lock l = some c} = ((locking.total (s.active c)).toFinset : Set Lock) := by
      ext l
      simp [h.lock]
    rw [hset, Set.ncard_coe_finset, Multiset.toFinset_card_of_nodup h.nodup]
  have hoff : ∀ l, s.lock l = some c → (s.regs c).intr = false := by
    intro l hl
    by_contra hi
    have hzero := h.intr (Bool.eq_true_of_not_eq_false hi)
    have hmem := (h.lock l).1 hl
    rw [hzero] at hmem
    exact absurd hmem (Multiset.notMem_zero l)
  refine ⟨h.noff.trans hcard.symm, fun hi l hl => ?_, fun f below e l k hr hcode => ?_⟩
  · cases hi.symm.trans (hoff l hl)
  obtain ⟨-, -, hheld⟩ := h.instrOk kernel_disciplined hr hcode
  have htotal : locking.total (s.active c) = l ::ₘ (locking.held k + locking.waiting below) := by
    rw [hr.active, Discipline.total_cons, hheld, Multiset.cons_add]
  have hl : s.lock l = some c := by simp [h.lock, htotal]
  have hnoff := h.noff
  have hnodup := h.nodup
  rw [htotal, Multiset.card_cons] at hnoff
  rw [htotal, Multiset.nodup_cons] at hnodup
  refine ⟨hl, _, by rw [Regs.popOff, hoff l hl, if_neg (by simp), if_neg (by omega)], ?_⟩
  simp only [Bool.and_eq_true, decide_eq_true_eq, hnoff, Nat.add_sub_cancel, Multiset.card_eq_zero]
  refine and_congr_left fun _ => ⟨fun hnone m hm => ?_, fun honly => ?_⟩
  · simpa [h.lock, htotal, hnone] using hm
  · refine Multiset.eq_zero_of_forall_notMem fun m hm => ?_
    have hml := honly m ((h.lock m).2 (by rw [htotal]; exact Multiset.mem_cons_of_mem hm))
    exact hnodup.1 (hml ▸ hm)

/-- Where no caller keeps a lock, the cpu holds those of the frame on top. -/
theorem locked_iff {s : KState} {c : CpuId} {f : Frame} {below : List Frame} (h : locking.CpuLocked s c)
    (hr : s.Runs c f below) (hq : locking.quiet f) :
    (∀ l, s.lock l = some c ↔ l ∈ locking.held f) ∧ (s.regs c).noff = (locking.held f).card := by
  have hstack := h.stack
  rw [hr.active] at hstack
  have htotal : locking.total (s.active c) = locking.held f := by
    rw [hr.active, Discipline.total_cons, hstack.wf.quiet hq, add_zero]
  rw [h.noff, ← htotal]
  exact ⟨h.lock, rfl⟩

/-- **A cpu switches between the scheduler and a thread with `p->lock` and no other lock**, in
either direction and in every run, and it goes back to user mode without any. -/
theorem run_switches (g : Pages) (um : UserMem) (tr : List (CpuId × Env)) (c : CpuId) :
    let s := run kernel (boot g um) tr
    ∀ f below e, s.Runs c f below →
      (∀ t k a, (code (s.view c e) f = .giveup k ∧ s.cur c = some t ∨ code (s.view c e) f = .dispatch a t k) →
        (∀ l, s.lock l = some c ↔ l = .proc t.p) ∧ (s.regs c).noff = 1 ∧ (s.regs c).intr = false) ∧
      (code (s.view c e) f = .userret → (∀ l, s.lock l ≠ some c) ∧ (s.regs c).noff = 0) := by
  intro s f below e hr
  have h : locking.CpuLocked s c := (run_locked g um tr).cpu c
  refine ⟨fun t k a hcode => ?_, fun hcode => ?_⟩
  · have hf : locking.quiet f ∧ locking.held f = {.proc t.p} := by
      rcases hcode with ⟨hcode, ht⟩ | hcode
      · obtain ⟨-, -, hq, -, hheld⟩ := h.instrOk kernel_disciplined hr hcode
        exact ⟨hq, hheld t ht⟩
      · obtain ⟨-, -, -, hq, -, hheld⟩ := h.instrOk kernel_disciplined hr hcode
        exact ⟨hq, hheld⟩
    obtain ⟨hlock, hnoff⟩ := locked_iff h hr hf.1
    rw [hf.2] at hlock hnoff
    refine ⟨fun l => (hlock l).trans Multiset.mem_singleton, hnoff, ?_⟩
    by_contra hi
    have hzero := h.intr (Bool.eq_true_of_not_eq_false hi)
    rw [h.noff, hzero] at hnoff
    cases hnoff
  · obtain ⟨hheld, hq⟩ := h.instrOk kernel_disciplined hr hcode
    obtain ⟨hlock, hnoff⟩ := locked_iff h hr hq
    rw [hheld] at hlock hnoff
    exact ⟨fun l hl => absurd ((hlock l).1 hl) (Multiset.notMem_zero l), hnoff⟩

end Xv6
