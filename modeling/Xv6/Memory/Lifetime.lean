import Xv6.Memory.Rollback
import Xv6.Memory.Sbrk

set_option autoImplicit false

/-! # The pages of a process, from its page table to its end

`proc_pagetable`, any number of calls of `growproc`, and `proc_freepagetable`: no page is lost on
the way or given back twice, whatever the amounts are and wherever memory runs out. -/

namespace Xv6.Vm

open BitVec List

/-- Calls of `growproc`, whatever they return: the memory and `p->sz` after them. -/
def growprocs (kend pagetable : Addr) : List (BitVec 32) → Mem → Addr → Except String (Mem × Addr)
  | [], σ, sz => .ok (σ, sz)
  | n :: ns, σ, sz => do
    let (σ, sz, _) ← growproc kend σ pagetable sz n
    growprocs kend pagetable ns σ sz

variable {kend root sz : Addr} {σ σ₁ : Mem} {nodes : List Addr} {fixed : Nat → Option Frame}

theorem Space.growprocs (hend : KERNBASE ≤ kend) (hs : Space kend σ root nodes (pagesFor sz) fixed)
    (hu : Upper σ root) (hfix : ∀ m, m < 2 ^ 26 - 2 → fixed m = none) (ns : List (BitVec 32)) :
    ∃ σ' sz' nodes', Vm.growprocs kend root ns σ sz = .ok (σ', sz') ∧
      Space kend σ' root nodes' (pagesFor sz') fixed ∧ Upper σ' root ∧
      (σ.freelist ++ pagesOf σ root nodes (pagesFor sz)).Perm
        (σ'.freelist ++ pagesOf σ' root nodes' (pagesFor sz')) := by
  induction ns generalizing σ sz nodes with
  | nil => exact ⟨σ, sz, nodes, rfl, hs, hu, .refl _⟩
  | cons n ns ih =>
    obtain ⟨σ', sz', r, nodes', hcall, hc⟩ := hs.growproc_changes hend hfix n
    obtain ⟨σ'', sz'', nodes'', hcalls, hs', hu', hperm⟩ := ih hc.space (hc.upper hu)
    refine ⟨σ'', sz'', nodes'', ?_, hs', hu', hc.perm.trans hperm⟩
    rw [Vm.growprocs, hcall]
    exact hcalls

/-- **A process gives back all the memory that it has taken.** After `proc_pagetable` and any calls
of `growproc` the process has exactly the pages below `p->sz`, besides the trampoline and the
trapframe; `proc_freepagetable` then leaves the free pages that there were before, each of them
once. None of the functions panics. -/
theorem process_gives_back {trampoline trapframepointer : Addr} (hend : KERNBASE ≤ kend)
    (hnodup : σ.freelist.Nodup) (hram : ∀ a, a ∈ σ.freelist → Ram kend a) (htramp : Aligned trampoline)
    (htf : Aligned trapframepointer)
    (hmade : procPagetable kend σ trampoline trapframepointer = .ok (σ₁, some root)) (ns : List (BitVec 32)) :
    ∃ σ₂ sz σ₃, growprocs kend root ns σ₁ 0 = .ok (σ₂, sz) ∧
      (∀ n, n < 2 ^ 26 - 2 → (pageMap σ₂ root n ≠ none ↔ n < pagesFor sz)) ∧
      procFreepagetable kend σ₂ root sz = .ok σ₃ ∧ σ₃.freelist.Perm σ.freelist := by
  obtain ⟨nodes, fixed, hs, hu, hfix, hperm⟩ := procPagetable_space hnodup hram htramp htf hmade
  have hs₀ : Space kend σ₁ root nodes (pagesFor 0) fixed := hs
  obtain ⟨σ₂, sz, nodes', hcalls, hs₂, hu₂, hperm₂⟩ := hs₀.growprocs hend hu hfix.low ns
  obtain ⟨σ₃, hfree, hperm₃⟩ := hs₂.procFreepagetable hend hu₂ hfix
  refine ⟨σ₂, sz, σ₃, hcalls, fun n hn => ⟨fun hmap => ?_, fun hlt => ?_⟩, hfree,
    (hperm₃.trans hperm₂.symm).trans hperm.symm⟩
  · by_contra hge
    rw [hs₂.rest n (Nat.not_lt.1 hge), hfix.low n hn] at hmap
    exact hmap rfl
  · obtain ⟨fr, hfr, -⟩ := hs₂.user n hlt
    rw [hfr]
    exact Option.some_ne_none fr

theorem process_gives_back_four : ∃ σ₁ root,
    procPagetable 0x80022000 fourPages 0x80007000 0x87ffb000 = .ok (σ₁, some root) ∧
    ∃ σ₂ sz σ₃, growprocs 0x80022000 root [4096, -1, -2] σ₁ 0 = .ok (σ₂, sz) ∧
      (∀ n, n < 2 ^ 26 - 2 → (pageMap σ₂ root n ≠ none ↔ n < pagesFor sz)) ∧
      procFreepagetable 0x80022000 σ₂ root sz = .ok σ₃ ∧ σ₃.freelist.Perm fourPages.freelist := by
  have hram : ∀ a, a ∈ fourPages.freelist → Ram 0x80022000 a := by
    intro a ha
    refine ⟨?_, ?_, ?_⟩ <;> revert a <;> simp [fourPages, PHYSTOP, Aligned]
  refine Exists.imp (fun σ₁ => Exists.imp fun root hmade => ⟨hmade, ?_⟩) ⟨_, _, rfl⟩
  exact process_gives_back (by decide) (by decide) hram (by decide) (by decide) hmade _

end Xv6.Vm
