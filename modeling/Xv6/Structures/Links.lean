import Mathlib.Algebra.Order.BigOperators.Ring.Finset

set_option autoImplicit false

/-! # Links between numbered objects

Each object below a bound has a list of the objects to which it links. `indegree` counts the links
to an object, a link that occurs twice in a list twice, and `Reach` is what can be reached from a
root through objects of one kind. -/

namespace Structures

open Finset Function List

variable {N : Nat} {ch : Nat → List Nat} {d i j : Nat} {l : List Nat}

section

variable {ι β M : Type} [DecidableEq ι] [AddCommMonoid M] (F : β → M) (g : ι → β) {s : Finset ι} {a : ι}

theorem sum_update_mem (ha : a ∈ s) (b : β) :
    ∑ x ∈ s, F (update g a b x) + F (g a) = ∑ x ∈ s, F (g x) + F b := by
  rw [← add_sum_erase _ _ ha, ← add_sum_erase _ (fun x => F (g x)) ha, update_self]
  have hrest : ∑ x ∈ s.erase a, F (update g a b x) = ∑ x ∈ s.erase a, F (g x) := by
    refine sum_congr rfl fun x hx => ?_
    rw [update_of_ne (ne_of_mem_erase hx)]
  rw [hrest]
  ac_rfl

theorem sum_table [Fintype ι] (a : ι) (b : β) : ∑ x, F (update g a b x) + F (g a) = ∑ x, F (g x) + F b :=
  sum_update_mem F g (mem_univ a) b

end

def indegree (N : Nat) (ch : Nat → List Nat) (i : Nat) : Nat := ∑ d ∈ Finset.range N, (ch d).count i

theorem indegree_update (hd : d < N) (l : List Nat) (i : Nat) :
    indegree N (update ch d l) i + (ch d).count i = indegree N ch i + l.count i :=
  sum_update_mem (count i) ch (Finset.mem_range.2 hd) l

theorem indegree_add (hd : d < N) (hl : l.Perm (j :: ch d)) (i : Nat) :
    indegree N (update ch d l) i = indegree N ch i + if i = j then 1 else 0 := by
  have h : indegree N (update ch d l) i + _ = indegree N ch i + _ := indegree_update hd l i
  rw [hl.count_eq, count_cons] at h
  by_cases hij : i = j
  · subst hij
    simp only [beq_self_eq_true, if_true] at h ⊢
    omega
  · simp only [beq_iff_eq, if_neg hij, if_neg (Ne.symm hij)] at h ⊢
    omega

theorem indegree_pos_of_mem (hd : d < N) (hi : i ∈ ch d) : 0 < indegree N ch i := by
  have hle := single_le_sum (f := fun x => (ch x).count i) (fun _ _ => Nat.zero_le _) (Finset.mem_range.2 hd)
  have hpos := count_pos_iff.2 hi
  unfold indegree
  omega

theorem exists_of_indegree_pos (h : 0 < indegree N ch i) : ∃ d, d < N ∧ i ∈ ch d := by
  obtain ⟨d, hd, hne⟩ := exists_ne_zero_of_sum_ne_zero (Nat.pos_iff_ne_zero.1 h)
  exact ⟨d, Finset.mem_range.1 hd, count_pos_iff.1 (Nat.pos_iff_ne_zero.2 hne)⟩

/-- What is reached from the root through objects of which `inner` holds. -/
inductive Reach (root : Nat) (inner : Nat → Prop) (ch : Nat → List Nat) : Nat → Prop
  | root : Reach root inner ch root
  | link {d i : Nat} : Reach root inner ch d → i ∈ ch d → inner i → Reach root inner ch i

theorem Reach.mono {root : Nat} {inner inner' : Nat → Prop} {ch' : Nat → List Nat} (h : Reach root inner ch i)
    (hi : inner' i) (hroot : inner' root)
    (hlink : ∀ d j, j ∈ ch d → inner j → inner' j → j ∈ ch' d)
    (hinner : ∀ d, inner d → ch d ≠ [] → inner' d) : Reach root inner' ch' i := by
  induction h with
  | root => exact .root
  | link hd hmem hin ih =>
    rename_i d j
    refine .link (ih ?_) (hlink d j hmem hin hi) hi
    cases hd with
    | root => exact hroot
    | link _ _ hind => exact hinner d hind (ne_nil_of_mem hmem)

end Structures
