import Mathlib.Algebra.Order.BigOperators.Ring.Finset

set_option autoImplicit false

/-! # Radix trees in a memory

A memory holds nodes at addresses `α`; a node has one entry for each index `ι`. An entry may point
to another node (`child`), or, in a node at the bottom, stand for a value (`value`). A path of
indices is followed from a root (`follow`), and a path of the tree's depth and a last index find a
value (`find`).

Nothing in a memory keeps two entries from pointing to the same node. Where none do (`Separated`), a
write to a node at the bottom changes what is found at one place only, and a new empty node that is
put in at an entry without a child adds one path and changes no value. -/

namespace Structures

open List Option

variable {α ι ε β : Type} {child : ε → Option α} {value : ε → Option β} {m m' : α → ι → ε}
  {root a b : α} {d : Nat} {i j : ι} {p q : List ι}

/-- The node to which a path leads from `a`. -/
def follow (child : ε → Option α) (m : α → ι → ε) : α → List ι → Option α
  | a, [] => some a
  | a, i :: p =>
    match child (m a i) with
    | some b => follow child m b p
    | none => none

/-- What the last index stands for in the node to which the path leads. -/
def find (child : ε → Option α) (value : ε → Option β) (m : α → ι → ε) (root : α) (p : List ι)
    (i : ι) : Option β :=
  match follow child m root p with
  | some a => value (m a i)
  | none => none

/-- The nodes of the tree of depth `d` below `root`. -/
def Node (child : ε → Option α) (m : α → ι → ε) (root : α) (d : Nat) (a : α) : Prop :=
  ∃ p, p.length ≤ d ∧ follow child m root p = some a

/-- No node is reached by two paths. -/
def Separated (child : ε → Option α) (m : α → ι → ε) (root : α) (d : Nat) : Prop :=
  ∀ p q a, p.length ≤ d → q.length ≤ d → follow child m root p = some a →
    follow child m root q = some a → p = q

@[simp] theorem follow_nil : follow child m root [] = some root := rfl

theorem follow_cons_some (h : child (m a i) = some b) : follow child m a (i :: p) = follow child m b p := by
  simp only [follow, h]

theorem follow_cons_none (h : child (m a i) = none) : follow child m a (i :: p) = none := by
  simp only [follow, h]

theorem follow_concat :
    follow child m root (p ++ [i]) = (follow child m root p).bind fun a => child (m a i) := by
  induction p generalizing root with
  | nil =>
    cases h : child (m root i) with
    | none => simp [follow_cons_none h, h]
    | some b => simp [follow_cons_some h, h]
  | cons j p ih =>
    cases h : child (m root j) with
    | none => simp [follow_cons_none h]
    | some b => simp [follow_cons_some h, ih]

theorem follow_concat_some (h : follow child m root p = some a) :
    follow child m root (p ++ [i]) = child (m a i) := by
  rw [follow_concat, h]
  rfl

theorem follow_concat_none (h : follow child m root p = none) : follow child m root (p ++ [i]) = none := by
  rw [follow_concat, h]
  rfl

theorem find_of_follow (h : follow child m root p = some a) : find child value m root p i = value (m a i) := by
  simp only [find, h]

theorem find_of_follow_none (h : follow child m root p = none) : find child value m root p i = none := by
  simp only [find, h]

theorem node_succ_iff : Node child m root (d + 1) a ↔
      a = root ∨ ∃ i c, child (m root i) = some c ∧ Node child m c d a := by
  constructor
  · rintro ⟨p, hp, ha⟩
    cases p with
    | nil => exact .inl (some.inj ha).symm
    | cons i p =>
      cases hc : child (m root i) with
      | none =>
        rw [follow_cons_none hc] at ha
        cases ha
      | some c =>
        rw [follow_cons_some hc] at ha
        exact .inr ⟨i, c, hc, p, Nat.le_of_succ_le_succ hp, ha⟩
  rintro (rfl | ⟨i, c, hc, p, hp, ha⟩)
  · exact ⟨[], Nat.zero_le _, follow_nil⟩
  · exact ⟨i :: p, Nat.succ_le_succ hp, (follow_cons_some hc).trans ha⟩

/-! ## Writes that keep the paths -/

theorem follow_congr
    (h : ∀ q i a, q ++ [i] <+: p → follow child m root q = some a → child (m' a i) = child (m a i)) :
    follow child m' root p = follow child m root p := by
  induction p using List.reverseRecOn with
  | nil => rfl
  | append_singleton p i ih =>
    have hp := ih fun q j a hq => h q j a (hq.trans (prefix_append p [i]))
    rw [follow_concat, follow_concat, hp]
    cases hf : follow child m root p with
    | none => rfl
    | some a => exact h p i a (prefix_refl _) hf

theorem follow_agree (h : ∀ q a, q.length < d → follow child m root q = some a → m' a = m a)
    (hp : p.length ≤ d) : follow child m' root p = follow child m root p := by
  refine follow_congr fun q i a hq ha => ?_
  have hlen : q.length < d := by
    have hle := hq.length_le
    rw [length_append, length_singleton] at hle
    omega
  rw [h q a hlen ha]

theorem follow_frame (h : ∀ a, Node child m root d a → m' a = m a) (hp : p.length ≤ d) :
    follow child m' root p = follow child m root p :=
  follow_agree (fun q a hq ha => h a ⟨q, hq.le, ha⟩) hp

theorem find_frame (h : ∀ a, Node child m root d a → m' a = m a) (hp : p.length ≤ d) :
    find child value m' root p i = find child value m root p i := by
  have hf := follow_frame h hp
  cases ha : follow child m root p with
  | none => rw [find_of_follow_none ha, find_of_follow_none (hf.trans ha)]
  | some a => rw [find_of_follow ha, find_of_follow (hf.trans ha), h a ⟨p, hp, ha⟩]

theorem Node.congr (h : ∀ p, p.length ≤ d → follow child m' root p = follow child m root p) (a : α) :
    Node child m' root d a ↔ Node child m root d a := by
  constructor
  · rintro ⟨p, hp, ha⟩
    exact ⟨p, hp, (h p hp).symm.trans ha⟩
  · rintro ⟨p, hp, ha⟩
    exact ⟨p, hp, (h p hp).trans ha⟩

theorem Separated.congr (hs : Separated child m root d)
    (h : ∀ p, p.length ≤ d → follow child m' root p = follow child m root p) :
    Separated child m' root d := by
  intro p q a hp hq ha hb
  exact hs p q a hp hq ((h p hp).symm.trans ha) ((h q hq).symm.trans hb)

/-! ## A write at the bottom -/

section Bottom

section

variable (hs : Separated child m root d) (hp : p.length = d) (ha : follow child m root p = some a)
include hs hp ha

theorem Separated.above_ne (hq : q.length < d) (hb : follow child m root q = some b) : b ≠ a := by
  rintro rfl
  have heq := hs q p b hq.le hp.le hb ha
  rw [heq] at hq
  omega

theorem Separated.follow_bottom (hm : ∀ b, b ≠ a → m' b = m b) (hq : q.length ≤ d) :
    follow child m' root q = follow child m root q :=
  follow_agree (fun _ b hr hb => hm b (hs.above_ne hp ha hr hb)) hq

end

/-- **A write to an entry of a node at the bottom changes what is found there and nowhere else.** -/
theorem Separated.find_bottom [DecidableEq ι] (hs : Separated child m root d) (value : ε → Option β)
    (hp : p.length = d) (ha : follow child m root p = some a) (hm : ∀ b, b ≠ a → m' b = m b)
    (hi : ∀ j, j ≠ i → m' a j = m a j) (hq : q.length = d) :
    find child value m' root q j
      = if q = p ∧ j = i then value (m' a i) else find child value m root q j := by
  have hf := hs.follow_bottom hp ha hm hq.le
  cases hb : follow child m root q with
  | none =>
    have hne : ¬ (q = p ∧ j = i) := by
      rintro ⟨rfl, rfl⟩
      cases ha.symm.trans hb
    rw [if_neg hne, find_of_follow_none hb, find_of_follow_none (hf.trans hb)]
  | some b =>
    rw [find_of_follow hb, find_of_follow (hf.trans hb)]
    by_cases hba : b = a
    · subst hba
      have hqp : q = p := hs q p b hq.le hp.le hb ha
      by_cases hj : j = i
      · subst hj
        rw [if_pos ⟨hqp, rfl⟩]
      · rw [if_neg fun h => hj h.2, hi j hj]
    have hne : ¬ (q = p ∧ j = i) := by
      rintro ⟨rfl, -⟩
      exact hba (some.inj (hb.symm.trans ha))
    rw [if_neg hne, hm b hba]

end Bottom

/-! ## A new node -/

/-- The memory `m'` is `m` with the empty node `b` put in at entry `i` of the node `a`, which had no
    child there. The path to `a` is `p`, above the bottom, and `b` is not in the tree. -/
structure Linked (child : ε → Option α) (value : ε → Option β) (m m' : α → ι → ε) (root : α) (d : Nat)
    (p : List ι) (i : ι) (a b : α) : Prop where
  path : follow child m root p = some a
  above : p.length < d
  vacant : child (m a i) = none
  entry : child (m' a i) = some b
  others : ∀ j, j ≠ i → m' a j = m a j
  frame : ∀ c, c ≠ a → c ≠ b → m' c = m c
  fresh : ¬ Node child m root d b
  noChild : ∀ j, child (m' b j) = none
  noValue : ∀ j, value (m' b j) = none

namespace Linked

variable (hs : Separated child m root d) (hl : Linked child value m m' root d p i a b)

include hs hl

theorem follow_eq [DecidableEq ι] (hq : q.length ≤ d) :
    follow child m' root q = if q = p ++ [i] then some b else follow child m root q := by
  induction q using List.reverseRecOn with
  | nil => simp
  | append_singleton q j ih =>
    have hlen : q.length < d := by
      rw [length_append, length_singleton] at hq
      omega
    have hq' := ih hlen.le
    by_cases hqp : q = p ++ [i]
    · -- below the new node there is nothing, before and after
      subst hqp
      rw [if_pos rfl] at hq'
      have hne : p ++ [i] ++ [j] ≠ p ++ [i] := fun h => by
        have := congrArg List.length h
        simp at this
      have hnone : follow child m root (p ++ [i]) = none := (follow_concat_some hl.path).trans hl.vacant
      rw [if_neg hne, follow_concat_some hq', follow_concat_none hnone, hl.noChild]
    rw [if_neg hqp] at hq'
    cases hc : follow child m root q with
    | none =>
      have hne : q ++ [j] ≠ p ++ [i] := fun h => by
        obtain ⟨rfl, -⟩ := append_inj' h rfl
        cases hl.path.symm.trans hc
      rw [if_neg hne, follow_concat_none hc, follow_concat_none (hq'.trans hc)]
    | some c =>
      rw [follow_concat_some hc, follow_concat_some (hq'.trans hc)]
      have hcb : c ≠ b := fun h => hl.fresh ⟨q, hlen.le, h ▸ hc⟩
      by_cases hca : c = a
      · subst hca
        obtain rfl := hs q p c hlen.le hl.above.le hc hl.path
        by_cases hj : j = i
        · subst hj
          rw [if_pos rfl, hl.entry]
        · have hne : q ++ [j] ≠ q ++ [i] := fun h => hj (by simpa using h)
          rw [if_neg hne, hl.others j hj]
      have hne : q ++ [j] ≠ p ++ [i] := fun h => by
        obtain ⟨rfl, -⟩ := append_inj' h rfl
        exact hca (some.inj (hc.symm.trans hl.path))
      rw [if_neg hne, hl.frame c hca hcb]

theorem follow_new : follow child m' root (p ++ [i]) = some b := by
  classical
  rw [follow_eq hs hl (by
    rw [length_append, length_singleton]
    exact hl.above), if_pos rfl]

theorem node_iff {c : α} : Node child m' root d c ↔ Node child m root d c ∨ c = b := by
  classical
  constructor
  · rintro ⟨q, hq, hc⟩
    rw [follow_eq hs hl hq] at hc
    split at hc
    · exact .inr (some.inj hc).symm
    · exact .inl ⟨q, hq, hc⟩
  rintro (⟨q, hq, hc⟩ | rfl)
  · refine ⟨q, hq, ?_⟩
    rw [follow_eq hs hl hq, if_neg, hc]
    -- the new path led nowhere before
    rintro rfl
    have hnone := (follow_concat_some (i := i) hl.path).trans hl.vacant
    cases hc.symm.trans hnone
  exact ⟨p ++ [i], by
    rw [length_append, length_singleton]
    exact hl.above, follow_new hs hl⟩

/-- **The tree stays a tree.** -/
theorem separated : Separated child m' root d := by
  classical
  intro q r c hq hr hqc hrc
  rw [follow_eq hs hl hq] at hqc
  rw [follow_eq hs hl hr] at hrc
  split at hqc
  · next hq' =>
    split at hrc
    · next hr' => rw [hq', hr']
    · exact absurd ⟨r, hr, some.inj hqc ▸ hrc⟩ hl.fresh
  split at hrc
  · exact absurd ⟨q, hq, some.inj hrc ▸ hqc⟩ hl.fresh
  · exact hs q r c hq hr hqc hrc

/-- **The new node changes nothing of what is found.** -/
theorem find_eq (hq : q.length = d) : find child value m' root q j = find child value m root q j := by
  classical
  have hf := follow_eq hs hl hq.le
  split at hf
  · next hqp =>
    have hnone : follow child m root q = none := by
      rw [hqp]
      exact (follow_concat_some hl.path).trans hl.vacant
    rw [find_of_follow hf, find_of_follow_none hnone, hl.noValue]
  cases hc : follow child m root q with
  | none => rw [find_of_follow_none hc, find_of_follow_none (hf.trans hc)]
  | some c =>
    have hcb : c ≠ b := fun h => hl.fresh ⟨q, hq.le, h ▸ hc⟩
    have hca : c ≠ a := fun h => (hs.above_ne hq hc hl.above hl.path) h.symm
    rw [find_of_follow hc, find_of_follow (hf.trans hc), hl.frame c hca hcb]

end Linked

end Structures
