import Mathlib.Algebra.Order.BigOperators.Ring.Finset

set_option autoImplicit false

/-! # Circular doubly linked lists

The nodes of a list, of any type `α`, are linked in both directions, in a circle through a head that
is not itself a node (`none`). `Links` are the two pointers of the nodes and of the head; the
operations are the sequences of pointer assignments by which a node is taken out (`unlink`) and put
in behind the head (`pushFront`), and the loop that follows one of the pointers (`scan`). `Ring L l`
says that the links represent the list `l`; the operations are then what their names say on `l`. -/

namespace Structures

open Function List

variable {α : Type}

/-- The pointers of the nodes and of the head, which is `none`. -/
structure Links (α : Type) where
  next : Option α → Option α
  prev : Option α → Option α

namespace Links

def empty : Links α := ⟨fun _ => none, fun _ => none⟩

variable [DecidableEq α]

/-- `a->next->prev = a->prev; a->prev->next = a->next`. -/
def unlink (L : Links α) (a : α) : Links α :=
  let L := { L with prev := update L.prev (L.next (some a)) (L.prev (some a)) }
  { L with next := update L.next (L.prev (some a)) (L.next (some a)) }

/-- `a->next = head.next; a->prev = &head; head.next->prev = a; head.next = a`. -/
def pushFront (L : Links α) (a : α) : Links α :=
  let L := { L with next := update L.next (some a) (L.next none) }
  let L := { L with prev := update L.prev (some a) none }
  let L := { L with prev := update L.prev (L.next none) (some a) }
  { L with next := update L.next none (some a) }

end Links

/-- Follow the pointer `f` from `x` to the first node with the property `p`, or to the head. -/
def scan (f : Option α → Option α) (p : α → Bool) : Nat → Option α → Option α
  | 0, _ => none
  | _ + 1, none => none
  | n + 1, some a => if p a then some a else scan f p n (f (some a))

/-! ## Paths -/

/-- From `x` the pointer `f` leads through the nodes of `l` to `y`. -/
def Path (f : Option α → Option α) : Option α → List α → Option α → Prop
  | x, [], y => f x = y
  | x, a :: l, y => f x = some a ∧ Path f (some a) l y

/-- The last stop before the end of such a path. -/
def lastStop : Option α → List α → Option α
  | x, [] => x
  | _, a :: l => lastStop (some a) l

section

variable {f g : Option α → Option α} {x x' y z : Option α} {a : α} {l l₁ l₂ : List α}

theorem lastStop_mem (x : Option α) (l : List α) : lastStop x l = x ∨ ∃ a ∈ l, lastStop x l = some a := by
  induction l generalizing x with
  | nil => exact .inl rfl
  | cons a l ih =>
    rcases ih (some a) with h | ⟨b, hb, h⟩
    · exact .inr ⟨a, mem_cons_self .., h⟩
    · exact .inr ⟨b, mem_cons_of_mem a hb, h⟩

theorem lastStop_append (x : Option α) (l : List α) (a : α) : lastStop x (l ++ [a]) = some a := by
  induction l generalizing x with
  | nil => rfl
  | cons b l ih => exact ih (some b)

theorem Path.first (h : Path f x l none) : f x = lastStop none l.reverse := by
  cases l with
  | nil => exact h
  | cons a l =>
    rw [reverse_cons, lastStop_append]
    exact h.1

theorem path_append : Path f x (l₁ ++ a :: l₂) y ↔ Path f x l₁ (some a) ∧ Path f (some a) l₂ y := by
  induction l₁ generalizing x with
  | nil => exact Iff.rfl
  | cons b l ih =>
    simp only [cons_append, Path, ih]
    exact and_assoc.symm

theorem Path.congr (h : Path f x l y) (hx : g x' = f x) (hl : ∀ a ∈ l, g (some a) = f (some a)) :
    Path g x' l y := by
  induction l generalizing x x' with
  | nil => exact hx.trans h
  | cons a l ih =>
    refine ⟨hx.trans h.1, ih h.2 (hl a (mem_cons_self ..)) fun b hb => ?_⟩
    exact hl b (mem_cons_of_mem a hb)

theorem Path.join (h₁ : Path g x l₁ (f x')) (h₂ : Path f x' l₂ y)
    (hl : ∀ a ∈ l₂, g (some a) = f (some a)) : Path g x (l₁ ++ l₂) y := by
  induction l₁ generalizing x with
  | nil => exact h₂.congr h₁ hl
  | cons a l ih => exact ⟨h₁.1, ih h₁.2⟩

theorem scan_eq {p : α → Bool} {n : Nat} (h : Path f x l none) (hn : l.length < n) :
    scan f p n (f x) = l.find? p := by
  induction l generalizing x n with
  | nil =>
    rw [show f x = none from h]
    cases n <;> rfl
  | cons a l ih =>
    cases n with
    | zero => exact absurd hn (Nat.not_lt_zero _)
    | succ n =>
      rw [h.1, find?_cons]
      simp only [scan]
      split
      · next hp => simp [hp]
      next hp =>
      rw [ih h.2 (Nat.lt_of_succ_lt_succ hn)]
      simp [hp]

end

section

variable [DecidableEq α] {f : Option α → Option α} {x y z : Option α} {a : α} {l l₁ l₂ : List α}

theorem Path.redirect (h : Path f x l y) (hx : ∀ a ∈ l, x ≠ some a) (hl : l.Nodup) (z : Option α) :
    Path (update f (lastStop x l) z) x l z := by
  induction l generalizing x with
  | nil => exact update_self ..
  | cons a l ih =>
    obtain ⟨ha, hl⟩ := nodup_cons.1 hl
    have hne : x ≠ lastStop (some a) l := by
      rcases lastStop_mem (some a) l with he | ⟨b, hb, he⟩
      · rw [he]
        exact hx a (mem_cons_self ..)
      · rw [he]
        exact hx b (mem_cons_of_mem a hb)
    refine ⟨(update_of_ne hne _ _).trans h.1, ih h.2 (fun b hb => ?_) hl⟩
    rintro ⟨⟩
    exact ha hb

theorem Path.skip (h : Path f none (l₁ ++ a :: l₂) none) (hl : (l₁ ++ a :: l₂).Nodup) :
    Path (update f (lastStop none l₁) (f (some a))) none (l₁ ++ l₂) none := by
  obtain ⟨h₁, h₂⟩ := path_append.1 h
  obtain ⟨hl₁, hl₂, hdisj⟩ := nodup_append.1 hl
  refine (h₁.redirect (fun _ _ => nofun) hl₁ _).join h₂ fun b hb => update_of_ne ?_ _ _
  rcases lastStop_mem none l₁ with he | ⟨c, hc, he⟩
  · rw [he]
    nofun
  rw [he]
  rintro ⟨⟩
  exact hdisj b hc b (mem_cons_of_mem a hb) rfl

end

/-! ## Rings -/

/-- The links represent the list `l`. -/
structure Links.Ring (L : Links α) (l : List α) : Prop where
  next : Path L.next none l none
  prev : Path L.prev none l.reverse none
  nodup : l.Nodup

namespace Links.Ring

variable {L : Links α} {l l₁ l₂ : List α} {a : α} {p : α → Bool} {n : Nat}

theorem empty : Links.Ring (Links.empty : Links α) [] := ⟨rfl, rfl, nodup_nil⟩

theorem scan_next (h : L.Ring l) (hn : l.length < n) : scan L.next p n (L.next none) = l.find? p :=
  scan_eq h.next hn

theorem scan_prev (h : L.Ring l) (hn : l.length < n) :
    scan L.prev p n (L.prev none) = l.reverse.find? p :=
  scan_eq h.prev (by rwa [length_reverse])

variable [DecidableEq α]

theorem unlink (h : L.Ring (l₁ ++ a :: l₂)) : (L.unlink a).Ring (l₁ ++ l₂) := by
  have hrev : (l₁ ++ a :: l₂).reverse = l₂.reverse ++ a :: l₁.reverse := by simp
  have hprev := h.prev
  rw [hrev] at hprev
  have hnodup := nodup_reverse.2 h.nodup
  rw [hrev] at hnodup
  -- the neighbours of the node
  have hp : L.prev (some a) = lastStop none l₁ := by
    rw [(path_append.1 hprev).2.first, reverse_reverse]
  have hn : L.next (some a) = lastStop none l₂.reverse := (path_append.1 h.next).2.first
  have hne : some a ≠ L.next (some a) := by
    rw [hn]
    rcases lastStop_mem none l₂.reverse with he | ⟨b, hb, he⟩
    · rw [he]
      nofun
    rw [he]
    rintro ⟨⟩
    have hmem := nodup_append.1 h.nodup
    exact (nodup_cons.1 hmem.2.1).1 (mem_reverse.1 hb)
  have hnext : (L.unlink a).next = update L.next (lastStop none l₁) (L.next (some a)) := by
    show update L.next (update L.prev _ _ (some a)) _ = _
    rw [update_of_ne hne, hp]
  have hprev' : (L.unlink a).prev = update L.prev (lastStop none l₂.reverse) (L.prev (some a)) := by
    show update L.prev (L.next (some a)) _ = _
    rw [hn]
  refine ⟨?_, ?_, ?_⟩
  · rw [hnext]
    exact h.next.skip h.nodup
  · rw [hprev', reverse_append]
    exact hprev.skip hnodup
  · exact h.nodup.sublist (Sublist.append_left (sublist_cons_self a l₂) l₁)

theorem pushFront (h : L.Ring l) (ha : a ∉ l) : (L.pushFront a).Ring (a :: l) := by
  have hnext : (L.pushFront a).next =
      update (update L.next (some a) (L.next none)) none (some a) := rfl
  have hprev : (L.pushFront a).prev =
      update (update L.prev (some a) none) (lastStop none l.reverse) (some a) := by
    show update _ (update L.next (some a) (L.next none) none) _ = _
    rw [update_of_ne (by nofun), h.next.first]
  refine ⟨?_, ?_, nodup_cons.2 ⟨ha, h.nodup⟩⟩
  · rw [hnext]
    refine ⟨update_self .., h.next.congr ?_ fun b hb => ?_⟩
    · rw [update_of_ne (by nofun), update_self]
    rw [update_of_ne (by nofun), update_of_ne]
    rintro ⟨⟩
    exact ha hb
  rw [hprev, reverse_cons]
  have hpath : Path (update L.prev (some a) none) none l.reverse none := by
    refine h.prev.congr (update_of_ne (by nofun) _ _) fun b hb => ?_
    rw [update_of_ne]
    rintro ⟨⟩
    exact ha (mem_reverse.1 hb)
  refine path_append.2 ⟨hpath.redirect (fun _ _ => nofun) (nodup_reverse.2 h.nodup) _, ?_⟩
  show update (update L.prev (some a) none) (lastStop none l.reverse) (some a) (some a) = none
  rw [update_of_ne, update_self]
  rcases lastStop_mem none l.reverse with he | ⟨b, hb, he⟩
  · rw [he]
    nofun
  rw [he]
  rintro ⟨⟩
  exact ha (mem_reverse.1 hb)

theorem toFront (h : L.Ring l) (ha : a ∈ l) : ((L.unlink a).pushFront a).Ring (a :: l.erase a) := by
  obtain ⟨l₁, l₂, rfl⟩ := append_of_mem ha
  have hnot : a ∉ l₁ := fun hmem =>
    (nodup_append.1 h.nodup).2.2 a hmem a (mem_cons_self ..) rfl
  have herase : (l₁ ++ a :: l₂).erase a = l₁ ++ l₂ := by
    rw [erase_append_right _ hnot, erase_cons_head]
  rw [herase]
  refine h.unlink.pushFront ?_
  rw [← herase]
  exact h.nodup.not_mem_erase

end Links.Ring

end Structures
