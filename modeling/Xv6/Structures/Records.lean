import Mathlib.Algebra.Order.BigOperators.Ring.Finset

set_option autoImplicit false

/-! # Records of one size in a file

A list of records, each written with the same number of elements, one behind the other. What stands
at a multiple of the size is a record, and a record is replaced or added by writing over or behind
it. -/

namespace Structures.Records

open List

variable {α β : Type} {enc : α → List β} {w : Nat}

section

variable (hw : ∀ a, (enc a).length = w)
include hw

theorem length_flatMap (l : List α) : (l.flatMap enc).length = w * l.length := by
  induction l with
  | nil => rfl
  | cons a l ih =>
    rw [flatMap_cons, length_append, hw, ih, length_cons, Nat.mul_succ, Nat.add_comm]

theorem drop_flatMap (l : List α) (k : Nat) : (l.flatMap enc).drop (w * k) = (l.drop k).flatMap enc := by
  induction k generalizing l with
  | zero => rfl
  | succ k ih =>
    cases l with
    | nil => simp
    | cons a l =>
      rw [flatMap_cons, Nat.mul_succ, Nat.add_comm, ← drop_drop, drop_left' (hw a), ih, drop_succ_cons]

theorem take_flatMap (l : List α) (k : Nat) : (l.flatMap enc).take (w * k) = (l.take k).flatMap enc := by
  induction k generalizing l with
  | zero => simp
  | succ k ih =>
    cases l with
    | nil => simp
    | cons a l =>
      rw [flatMap_cons, Nat.mul_succ, Nat.add_comm, take_succ_cons, flatMap_cons, ← ih l,
        ← hw a, take_length_add_append]

theorem record_at {l : List α} {k : Nat} {a : α} (h : l[k]? = some a) :
    ((l.flatMap enc).drop (w * k)).take w = enc a := by
  obtain ⟨hk, rfl⟩ := List.getElem?_eq_some_iff.1 h
  rw [drop_flatMap hw, drop_eq_getElem_cons hk, flatMap_cons, take_left' (hw _)]

theorem set_record {l : List α} {k : Nat} (a : α) (hk : k < l.length) :
    (l.flatMap enc).take (w * k) ++ enc a ++ (l.flatMap enc).drop (w * k + w) = (l.set k a).flatMap enc := by
  rw [← Nat.mul_succ, take_flatMap hw, drop_flatMap hw, set_eq_take_append_cons_drop, if_pos hk,
    flatMap_append, flatMap_cons, append_assoc]

theorem add_record (l : List α) (a : α) :
    (l.flatMap enc).take (w * l.length) ++ enc a ++ (l.flatMap enc).drop (w * l.length + w) =
      (l ++ [a]).flatMap enc := by
  rw [← Nat.mul_succ, take_flatMap hw, drop_flatMap hw, take_length, drop_of_length_le (by omega),
    flatMap_append]
  simp

end

end Structures.Records
