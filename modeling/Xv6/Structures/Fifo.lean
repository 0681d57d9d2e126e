import Xv6.Structures.Sizes

set_option autoImplicit false

/-! # Queues in a ring with free-running counters

A writer and a reader of a ring of `n` slots each have a counter of `w` bits that is only ever
incremented; a counter's slot is its remainder modulo `n`. If `n` divides `2 ^ w`, counters that
wrap around keep the slots in order. `Queued ring i l` says that from the counter `i` on the ring
holds the elements of `l`, so that the writer's counter is `i` plus their number. -/

namespace Structures

open Function

variable {α : Type} {n w : Nat} [NeZero n]

def slot (n : Nat) [NeZero n] (i : BitVec w) : Fin n := Fin.ofNat n i.toNat

/-- From the counter `i` on, the ring holds the elements of the list. -/
def Queued (ring : Fin n → α) : BitVec w → List α → Prop
  | _, [] => True
  | i, x :: l => ring (slot n i) = x ∧ Queued ring (i + 1) l

variable {ring : Fin n → α} {i : BitVec w} {l : List α} {x : α}

theorem slot_add (hn : n ∣ 2 ^ w) (i : BitVec w) (k : Nat) :
    (slot n (i + BitVec.ofNat w k)).val = (i.toNat + k) % n := by
  show (i + BitVec.ofNat w k).toNat % n = _
  rw [BitVec.toNat_add, BitVec.toNat_ofNat, Nat.mod_mod_of_dvd _ hn, Nat.add_mod, Nat.mod_mod_of_dvd _ hn,
    ← Nat.add_mod]

theorem slot_ne (hn : n ∣ 2 ^ w) (i : BitVec w) {k m : Nat} (hk : k < m) (hm : m < n) :
    slot n (i + BitVec.ofNat w k) ≠ slot n (i + BitVec.ofNat w m) := by
  intro heq
  have hval := congrArg Fin.val heq
  rw [slot_add hn, slot_add hn] at hval
  have hdvd : n ∣ (i.toNat + m) - (i.toNat + k) :=
    Nat.dvd_of_mod_eq_zero (Nat.sub_mod_eq_zero_of_mod_eq hval.symm)
  have hsub : (i.toNat + m) - (i.toNat + k) = m - k := by omega
  rw [hsub] at hdvd
  exact absurd (Nat.le_of_dvd (by omega) hdvd) (by omega)

theorem counter_succ (i : BitVec w) (k : Nat) : i + 1 + BitVec.ofNat w k = i + BitVec.ofNat w (k + 1) := by
  rw [BitVec.ofNat_add, BitVec.add_assoc, BitVec.add_comm 1]
  rfl

theorem Queued.update {j : Fin n} (h : Queued ring i l)
    (hj : ∀ k, k < l.length → slot n (i + BitVec.ofNat w k) ≠ j) :
    Queued (Function.update ring j x) i l := by
  induction l generalizing i with
  | nil => trivial
  | cons y l ih =>
    obtain ⟨hy, hl⟩ := h
    refine ⟨?_, ih hl fun k hk => ?_⟩
    · have h0 := hj 0 (Nat.zero_lt_succ _)
      rw [BitVec.add_zero] at h0
      rw [update_of_ne h0]
      exact hy
    · rw [counter_succ]
      exact hj (k + 1) (Nat.succ_lt_succ hk)

theorem queued_concat :
    Queued ring i (l ++ [x]) ↔ Queued ring i l ∧ ring (slot n (i + BitVec.ofNat w l.length)) = x := by
  induction l generalizing i with
  | nil => simp [Queued]
  | cons y l ih =>
    rw [List.cons_append, Queued, Queued, ih, counter_succ, List.length_cons, and_assoc]

theorem Queued.push (hn : n ∣ 2 ^ w) (h : Queued ring i l) (hlen : l.length < n) :
    Queued (Function.update ring (slot n (i + BitVec.ofNat w l.length)) x) i (l ++ [x]) := by
  refine queued_concat.2 ⟨h.update fun k hk => slot_ne hn i hk hlen, ?_⟩
  rw [update_self]

theorem counter_eq_iff (i : BitVec w) (hlen : l.length < 2 ^ w) : i = i + BitVec.ofNat w l.length ↔ l = [] := by
  constructor
  · intro h
    have hzero : BitVec.ofNat w l.length = 0#w := by simpa using h
    have hnat := congrArg BitVec.toNat hzero
    rw [BitVec.toNat_ofNat, Nat.mod_eq_of_lt hlen] at hnat
    exact List.length_eq_zero_iff.1 (by simpa using hnat)
  · rintro rfl
    simp

end Structures
