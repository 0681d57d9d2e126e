import Mathlib.Algebra.Order.BigOperators.Ring.Finset

set_option autoImplicit false

/-! # Numbers in buffers

A buffer gives a byte for each offset. A number of `k` bytes is stored with its lowest byte
first. -/

namespace Structures

abbrev Buf : Type := Nat → UInt8

/-- The byte of a number at the power `t` of 256. -/
def byteAt (x t : Nat) : UInt8 := UInt8.ofNat (x / 256 ^ t)

/-- The number in the `k` bytes from `o` on. -/
def getLE : Nat → Buf → Nat → Nat
  | 0, _, _ => 0
  | k + 1, buf, o => (buf o).toNat + 256 * getLE k buf (o + 1)

def putLE (k : Nat) (buf : Buf) (o x : Nat) : Buf :=
  fun i => if o ≤ i ∧ i < o + k then byteAt x (i - o) else buf i

theorem getLE_congr {k : Nat} {buf buf' : Buf} {o o' : Nat} (h : ∀ t, t < k → buf (o + t) = buf' (o' + t)) :
    getLE k buf o = getLE k buf' o' := by
  induction k generalizing o o' with
  | zero => rfl
  | succ k ih =>
    have h0 := h 0 (Nat.succ_pos k)
    rw [Nat.add_zero, Nat.add_zero] at h0
    rw [getLE, getLE, h0, ih fun t ht => ?_]
    have hs := h (t + 1) (by omega)
    rwa [Nat.add_assoc, Nat.add_assoc, Nat.add_comm 1 t]

theorem getLE_of_bytes {k : Nat} {buf : Buf} {o x : Nat} (h : ∀ t, t < k → buf (o + t) = byteAt x t) :
    getLE k buf o = x % 256 ^ k := by
  induction k generalizing o x with
  | zero => rw [getLE, Nat.pow_zero, Nat.mod_one]
  | succ k ih =>
    have h0 : (buf o).toNat = x % 256 := by
      have := h 0 (Nat.succ_pos k)
      rw [Nat.add_zero] at this
      rw [this, byteAt, Nat.pow_zero, Nat.div_one, UInt8.toNat_ofNat']
    have hrest : getLE k buf (o + 1) = x / 256 % 256 ^ k := by
      refine ih fun t ht => ?_
      have := h (t + 1) (by omega)
      rw [Nat.add_assoc, Nat.add_comm 1 t, this, byteAt, byteAt, Nat.pow_succ', Nat.div_div_eq_div_mul]
    rw [getLE, h0, hrest, Nat.pow_succ', Nat.mod_mul]

theorem getLE_putLE (k : Nat) (buf : Buf) (o x : Nat) : getLE k (putLE k buf o x) o = x % 256 ^ k := by
  refine getLE_of_bytes fun t ht => ?_
  rw [putLE, if_pos (by omega), Nat.add_sub_cancel_left]

theorem getLE_putLE_ne {k k' : Nat} (buf : Buf) {o o' : Nat} (x : Nat) (h : o + k ≤ o' ∨ o' + k' ≤ o) :
    getLE k (putLE k' buf o' x) o = getLE k buf o := by
  refine getLE_congr fun t ht => ?_
  rw [putLE, if_neg (by omega)]

theorem getLE_zero (k o : Nat) : getLE k (fun _ => 0) o = 0 := by
  induction k generalizing o with
  | zero => rfl
  | succ k ih =>
    rw [getLE, ih]
    rfl

end Structures
