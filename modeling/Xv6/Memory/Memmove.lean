import Xv6.Structures.LittleEndian

set_option autoImplicit false

/-! # The two memmove functions

`memmove` of `kernel/string.c` copies backward only where the destination begins inside the source,
the one of `user/ulib.c` wherever the source is not above the destination. The memory is flat: an
address is a number, and no pointer of a copy wraps. -/

namespace Xv6.Memmove

open Function Structures

variable {mem : Buf} {d s n : Nat}

/-- `while(n-- > 0) *d++ = *s++`. -/
def copyForward : Nat → Buf → Nat → Nat → Buf
  | 0, mem, _, _ => mem
  | n + 1, mem, d, s => copyForward n (update mem d (mem s)) (d + 1) (s + 1)

/-- `while(n-- > 0) *--d = *--s`. -/
def copyBackward : Nat → Buf → Nat → Nat → Buf
  | 0, mem, _, _ => mem
  | n + 1, mem, d, s => copyBackward n (update mem (d - 1) (mem (s - 1))) (d - 1) (s - 1)

/-- `memmove` of the kernel, whose `n` is unsigned: the memory after it and the pointer it
    returns. -/
def kernelMemmove (mem : Buf) (dst src : Nat) (n : BitVec 32) : Buf × Nat :=
  let k := n.toNat
  (if src < dst ∧ src + k > dst then copyBackward k mem (dst + k) (src + k) else copyForward k mem dst src, dst)

/-- `memmove` of the user library, whose `n` is signed: neither loop makes a turn if it is
    negative. -/
def ulibMemmove (mem : Buf) (dst src : Nat) (n : BitVec 32) : Buf × Nat :=
  let k := n.toInt.toNat
  (if src > dst then copyForward k mem dst src else copyBackward k mem (dst + k) (src + k), dst)

/-- The memory with the `n` bytes from `src` on also at `dst`. -/
def moved (mem : Buf) (dst src n : Nat) : Buf := fun a =>
  if dst ≤ a ∧ a < dst + n then mem (src + (a - dst)) else mem a

theorem copyForward_eq (h : d ≤ s ∨ s + n ≤ d) : copyForward n mem d s = moved mem d s n := by
  induction n generalizing mem d s with
  | zero =>
    funext a
    rw [moved, if_neg (by omega), copyForward]
  | succ n ih =>
    rw [copyForward, ih (by omega)]
    funext a
    simp only [moved, update_apply]
    grind

theorem copyBackward_eq (h : s ≤ d ∨ d + n ≤ s) : copyBackward n mem (d + n) (s + n) = moved mem d s n := by
  induction n generalizing mem with
  | zero =>
    funext a
    rw [moved, if_neg (by omega), copyBackward]
  | succ n ih =>
    rw [copyBackward, ← Nat.add_assoc, ← Nat.add_assoc, Nat.add_sub_cancel, Nat.add_sub_cancel, ih (by omega)]
    funext a
    simp only [moved, update_apply]
    grind

/-- **Both functions put the source bytes as they were into the destination and change no other
    byte**, however the two ranges lie. -/
theorem memmove_eq (mem : Buf) (dst src : Nat) (n : BitVec 32) (hn : n.toNat < 2 ^ 31) :
    kernelMemmove mem dst src n = (moved mem dst src n.toNat, dst) ∧
      ulibMemmove mem dst src n = (moved mem dst src n.toNat, dst) := by
  have hk : n.toInt.toNat = n.toNat := by rw [BitVec.toInt_eq_toNat_of_lt (by omega), Int.toNat_natCast]
  rw [kernelMemmove, ulibMemmove, hk]
  constructor
  · split
    · rw [copyBackward_eq (by omega)]
    · rw [copyForward_eq (by omega)]
  split
  · rw [copyForward_eq (by omega)]
  · rw [copyBackward_eq (by omega)]

/-- Three bytes moved up by one. -/
theorem memmove_eq_overlap : kernelMemmove UInt8.ofNat 11 10 3 = (moved UInt8.ofNat 11 10 3, 11) ∧
      ulibMemmove UInt8.ofNat 11 10 3 = (moved UInt8.ofNat 11 10 3, 11) :=
  memmove_eq UInt8.ofNat 11 10 3 (by decide)

end Xv6.Memmove
