import Mathlib.Algebra.Order.BigOperators.Ring.Finset

set_option autoImplicit false

/-! # The content of an inode

`readi` and `writei` of `fs.c` on the content of an inode, a list of `ip->size` bytes. Both go block
by block, because a block is copied at a time, and a copy from or to user memory can fail; where the
blocks are on the disk (`bmap`) is not looked at here. The numbers are of type `uint`: they are
natural numbers here, and the two sums that can overflow are taken modulo `2 ^ 32`. -/

namespace Xv6.Files

abbrev Byte : Type := UInt8

def BSIZE : Nat := 1024

def NDIRECT : Nat := 12

def NINDIRECT : Nat := BSIZE / 4

def MAXFILE : Nat := NDIRECT + NINDIRECT

/-- The C conversion of a `uint` to an `int`. -/
def toInt (n : Nat) : Int := (BitVec.ofNat 32 n).toInt

/-- `min(n - tot, BSIZE - off % BSIZE)`: what is copied from the block of `off` when `rest` bytes
    are left. -/
def piece (off rest : Nat) : Nat := min rest (BSIZE - off % BSIZE)

theorem piece_pos {off rest : Nat} (h : rest ≠ 0) : 0 < piece off rest := by
  have := Nat.mod_lt off (show 0 < BSIZE by decide)
  unfold piece
  omega

theorem piece_le (off rest : Nat) : piece off rest ≤ rest := Nat.min_le_left _ _

/-- The bytes `bs` put at `off`, over what is there. -/
def splice (c : List Byte) (off : Nat) (bs : List Byte) : List Byte :=
  c.take off ++ bs ++ c.drop (off + bs.length)

/-! ## readi -/

section Read

variable {M : Type} (copyout : M → Nat → List Byte → M × Bool) (c : List Byte)

/-- The loop of `readi` with `rest` bytes to go; `-1` if a copy fails. A turn copies at least one
    byte, so that there are at most `rest` of them. -/
def readiFrom : Nat → M → Nat → Nat → Nat → Nat → M × Nat
  | 0, mem, _, _, _, tot => (mem, tot)
  | fuel + 1, mem, dst, off, rest, tot =>
    if rest = 0 then (mem, tot)
    else
      let m := piece off rest
      match copyout mem dst ((c.drop off).take m) with
      | (mem, true) => readiFrom fuel mem (dst + m) (off + m) (rest - m) (tot + m)
      | (mem, false) => (mem, 2 ^ 32 - 1)

/-- Read `n` bytes at `off` into `mem` at `dst`. -/
def readi (mem : M) (dst off n : Nat) : M × Int :=
  if off > c.length ∨ (off + n) % 2 ^ 32 < off then (mem, 0)
  else
    let n := if off + n > c.length then c.length - off else n
    let (mem, tot) := readiFrom copyout c n mem dst off n 0
    (mem, toInt tot)

end Read

/-! ## writei -/

section Write

variable (copyin : Nat → Nat → List Byte × Bool)

/-- The loop of `writei` with `rest` bytes to go: the bytes of the file's blocks, the offset it
    reaches and the number of bytes copied. What a copy that fails has written stays in the
    block. -/
def writeiFrom : Nat → List Byte → Nat → Nat → Nat → Nat → List Byte × Nat × Nat
  | 0, c, _, off, _, tot => (c, off, tot)
  | fuel + 1, c, src, off, rest, tot =>
    if rest = 0 then (c, off, tot)
    else
      let m := piece off rest
      match copyin src m with
      | (bs, true) => writeiFrom fuel (splice c off bs) (src + m) (off + m) (rest - m) (tot + m)
      | (bs, false) => (splice c off bs, off, tot)

/-- Write `n` bytes from `src` at `off`. -/
def writei (c : List Byte) (src off n : Nat) : List Byte × Int :=
  if off > c.length ∨ (off + n) % 2 ^ 32 < off then (c, -1)
  else if (off + n) % 2 ^ 32 > MAXFILE * BSIZE then (c, -1)
  else
    let (c', off', tot) := writeiFrom copyin n c src off n 0
    (c'.take (max c.length off'), toInt tot)

end Write

end Xv6.Files
