import Xv6.Files.Directory
import Xv6.Structures.LittleEndian

set_option autoImplicit false

/-! # The image of a file system

`mkfs.c`: the regions of the disk, the inodes in their blocks, and `iappend`, which puts bytes at
the end of a file and takes blocks as it needs them. The image is written block by block; a block is
the function from offsets to bytes. The host is little-endian, so that `xint` and `xshort` change
nothing.

What the kernel reads of the image (`bmap`, `readi`, `dirlookup`, `namei` and the bitmap) is in
`Xv6.Image.Kernel`. -/

namespace Xv6.Image

open Files Function Structures

/-! ## Regions -/

/-- The blocks of the image. -/
def FSSIZE : Nat := 1000

/-- Those of the log, with its header. -/
def LOGSIZE : Nat := 30

/-- The inodes that the superblock promises. -/
def NINODES : Nat := 200

/-- Inodes per block: a `struct dinode` has 64 bytes. -/
def IPB : Nat := BSIZE / 64

/-- The blocks of the bitmap. -/
def nbitmap : Nat := FSSIZE / (BSIZE * 8) + 1

/-- The blocks of the inodes. -/
def ninodeblocks : Nat := NINODES / IPB + 1

/-- The inodes for which the inode blocks have room: more than `NINODES`, which `mkfs` does not
    check. -/
def inodeSlots : Nat := ninodeblocks * IPB

/-- The blocks of the log. -/
def nlog : Nat := LOGSIZE

/-- The blocks in front of the data: boot, superblock, log, inodes and bitmap. -/
def nmeta : Nat := 2 + nlog + ninodeblocks + nbitmap

/-- The first block of the log. -/
def logstart : Nat := 2

/-- The first block of the inodes. -/
def inodestart : Nat := 2 + nlog

/-- The first block of the bitmap. -/
def bmapstart : Nat := 2 + nlog + ninodeblocks

/-- `sb.magic`. -/
def FSMAGIC : Nat := 0x10203040

/-- `struct superblock`, as the kernel reads it. -/
structure Superblock where
  magic : Nat
  size : Nat
  nblocks : Nat
  ninodes : Nat
  nlog : Nat
  logstart : Nat
  inodestart : Nat
  bmapstart : Nat
deriving DecidableEq

/-- The superblock of the image. -/
def sb : Superblock := ⟨FSMAGIC, FSSIZE, FSSIZE - nmeta, NINODES, nlog, logstart, inodestart, bmapstart⟩

/-- Its block. -/
def superBuf : Buf := fun i =>
  if i < 4 then byteAt sb.magic i
  else if i < 8 then byteAt sb.size (i - 4)
  else if i < 12 then byteAt sb.nblocks (i - 8)
  else if i < 16 then byteAt sb.ninodes (i - 12)
  else if i < 20 then byteAt sb.nlog (i - 16)
  else if i < 24 then byteAt sb.logstart (i - 20)
  else if i < 28 then byteAt sb.inodestart (i - 24)
  else if i < 32 then byteAt sb.bmapstart (i - 28)
  else 0

/-- `readsb` of the kernel. -/
def readsb (buf : Buf) : Superblock where
  magic := getLE 4 buf 0
  size := getLE 4 buf 4
  nblocks := getLE 4 buf 8
  ninodes := getLE 4 buf 12
  nlog := getLE 4 buf 16
  logstart := getLE 4 buf 20
  inodestart := getLE 4 buf 24
  bmapstart := getLE 4 buf 28

/-! ## Inodes on the disk -/

/-- A directory. -/
def T_DIR : Nat := 1

/-- A file. -/
def T_FILE : Nat := 2

/-- The inode of the root. -/
def ROOTINO : Nat := 1

/-- `struct dinode`. -/
structure Dinode where
  type : Nat := 0
  major : Nat := 0
  minor : Nat := 0
  nlink : Nat := 0
  size : Nat := 0
  addrs : Nat → Nat := fun _ => 0

/-- The bytes of a `struct dinode`. -/
def dinodeByte (din : Dinode) (o : Nat) : UInt8 :=
  if o < 2 then byteAt din.type o
  else if o < 4 then byteAt din.major (o - 2)
  else if o < 6 then byteAt din.minor (o - 4)
  else if o < 8 then byteAt din.nlink (o - 6)
  else if o < 12 then byteAt din.size (o - 8)
  else byteAt (din.addrs ((o - 12) / 4)) ((o - 12) % 4)

/-- The inode is written into its block at `base`. -/
def putDinode (buf : Buf) (base : Nat) (din : Dinode) : Buf := fun i =>
  if base ≤ i ∧ i < base + 64 then dinodeByte din (i - base) else buf i

/-- The inode in a block at `base`. -/
def getDinode (buf : Buf) (base : Nat) : Dinode where
  type := getLE 2 buf base
  major := getLE 2 buf (base + 2)
  minor := getLE 2 buf (base + 4)
  nlink := getLE 2 buf (base + 6)
  size := getLE 4 buf (base + 8)
  addrs := fun j => if j ≤ NDIRECT then getLE 4 buf (base + 12 + 4 * j) else 0

section

variable (buf : Buf) (base : Nat) (din : Dinode)
include buf base din

theorem putDinode_type : (getDinode (putDinode buf base din) base).type = din.type % 256 ^ 2 := by
  refine getLE_of_bytes fun t ht => ?_
  rw [putDinode, if_pos (by omega), Nat.add_sub_cancel_left, dinodeByte, if_pos ht]

theorem putDinode_size : (getDinode (putDinode buf base din) base).size = din.size % 256 ^ 4 := by
  refine getLE_of_bytes fun t ht => ?_
  rw [putDinode, if_pos (by omega), dinodeByte, if_neg (by omega), if_neg (by omega), if_neg (by omega),
    if_neg (by omega), if_pos (by omega)]
  congr 1
  omega

theorem putDinode_addrs {j : Nat} (hj : j ≤ NDIRECT) :
    (getDinode (putDinode buf base din) base).addrs j = din.addrs j % 256 ^ 4 := by
  have hj' : j ≤ 12 := hj
  rw [getDinode]
  simp only [if_pos hj]
  refine getLE_of_bytes fun t ht => ?_
  rw [putDinode, if_pos (by omega), dinodeByte, if_neg (by omega), if_neg (by omega), if_neg (by omega),
    if_neg (by omega), if_neg (by omega)]
  congr 2 <;> omega

end

theorem getDinode_congr {buf buf' : Buf} {base : Nat} (h : ∀ i, base ≤ i → i < base + 64 → buf' i = buf i) :
    getDinode buf' base = getDinode buf base := by
  have hget : ∀ k o, base ≤ o → o + k ≤ base + 64 → getLE k buf' o = getLE k buf o := by
    intro k o hle hlt
    exact getLE_congr fun t ht => h _ (by omega) (by omega)
  unfold getDinode
  rw [hget 2 base (by omega) (by omega), hget 2 (base + 2) (by omega) (by omega),
    hget 2 (base + 4) (by omega) (by omega), hget 2 (base + 6) (by omega) (by omega),
    hget 4 (base + 8) (by omega) (by omega)]
  congr 1
  funext j
  split
  · next hj =>
    have hj' : j ≤ 12 := hj
    exact hget 4 _ (by omega) (by omega)
  · rfl

/-! ## mkfs -/

/-- The image, and the two counters of `mkfs`. -/
structure Img where
  disk : Nat → Buf
  freeinode : Nat
  freeblock : Nat

/-- The block of an inode. -/
def IBLOCK (inum : Nat) : Nat := inum / IPB + inodestart

variable (img : Img)

/-- Write a block. -/
def wsect (sec : Nat) (buf : Buf) : Img := { img with disk := update img.disk sec buf }

/-- Write an inode into its block. -/
def winode (inum : Nat) (din : Dinode) : Img :=
  wsect img (IBLOCK inum) (putDinode (img.disk (IBLOCK inum)) (64 * (inum % IPB)) din)

/-- Read it again. -/
def rinode (disk : Nat → Buf) (inum : Nat) : Dinode := getDinode (disk (IBLOCK inum)) (64 * (inum % IPB))

/-- The next inode, with a type and one link. -/
def ialloc (type : Nat) : Img × Nat :=
  (winode { img with freeinode := img.freeinode + 1 } img.freeinode { type := type, nlink := 1 }, img.freeinode)

/-- `bcopy(p, buf + o, n)` for the bytes of a list. -/
def bcopy (buf : Buf) (o : Nat) (p : List Byte) : Buf := fun i =>
  if o ≤ i ∧ i < o + p.length then p.getD (i - o) 0 else buf i

/-- The block of `iappend` for the block `fbn` of the file, taken if the file has none. -/
def blockFor (din : Dinode) (fbn : Nat) : Img × Dinode × Nat :=
  if fbn < NDIRECT then
    if din.addrs fbn = 0 then
      ({ img with freeblock := img.freeblock + 1 },
        { din with addrs := update din.addrs fbn img.freeblock }, img.freeblock)
    else (img, din, din.addrs fbn)
  else
    let (img, din) :=
      if din.addrs NDIRECT = 0 then
        ({ img with freeblock := img.freeblock + 1 },
          { din with addrs := update din.addrs NDIRECT img.freeblock })
      else (img, din)
    let a := din.addrs NDIRECT
    let indirect := img.disk a
    let e := getLE 4 indirect (4 * (fbn - NDIRECT))
    if e = 0 then
      (wsect { img with freeblock := img.freeblock + 1 } a
        (putLE 4 indirect (4 * (fbn - NDIRECT)) img.freeblock), din,
        img.freeblock)
    else (img, din, e)

/-- The loop of `iappend` with the bytes `p` to go; `none` where the assertion fails. A turn copies
    a byte at least. -/
def iappendFrom : Nat → Img → Dinode → Nat → List Byte → Option (Img × Dinode × Nat)
  | _, img, din, off, [] => some (img, din, off)
  | 0, _, _, _, _ :: _ => none
  | fuel + 1, img, din, off, b :: p =>
    let p := b :: p
    let fbn := off / BSIZE
    if fbn < MAXFILE then
      let (img, din, x) := blockFor img din fbn
      let n1 := min p.length ((fbn + 1) * BSIZE - off)
      iappendFrom fuel (wsect img x (bcopy (img.disk x) (off - fbn * BSIZE) (p.take n1))) din
        (off + n1) (p.drop n1)
    else none

/-- Put the bytes at the end of the file. -/
def iappend (inum : Nat) (p : List Byte) : Option Img :=
  let din := rinode img.disk inum
  match iappendFrom p.length img din din.size p with
  | none => none
  | some (img, din, off) => some (winode img inum { din with size := off })

/-- The bit of a block in its byte of the bitmap. -/
def bit (b : Nat) : UInt8 := UInt8.ofNat (1 <<< (b % 8))

/-- The bitmap in which the first `used` blocks are taken. -/
def bitmapBuf : Nat → Buf
  | 0 => fun _ => 0
  | used + 1 => update (bitmapBuf used) (used / 8) (bitmapBuf used (used / 8) ||| bit used)

/-- Write the bitmap: the blocks from 0 on are in use. -/
def balloc (used : Nat) : Option Img :=
  if used < BSIZE * 8 then some (wsect img bmapstart (bitmapBuf used)) else none

end Xv6.Image
