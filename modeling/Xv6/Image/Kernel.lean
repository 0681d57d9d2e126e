import Mathlib.Data.List.TakeWhile
import Xv6.Image.Build

set_option autoImplicit false

/-! # The image under the kernel

What `fs.c` reads of an image: the superblock, the inodes, `bmap`, `readi`, `dirlookup`, `namei` and
the bitmap. `bmap` takes a block where a file has none; reading a file of the image never comes to
that, and the functions here are `none` where it would, and where the kernel would panic. -/

namespace Xv6.Image

open Files Function List Option Structures Xv6.Tree

/-! ## The code -/

section

variable (disk : Nat → Buf)

/-- The inode as `ilock` reads it. -/
def dinode (inum : Nat) : Dinode :=
  getDinode (disk (inum / IPB + (readsb (disk 1)).inodestart)) (64 * (inum % IPB))

def nonzero (addr : Nat) : Option Nat := if addr = 0 then none else some addr

/-- `bmap` of a block that is there. -/
def bmap (ip : Dinode) (bn : Nat) : Option Nat :=
  if bn < NDIRECT then nonzero (ip.addrs bn)
  else if bn - NDIRECT < NINDIRECT then
    (nonzero (ip.addrs NDIRECT)).bind fun addr => nonzero (getLE 4 (disk addr) (4 * (bn - NDIRECT)))
  else none

/-- The loop of `readi` with `n` bytes to go, and the bytes that it copies. -/
def readiFrom (ip : Dinode) : Nat → Nat → Nat → Option (List Byte)
  | 0, _, n => if n = 0 then some [] else none
  | fuel + 1, off, n =>
    if n = 0 then some []
    else
      (bmap disk ip (off / BSIZE)).bind fun b =>
        let m := piece off n
        (readiFrom ip fuel (off + m) (n - m)).map ((List.range m).map (fun i => disk b (off % BSIZE + i)) ++ ·)

/-- `readi`. -/
def readi (ip : Dinode) (off n : Nat) : Option (List Byte) :=
  if off > ip.size ∨ (off + n) % 2 ^ 32 < off then some []
  else
    let n := if off + n > ip.size then ip.size - off else n
    readiFrom disk ip n off n

/-- The loop of `dirlookup`. -/
def dirlookupFrom (dp : Dinode) (name : List Byte) : Nat → Nat → Option (Option Nat)
  | 0, _ => some none
  | fuel + 1, off =>
    if off < dp.size then
      (readi disk dp off DIRENT).bind fun de =>
        if de.length ≠ DIRENT then none
        else if inumOf de = 0 then dirlookupFrom dp name fuel (off + DIRENT)
        else if namecmp name (nameOf de) = 0 then some (some (inumOf de))
        else dirlookupFrom dp name fuel (off + DIRENT)
    else some none

/-- `dirlookup`. -/
def dirlookup (dp : Dinode) (name : List Byte) : Option (Option Nat) :=
  if dp.type ≠ T_DIR then none else dirlookupFrom disk dp name dp.size 0

/-- The loop of `namex` over the elements of a path. -/
def nameiFrom : Nat → List (List Byte) → Option (Option Nat)
  | ip, [] => some (some ip)
  | ip, name :: rest =>
    -- the panic of `ilock`
    if (dinode disk ip).type = 0 then none
    else if (dinode disk ip).type ≠ T_DIR then some none
    else
      (dirlookup disk (dinode disk ip) name).bind fun next =>
        match next with
        | none => some none
        | some next => nameiFrom next rest

/-- `namei`. -/
def namei (cwd : Nat) (path : List Byte) : Option (Option Nat) :=
  nameiFrom disk (if path.head? = some slash then ROOTINO else cwd) (elements path)

/-- Bits of a block. -/
def BPB : Nat := BSIZE * 8

/-- The bit of a block in the bitmap, as `balloc` and `bfree` test it. -/
def inUse (b : Nat) : Bool :=
  disk (b / BPB + (readsb (disk 1)).bmapstart) (b % BPB / 8) &&& bit (b % BPB) ≠ 0

/-- The blocks to which an inode refers, as `itrunc` goes through them. -/
def refs (ip : Dinode) : List Nat :=
  ((List.range NDIRECT).map ip.addrs).filter (· ≠ 0) ++
    if ip.addrs NDIRECT = 0 then []
    else
      ((List.range NINDIRECT).map fun j => getLE 4 (disk (ip.addrs NDIRECT)) (4 * j)).filter (· ≠ 0) ++
        [ip.addrs NDIRECT]

end

/-- The regions behind the superblock come one after the other and end with the disk. -/
def Superblock.Regions (s : Superblock) : Prop :=
  s.magic = FSMAGIC ∧ 1 < s.logstart ∧ s.logstart + s.nlog ≤ s.inodestart ∧
    s.inodestart + ((s.ninodes - 1) / IPB + 1) ≤ s.bmapstart ∧
    s.bmapstart + ((s.size - 1) / BPB + 1) ≤ s.size - s.nblocks ∧ s.nblocks ≤ s.size

/-! ## Reading a file -/

variable {disk : Nat → Buf} {ip : Dinode} {g : Ghost} {free off n : Nat}

theorem nonzero_of_ne {addr : Nat} (h : addr ≠ 0) : nonzero addr = some addr := if_neg h

theorem Owns.ne_zero (ho : Owns g free) {b : Nat} (hb : b ∈ g.used) : b ≠ 0 := by
  have := (ho.range b hb).1
  have := nmeta_pos
  omega

section

variable (hr : Rep disk ip.addrs g) (ho : Owns g free)

include hr ho

theorem bmap_block {bn : Nat} (hbn : bn < g.blocks.length) : bmap disk ip bn = some (g.blocks.getD bn 0) := by
  have hne : g.blocks.getD bn 0 ≠ 0 := ho.ne_zero (Ghost.mem_used.2 (.inl (getD_mem_blocks hbn)))
  unfold bmap
  by_cases hd : bn < NDIRECT
  · rw [if_pos hd, hr.direct bn hd, nonzero_of_ne hne]
  obtain ⟨a, ha⟩ := ne_none_iff_exists'.1 fun hnone : g.table = none => by
    have := hr.has.1 hnone
    omega
  have haddr : ip.addrs NDIRECT = a := by
    rw [hr.table, ha]
    rfl
  have hk : bn - NDIRECT < NINDIRECT := by
    have := hr.max
    unfold MAXFILE at this
    omega
  have hentry : getLE 4 (disk a) (4 * (bn - NDIRECT)) = g.blocks.getD bn 0 := by
    rw [hr.indirect a ha _ hk]
    congr 1
    omega
  rw [if_neg hd, if_pos hk, haddr, nonzero_of_ne (ho.ne_zero (Ghost.mem_used.2 (.inr ha))), bind_some, hentry,
    nonzero_of_ne hne]

omit ho in
theorem block_bytes {m : Nat} (hm : m ≤ BSIZE - off % BSIZE) (hend : off + m ≤ g.content.length) :
    (List.range m).map (fun i => disk (g.blocks.getD (off / BSIZE) 0) (off % BSIZE + i)) =
      (g.content.drop off).take m := by
  refine ext_getElem (by rw [length_map, List.length_range, length_take, length_drop]; omega) ?_
  intro i h₁ h₂
  rw [length_map, List.length_range] at h₁
  have hdata := hr.data (off + i) (by omega)
  have hdiv : (off + i) / BSIZE = off / BSIZE ∧ (off + i) % BSIZE = off % BSIZE + i := by
    simp only [BSIZE] at hm ⊢
    omega
  rw [hdiv.1, hdiv.2, getD_eq_getElem g.content _ (by omega)] at hdata
  rw [getElem_map, getElem_range, getElem_take, getElem_drop]
  exact hdata

theorem readiFrom_content {fuel : Nat} (hfuel : n ≤ fuel) (hend : off + n ≤ g.content.length) :
    readiFrom disk ip fuel off n = some ((g.content.drop off).take n) := by
  induction fuel generalizing off n with
  | zero =>
    obtain rfl := Nat.le_zero.1 hfuel
    rfl
  | succ fuel ih =>
    rw [readiFrom]
    by_cases hn : n = 0
    · rw [if_pos hn, hn, take_zero]
    have hpos : 0 < piece off n := piece_pos hn
    have hle := piece_le off n
    have hin : piece off n ≤ BSIZE - off % BSIZE := Nat.min_le_right _ _
    have hbn : off / BSIZE < g.blocks.length := by
      have := hr.size
      simp only [BSIZE] at this ⊢
      omega
    rw [if_neg hn, bmap_block hr ho hbn, bind_some]
    simp only
    rw [ih (by omega) (by omega), map_some, block_bytes hr hin (by omega),
      ← drop_drop, ← take_add, Nat.add_sub_cancel' hle]

theorem readi_content (hsize : g.content.length ≤ ip.size) (hend : off + n ≤ g.content.length)
    (hsmall : off + n < 2 ^ 32) :
    readi disk ip off n = some ((g.content.drop off).take n) := by
  unfold readi
  rw [if_neg (by omega)]
  rw [if_neg (by omega)]
  exact readiFrom_content hr ho (Nat.le_refl n) hend

theorem readi_file (hsize : ip.size = g.content.length) (hoff : off ≤ g.content.length)
    (hsmall : off + n < 2 ^ 32) :
    readi disk ip off n = some ((g.content.drop off).take n) := by
  by_cases hend : off + n ≤ g.content.length
  · exact readi_content hr ho (Nat.le_of_eq hsize.symm) hend hsmall
  unfold readi
  rw [if_neg (by omega)]
  rw [if_pos (by omega), hsize, readiFrom_content hr ho (Nat.le_refl _) (by omega),
    take_of_length_le (by rw [length_drop]), take_of_length_le (by rw [length_drop]; omega)]

end

/-! ## The blocks of a file -/

theorem filter_getD (l : List Nat) (hl : ∀ b, b ∈ l → b ≠ 0) (n : Nat) :
    ((List.range n).map fun j => l.getD j 0).filter (· ≠ 0) = l.take n := by
  induction n generalizing l with
  | zero => rfl
  | succ n ih =>
    rw [range_succ_eq_map, map_cons, List.map_map]
    cases l with
    | nil =>
      have hrest := ih [] nofun
      rw [filter_cons_of_neg (by decide)]
      exact hrest.trans take_nil
    | cons b l =>
      have hrest := ih l fun b' hb' => hl b' (mem_cons_of_mem b hb')
      have hb : decide (b ≠ 0) = true := decide_eq_true (hl b mem_cons_self)
      rw [getD_cons_zero, filter_cons, if_pos hb]
      exact congrArg (b :: ·) hrest

theorem refs_eq_used (hr : Rep disk ip.addrs g) (ho : Owns g free) : refs disk ip = g.used := by
  have hne : ∀ b, b ∈ g.blocks → b ≠ 0 := fun b hb => ho.ne_zero (Ghost.mem_used.2 (.inl hb))
  have hdirect : ((List.range NDIRECT).map ip.addrs).filter (· ≠ 0) = g.blocks.take NDIRECT := by
    rw [← filter_getD g.blocks hne NDIRECT]
    congr 1
    exact map_congr_left fun j hj => hr.direct j (mem_range.1 hj)
  unfold refs
  rw [hdirect, hr.table, Ghost.used]
  cases ht : g.table with
  | none =>
    rw [take_of_length_le (hr.has.1 ht)]
    rfl
  | some a =>
    have ha : a ≠ 0 := ho.ne_zero (Ghost.mem_used.2 (.inr ht))
    have hindirect : ((List.range NINDIRECT).map fun j => getLE 4 (disk a) (4 * j)).filter (· ≠ 0) =
        g.blocks.drop NDIRECT := by
      have hle : (g.blocks.drop NDIRECT).length ≤ NINDIRECT := by
        have := hr.max
        rw [length_drop]
        unfold MAXFILE at this
        omega
      rw [← take_of_length_le hle, ← filter_getD _ (fun b hb => hne b (mem_of_mem_drop hb))]
      congr 1
      refine map_congr_left fun j hj => ?_
      rw [hr.indirect a ht j (mem_range.1 hj), getD_eq_getElem?_getD, getD_eq_getElem?_getD, getElem?_drop]
    rw [getD_some, if_neg ha, hindirect, ← append_assoc, take_append_drop]
    rfl

/-! ## The bitmap -/

theorem bit_ne_zero (b : Nat) : bit b ≠ 0 := by
  have hbit : ∀ k : Fin 8, UInt8.ofNat (1 <<< k.val) ≠ 0 := by decide
  exact hbit ⟨b % 8, Nat.mod_lt b (by decide)⟩

theorem bitmapBuf_bit {used b : Nat} (hb : b < used) : bitmapBuf used (b / 8) &&& bit b ≠ 0 := by
  induction used with
  | zero => exact absurd hb (Nat.not_lt_zero b)
  | succ used ih =>
    have hor : ∀ x y : UInt8, (x &&& bit b ≠ 0 ∨ y &&& bit b ≠ 0) → (x ||| y) &&& bit b ≠ 0 := by
      intro x y hxy h
      have hsplit : (x ||| y) &&& bit b = (x &&& bit b) ||| (y &&& bit b) :=
        UInt8.toBitVec_inj.1 BitVec.and_or_distrib_right
      rw [hsplit, UInt8.or_eq_zero_iff] at h
      exact hxy.elim (absurd h.1) (absurd h.2)
    rw [bitmapBuf]
    by_cases hidx : b / 8 = used / 8
    · rw [hidx, update_self]
      refine hor _ _ ?_
      rcases Nat.lt_succ_iff_lt_or_eq.1 hb with hb | rfl
      · exact .inl (hidx ▸ ih hb)
      · rw [UInt8.and_self]
        exact .inr (bit_ne_zero b)
    rw [update_of_ne hidx]
    refine ih (Nat.lt_of_le_of_ne (Nat.le_of_lt_succ hb) ?_)
    rintro rfl
    exact hidx rfl

/-! ## Looking up -/

theorem strncpy_inj {t t' : List Byte} (h : strncpy t DIRSIZ = strncpy t' DIRSIZ)
    (ht : (0 : Byte) ∉ t) (ht' : (0 : Byte) ∉ t')
    (hlen : t.length ≤ DIRSIZ) (hlen' : t'.length ≤ DIRSIZ) : t = t' := by
  have htake := congrArg (List.takeWhile (· ≠ 0)) h
  rwa [strncpy_take _ _ ht, strncpy_take _ _ ht', take_of_length_le hlen, take_of_length_le hlen'] at htake

theorem elements_single {name : List Byte} (hne : name ≠ []) (hs : slash ∉ name) (hlen : name.length ≤ DIRSIZ) :
    elements (slash :: name) = [name] := by
  have hall : ∀ b ∈ name, decide (b ≠ slash) = true := fun b hb => decide_eq_true fun h => hs (h ▸ hb)
  have hdrop : (slash :: name).dropWhile (· = slash) = name := by
    rw [dropWhile_cons_of_pos (by decide)]
    cases name with
    | nil => rfl
    | cons b name =>
      exact dropWhile_cons_of_neg (by simpa using hall b mem_cons_self)
  have htake : name.takeWhile (· ≠ slash) = name := takeWhile_eq_self_iff.2 hall
  have hrest : name.dropWhile (· ≠ slash) = [] := dropWhile_eq_nil_iff.2 hall
  rw [elements, length_cons, elementsFrom]
  simp only [hdrop, if_neg hne, htake, hrest, take_of_length_le hlen]
  cases name with
  | nil => exact absurd rfl hne
  | cons b name => rfl

section

variable {dp : Dinode} {ents : List Dirent} {name : List Byte} {k : Nat} {e : Dirent}
  (hr : Rep disk dp.addrs g) (ho : Owns g free) (hfile : g.content = file ents)
    (hsize : g.content.length ≤ dp.size)
  (hmax : g.content.length ≤ MAXFILE * BSIZE)

include hr ho hfile hsize hmax

theorem readi_entry (h : ents[k]? = some e) : readi disk dp (DIRENT * k) DIRENT = some e.bytes := by
  have hlt : k < ents.length := (List.getElem?_eq_some_iff.1 h).1
  have hlen : g.content.length = DIRENT * ents.length := by rw [hfile, file_length]
  have hend : DIRENT * k + DIRENT ≤ g.content.length := by
    rw [hlen]
    simp only [DIRENT]
    omega
  have hbound : MAXFILE * BSIZE < 2 ^ 32 := by decide
  rw [readi_content hr ho hsize hend (by omega), hfile, entry_at h]

theorem dirlookupFrom_entry (h : ents[k]? = some e) (hinum : e.inum ≠ 0) (hname : namecmp name e.name = 0)
    (hfirst : ∀ j e', j < k → ents[j]? = some e' → namecmp name e'.name ≠ 0) {j fuel : Nat}
    (hj : j ≤ k) (hfuel : k < j + fuel) :
    dirlookupFrom disk dp name fuel (DIRENT * j) = some (some e.inum) := by
  have hlen : g.content.length = DIRENT * ents.length := by rw [hfile, file_length]
  have hk : k < ents.length := (List.getElem?_eq_some_iff.1 h).1
  induction fuel generalizing j with
  | zero => omega
  | succ fuel ih =>
    have hin : DIRENT * j < dp.size := by
      simp only [DIRENT] at hlen ⊢
      omega
    obtain ⟨e', he'⟩ : ∃ e', ents[j]? = some e' := ⟨_, getElem?_eq_getElem (by omega)⟩
    rw [dirlookupFrom, if_pos hin, readi_entry hr ho hfile hsize hmax he', bind_some,
      if_neg (not_not.2 e'.bytes_length), inumOf_bytes, nameOf_bytes]
    rcases Nat.lt_or_eq_of_le hj with hlt | rfl
    · have hnext := ih hlt (by omega)
      rw [Nat.mul_succ] at hnext
      rw [if_neg (hfirst j e' hlt he'), hnext, ite_self]
    · cases h.symm.trans he'
      rw [if_neg hinum, if_pos hname]

end

end Xv6.Image
