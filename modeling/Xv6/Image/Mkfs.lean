import Xv6.Image.Append
import Xv6.Structures.Links
import Xv6.Tree.Calls

set_option autoImplicit false

/-! # mkfs

`main` of `mkfs.c`: the root directory, then for each argument an inode, an entry of the root
directory and the bytes of the file, in the pieces in which they are read; at last the size of the
root directory and the bitmap. What is kept from step to step is that the image holds every file so
far (`Holds`). -/

namespace Xv6.Image

open Files Function List Structures

/-- An argument of `mkfs`: its name, a string of C, and the pieces in which the file is read. -/
structure Input where
  arg : List Byte
  pieces : List (List Byte)
  string : (0 : Byte) ∉ arg

/-- The name without `user/`. -/
def stripDir (arg : List Byte) : List Byte :=
  if strncmp arg [117, 115, 101, 114, 47] 5 = 0 then arg.drop 5 else arg

/-- The name without a leading `_`. -/
def stripMark (name : List Byte) : List Byte := if name.head? = some 95 then name.tail else name

/-- The name that the file gets. -/
def Input.name (f : Input) : List Byte := stripMark (stripDir f.arg)

/-- Its bytes. -/
def Input.content (f : Input) : List Byte := f.pieces.flatten

/-- The loop that copies a file. -/
def appendAll (img : Img) (inum : Nat) : List (List Byte) → Option Img
  | [] => some img
  | p :: ps => (iappend img inum p).bind fun img => appendAll img inum ps

/-- A turn of the loop over the arguments; `none` where the assertion on `/` fails. -/
def addInput (img : Img) (f : Input) : Option Img :=
  if (47 : Byte) ∈ stripDir f.arg then none
  else
    let (img, inum) := ialloc img T_FILE
    (iappend img ROOTINO (linkBytes f.name inum)).bind fun img => appendAll img inum f.pieces

/-- The loop over the files. -/
def addInputs (img : Img) : List Input → Option Img
  | [] => some img
  | f :: fs => (addInput img f).bind fun img => addInputs img fs

/-- The image of zeros with the superblock. -/
def blank : Img where
  disk := update (fun _ _ => 0) 1 superBuf
  freeinode := 1
  freeblock := nmeta

/-- The root directory with its two entries. -/
def withRoot : Option Img :=
  let (img, rootino) := ialloc blank T_DIR
  if rootino = ROOTINO then
    (iappend img rootino (linkBytes dot rootino)).bind fun img => iappend img rootino (linkBytes dotdot rootino)
  else none

/-- The image before its end: all files are in it. -/
def build (files : List Input) : Option Img := withRoot.bind fun img => addInputs img files

/-- The size of the root directory is rounded up to the next block. -/
def fixRoot (img : Img) : Img :=
  let din := rinode img.disk ROOTINO
  winode img ROOTINO { din with size := (din.size / BSIZE + 1) * BSIZE }

/-- A block that `iappend` takes is read at once, and `rsect` ends `mkfs` if it is beyond the end of
    the image: so `mkfs` makes no image if the last of them is. -/
def mkfs (files : List Input) : Option Img :=
  (build files).bind fun img =>
    if img.freeblock ≤ FSSIZE then balloc (fixRoot img) (fixRoot img).freeblock else none

/-! ## What the image holds -/

/-- The image holds the files `G`. -/
structure Holds (img : Img) (G : Nat → Ghost) (types : Nat → Nat) : Prop where
  rep : ∀ i, i < inodeSlots → Rep img.disk (rinode img.disk i).addrs (G i)
  size : ∀ i, i < inodeSlots → (rinode img.disk i).size = (G i).content.length
  type : ∀ i, i < inodeSlots → (rinode img.disk i).type = types i
  types_lt : ∀ i, types i < 256 ^ 2
  owns : ∀ i, Owns (G i) img.freeblock
  tight : ∀ i, BSIZE * (G i).blocks.length < (G i).content.length + BSIZE
  apart : ∀ i j b, b ∈ (G i).used → b ∈ (G j).used → i = j
  rest : ∀ i, img.freeinode ≤ i → G i = {}
  zero : ∀ b, img.freeblock ≤ b → img.disk b = fun _ => 0
  count : img.freeblock = nmeta + ∑ i ∈ Finset.range inodeSlots, (G i).used.length
  super : img.disk 1 = superBuf

variable {img img' : Img} {G : Nat → Ghost} {types : Nat → Nat} {i j : Nat}

theorem inodeSlots_eq : inodeSlots = 208 := rfl

theorem iblock_lt (hi : i < inodeSlots) : IBLOCK i < nmeta := by
  rw [inodeSlots_eq] at hi
  have hnum : IBLOCK i = i / 16 + 32 ∧ nmeta = 46 := ⟨rfl, rfl⟩
  omega

theorem one_lt_iblock (i : Nat) : 1 < IBLOCK i := by
  have hnum : IBLOCK i = i / 16 + 32 := rfl
  omega

variable {disk : Nat → Buf} {k : Nat} {addrs : Nat → Nat} {g : Ghost}

theorem rinode_congr {disk' : Nat → Buf} (h : disk' (IBLOCK i) = disk (IBLOCK i)) :
    rinode disk' i = rinode disk i := by
  rw [rinode, rinode, h]

theorem winode_self (img : Img) (din : Dinode) :
    (winode img i din).disk (IBLOCK i) = putDinode (img.disk (IBLOCK i)) (64 * (i % IPB)) din := update_self ..

theorem rinode_winode_ne (img : Img) (din : Dinode) (hne : j ≠ i) :
    rinode (winode img i din).disk j = rinode img.disk j := by
  by_cases hb : IBLOCK j = IBLOCK i
  · rw [rinode, rinode, hb, winode_self]
    refine getDinode_congr fun o h₁ h₂ => ?_
    have hnum : IBLOCK i = i / 16 + 32 ∧ IBLOCK j = j / 16 + 32 ∧ IPB = 16 := ⟨rfl, rfl, rfl⟩
    rw [putDinode, if_neg]
    rw [hnum.2.2] at h₁ h₂ ⊢
    omega
  · exact rinode_congr (update_of_ne hb ..)

theorem winode_disk (img : Img) (din : Dinode) {b : Nat} (hne : b ≠ IBLOCK i) :
    (winode img i din).disk b = img.disk b :=
  update_of_ne hne ..

theorem rinode_winode_size (img : Img) (din : Dinode) :
    (rinode (winode img i din).disk i).size = din.size % 256 ^ 4 := by
  rw [rinode, winode_self, putDinode_size]

theorem rinode_winode_type (img : Img) (din : Dinode) :
    (rinode (winode img i din).disk i).type = din.type % 256 ^ 2 := by
  rw [rinode, winode_self, putDinode_type]

theorem rinode_winode_addrs (img : Img) (din : Dinode) (hk : k ≤ NDIRECT) :
    (rinode (winode img i din).disk i).addrs k = din.addrs k % 256 ^ 4 := by
  rw [rinode, winode_self, putDinode_addrs _ _ _ hk]

theorem Rep.addrs_congr {addrs' : Nat → Nat} (h : Rep disk addrs g)
    (hsame : ∀ k, k ≤ NDIRECT → addrs' k = addrs k) : Rep disk addrs' g :=
  ⟨h.size, h.max, fun k hk => (hsame k (Nat.le_of_lt hk)).trans (h.direct k hk),
    (hsame NDIRECT (Nat.le_refl _)).trans h.table, h.has, h.indirect, h.data⟩

theorem Rep.addrs_lt {free : Nat} (h : Rep disk addrs g)
    (ho : Owns g free) (hfree : free < 256 ^ 4) (hk : k ≤ NDIRECT) : addrs k < 256 ^ 4 := by
  rcases Nat.lt_or_eq_of_le hk with hk | rfl
  · rw [h.direct k hk]
    by_cases hlt : k < g.blocks.length
    · have := (ho.range _ (Ghost.mem_used.2 (.inl (getD_mem_blocks hlt)))).2
      omega
    · rw [getD_eq_default _ _ (by omega)]
      decide
  rw [h.table]
  cases ht : g.table with
  | none => decide
  | some a =>
    have := (ho.range a (Ghost.mem_used.2 (.inr ht))).2
    change a < _
    omega

theorem Rep.used_length (h : Rep disk addrs g) : g.used.length ≤ MAXFILE + 1 := by
  have hmax := h.max
  rw [Ghost.used, length_append]
  cases g.table with
  | none => exact Nat.le_succ_of_le hmax
  | some a => exact Nat.succ_le_succ hmax

theorem Holds.base (h : Holds img G types) : nmeta ≤ img.freeblock := by
  have := h.count
  omega

theorem Holds.freeblock_le (h : Holds img G types) : img.freeblock ≤ nmeta + inodeSlots * (MAXFILE + 1) := by
  have hsum : ∑ i ∈ Finset.range inodeSlots,
    (G i).used.length ≤ (Finset.range inodeSlots).card • (MAXFILE + 1) :=
    Finset.sum_le_card_nsmul _ _ _ fun i hi => (h.rep i (Finset.mem_range.1 hi)).used_length
  rw [Finset.card_range] at hsum
  rw [h.count]
  exact Nat.add_le_add_left hsum _

theorem Holds.iappend (h : Holds img G types) (hi : i < img.freeinode) (hlt : i < inodeSlots) {p : List Byte}
    (hmax : (G i).content.length + p.length ≤ MAXFILE * BSIZE) :
    ∃ img' g', iappend img i p = some img' ∧ g'.content = (G i).content ++ p ∧
      Holds img' (update G i g') types ∧
      img'.freeinode = img.freeinode := by
  obtain ⟨img₁, din₁, hloop⟩ := @iappendFrom_some img (rinode img.disk i) _ _ p (Nat.le_refl p.length) hmax
  have hsmall : img₁.freeblock + 1 < 256 ^ 4 := by
    have hle := h.freeblock_le
    have hto : img₁.freeblock ≤ img.freeblock + 2 * p.length := (iappendFrom_freeblock hloop).2
    have hnum : nmeta + inodeSlots * (MAXFILE + 1) + 2 * (MAXFILE * BSIZE) + 1 < 256 ^ 4 := by decide
    omega
  obtain ⟨htype, g', ha⟩ := iappendFrom_appends hloop ⟨h.rep i hlt, h.owns i, h.base, h.zero, h.tight i⟩ hsmall
  refine ⟨winode img₁ i { din₁ with size := (G i).content.length + p.length }, g', ?_,
    ha.content, ?_, ha.freeinode⟩
  · unfold Image.iappend
    simp only [h.size i hlt]
    rw [hloop]
  set img₂ := winode img₁ i { din₁ with size := (G i).content.length + p.length }
  have hbound : MAXFILE * BSIZE < 256 ^ 4 := by decide
  have hib := iblock_lt hlt
  have hmono := ha.mono
  -- what is in front of the data blocks is written by `winode` only
  have hfront : ∀ b, b < nmeta → img₁.disk b = img.disk b := fun b hb => ha.frame b fun hmem => by
    have := (ha.owns.range b hmem).1
    omega
  have hdata : ∀ b, nmeta ≤ b → img₂.disk b = img₁.disk b := fun b hb => winode_disk _ _ (by omega)
  have hinode : ∀ j, j ≠ i → j < inodeSlots → rinode img₂.disk j = rinode img.disk j := by
    intro j hji hj
    rw [rinode_winode_ne _ _ hji]
    exact rinode_congr (hfront _ (iblock_lt hj))
  -- a block that is new is not in another file
  have hnew : ∀ j b, j ≠ i → b ∈ (G j).used → b ∉ g'.used := by
    intro j b hji hb hmem
    rcases ha.fresh b hmem with hmem | hmem
    · exact hji (h.apart j i b hb hmem)
    · have := ((h.owns j).range b hb).2
      omega
  refine ⟨fun j hj => ?_, fun j hj => ?_, fun j hj => ?_, h.types_lt, fun j => ?_, fun j => ?_,
    fun j k b hb hb' => ?_, fun j hj => ?_, fun b hb => ?_, ?_, ?_⟩
  · by_cases hji : j = i
    · subst hji
      rw [update_self]
      refine (ha.rep.congr fun b hb => hdata b (ha.owns.range b hb).1).addrs_congr fun k hk => ?_
      rw [rinode_winode_addrs _ _ hk]
      exact Nat.mod_eq_of_lt (ha.rep.addrs_lt ha.owns (Nat.lt_of_succ_lt hsmall) hk)
    rw [update_of_ne hji, hinode j hji hj]
    refine (h.rep j hj).congr fun b hb => ?_
    rw [hdata b ((h.owns j).range b hb).1]
    exact ha.frame b (hnew j b hji hb)
  · by_cases hji : j = i
    · subst hji
      rw [update_self, rinode_winode_size, ha.content, length_append]
      exact Nat.mod_eq_of_lt (Nat.lt_of_le_of_lt hmax hbound)
    · rw [update_of_ne hji, hinode j hji hj]
      exact h.size j hj
  · by_cases hji : j = i
    · subst hji
      rw [rinode_winode_type]
      rw [htype, h.type j hj]
      exact Nat.mod_eq_of_lt (h.types_lt j)
    · rw [hinode j hji hj]
      exact h.type j hj
  · by_cases hji : j = i
    · rw [hji, update_self]
      exact ha.owns
    rw [update_of_ne hji]
    exact ⟨(h.owns j).nodup, fun b hb => ⟨((h.owns j).range b hb).1,
      Nat.lt_of_lt_of_le ((h.owns j).range b hb).2 hmono⟩⟩
  · by_cases hji : j = i
    · rw [hji, update_self]
      exact ha.tight
    · rw [update_of_ne hji]
      exact h.tight j
  · have hold := h.apart j k b
    have hj := hnew j b
    have hk := hnew k b
    grind
  · have hj' : img.freeinode ≤ j := by
      rw [← ha.freeinode]
      exact hj
    rw [update_of_ne (by omega)]
    exact h.rest j hj'
  · have hb' : img₁.freeblock ≤ b := hb
    have hbase := h.base
    rw [hdata b (by omega)]
    exact ha.zero b hb'
  · have hsum := sum_update_mem (fun g : Ghost => g.used.length) G (Finset.mem_range.2 hlt) g'
    have hcount := ha.count
    have hold := h.count
    change img₁.freeblock = _
    omega
  · have hone := one_lt_iblock i
    rw [winode_disk _ _ (by omega), hfront 1 (by decide)]
    exact h.super

/-! ## The inodes -/

theorem rep_empty (disk : Nat → Buf) (h : ∀ k, k ≤ NDIRECT → addrs k = 0) : Rep disk addrs {} where
  size := Nat.zero_le _
  max := Nat.zero_le _
  direct := fun k hk => h k (Nat.le_of_lt hk)
  table := h NDIRECT (Nat.le_refl _)
  has := iff_of_true rfl (Nat.zero_le _)
  indirect := nofun
  data := fun o ho => absurd ho (Nat.not_lt_zero o)

theorem owns_empty (free : Nat) : Owns {} free := ⟨nodup_nil, nofun⟩

theorem Holds.ialloc (h : Holds img G types) (hlt : img.freeinode < inodeSlots) {kind : Nat}
    (hkind : kind < 256 ^ 2) :
    Holds (ialloc img kind).1 G (update types img.freeinode kind) := by
  have hempty := h.rest _ (Nat.le_refl img.freeinode)
  have hib := iblock_lt hlt
  have hother : ∀ j, j ≠ img.freeinode → rinode (Image.ialloc img kind).1.disk j = rinode img.disk j :=
    fun j hj => rinode_winode_ne { img with freeinode := img.freeinode + 1 } _ hj
  have hdisk : ∀ b, b ≠ IBLOCK img.freeinode → (Image.ialloc img kind).1.disk b = img.disk b :=
    fun b hb => winode_disk { img with freeinode := img.freeinode + 1 } _ hb
  refine ⟨fun j hj => ?_, fun j hj => ?_, fun j hj => ?_, fun j => ?_, h.owns, h.tight, h.apart, fun j hj => ?_,
    fun b hb => ?_, h.count, ?_⟩
  · by_cases hji : j = img.freeinode
    · subst hji
      rw [hempty]
      exact rep_empty _ fun k hk => rinode_winode_addrs _ _ hk
    rw [hother j hji]
    refine (h.rep j hj).congr fun b hb => hdisk b ?_
    have := ((h.owns j).range b hb).1
    omega
  · by_cases hji : j = img.freeinode
    · subst hji
      rw [hempty]
      exact rinode_winode_size _ _
    · rw [hother j hji]
      exact h.size j hj
  · by_cases hji : j = img.freeinode
    · subst hji
      rw [update_self]
      exact (rinode_winode_type _ _).trans (Nat.mod_eq_of_lt hkind)
    · rw [hother j hji, update_of_ne hji]
      exact h.type j hj
  · by_cases hji : j = img.freeinode
    · rw [hji, update_self]
      exact hkind
    · rw [update_of_ne hji]
      exact h.types_lt j
  · have hj' : img.freeinode + 1 ≤ j := hj
    exact h.rest j (by omega)
  · have hb' : img.freeblock ≤ b := hb
    have hbase := h.base
    rw [hdisk b (by omega)]
    exact h.zero b hb'
  · have hone := one_lt_iblock img.freeinode
    rw [hdisk 1 (by omega)]
    exact h.super

theorem blank_holds : Holds blank (fun _ => {}) fun _ => 0 := by
  have hdisk : blank.disk = update (fun _ _ => 0) 1 superBuf := rfl
  have hzero : ∀ b, b ≠ 1 → blank.disk b = fun _ => 0 := fun b hb => by rw [hdisk, update_of_ne hb]
  have hinode : ∀ j, blank.disk (IBLOCK j) = fun _ => 0 := fun j => hzero _ (Nat.ne_of_gt (one_lt_iblock j))
  refine ⟨fun j _ => rep_empty _ fun k hk => ?_, fun j _ => ?_, fun j _ => ?_, fun _ => by decide,
    fun _ => owns_empty _,
    fun _ => by decide, nofun, fun _ _ => rfl, fun b hb => hzero b ?_, ?_, ?_⟩
  · rw [rinode, hinode, getDinode]
    simp only [if_pos hk, getLE_zero]
  · rw [rinode, hinode]
    exact getLE_zero _ _
  · rw [rinode, hinode]
    exact getLE_zero _ _
  · have hnum : nmeta = 46 := rfl
    have hb' : nmeta ≤ b := hb
    omega
  · have hsum : ∑ i ∈ Finset.range inodeSlots, (Ghost.used {}).length = 0 := Finset.sum_eq_zero fun _ _ => rfl
    rw [hsum, Nat.add_zero]
    rfl
  · rw [hdisk, update_self]

/-! ## The files -/

/-- The image holds files with these contents. -/
def Has (img : Img) (content : Nat → List Byte) (types : Nat → Nat) : Prop :=
  ∃ G : Nat → Ghost, (∀ i, (G i).content = content i) ∧ Holds img G types

variable {content : Nat → List Byte}

theorem Has.iappend (h : Has img content types) (hi : i < img.freeinode) (hlt : i < inodeSlots) {p : List Byte}
    (hmax : (content i).length + p.length ≤ MAXFILE * BSIZE) :
    ∃ img', iappend img i p = some img' ∧ Has img' (update content i (content i ++ p)) types ∧
      img'.freeinode = img.freeinode := by
  obtain ⟨G, hcontent, hh⟩ := h
  obtain ⟨img', g', hcall, hg', hh', hfree⟩ := hh.iappend hi hlt (by rw [hcontent]; exact hmax)
  refine ⟨img', hcall, ⟨_, fun j => ?_, hh'⟩, hfree⟩
  by_cases hji : j = i
  · rw [hji, update_self, update_self, hg', hcontent]
  · rw [update_of_ne hji, update_of_ne hji, hcontent]

theorem Has.appendAll {ps : List (List Byte)} (h : Has img content types) (hi : i < img.freeinode)
    (hlt : i < inodeSlots)
    (hmax : (content i).length + ps.flatten.length ≤ MAXFILE * BSIZE) :
    ∃ img', appendAll img i ps = some img' ∧ Has img' (update content i (content i ++ ps.flatten)) types ∧
      img'.freeinode = img.freeinode := by
  induction ps generalizing img content with
  | nil =>
    refine ⟨img, rfl, ?_, rfl⟩
    rw [flatten_nil, append_nil, update_eq_self]
    exact h
  | cons p ps ih =>
    rw [flatten_cons, length_append] at hmax
    obtain ⟨img₁, hcall, hh, hfree⟩ := @Has.iappend _ _ _ _ h hi hlt p (by omega)
    have hself : update content i (content i ++ p) i = content i ++ p := update_self ..
    obtain ⟨img', hrest, hh', hfree'⟩ := ih hh (by omega) (by rw [hself, length_append]; omega)
    refine ⟨img', ?_, ?_, hfree'.trans hfree⟩
    · rw [Image.appendAll, hcall]
      exact hrest
    · rw [hself, update_idem, append_assoc] at hh'
      exact hh'

end Xv6.Image
