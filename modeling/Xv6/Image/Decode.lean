import Xv6.Image.Kernel

set_option autoImplicit false

/-! # The kernel reads what mkfs has written

The end of `mkfs` changes the size of the root directory and writes the bitmap, and no block of a
file. What the image then holds (`Written`) is what the kernel finds: each file under its name, with
its bytes, in blocks that are in use and in no other file. -/

namespace Xv6.Image

open Files Function List Option Structures Xv6.Tree

/-- The files that `mkfs` can put into an image. -/
structure Admissible (files : List Input) : Prop where
  name : ∀ f, f ∈ files → f.name ≠ [] ∧ f.name.length ≤ DIRSIZ ∧ f.name ≠ dot ∧ f.name ≠ dotdot
  -- this is asserted by `mkfs`
  slash : ∀ f, f ∈ files → slash ∉ f.name
  distinct : (files.map Input.name).Nodup
  count : files.length ≤ NINODES - 2
  size : ∀ f, f ∈ files → f.content.length ≤ MAXFILE * BSIZE
  blocks : blocksFor files ≤ FSSIZE

/-- The image of the files. -/
structure Written (disk : Nat → Buf) (files : List Input) (G : Nat → Ghost) : Prop where
  super : disk 1 = superBuf
  content : ∀ i, (G i).content = laid files i
  rep : ∀ i, i < inodeSlots → Rep disk (rinode disk i).addrs (G i)
  size : ∀ i, i < inodeSlots → i ≠ ROOTINO → (rinode disk i).size = (G i).content.length
  root : (G ROOTINO).content.length ≤ (rinode disk ROOTINO).size
  dir : (rinode disk ROOTINO).type = T_DIR
  owns : ∀ i, Owns (G i) (blocksFor files)
  apart : ∀ i j b, b ∈ (G i).used → b ∈ (G j).used → i = j
  bitmap : disk bmapstart = bitmapBuf (blocksFor files)

variable {files : List Input} {disk : Nat → Buf} {G : Nat → Ghost}

theorem iblock_ne_bmapstart {i : Nat} (hi : i < inodeSlots) : IBLOCK i ≠ bmapstart := by
  rw [inodeSlots_eq] at hi
  have hnum : IBLOCK i = i / 16 + 32 ∧ bmapstart = 45 := ⟨rfl, rfl⟩
  omega

theorem mkfs_written (hlen : files.length ≤ inodeSlots - 2) (hfits : ∀ f, f ∈ files → f.Fits)
    (hsmall : blocksFor files ≤ FSSIZE) :
    ∃ img G, mkfs files = some img ∧ Written img.disk files G ∧
      (rinode img.disk ROOTINO).size = ((G ROOTINO).content.length / BSIZE + 1) * BSIZE ∧
      BSIZE * (G ROOTINO).blocks.length < (G ROOTINO).content.length + BSIZE := by
  have hcount : files.length + 2 ≤ inodeSlots := by
    rw [inodeSlots_eq] at hlen ⊢
    omega
  obtain ⟨img, hbuild, hhas⟩ := build_has hcount hfits
  have hblocks := hhas.freeblock hcount
  obtain ⟨G, hcontent, hh⟩ := hhas
  have hroot : ROOTINO < inodeSlots := by decide
  obtain ⟨size, hsize⟩ : ∃ size, size = ((rinode img.disk ROOTINO).size / BSIZE + 1) * BSIZE := ⟨_, rfl⟩
  obtain ⟨img₁, himg₁⟩ : ∃ img₁, img₁ =
    winode img ROOTINO { rinode img.disk ROOTINO with size := size } := ⟨_, rfl⟩
  have hfix : fixRoot img = img₁ := by rw [himg₁, hsize, fixRoot]
  have hfree : img₁.freeblock = blocksFor files := by
    rw [himg₁]
    exact hblocks
  -- no inode is in the block of the bitmap, and no file in either
  have hdisk : ∀ b, b ≠ bmapstart → (wsect img₁ bmapstart (bitmapBuf (blocksFor files))).disk b = img₁.disk b :=
    fun b hb => update_of_ne hb ..
  have hmeta : bmapstart < nmeta := by decide
  have hdata : ∀ b, nmeta ≤ b → (wsect img₁ bmapstart (bitmapBuf (blocksFor files))).disk b = img.disk b := by
    intro b hb
    have hib := iblock_lt hroot
    rw [hdisk b (by omega), himg₁]
    exact winode_disk _ _ (by omega)
  have hinode : ∀ i, i < inodeSlots →
    rinode (wsect img₁ bmapstart (bitmapBuf (blocksFor files))).disk i = rinode img₁.disk i :=
    fun i hi => rinode_congr (hdisk _ (iblock_ne_bmapstart hi))
  have hrootSize : (rinode (wsect img₁ bmapstart (bitmapBuf (blocksFor files))).disk ROOTINO).size
      = ((G ROOTINO).content.length / BSIZE + 1) * BSIZE := by
    have hlen : (G ROOTINO).content.length ≤ 3328 := by
      rw [hcontent, laid_root_length]
      simp only [inodeSlots_eq, DIRENT] at hcount ⊢
      omega
    rw [hh.size ROOTINO hroot] at hsize
    rw [hinode ROOTINO hroot, himg₁, rinode_winode_size, hsize]
    simp only [BSIZE]
    omega
  refine ⟨wsect img₁ bmapstart (bitmapBuf (blocksFor files)), G, ?_, ⟨?_, hcontent, fun i hi => ?_,
    fun i hi hne => ?_, ?_, ?_, fun i => hblocks ▸ hh.owns i, hh.apart, ?_⟩, hrootSize, hh.tight ROOTINO⟩
  · have hbits : FSSIZE < BSIZE * 8 := by decide
    rw [mkfs, hbuild, bind_some, hblocks, if_pos hsmall, hfix, hfree, balloc, if_pos (by omega)]
  · have hone := one_lt_iblock ROOTINO
    rw [hdisk 1 (by decide), himg₁, winode_disk _ _ (by omega)]
    exact hh.super
  · rw [hinode i hi]
    have hrep := (hh.rep i hi).congr fun b hb => hdata b ((hh.owns i).range b hb).1
    by_cases hir : i = ROOTINO
    · subst hir
      refine hrep.addrs_congr fun k hk => ?_
      rw [himg₁, rinode_winode_addrs _ _ hk]
      refine Nat.mod_eq_of_lt ((hh.rep ROOTINO hi).addrs_lt (hh.owns ROOTINO) ?_ hk)
      exact Nat.lt_of_le_of_lt hh.freeblock_le (by decide)
    have hsame : rinode img₁.disk i = rinode img.disk i := by rw [himg₁, rinode_winode_ne _ _ hir]
    rw [hsame]
    exact hrep
  · rw [hinode i hi, himg₁, rinode_winode_ne _ _ hne]
    exact hh.size i hi
  · rw [hrootSize]
    simp only [BSIZE]
    omega
  · rw [hinode ROOTINO hroot, himg₁, rinode_winode_type]
    rw [hh.type ROOTINO hroot]
    rfl
  · change update img₁.disk bmapstart (bitmapBuf (blocksFor files)) bmapstart = _
    rw [update_self]

/-! ## What the kernel finds -/

theorem readsb_superBuf : readsb superBuf = sb := by decide +kernel

namespace Written

variable (h : Written disk files G)

include h

theorem readsb_eq : readsb (disk 1) = sb := by rw [h.super, readsb_superBuf]

theorem dinode_eq (i : Nat) : dinode disk i = rinode disk i := by
  rw [dinode, h.readsb_eq]
  rfl

theorem refs_eq {i : Nat} (hi : i < inodeSlots) : refs disk (dinode disk i) = (G i).used := by
  rw [h.dinode_eq]
  exact refs_eq_used (h.rep i hi) (h.owns i)

theorem inUse_of_lt (hblocks : blocksFor files ≤ FSSIZE) {b : Nat} (hb : b < blocksFor files) :
    inUse disk b = true := by
  have hnum : FSSIZE < BPB := by decide
  have hlt : b < BPB := by omega
  rw [inUse, h.readsb_eq, Nat.div_eq_of_lt hlt, Nat.zero_add, Nat.mod_eq_of_lt hlt]
  change decide (disk bmapstart (b / 8) &&& bit b ≠ 0) = true
  rw [h.bitmap]
  exact decide_eq_true (bitmapBuf_bit hb)

end Written

theorem Input.name_string (f : Input) : (0 : Byte) ∉ f.name := by
  have hdir : ∀ b, b ∈ stripDir f.arg → b ∈ f.arg := by
    intro b hb
    unfold stripDir at hb
    split at hb
    · exact mem_of_mem_drop hb
    · exact hb
  intro h
  unfold Input.name stripMark at h
  split at h
  · exact f.string (hdir 0 (mem_of_mem_tail h))
  · exact f.string (hdir 0 h)

theorem namecmp_newEntry {name nm : List Byte} {inum : Nat} (hs : (0 : Byte) ∉ name) (hs' : (0 : Byte) ∉ nm)
    (hlen : name.length ≤ DIRSIZ) (hlen' : nm.length ≤ DIRSIZ) :
    namecmp name (newEntry nm inum).name = 0 ↔ name = nm := by
  rw [namecmp, strncmp_eq_zero]
  change strncpy name DIRSIZ = strncpy (strncpy nm DIRSIZ) DIRSIZ ↔ _
  rw [strncpy_strncpy]
  exact ⟨fun h => strncpy_inj h hs hs' hlen hlen', fun h => by rw [h]⟩

theorem rootEntries_file {k : Nat} {f : Input} (hk : files[k]? = some f) :
    (rootEntries files)[k + 2]? = some (newEntry f.name (k + 2)) := by
  change (files.mapIdx fun k f => newEntry f.name (k + 2))[k]? = _
  rw [getElem?_mapIdx, hk]
  rfl

theorem Admissible.first (ha : Admissible files) {k j : Nat} {f : Input} {e : Dirent}
    (hk : files[k]? = some f) (hj : j < k + 2)
    (he : (rootEntries files)[j]? = some e) : namecmp f.name e.name ≠ 0 := by
  obtain ⟨-, hlen, hdot, hdotdot⟩ := ha.name f (mem_of_getElem? hk)
  have hstring := f.name_string
  rcases j with - | - | j
  · cases he
    exact fun h => hdot ((namecmp_newEntry hstring (by decide) hlen (by decide)).1 h)
  · cases he
    exact fun h => hdotdot ((namecmp_newEntry hstring (by decide) hlen (by decide)).1 h)
  have hjk : j < k := by omega
  have hk' := (List.getElem?_eq_some_iff.1 hk).1
  obtain ⟨f', hf'⟩ : ∃ f', files[j]? = some f' := ⟨_, getElem?_eq_getElem (by omega)⟩
  cases (rootEntries_file hf').symm.trans he
  intro h
  have hname := (namecmp_newEntry hstring f'.name_string hlen (ha.name f' (mem_of_getElem? hf')).2.1).1 h
  -- two places of one name
  have hsame : (files.map Input.name)[j]? = (files.map Input.name)[k]? := by
    rw [getElem?_map, getElem?_map, hf', hk, map_some, map_some, hname]
  have := (getElem?_inj (by rw [length_map]; omega) ha.distinct).1 hsame
  omega

theorem Written.namei (h : Written disk files G) (ha : Admissible files) {k : Nat} {f : Input}
    (hk : files[k]? = some f)
    (cwd : Nat) : namei disk cwd (slash :: f.name) = some (some (k + 2)) := by
  have hmem := mem_of_getElem? hk
  obtain ⟨hne, hlen, -, -⟩ := ha.name f hmem
  have hcount := ha.count
  have hk' := (List.getElem?_eq_some_iff.1 hk).1
  have hinum : (newEntry f.name (k + 2)).inum = k + 2 := by
    refine Nat.mod_eq_of_lt ?_
    unfold NINODES at hcount
    omega
  have hroot : ROOTINO < inodeSlots := by decide
  have hfile : (G ROOTINO).content = file (rootEntries files) := (h.content ROOTINO).trans (laid_root files)
  have hlength : (G ROOTINO).content.length = DIRENT * (files.length + 2) := by
    rw [hfile, file_length, rootEntries_length]
  have hmax : (G ROOTINO).content.length ≤ MAXFILE * BSIZE := by
    rw [hlength]
    simp only [NINODES, DIRENT, MAXFILE, NDIRECT, NINDIRECT, BSIZE] at hcount ⊢
    omega
  have hfuel : k + 2 < 0 + (rinode disk ROOTINO).size := by
    have := h.root
    simp only [DIRENT] at hlength
    omega
  have hlook := dirlookupFrom_entry (h.rep ROOTINO hroot) (h.owns ROOTINO) hfile h.root hmax
    (rootEntries_file hk)
    (by rw [hinum]; omega) ((namecmp_newEntry f.name_string f.name_string hlen hlen).2 rfl)
    (fun j e hj he => ha.first hk hj he) (Nat.zero_le _) hfuel
  rw [Image.namei, elements_single hne (ha.slash f hmem) hlen, head?_cons, if_pos rfl, nameiFrom, h.dinode_eq,
    if_neg (by rw [h.dir]; decide), if_neg (not_not.2 h.dir), dirlookup, if_neg (not_not.2 h.dir)]
  rw [Nat.mul_zero] at hlook
  rw [hlook, hinum]
  rfl

theorem Written.readi (h : Written disk files G) (ha : Admissible files) {k off n : Nat}
    {f : Input} (hk : files[k]? = some f)
    (hoff : off ≤ f.content.length) (hn : off + n < 2 ^ 32) :
    readi disk (dinode disk (k + 2)) off n = some ((f.content.drop off).take n) := by
  have hk' := (List.getElem?_eq_some_iff.1 hk).1
  have hlt : k + 2 < inodeSlots := by
    have := ha.count
    rw [inodeSlots_eq]
    unfold NINODES at this
    omega
  have hcontent : (G (k + 2)).content = f.content := by
    rw [h.content, laid_file, getD_eq_getElem?_getD, getElem?_map, hk]
    rfl
  rw [h.dinode_eq, ← hcontent]
  exact readi_file (h.rep _ hlt) (h.owns _) (h.size _ hlt (by unfold ROOTINO; omega))
    (by rw [hcontent]; exact hoff) hn

theorem slot_of_lt {i : Nat} (hi : i < NINODES) : i < inodeSlots := Nat.lt_trans hi (by decide)

theorem Written.refs_nodup (h : Written disk files G) :
    ((List.range NINODES).flatMap fun i => refs disk (dinode disk i)).Nodup := by
  refine nodup_flatMap.2 ⟨fun i hi => ?_, ?_⟩
  · rw [h.refs_eq (slot_of_lt (mem_range.1 hi))]
    exact (h.owns i).nodup
  refine nodup_range.imp_of_mem fun {i j} hi hj hne b hb hb' => ?_
  simp only at hb hb'
  rw [h.refs_eq (slot_of_lt (mem_range.1 hi))] at hb
  rw [h.refs_eq (slot_of_lt (mem_range.1 hj))] at hb'
  exact hne (h.apart i j b hb hb')

/-- **The kernel reads what mkfs has written.** The regions of the superblock are in order; the name
    of each file leads to an inode from which `readi` gives the bytes of the file; and the blocks to
    which inodes refer are in the data region, marked in the bitmap, and none of them occurs
    twice. -/
theorem mkfs_decodes (files : List Input) (ha : Admissible files) : ∃ img, mkfs files = some img ∧
      (readsb (img.disk 1)).Regions ∧ (readsb (img.disk 1)).size = FSSIZE ∧
      (∀ f, f ∈ files → ∃ i, (∀ cwd, namei img.disk cwd (slash :: f.name) = some (some i)) ∧
        ∀ off n, off ≤ f.content.length → off + n < 2 ^ 32 →
          readi img.disk (dinode img.disk i) off n = some ((f.content.drop off).take n)) ∧
      (∀ i b, i < NINODES → b ∈ refs img.disk (dinode img.disk i) →
        inUse img.disk b = true ∧ FSSIZE - (readsb (img.disk 1)).nblocks ≤ b ∧ b < FSSIZE) ∧
      ((List.range NINODES).flatMap fun i => refs img.disk (dinode img.disk i)).Nodup := by
  obtain ⟨img, G, hmkfs, h, -, -⟩ := mkfs_written (Nat.le_trans ha.count (by decide))
    (fun f hf => ⟨ha.slash f hf, ha.size f hf⟩) ha.blocks
  refine ⟨img, hmkfs, ?_, ?_, fun f hf => ?_, fun i b hi hb => ?_, h.refs_nodup⟩
  · rw [h.readsb_eq]
    unfold Superblock.Regions
    decide
  · rw [h.readsb_eq]
    rfl
  · obtain ⟨k, hk⟩ := mem_iff_getElem?.1 hf
    exact ⟨k + 2, fun cwd => h.namei ha hk cwd, fun off n hoff hn => h.readi ha hk hoff hn⟩
  rw [h.refs_eq (slot_of_lt hi)] at hb
  have hrange := (h.owns i).range b hb
  have hblocks := ha.blocks
  rw [h.readsb_eq]
  exact ⟨h.inUse_of_lt hblocks hrange.2, hrange.1, Nat.lt_of_lt_of_le hrange.2 hblocks⟩

/-- `user/_cat`, read in two pieces, and an empty file. -/
def twoFiles : List Input :=
  [⟨[117, 115, 101, 114, 47, 95, 99, 97, 116], [List.replicate 1024 7, [8]], by decide⟩, ⟨[82], [], by decide⟩]

theorem mkfs_decodes_twoFiles : ∃ img, mkfs twoFiles = some img ∧
    ∃ i, ∀ cwd, namei img.disk cwd [47, 99, 97, 116] = some (some i) := by
  have ha : Admissible twoFiles := by
    refine ⟨?_, ?_, ?_, ?_, ?_, ?_⟩ <;> decide +kernel
  obtain ⟨img, hmkfs, -, -, hfiles, -⟩ := mkfs_decodes twoFiles ha
  obtain ⟨i, hi, -⟩ := hfiles _ mem_cons_self
  exact ⟨img, hmkfs, i, hi⟩

/-! ## Holes -/

/-- Every block below the size has an address. -/
def HoleFree (disk : Nat → Buf) (ip : Dinode) : Prop :=
  ∀ bn, BSIZE * bn < ip.size → ∃ b, bmap disk ip bn = some b

theorem HoleFree.readiFrom {ip : Dinode} (h : HoleFree disk ip) (fuel off n : Nat) (hn : n ≤ fuel)
    (hend : off + n ≤ ip.size) : ∃ bs, readiFrom disk ip fuel off n = some bs := by
  induction fuel generalizing off n with
  | zero => exact ⟨[], if_pos (by omega)⟩
  | succ fuel ih =>
    unfold Image.readiFrom
    split
    · exact ⟨[], rfl⟩
    next hne =>
    obtain ⟨b, hb⟩ := h (off / BSIZE) (by
      have := Nat.mul_div_le off BSIZE
      omega)
    have hpos := @piece_pos off n hne
    have hle := piece_le off n
    obtain ⟨bs, hbs⟩ := ih (off + piece off n) (n - piece off n) (by omega) (by omega)
    rw [hb, bind_some]
    simp only [hbs, map_some]
    exact ⟨_, rfl⟩

theorem HoleFree.readi {ip : Dinode} (h : HoleFree disk ip) (off n : Nat) :
    ∃ bs, readi disk ip off n = some bs := by
  unfold Image.readi
  split
  · exact ⟨[], rfl⟩
  next hoff =>
  rw [not_or, not_lt] at hoff
  exact h.readiFrom _ _ _ (Nat.le_refl _) (by split <;> omega)

theorem Written.holeFree (h : Written disk files G) {i : Nat} (hi : i < inodeSlots) (hne : i ≠ ROOTINO) :
    HoleFree disk (dinode disk i) := by
  intro bn hbn
  have hrep := h.rep i hi
  have hsize := hrep.size
  rw [h.dinode_eq, h.size i hi hne] at hbn
  rw [h.dinode_eq]
  exact ⟨_, bmap_block hrep (h.owns i) (Nat.lt_of_mul_lt_mul_left (Nat.lt_of_lt_of_le hbn hsize))⟩

theorem Written.root_holeFree (h : Written disk files G) (hlen : files.length ≤ inodeSlots - 2)
    (hsize : (rinode disk ROOTINO).size = ((G ROOTINO).content.length / BSIZE + 1) * BSIZE)
    (htight : BSIZE * (G ROOTINO).blocks.length < (G ROOTINO).content.length + BSIZE) :
    HoleFree disk (dinode disk ROOTINO) ↔ (files.length + 2) % 64 ≠ 0 := by
  have hrep := h.rep ROOTINO (by decide)
  have hle := hrep.size
  have hlength := congrArg List.length (h.content ROOTINO)
  rw [laid_root_length] at hlength
  simp only [inodeSlots_eq, DIRENT, BSIZE] at *
  rw [h.dinode_eq]
  constructor
  · intro hfree hfull
    obtain ⟨b, hb⟩ := hfree (G ROOTINO).blocks.length (by simp only [BSIZE]; omega)
    have hdirect : (G ROOTINO).blocks.length < NDIRECT := by
      unfold NDIRECT
      omega
    rw [bmap, if_pos hdirect, hrep.direct _ hdirect, getD_eq_default _ _ (Nat.le_refl _)] at hb
    cases hb
  intro hrest bn hbn
  simp only [BSIZE] at hbn
  exact ⟨_, bmap_block hrep (h.owns ROOTINO) (by omega)⟩

/-- **Every file of an image is free of holes, and so is the root directory, unless its entries end
    at the end of a block.** Then `readi` finds an address for every block that it reads. -/
theorem mkfs_holeFree_iff (files : List Input) (hlen : files.length ≤ inodeSlots - 2)
    (hfits : ∀ f, f ∈ files → f.Fits) (hsmall : blocksFor files ≤ FSSIZE) :
    ∃ img, mkfs files = some img ∧
      ((∀ i, i < inodeSlots → HoleFree img.disk (dinode img.disk i)) ↔ (files.length + 2) % 64 ≠ 0) ∧
      (∀ i, i < inodeSlots → i ≠ ROOTINO → HoleFree img.disk (dinode img.disk i)) ∧
      ∀ i, HoleFree img.disk (dinode img.disk i) →
        ∀ off n, ∃ bs, readi img.disk (dinode img.disk i) off n = some bs := by
  obtain ⟨img, G, hmkfs, h, hsize, htight⟩ := mkfs_written hlen hfits hsmall
  have hroot := h.root_holeFree hlen hsize htight
  refine ⟨img, hmkfs, ⟨fun hall => hroot.1 (hall ROOTINO (by decide)), fun hrest i hi => ?_⟩,
    fun i hi hne => h.holeFree hi hne, fun i hfree => hfree.readi⟩
  by_cases hne : i = ROOTINO
  · rw [hne]
    exact hroot.2 hrest
  · exact h.holeFree hi hne

/-- As many files with the same name and content. -/
def copies (k : Nat) (p : List Byte) : List Input := List.replicate k ⟨[97], [p], by decide⟩

theorem copies_fits {p : List Byte} (hp : p.length ≤ 1024) (k : Nat) : ∀ f, f ∈ copies k p → f.Fits := by
  intro f hf
  rw [eq_of_mem_replicate hf]
  refine ⟨show slash ∉ stripMark (stripDir [97]) by decide, ?_⟩
  simp only [Input.content, flatten_cons, flatten_nil, append_nil]
  exact Nat.le_trans hp (by decide)

/-- More files than the superblock has inodes. -/
theorem mkfs_holeFree_iff_copies : ∃ img, mkfs (copies 200 [1, 2, 3]) = some img ∧
    (∀ i, i < inodeSlots → HoleFree img.disk (dinode img.disk i)) ∧
    ∃ bs, readi img.disk (dinode img.disk 201) 0 3 = some bs := by
  obtain ⟨img, hmkfs, hiff, -, hread⟩ := mkfs_holeFree_iff (copies 200 [1, 2, 3]) (by decide +kernel)
    (copies_fits (by decide) 200) (by decide +kernel)
  have hall := hiff.2 (by decide +kernel)
  exact ⟨img, hmkfs, hall, hread 201 (hall 201 (by decide)) 0 3⟩

/-- With the two entries of its own the root directory fills one block. -/
theorem full_root_has_hole :
    ∃ img, mkfs (copies 62 []) = some img ∧ ¬ HoleFree img.disk (dinode img.disk ROOTINO) := by
  obtain ⟨img, G, hmkfs, h, hsize, htight⟩ :=
    mkfs_written (show (copies 62 []).length ≤ inodeSlots - 2 by decide)
      (copies_fits (by decide) 62) (by decide +kernel)
  exact ⟨img, hmkfs, fun hfree => (h.root_holeFree (by decide) hsize htight).1 hfree (by decide)⟩

end Xv6.Image
