import Xv6.Image.Mkfs

set_option autoImplicit false

/-! # What mkfs leaves in the image

The contents that the inodes of the image are to have, as a function of the arguments (`laid`), and
the number of blocks that they need. `build` comes to its end with these contents in the image, by
induction over the arguments: what is kept is that the image holds the arguments so far. -/

namespace Xv6.Image

open Files Function List Structures Xv6.Tree

/-- The entries of the root directory. -/
def rootEntries (files : List Input) : List Dirent :=
  newEntry dot ROOTINO :: newEntry dotdot ROOTINO :: files.mapIdx fun k f => newEntry f.name (k + 2)

/-- The content of each inode. -/
def laid (files : List Input) (i : Nat) : List Byte :=
  if i = ROOTINO then file (rootEntries files)
  else if 2 ≤ i then (files.map Input.content).getD (i - 2) []
  else []

/-- The type of each inode, with `n` files. -/
def kinds (n i : Nat) : Nat := if i = ROOTINO then T_DIR else if 2 ≤ i ∧ i < n + 2 then T_FILE else 0

variable {img img' : Img} {files done : List Input} {f : Input}

theorem rootEntries_concat (done : List Input) (f : Input) :
    rootEntries (done ++ [f]) = rootEntries done ++ [newEntry f.name (done.length + 2)] := by
  rw [rootEntries, mapIdx_append, mapIdx_singleton, Nat.zero_add]
  rfl

theorem rootEntries_length (files : List Input) : (rootEntries files).length = files.length + 2 := by
  rw [rootEntries, length_cons, length_cons, length_mapIdx]

theorem laid_root (files : List Input) : laid files ROOTINO = file (rootEntries files) := if_pos rfl

theorem laid_root_length (files : List Input) : (laid files ROOTINO).length = DIRENT * (files.length + 2) := by
  rw [laid_root, file_length, rootEntries_length]

theorem laid_file (files : List Input) (k : Nat) :
    laid files (k + 2) = (files.map Input.content).getD k [] := by
  rw [laid, if_neg (by unfold ROOTINO; omega), if_pos (by omega), Nat.add_sub_cancel]

theorem laid_concat (hlen : done.length + 2 < inodeSlots) : laid (done ++ [f]) = update
      (update (laid done) ROOTINO (laid done ROOTINO ++ linkBytes f.name (done.length + 2)))
      (done.length + 2) f.content := by
  have hroot : done.length + 2 ≠ ROOTINO := by
    unfold ROOTINO
    omega
  funext i
  rcases i with - | - | k
  · rw [update_of_ne (by omega), update_of_ne (by decide)]
    rfl
  · have hnum : done.length + 2 < 2 ^ 16 := Nat.lt_trans hlen (by decide)
    rw [show 0 + 1 = ROOTINO from rfl, update_of_ne hroot.symm, update_self, laid_root, laid_root,
      rootEntries_concat,
      ← newEntry_bytes f.name hnum]
    unfold file
    rw [flatMap_append, flatMap_singleton]
  have hne : k + 1 + 1 ≠ ROOTINO := by
    unfold ROOTINO
    omega
  have hget : laid (done ++ [f]) (k + 2) = if k = done.length then f.content else laid done (k + 2) := by
    rw [laid_file, laid_file, map_append, map_singleton, getD_concat, length_map]
  by_cases hk : k = done.length
  · subst hk
    rw [update_self]
    exact hget.trans (if_pos rfl)
  · rw [update_of_ne (by omega), update_of_ne hne]
    exact hget.trans (if_neg hk)

theorem kinds_succ (n : Nat) : kinds (n + 1) = update (kinds n) (n + 2) T_FILE := by
  funext i
  by_cases hi : i = n + 2
  · subst hi
    rw [update_self, kinds, if_neg (by unfold ROOTINO; omega), if_pos (by omega)]
  rw [update_of_ne hi, kinds, kinds]
  congr 2
  exact propext ⟨fun h => by omega, fun h => by omega⟩

/-! ## The arguments, one after the other -/

theorem slash_mem_stripMark (name : List Byte) : slash ∈ stripMark name ↔ slash ∈ name := by
  unfold stripMark
  split
  · next h =>
    cases name with
    | nil => cases h
    | cons b name =>
      cases h
      rw [tail_cons, mem_cons]
      exact ⟨.inr, fun h => h.resolve_left (by decide)⟩
  · exact Iff.rfl

/-- What a file has to be for `mkfs` to come to its end. -/
def Input.Fits (f : Input) : Prop := slash ∉ f.name ∧ f.content.length ≤ MAXFILE * BSIZE

theorem addInput_has (h : Has img (laid done) (kinds done.length)) (hfree : img.freeinode = done.length + 2)
    (hlen : done.length + 2 < inodeSlots) (hf : f.Fits) :
    ∃ img', addInput img f = some img' ∧ Has img' (laid (done ++ [f])) (kinds (done.length + 1)) ∧
      img'.freeinode = done.length + 3 := by
  have hroot : done.length + 2 ≠ ROOTINO := by
    unfold ROOTINO
    omega
  have hnew : laid done (done.length + 2) = [] := by
    rw [laid_file]
    exact getD_eq_default _ _ (by rw [length_map])
  obtain ⟨G, hcontent, hh⟩ := h
  have hialloc : Has (ialloc img T_FILE).1 (laid done) (kinds (done.length + 1)) := by
    refine ⟨G, hcontent, ?_⟩
    have := hh.ialloc (hfree ▸ hlen) (show T_FILE < 256 ^ 2 by decide)
    rwa [hfree, ← kinds_succ] at this
  have hnext : (ialloc img T_FILE).1.freeinode = done.length + 3 := congrArg (· + 1) hfree
  -- the root directory stays far below the largest size
  have hdir : (laid done ROOTINO).length + (linkBytes f.name (done.length + 2)).length ≤ MAXFILE * BSIZE := by
    rw [laid_root_length, ← newEntry_bytes _ (Nat.lt_trans hlen (by decide)), Dirent.bytes_length]
    simp only [inodeSlots_eq, DIRENT, MAXFILE, NDIRECT, NINDIRECT, BSIZE] at hlen ⊢
    omega
  obtain ⟨img₁, hcall₁, h₁, hfree₁⟩ := hialloc.iappend (by rw [hnext]; unfold ROOTINO; omega) (by decide) hdir
  rw [hnext] at hfree₁
  have hstill : update (laid done) ROOTINO (laid done ROOTINO ++ linkBytes f.name (done.length + 2))
      (done.length + 2) = [] := by rw [update_of_ne hroot, hnew]
  obtain ⟨img₂, hcall₂, h₂, hfree₂⟩ :=
    @Has.appendAll _ _ _ _ f.pieces h₁ (by rw [hfree₁]; exact Nat.lt_succ_self _) hlen
    (by rw [hstill, length_nil, Nat.zero_add]; exact hf.2)
  refine ⟨img₂, ?_, ?_, hfree₂.trans hfree₁⟩
  · have hslash : (47 : Byte) ∉ stripDir f.arg := fun hmem => hf.1 ((slash_mem_stripMark _).2 hmem)
    rw [addInput, if_neg hslash]
    change (iappend (ialloc img T_FILE).1 ROOTINO (linkBytes f.name img.freeinode)).bind _ = _
    rw [hfree, hcall₁]
    exact hcall₂
  rw [hstill, nil_append] at h₂
  rw [laid_concat hlen]
  exact h₂

theorem addInputs_has (h : Has img (laid done) (kinds done.length)) (hfree : img.freeinode = done.length + 2)
    (hlen : done.length + files.length + 2 ≤ inodeSlots) (hf : ∀ f, f ∈ files → f.Fits) :
    ∃ img', addInputs img files = some img' ∧
      Has img' (laid (done ++ files)) (kinds (done.length + files.length)) := by
  induction files generalizing img done with
  | nil =>
    rw [append_nil]
    exact ⟨img, rfl, h⟩
  | cons f files ih =>
    rw [length_cons] at hlen
    obtain ⟨img₁, hcall, h₁, hfree₁⟩ := addInput_has h hfree (by omega) (hf f mem_cons_self)
    have hdone : (done ++ [f]).length = done.length + 1 := by rw [length_append, length_singleton]
    rw [← hdone] at h₁
    obtain ⟨img', hrest, h'⟩ := ih h₁ (by rw [hdone]; exact hfree₁) (by rw [hdone]; omega)
      fun g hg => hf g (mem_cons_of_mem f hg)
    refine ⟨img', ?_, ?_⟩
    · rw [addInputs, hcall]
      exact hrest
    rw [append_assoc, hdone] at h'
    rw [length_cons, Nat.add_comm files.length, ← Nat.add_assoc]
    exact h'

theorem laid_nil : laid [] = update (fun _ => []) ROOTINO
    (linkBytes dot ROOTINO ++ linkBytes dotdot ROOTINO) := by
  funext i
  by_cases hi : i = ROOTINO
  · subst hi
    rw [update_self]
    rfl
  rw [update_of_ne hi, laid, if_neg hi]
  split
  · rfl
  · rfl

theorem kinds_zero : kinds 0 = update (fun _ => 0) ROOTINO T_DIR := by
  funext i
  by_cases hi : i = ROOTINO
  · subst hi
    rw [update_self]
    rfl
  · rw [update_of_ne hi, kinds, if_neg hi, if_neg (by omega)]

theorem withRoot_has : ∃ img, withRoot = some img ∧ Has img (laid []) (kinds 0) ∧ img.freeinode = 2 := by
  have hroot : Has (ialloc blank T_DIR).1 (fun _ => []) (kinds 0) := by
    refine ⟨fun _ => {}, fun _ => rfl, ?_⟩
    rw [kinds_zero]
    exact blank_holds.ialloc (by decide) (by decide)
  obtain ⟨img₁, hcall₁, h₁, hfree₁⟩ :=
    @Has.iappend _ _ ROOTINO _ hroot (by decide) (by decide) (linkBytes dot ROOTINO)
    (by decide)
  have hfree : img₁.freeinode = 2 := hfree₁
  obtain ⟨img₂, hcall₂, h₂, hfree₂⟩ := @Has.iappend _ _ ROOTINO _ h₁ (by rw [hfree]; decide) (by decide)
    (linkBytes dotdot ROOTINO) (by rw [update_self]; decide)
  refine ⟨img₂, ?_, ?_, hfree₂.trans hfree⟩
  · have hino : (ialloc blank T_DIR).2 = ROOTINO := rfl
    rw [withRoot]
    simp only [hino, if_true]
    rw [hcall₁]
    exact hcall₂
  rw [update_idem, update_self] at h₂
  rw [laid_nil]
  exact h₂

theorem build_has (hlen : files.length + 2 ≤ inodeSlots) (hf : ∀ f, f ∈ files → f.Fits) :
    ∃ img, build files = some img ∧ Has img (laid files) (kinds files.length) := by
  obtain ⟨img₁, hcall, h, hfree⟩ := withRoot_has
  obtain ⟨img, hrest, h'⟩ := @addInputs_has img₁ files [] h hfree (by rw [length_nil]; omega) hf
  refine ⟨img, ?_, ?_⟩
  · rw [build, hcall]
    exact hrest
  · rw [nil_append, length_nil, Nat.zero_add] at h'
    exact h'

/-! ## The number of blocks -/

/-- The blocks of a file of `n` bytes, with its indirect block if it has one. -/
def need (n : Nat) : Nat :=
  let blocks := (n + (BSIZE - 1)) / BSIZE
  if blocks ≤ NDIRECT then blocks else blocks + 1

def blocksFor (files : List Input) : Nat :=
  nmeta + (need (DIRENT * (files.length + 2)) + (files.map fun f => need f.content.length).sum)

theorem Rep.used_need {disk : Nat → Buf} {addrs : Nat → Nat} {g : Ghost} (h : Rep disk addrs g)
    (htight : BSIZE * g.blocks.length < g.content.length + BSIZE) : g.used.length = need g.content.length := by
  have hblocks : (g.content.length + (BSIZE - 1)) / BSIZE = g.blocks.length := by
    have := h.size
    simp only [BSIZE] at this htight ⊢
    omega
  rw [need, hblocks, Ghost.used, length_append]
  by_cases hd : g.blocks.length ≤ NDIRECT
  · rw [if_pos hd, h.has.2 hd]
    rfl
  obtain ⟨a, ha⟩ := Option.ne_none_iff_exists'.1 fun hnone => hd (h.has.1 hnone)
  rw [if_neg hd, ha]
  rfl

theorem sum_getD {α : Type} (F : α → Nat) {d : α} (hd : F d = 0) (l : List α) {m : Nat} (hm : l.length ≤ m) :
    ∑ k ∈ Finset.range m, F (l.getD k d) = (l.map F).sum := by
  induction l generalizing m with
  | nil => exact Finset.sum_eq_zero fun _ _ => hd
  | cons a l ih =>
    cases m with
    | zero => exact absurd hm (Nat.not_succ_le_zero _)
    | succ m =>
      have hrest := ih (Nat.le_of_succ_le_succ hm)
      rw [Finset.sum_range_succ', map_cons, sum_cons, ← hrest, Nat.add_comm]
      rfl

theorem Has.freeblock {types : Nat → Nat} (h : Has img (laid files) types)
    (hlen : files.length + 2 ≤ inodeSlots) :
    img.freeblock = blocksFor files := by
  obtain ⟨G, hcontent, hh⟩ := h
  have hused : ∑ i ∈ Finset.range inodeSlots, (G i).used.length = ∑ i ∈ Finset.range (206 + 1 + 1),
    need (laid files i).length := by
    refine Finset.sum_congr rfl fun i hi => ?_
    rw [(hh.rep i (Finset.mem_range.1 hi)).used_need (hh.tight i), hcontent]
  have hfiles : ∑ k ∈ Finset.range 206, need (laid files (k + 1 + 1)).length =
      (files.map fun f => need f.content.length).sum := by
    have hsum := sum_getD (fun c : List Byte => need c.length) (d := []) rfl (files.map Input.content)
      (m := 206) (by rw [length_map]; rw [inodeSlots_eq] at hlen; omega)
    rw [map_map] at hsum
    refine Eq.trans (Finset.sum_congr rfl fun k _ => ?_) hsum
    rw [laid_file]
  have hroot : need (laid files (0 + 1)).length = need (DIRENT * (files.length + 2)) :=
    congrArg need (laid_root_length files)
  have hzero : need (laid files 0).length = 0 := by
    rw [laid, if_neg (by decide), if_neg (by decide)]
    rfl
  rw [hh.count, hused, Finset.sum_range_succ', Finset.sum_range_succ', hfiles, hroot, hzero, blocksFor]
  omega

end Xv6.Image
