import Mathlib.Data.List.GetD
import Xv6.Image.Layout

set_option autoImplicit false

/-! # Appending to a file of the image

What `iappend` keeps: the content of a file is in its blocks, whose numbers are in the inode and in
its indirect block, and no block is used twice. -/

namespace Xv6.Image

open Files Function List Option Structures

/-- A file of the image: its content, its blocks in order, and its indirect block. -/
structure Ghost where
  content : List Byte := []
  blocks : List Nat := []
  table : Option Nat := none

/-- All blocks of the file. -/
def Ghost.used (g : Ghost) : List Nat := g.blocks ++ g.table.toList

/-- The inode and the blocks hold the file. -/
structure Rep (disk : Nat → Buf) (addrs : Nat → Nat) (g : Ghost) : Prop where
  size : g.content.length ≤ BSIZE * g.blocks.length
  max : g.blocks.length ≤ MAXFILE
  direct : ∀ j, j < NDIRECT → addrs j = g.blocks.getD j 0
  table : addrs NDIRECT = g.table.getD 0
  has : g.table = none ↔ g.blocks.length ≤ NDIRECT
  indirect : ∀ a, g.table = some a → ∀ k, k < NINDIRECT →
    getLE 4 (disk a) (4 * k) = g.blocks.getD (NDIRECT + k) 0
  data : ∀ o, o < g.content.length → disk (g.blocks.getD (o / BSIZE) 0) (o % BSIZE) =
    g.content.getD o 0

/-- The blocks are different, and none of them is free or in front of the data blocks. -/
structure Owns (g : Ghost) (freeblock : Nat) : Prop where
  nodup : g.used.Nodup
  range : ∀ b, b ∈ g.used → nmeta ≤ b ∧ b < freeblock

variable {img img' : Img} {disk disk' : Nat → Buf} {din : Dinode} {g : Ghost} {fbn x : Nat}
    {addrs : Nat → Nat}

theorem Ghost.mem_used {b : Nat} : b ∈ g.used ↔ b ∈ g.blocks ∨ g.table = some b := by
  rw [Ghost.used, mem_append, mem_toList]

theorem getD_mem_blocks {j : Nat} (hj : j < g.blocks.length) : g.blocks.getD j 0 ∈ g.blocks := by
  rw [getD_eq_getElem _ _ hj]
  exact getElem_mem hj

theorem Rep.congr (h : Rep disk addrs g) (hsame : ∀ b, b ∈ g.used → disk' b = disk b) :
    Rep disk' addrs g := by
  refine ⟨h.size, h.max, h.direct, h.table, h.has, fun a ha k hk => ?_, fun o ho => ?_⟩
  · rw [hsame a (Ghost.mem_used.2 (.inr ha))]
    exact h.indirect a ha k hk
  have hlt : o / BSIZE < g.blocks.length := by
    have hs := h.size
    simp only [BSIZE] at hs ⊢
    omega
  rw [hsame _ (Ghost.mem_used.2 (.inl (getD_mem_blocks hlt)))]
  exact h.data o ho

/-! ## One turn -/

/-- The file `g` is in the image, with no block more than it needs, and what is behind the blocks in
    use is empty. -/
structure Filed (img : Img) (addrs : Nat → Nat) (g : Ghost) : Prop where
  rep : Rep img.disk addrs g
  owns : Owns g img.freeblock
  base : nmeta ≤ img.freeblock
  zero : ∀ b, img.freeblock ≤ b → img.disk b = fun _ => 0
  tight : BSIZE * g.blocks.length < g.content.length + BSIZE

/-- The file takes blocks that were free, and other blocks are as before. -/
structure Grows (img : Img) (g : Ghost) (img' : Img) (g' : Ghost) : Prop where
  sub : ∀ b, b ∈ g.used → b ∈ g'.used
  fresh : ∀ b, b ∈ g'.used → b ∈ g.used ∨ img.freeblock ≤ b
  frame : ∀ b, b ∉ g'.used → img'.disk b = img.disk b
  mono : img.freeblock ≤ img'.freeblock
  count : img'.freeblock + g.used.length = img.freeblock + g'.used.length
  freeinode : img'.freeinode = img.freeinode

theorem Grows.refl (img : Img) (g : Ghost) : Grows img g img g :=
  ⟨fun _ hb => hb, fun _ hb => .inl hb, fun _ _ => rfl, Nat.le_refl _, rfl, rfl⟩

theorem Grows.trans {img₁ img₂ : Img} {g₁ g₂ : Ghost} (h₁ : Grows img g img₁ g₁)
    (h₂ : Grows img₁ g₁ img₂ g₂) :
    Grows img g img₂ g₂ := by
  refine ⟨fun b hb => h₂.sub b (h₁.sub b hb), fun b hb => ?_, fun b hb => ?_,
    Nat.le_trans h₁.mono h₂.mono, ?_,
    h₂.freeinode.trans h₁.freeinode⟩
  · rcases h₂.fresh b hb with hb | hb
    · exact h₁.fresh b hb
    · exact .inr (Nat.le_trans h₁.mono hb)
  · exact (h₂.frame b hb).trans (h₁.frame b fun hb' => hb (h₂.sub b hb'))
  · have hc₁ := h₁.count
    have hc₂ := h₂.count
    omega

/-- What `blockFor` does for the block `fbn`. -/
structure Takes (img : Img) (g : Ghost) (fbn : Nat) (img' : Img) (addrs' : Nat → Nat) (x : Nat)
    (g' : Ghost) : Prop
    extends Grows img g img' g' where
  rep : Rep img'.disk addrs' g'
  owns : Owns g' img'.freeblock
  content : g'.content = g.content
  block : g'.blocks[fbn]? = some x
  length : g'.blocks.length = max g.blocks.length (fbn + 1)
  zero : ∀ b, img'.freeblock ≤ b → img'.disk b = img.disk b

/-- `blockFor` finds or takes a block for the file and leaves its type. -/
def Gets (img : Img) (din : Dinode) (g : Ghost) (fbn : Nat) : Prop :=
  ∃ img' din' x g', blockFor img din fbn = (img', din', x) ∧ din'.type = din.type ∧
    Takes img g fbn img' din'.addrs x g'

theorem nmeta_pos : 0 < nmeta := by decide

theorem blockFor_old (hf : Filed img din.addrs g) (hlt : fbn < g.blocks.length) :
    ∃ x, blockFor img din fbn = (img, din, x) ∧ Takes img g fbn img din.addrs x g := by
  have hr := hf.rep
  have ho := hf.owns
  have hget : g.blocks[fbn]? = some (g.blocks.getD fbn 0) := by
    rw [getD_eq_getElem _ _ hlt]
    exact getElem?_eq_getElem hlt
  have hne : g.blocks.getD fbn 0 ≠ 0 := by
    have := (ho.range _ (Ghost.mem_used.2 (.inl (getD_mem_blocks hlt)))).1
    have := nmeta_pos
    omega
  refine ⟨g.blocks.getD fbn 0, ?_, .refl img g, hr, ho, rfl, hget, by omega, fun _ _ => rfl⟩
  unfold blockFor
  by_cases hd : fbn < NDIRECT
  · rw [if_pos hd, hr.direct fbn hd, if_neg hne]
  rw [if_neg hd]
  obtain ⟨a, ha⟩ : ∃ a, g.table = some a := by
    rw [← ne_none_iff_exists']
    intro hnone
    have := hr.has.1 hnone
    omega
  have hane : a ≠ 0 := by
    have := (ho.range a (Ghost.mem_used.2 (.inr ha))).1
    have := nmeta_pos
    omega
  have haddr : din.addrs NDIRECT = a := by rw [hr.table, ha]; rfl
  have hentry : getLE 4 (img.disk a) (4 * (fbn - NDIRECT)) = g.blocks.getD fbn 0 := by
    have hk : fbn - NDIRECT < NINDIRECT := by
      have := hr.max
      unfold MAXFILE at this
      omega
    rw [hr.indirect a ha _ hk]
    congr 1
    omega
  rw [haddr, if_neg hane]
  simp only [haddr, hentry, if_neg hne]

theorem getD_concat {α : Type} (l : List α) (x d : α) (j : Nat) :
    (l ++ [x]).getD j d = if j = l.length then x else l.getD j d := by
  rcases Nat.lt_trichotomy j l.length with h | h | h
  · rw [if_neg (by omega), getD_append _ _ _ _ h]
  · rw [if_pos h, h, getD_append_right _ _ _ _ (Nat.le_refl _), Nat.sub_self]
    rfl
  · rw [if_neg (by omega), getD_eq_default _ _ (by rw [length_append, length_singleton]; omega),
      getD_eq_default _ _ (by omega)]

theorem Owns.take {g' : Ghost} {free free' : Nat} (ho : Owns g free) (new : List Nat)
    (hp : g'.used.Perm (new ++ g.used))
    (hn : new.Nodup) (hnew : ∀ b, b ∈ new → free ≤ b ∧ b < free') (hle : free ≤ free')
    (hbase : nmeta ≤ free) :
    Owns g' free' := by
  refine ⟨hp.nodup_iff.2 (nodup_append.2 ⟨hn, ho.nodup, fun b hb b' hb' => ?_⟩), fun b hb => ?_⟩
  · have h₁ := hnew b hb
    have h₂ := ho.range b' hb'
    omega
  rcases mem_append.1 (hp.mem_iff.1 hb) with hb | hb
  · have := hnew b hb
    omega
  · have := ho.range b hb
    omega

variable {addrs' : Nat → Nat} {table : Option Nat} {p : List Byte} {fuel : Nat}

theorem Rep.grow (hr : Rep disk addrs g) (hlt : g.blocks.length < MAXFILE)
    (hdirect : ∀ j, j < NDIRECT → addrs' j = (g.blocks ++ [x]).getD j 0)
    (htable : addrs' NDIRECT = table.getD 0)
    (hhas : table = none ↔ g.blocks.length < NDIRECT)
    (hindirect : ∀ a, table = some a → ∀ k, k < NINDIRECT →
      getLE 4 (disk' a) (4 * k) = (g.blocks ++ [x]).getD (NDIRECT + k) 0)
    (hdata : ∀ b, b ∈ g.blocks → disk' b = disk b) :
    Rep disk' addrs' ⟨g.content, g.blocks ++ [x], table⟩ := by
  have hlen : (g.blocks ++ [x]).length = g.blocks.length + 1 := by
    rw [length_append, length_singleton]
  refine ⟨?_, ?_, hdirect, htable, ?_, hindirect, fun o ho => ?_⟩
  · have := hr.size
    simp only [hlen, BSIZE] at this ⊢
    omega
  · simp only [hlen]
    omega
  · simp only [hlen]
    exact hhas
  have hs := hr.size
  have hb : o / BSIZE < g.blocks.length := by
    simp only [BSIZE] at hs ⊢
    change o < g.content.length at ho
    omega
  simp only [getD_concat, if_neg (Nat.ne_of_lt hb)]
  rw [hdata _ (getD_mem_blocks hb)]
  exact hr.data o ho

theorem Takes.of_new (hf : Filed img addrs g)
    (hrep : Rep img'.disk addrs' ⟨g.content, g.blocks ++ [x], table⟩) (new : List Nat)
    (hp : (Ghost.used ⟨g.content, g.blocks ++ [x], table⟩).Perm (new ++ g.used)) (hn : new.Nodup)
    (hnew : ∀ b, b ∈ new → img.freeblock ≤ b ∧ b < img'.freeblock)
    (hcount : img'.freeblock = img.freeblock + new.length)
    (hframe : ∀ b, b ∉ Ghost.used ⟨g.content, g.blocks ++ [x], table⟩ → img'.disk b = img.disk b)
    (hzero : ∀ b, img'.freeblock ≤ b → img'.disk b = img.disk b)
    (hino : img'.freeinode = img.freeinode) :
    Takes img g g.blocks.length img' addrs' x ⟨g.content, g.blocks ++ [x], table⟩ where
  rep := hrep
  owns := hf.owns.take new hp hn hnew (by omega) hf.base
  content := rfl
  block := getElem?_concat_length
  length := by
    simp only [length_append, length_singleton]
    omega
  sub := fun b hb => hp.mem_iff.2 (mem_append_right _ hb)
  fresh := by
    intro b hb
    rcases mem_append.1 (hp.mem_iff.1 hb) with hb | hb
    · exact .inr (hnew b hb).1
    · exact .inl hb
  frame := hframe
  zero := hzero
  mono := by omega
  count := by
    rw [hp.length_eq, length_append]
    omega
  freeinode := hino

/-! ## A block more

There are three cases: a direct block, the first block behind them, and a block with an indirect
block that is there. -/

section

variable (hf : Filed img din.addrs g)

include hf

theorem blockFor_direct (hlt : g.blocks.length < MAXFILE) (hd : g.blocks.length < NDIRECT) :
    Gets img din g g.blocks.length := by
  have hr := hf.rep
  have hnone : g.table = none := hr.has.2 (by omega)
  have hfree : din.addrs g.blocks.length = 0 := by
    rw [hr.direct _ hd]
    exact getD_eq_default _ _ (Nat.le_refl _)
  refine ⟨{ img with freeblock := img.freeblock + 1 },
    { din with addrs := update din.addrs g.blocks.length img.freeblock }, img.freeblock,
    ⟨g.content, g.blocks ++ [img.freeblock], none⟩, ?_, rfl, .of_new hf ?_ [img.freeblock] ?_
      (nodup_singleton _) ?_ rfl (fun _ _ => rfl) (fun _ _ => rfl) rfl⟩
  · unfold blockFor
    rw [if_pos hd, if_pos hfree]
  · refine hr.grow hlt (fun j hj => ?_) ?_ (iff_of_true rfl hd) nofun fun _ _ => rfl
    · change update din.addrs g.blocks.length img.freeblock j = _
      rw [update_apply, getD_concat, hr.direct j hj]
    · change update din.addrs g.blocks.length img.freeblock NDIRECT = _
      rw [update_of_ne (by omega), hr.table, hnone]
  · simp only [Ghost.used, hnone, toList_none, append_nil]
    exact perm_append_comm
  · intro b hb
    rw [mem_singleton.1 hb]
    exact ⟨Nat.le_refl _, Nat.lt_succ_self _⟩

omit hf in
theorem getLE_entry {m : Nat} (hm : g.blocks.length = NDIRECT + m) {buf : Buf} {y : Nat}
    (hy : y < 256 ^ 4)
    (hbuf : ∀ k, k < NINDIRECT → getLE 4 buf (4 * k) = g.blocks.getD (NDIRECT + k) 0) {k : Nat}
    (hk : k < NINDIRECT) :
    getLE 4 (putLE 4 buf (4 * m) y) (4 * k) = (g.blocks ++ [y]).getD (NDIRECT + k) 0 := by
  rw [getD_concat]
  by_cases hkm : k = m
  · rw [if_pos (by omega), hkm, getLE_putLE, Nat.mod_eq_of_lt hy]
  · rw [if_neg (by omega), getLE_putLE_ne _ _ (by omega), hbuf k hk]

theorem blockFor_first (hlen : g.blocks.length = NDIRECT) (ht : g.table = none)
    (hsmall : img.freeblock + 1 < 256 ^ 4) : Gets img din g g.blocks.length := by
  have hr := hf.rep
  have hzero := hf.zero _ (Nat.le_refl _)
  have hd : ¬ g.blocks.length < NDIRECT := by omega
  have hnew : din.addrs NDIRECT = 0 := by rw [hr.table, ht]; rfl
  refine ⟨wsect { img with freeblock := img.freeblock + 2 } img.freeblock
      (putLE 4 (img.disk img.freeblock) 0 (img.freeblock + 1)),
    { din with addrs := update din.addrs NDIRECT img.freeblock }, img.freeblock + 1,
    ⟨g.content, g.blocks ++ [img.freeblock + 1], some img.freeblock⟩, ?_, rfl,
    .of_new hf ?_ [img.freeblock + 1, img.freeblock] ?_ ?_ ?_ rfl (fun b hb => ?_)
      (fun b hb => ?_) rfl⟩
  · unfold blockFor
    rw [if_neg hd, if_pos hnew]
    simp only [update_self, hlen, Nat.sub_self, hzero, Nat.mul_zero, getLE_zero, if_true]
  · refine hr.grow (by rw [hlen]; decide) (fun j hj => ?_) ?_
      (iff_of_false nofun hd) ?_ fun b hb => ?_
    · change update din.addrs NDIRECT img.freeblock j = _
      rw [update_of_ne (by omega), hr.direct j hj, getD_concat, if_neg (by omega)]
    · change update din.addrs NDIRECT img.freeblock NDIRECT = _
      rw [update_self]
      rfl
    · intro a ha k hk
      cases ha
      change getLE 4 (update img.disk _ _ _) (4 * k) = _
      rw [update_self]
      refine @getLE_entry g 0 hlen _ _ hsmall (fun k _ => ?_) k hk
      rw [hzero, getLE_zero]
      exact (getD_eq_default _ _ (by omega)).symm
    · have := (hf.owns.range b (Ghost.mem_used.2 (.inl hb))).2
      exact update_of_ne (by omega) ..
  · simp only [Ghost.used, ht, toList_none, toList_some, append_nil, append_assoc]
    exact perm_append_comm
  · refine nodup_cons.2 ⟨fun h => ?_, nodup_singleton _⟩
    have := mem_singleton.1 h
    omega
  · intro b hb
    change _ ∧ b < img.freeblock + 2
    rcases mem_cons.1 hb with rfl | hb
    · omega
    · rw [mem_singleton.1 hb]
      omega
  · exact update_of_ne (fun h => hb (Ghost.mem_used.2 (.inr (congrArg some h.symm)))) ..
  · change img.freeblock + 2 ≤ b at hb
    exact update_of_ne (by omega) ..

theorem blockFor_indirect (hlt : g.blocks.length < MAXFILE) {a : Nat} (ht : g.table = some a)
    (hsmall : img.freeblock + 1 < 256 ^ 4) : Gets img din g g.blocks.length := by
  have hr := hf.rep
  have ho := hf.owns
  have hd : ¬ g.blocks.length < NDIRECT := fun h =>
    nomatch ht.symm.trans (hr.has.2 (Nat.le_of_lt h))
  obtain ⟨m, hm⟩ : ∃ m, g.blocks.length = NDIRECT + m := ⟨g.blocks.length - NDIRECT, by omega⟩
  have hsub : g.blocks.length - NDIRECT = m := by omega
  have hk : m < NINDIRECT := by
    unfold MAXFILE at hlt
    omega
  have ha := ho.range a (Ghost.mem_used.2 (.inr ht))
  have hpos := nmeta_pos
  have haddr : din.addrs NDIRECT = a := by rw [hr.table, ht]; rfl
  have hentry : getLE 4 (img.disk a) (4 * m) = 0 := by
    rw [hr.indirect a ht m hk]
    exact getD_eq_default _ _ (by omega)
  have hapart : ∀ b, b ∈ g.blocks → b ≠ a := by
    have hnodup := ho.nodup
    rw [Ghost.used, ht, toList_some, nodup_append] at hnodup
    exact fun b hb => hnodup.2.2 b hb a (mem_singleton_self a)
  refine ⟨wsect { img with freeblock := img.freeblock + 1 } a
    (putLE 4 (img.disk a) (4 * m) img.freeblock), din,
    img.freeblock, ⟨g.content, g.blocks ++ [img.freeblock], some a⟩, ?_, rfl,
    .of_new hf ?_ [img.freeblock] ?_ (nodup_singleton _) ?_ rfl (fun b hb => ?_)
      (fun b hb => ?_) rfl⟩
  · unfold blockFor
    rw [if_neg hd, haddr, if_neg (by omega)]
    simp only [haddr, hsub, hentry, if_true]
  · refine hr.grow hlt (fun j hj => ?_) (by rw [haddr]; rfl)
      (iff_of_false nofun hd) ?_ fun b hb => ?_
    · rw [hr.direct j hj, getD_concat, if_neg (by omega)]
    · intro a' ha' k hk
      cases ha'
      change getLE 4 (update img.disk _ _ _) (4 * k) = _
      rw [update_self]
      exact getLE_entry hm (by omega) (fun k hk => hr.indirect a ht k hk) hk
    · exact update_of_ne (hapart b hb) ..
  · simp only [Ghost.used, ht, toList_some, append_assoc]
    exact perm_middle
  · intro b hb
    rw [mem_singleton.1 hb]
    exact ⟨Nat.le_refl _, Nat.lt_succ_self _⟩
  · exact update_of_ne (fun h => hb (Ghost.mem_used.2 (.inr (congrArg some h.symm)))) ..
  · change img.freeblock + 1 ≤ b at hb
    exact update_of_ne (by omega) ..

theorem blockFor_new (hlt : g.blocks.length < MAXFILE) (hsmall : img.freeblock + 1 < 256 ^ 4) :
    Gets img din g g.blocks.length := by
  by_cases hd : g.blocks.length < NDIRECT
  · exact blockFor_direct hf hlt hd
  cases ht : g.table with
  | none =>
    have := hf.rep.has.1 ht
    exact blockFor_first hf (by omega) ht hsmall
  | some a => exact blockFor_indirect hf hlt ht hsmall

end

theorem Rep.write (hr : Rep disk addrs g) (hnodup : g.used.Nodup) (hx : g.blocks[fbn]? = some x)
    (hfbn : fbn = g.content.length / BSIZE) (hp : g.content.length + p.length ≤ (fbn + 1) * BSIZE) :
    Rep (update disk x (bcopy (disk x) (g.content.length - fbn * BSIZE) p)) addrs
      ⟨g.content ++ p, g.blocks, g.table⟩ := by
  have hlt : fbn < g.blocks.length := (List.getElem?_eq_some_iff.1 hx).1
  have hxD : g.blocks.getD fbn 0 = x := by
    rw [getD_eq_getElem?_getD, hx]
    rfl
  rw [Ghost.used, nodup_append] at hnodup
  have hlen : (g.content ++ p).length = g.content.length + p.length := length_append
  refine ⟨?_, hr.max, hr.direct, hr.table, hr.has, fun a ha k hk => ?_, fun o ho => ?_⟩
  · simp only [hlen]
    simp only [BSIZE] at hp ⊢
    have : (fbn + 1) * 1024 ≤ 1024 * g.blocks.length := by omega
    omega
  · have hne : a ≠ x := by
      have hmem : x ∈ g.blocks := mem_of_getElem? hx
      exact fun h => hnodup.2.2 x hmem a (by rw [ha]; exact mem_singleton_self a) h.symm
    rw [update_of_ne hne]
    exact hr.indirect a ha k hk
  simp only [hlen] at ho
  have hob : o / BSIZE < g.blocks.length := by
    simp only [BSIZE] at hp hfbn ⊢
    omega
  by_cases hold : o < g.content.length
  · -- a byte that was there before
    simp only [getD_append _ _ _ _ hold]
    rw [← hr.data o hold]
    by_cases hbx : g.blocks.getD (o / BSIZE) 0 = x
    · have hidx : o / BSIZE = fbn := by
        rw [getD_eq_getElem _ _ hob] at hbx
        rw [getD_eq_getElem _ _ hlt] at hxD
        exact (hnodup.1.getElem_inj_iff).1 (hbx.trans hxD.symm)
      rw [hbx, update_self, bcopy, if_neg]
      simp only [BSIZE] at hidx hfbn ⊢
      omega
    · rw [update_of_ne hbx]
  -- a byte of the turn
  have hidx : o / BSIZE = fbn := by
    simp only [BSIZE] at hp hfbn ⊢
    omega
  have hoff : o % BSIZE = g.content.length - fbn * BSIZE + (o - g.content.length) := by
    simp only [BSIZE] at hidx hfbn hp ⊢
    omega
  simp only [getD_append_right _ _ _ _ (Nat.le_of_not_lt hold)]
  rw [hidx, hxD, update_self, bcopy, if_pos (by omega)]
  congr 1
  omega

/-! ## iappend -/

/-- What a turn, or several, do: the file has the bytes, and other blocks are as before. -/
structure Appends (img : Img) (g : Ghost) (p : List Byte) (img' : Img) (addrs' : Nat → Nat)
    (g' : Ghost) : Prop
    extends Filed img' addrs' g', Grows img g img' g' where
  content : g'.content = g.content ++ p

theorem blockFor_freeblock (img : Img) (din : Dinode) (fbn : Nat) :
    img.freeblock ≤ (blockFor img din fbn).1.freeblock ∧
      (blockFor img din fbn).1.freeblock ≤ img.freeblock + 2 := by
  unfold blockFor
  split
  · split
    · exact ⟨Nat.le_succ _, Nat.le_succ _⟩
    · exact ⟨Nat.le_refl _, Nat.le_add_right _ 2⟩
  by_cases h0 : din.addrs NDIRECT = 0
  · rw [if_pos h0]
    simp only
    split
    · exact ⟨Nat.le_add_right _ 2, Nat.le_refl _⟩
    · exact ⟨Nat.le_succ _, Nat.le_succ _⟩
  rw [if_neg h0]
  simp only
  split
  · exact ⟨Nat.le_succ _, Nat.le_succ _⟩
  · exact ⟨Nat.le_refl _, Nat.le_add_right _ 2⟩

theorem iappendFrom_freeblock {off : Nat} {r : Img × Dinode × Nat}
    (h : iappendFrom fuel img din off p = some r) :
    img.freeblock ≤ r.1.freeblock ∧ r.1.freeblock ≤ img.freeblock + 2 * p.length := by
  fun_induction iappendFrom fuel img din off p with
  | case1 =>
    cases h
    exact ⟨Nat.le_refl _, Nat.le_refl _⟩
  | case2 => cases h
  | case3 fuel img din off b p bp fbn hlt img₁ din₁ x hblock n1 ih =>
    have hrest := ih h
    have hturn := blockFor_freeblock img din fbn
    rw [hblock] at hturn
    simp only [wsect, length_drop, length_cons, n1, bp, fbn, BSIZE] at hrest hturn ⊢
    omega
  | case4 => cases h

theorem iappendFrom_some {fuel off : Nat} {p : List Byte} (hfuel : p.length ≤ fuel)
    (hmax : off + p.length ≤ MAXFILE * BSIZE) :
    ∃ img' din', iappendFrom fuel img din off p = some (img', din', off + p.length) := by
  induction fuel generalizing img din off p with
  | zero =>
    obtain rfl := length_eq_zero_iff.1 (Nat.le_zero.1 hfuel)
    exact ⟨img, din, rfl⟩
  | succ fuel ih =>
    cases p with
    | nil => exact ⟨img, din, rfl⟩
    | cons b p =>
      rw [length_cons] at hfuel hmax
      rw [iappendFrom]
      have hfbn : off / BSIZE < MAXFILE := by
        simp only [BSIZE, MAXFILE, NDIRECT, NINDIRECT] at hmax ⊢
        omega
      simp only [if_pos hfbn]
      obtain ⟨n1, hn1⟩ : ∃ n1, n1 = min (b :: p).length ((off / BSIZE + 1) * BSIZE - off) :=
        ⟨_, rfl⟩
      rw [← hn1]
      rw [length_cons] at hn1
      have hpos : 0 < n1 ∧ n1 ≤ p.length + 1 := by
        simp only [BSIZE] at hn1
        omega
      have hdrop : ((b :: p).drop n1).length = p.length + 1 - n1 := by rw [length_drop, length_cons]
      have hrest : ∀ img₁ din₁, ∃ img' din',
        iappendFrom fuel img₁ din₁ (off + n1) ((b :: p).drop n1) =
          some (img', din', off + n1 + ((b :: p).drop n1).length) := fun _ _ =>
            ih (by omega) (by omega)
      refine (hrest _ _).imp fun img' => Exists.imp fun din' h => h.trans ?_
      rw [hdrop, length_cons]
      congr 3
      omega

theorem turn (hf : Filed img din.addrs g) (hfbn : fbn = g.content.length / BSIZE)
    (hlt : fbn < MAXFILE) (hsmall : (blockFor img din fbn).1.freeblock + 1 < 256 ^ 4) (hp : p ≠ [])
    (hle : g.content.length + p.length ≤ (fbn + 1) * BSIZE) :
    (blockFor img din fbn).2.1.type = din.type ∧ ∃ g', Appends img g p
      (wsect (blockFor img din fbn).1 (blockFor img din fbn).2.2 (bcopy
        ((blockFor img din fbn).1.disk (blockFor img din fbn).2.2)
          (g.content.length - fbn * BSIZE) p))
      (blockFor img din fbn).2.1.addrs g' := by
  have htight := hf.tight
  have htakes : Gets img din g fbn := by
    by_cases hold : fbn < g.blocks.length
    · obtain ⟨x, hx, ht⟩ := blockFor_old hf hold
      exact ⟨img, din, x, g, hx, rfl, ht⟩
    have heq : fbn = g.blocks.length := by
      have := hf.rep.size
      simp only [BSIZE] at this htight hfbn
      omega
    subst heq
    have hmono := (blockFor_freeblock img din g.blocks.length).1
    exact blockFor_new hf hlt (by omega)
  obtain ⟨img', din', x, g', hx, htype, ht⟩ := htakes
  rw [hx]
  have hxmem : x ∈ g'.used := Ghost.mem_used.2 (.inl (mem_of_getElem? ht.block))
  have hc := ht.content
  refine ⟨htype, ⟨g'.content ++ p, g'.blocks, g'.table⟩,
    ⟨?_, ⟨ht.owns.nodup, ht.owns.range⟩, Nat.le_trans hf.base ht.mono, fun b hb => ?_, ?_⟩,
    ⟨ht.sub, ht.fresh, fun b hb => ?_, ht.mono, ht.count, ht.freeinode⟩, by rw [hc]⟩
  · have hwrite := ht.rep.write ht.owns.nodup ht.block (by rw [hc]; exact hfbn) (p := p)
      (by rw [hc]; exact hle)
    rw [hc] at hwrite ⊢
    exact hwrite
  · have hb' : img'.freeblock ≤ b := hb
    have hxlt := (ht.owns.range x hxmem).2
    have hmono := ht.mono
    have hne : b ≠ x := by omega
    exact (update_of_ne hne ..).trans ((ht.zero b hb').trans (hf.zero b (by omega)))
  · have hlen := ht.length
    have hppos : 0 < p.length := length_pos_of_ne_nil hp
    simp only [length_append, hc, hlen]
    simp only [BSIZE] at htight hfbn ⊢
    omega
  have hne : b ≠ x := by
    rintro rfl
    exact hb hxmem
  exact (update_of_ne hne ..).trans (ht.frame b hb)

theorem iappendFrom_appends {din' : Dinode} {off' : Nat}
    (h : iappendFrom fuel img din g.content.length p = some (img', din', off'))
    (hf : Filed img din.addrs g)
    (hsmall : img'.freeblock + 1 < 256 ^ 4) :
    din'.type = din.type ∧ ∃ g', Appends img g p img' din'.addrs g' := by
  generalize hoff : g.content.length = off at h
  fun_induction iappendFrom fuel img din off p generalizing g with
  | case1 =>
    cases h
    exact ⟨rfl, g, hf, .refl _ g, (append_nil _).symm⟩
  | case2 => cases h
  | case3 fuel img din off b p bp fbn hlt img₁ din₁ x hblock n1 =>
    rename_i ih
    subst hoff
    have hpos : 0 < n1 ∧ n1 ≤ bp.length ∧ g.content.length + n1 ≤ (fbn + 1) * BSIZE := by
      simp only [n1, bp, fbn, length_cons, BSIZE]
      omega
    have htake : (bp.take n1).length = n1 := by
      rw [length_take]
      omega
    have hne : bp.take n1 ≠ [] := by
      intro hnil
      rw [hnil, length_nil] at htake
      omega
    have hbound : img₁.freeblock + 1 < 256 ^ 4 := by
      have hrest := (iappendFrom_freeblock h).1
      exact Nat.lt_of_le_of_lt (Nat.succ_le_succ hrest) hsmall
    have hturn := turn hf (rfl : fbn = _) hlt (hblock ▸ hbound) hne (by omega)
    rw [hblock] at hturn
    obtain ⟨htype, g₁, h₁⟩ := hturn
    obtain ⟨htype', g₂, h₂⟩ := ih h₁.toFiled (by rw [h₁.content, length_append, htake]) h
    refine ⟨htype'.trans htype, g₂, h₂.toFiled, h₁.toGrows.trans h₂.toGrows, ?_⟩
    rw [h₂.content, h₁.content, append_assoc, take_append_drop]
  | case4 => cases h

end Xv6.Image
