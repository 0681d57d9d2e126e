import Xv6.Memory.Built

set_option autoImplicit false

/-! # User memory (the second half of `vm.c`)

The functions that give a process memory and take it back. `Space` describes the page table of a
process between two of them: its first `k` pages are mapped to memory of the process and, above
them, there are only the mappings in `fixed`. The pages of the table, those of the process and the
free ones are all different, and what one function takes from one of the three groups it puts into
another (`Moves`). -/

namespace Xv6.Vm

open Function List Structures

/-- Take away the pages of user memory from `newsz` up to `oldsz`. -/
def uvmdealloc (kend : Addr) (σ : Mem) (pagetable oldsz newsz : Addr) : Except String (Mem × Addr) :=
  if oldsz ≤ newsz then .ok (σ, oldsz)
  else if pgRoundUp newsz < pgRoundUp oldsz then do
    -- npages is an int
    let npages : BitVec 32 := ((pgRoundUp oldsz - pgRoundUp newsz) / PGSIZE).truncate 32
    let σ ← uvmunmap kend σ pagetable (pgRoundUp newsz) (npages.signExtend 64) true
    .ok (σ, newsz)
  else .ok (σ, newsz)

/-- The permissions of user memory. -/
def userPerm : BitVec 64 := PTE_W ||| PTE_X ||| PTE_R ||| PTE_U

/-- The loop of `uvmalloc`. Each turn takes a page from the free list, so it has at most as many
    turns as there are free pages, and one more in which there is none. -/
def uvmallocFrom (kend pagetable oldsz newsz : Addr) : Nat → Mem → Addr → Except String (Mem × Addr)
  | 0, σ, a =>
    if a < newsz then do
      let (σ, _) ← uvmdealloc kend σ pagetable a oldsz
      .ok (σ, 0)
    else .ok (σ, newsz)
  | n + 1, σ, a =>
    if a < newsz then
      match kalloc σ with
      | (σ, none) => do
          let (σ, _) ← uvmdealloc kend σ pagetable a oldsz
          .ok (σ, 0)
      | (σ, some mem) => do
          let (σ, r) ← mappages (σ.memset mem 0) pagetable a PGSIZE mem userPerm
          if r ≠ 0 then do
            let σ ← kfree kend σ mem
            let (σ, _) ← uvmdealloc kend σ pagetable a oldsz
            .ok (σ, 0)
          else uvmallocFrom kend pagetable oldsz newsz n σ (a + PGSIZE)
    else .ok (σ, newsz)

/-- Give a process memory from `oldsz` up to `newsz`; 0 if there is not enough. -/
def uvmalloc (kend : Addr) (σ : Mem) (pagetable oldsz newsz : Addr) : Except String (Mem × Addr) :=
  if newsz < oldsz then .ok (σ, oldsz)
  else uvmallocFrom kend pagetable (pgRoundUp oldsz) newsz σ.freelist.length σ (pgRoundUp oldsz)

/-! ## The memory of a process -/

/-- A page that the allocator manages. -/
structure Ram (kend a : Addr) : Prop where
  aligned : Aligned a
  above : kend ≤ a
  below : a < PHYSTOP

/-- The flags of a mapping, as opposed to those of a pointer to another page of the table. -/
def Leaf (flags : BitVec 64) : Prop := flags &&& (PTE_R ||| PTE_W ||| PTE_X) ≠ 0

/-- The pages of a process: those of its table and those of its memory. -/
def pagesOf (σ : Mem) (root : Addr) (nodes : List Addr) (k : Nat) : List Addr :=
  nodes ++ frames (pageMap σ root) 0 k

/-- A page table with `k` pages of user memory and the mappings `fixed` above them. -/
structure Space (kend : Addr) (σ : Mem) (root : Addr) (nodes : List Addr) (k : Nat)
    (fixed : Nat → Option Frame) : Prop where
  sep : Separated child σ.page root 2
  holds : ∀ a, σ.Holds root a ↔ a ∈ nodes
  nodup : (σ.freelist ++ pagesOf σ root nodes k).Nodup
  ram : ∀ a, a ∈ σ.freelist ++ pagesOf σ root nodes k → Ram kend a
  user : ∀ n, n < k → ∃ fr, pageMap σ root n = some fr ∧ Leaf fr.2
  rest : ∀ n, k ≤ n → pageMap σ root n = fixed n

/-- From `σ` to `σ'` the process has exchanged pages with the allocator only, and the mappings that
    it has before and after are the same. -/
structure Moves (kend : Addr) (σ σ' : Mem) (root : Addr) (nodes nodes' : List Addr) (k k' : Nat)
    (fixed : Nat → Option Frame) : Prop where
  space : Space kend σ' root nodes' k' fixed
  perm : (σ.freelist ++ pagesOf σ root nodes k).Perm (σ'.freelist ++ pagesOf σ' root nodes' k')
  others : ∀ a, a ∉ σ.freelist ++ pagesOf σ root nodes k → σ'.page a = σ.page a
  keeps : ∀ n, n < k → n < k' → pageMap σ' root n = pageMap σ root n

variable {kend root : Addr} {σ σ' σ'' : Mem} {nodes nodes' nodes'' : List Addr} {k k' k'' : Nat}
  {fixed : Nat → Option Frame}

theorem Space.table (hs : Space kend σ root nodes k fixed) : Table σ root where
  sep := hs.sep
  free := by
    intro a ha hn
    refine disjoint_of_nodup_append hs.nodup ha ?_
    exact mem_append_left _ ((hs.holds a).1 hn)
  nodup := hs.nodup.of_append_left
  aligned := fun a ha => (hs.ram a (mem_append_left _ ha)).aligned

theorem Moves.refl (hs : Space kend σ root nodes k fixed) : Moves kend σ σ root nodes nodes k k fixed :=
  ⟨hs, .refl _, fun _ _ => rfl, fun _ _ _ => rfl⟩

theorem Moves.trans (hk : k'' ≤ k' ∨ k ≤ k') (h : Moves kend σ σ' root nodes nodes' k k' fixed)
    (h' : Moves kend σ' σ'' root nodes' nodes'' k' k'' fixed) :
    Moves kend σ σ'' root nodes nodes'' k k'' fixed where
  space := h'.space
  perm := h.perm.trans h'.perm
  others := by
    intro a ha
    have ha' : a ∉ σ'.freelist ++ pagesOf σ' root nodes' k' := fun hin => ha (h.perm.mem_iff.2 hin)
    rw [h'.others a ha', h.others a ha]
  keeps := by
    intro n hn hn'
    have hmid : n < k' := by omega
    rw [h'.keeps n hmid hn', h.keeps n hn hmid]

/-- Besides, the contents of the pages that it has before and after are the same, and the upper
    pages of its table stay in order. -/
structure Changes (kend : Addr) (σ σ' : Mem) (root : Addr) (nodes nodes' : List Addr) (k k' : Nat)
    (fixed : Nat → Option Frame) : Prop extends Moves kend σ σ' root nodes nodes' k k' fixed where
  contents : ∀ n fr, n < k → n < k' → pageMap σ root n = some fr → σ'.page fr.1 = σ.page fr.1
  upper : Upper σ root → Upper σ' root

theorem Changes.refl (hs : Space kend σ root nodes k fixed) : Changes kend σ σ root nodes nodes k k fixed :=
  ⟨.refl hs, fun _ _ _ _ _ => rfl, id⟩

theorem Changes.trans (hk : k'' ≤ k' ∨ k ≤ k') (h : Changes kend σ σ' root nodes nodes' k k' fixed)
    (h' : Changes kend σ' σ'' root nodes' nodes'' k' k'' fixed) :
    Changes kend σ σ'' root nodes nodes'' k k'' fixed where
  toMoves := h.toMoves.trans hk h'.toMoves
  contents := by
    intro n fr hn hn' hmap
    have hmid : n < k' := by omega
    rw [h'.contents n fr hmid hn' ((h.keeps n hn hmid).trans hmap), h.contents n fr hn hmid hmap]
  upper := fun hu => h'.upper (h.upper hu)

theorem Changes.same_map (hs : Space kend σ root nodes k fixed)
    (h : Changes kend σ σ' root nodes nodes' k k fixed) : pageMap σ' root = pageMap σ root := by
  funext n
  by_cases hn : n < k
  · exact h.keeps n hn hn
  · rw [h.space.rest n (Nat.not_lt.1 hn), hs.rest n (Nat.not_lt.1 hn)]

variable {f : Nat → Option Frame} {first n k₀ : Nat} {fr : Frame} {a newsz oldsz : Addr}
  {others : List Addr}

theorem frames_succ (h : f (first + k) = some fr) : frames f first (k + 1) = frames f first k ++ [fr.1] := by
  rw [frames, range'_1_concat, filterMap_append, filterMap_cons, h]
  rfl

theorem mem_frames (hge : first ≤ n)
    (hlt : n < first + k) (h : f n = some fr) : fr.1 ∈ frames f first k := by
  refine mem_filterMap.2 ⟨n, mem_range'_1.2 ⟨hge, hlt⟩, ?_⟩
  rw [h]
  rfl

theorem Space.user_page (hs : Space kend σ root nodes k fixed) (hn : n < k)
    (h : pageMap σ root n = some fr) : fr.1 ∉ σ.freelist ∧ fr.1 ∉ nodes := by
  have hin : fr.1 ∈ frames (pageMap σ root) 0 k := mem_frames (Nat.zero_le n) (by omega) h
  constructor
  · intro hfree
    exact disjoint_of_nodup_append hs.nodup hfree (mem_append_right _ hin)
  · intro hnode
    exact disjoint_of_nodup_append hs.nodup.of_append_right hnode hin

theorem frames_append (f : Nat → Option Frame) (first m : Nat) :
    frames f first (k + m) = frames f first k ++ frames f (first + k) m := by
  rw [frames, frames, frames, ← filterMap_append, range'_append_1]

theorem frames_length
    (h : ∀ n, first ≤ n → n < first + k → ∃ fr, f n = some fr) : (frames f first k).length = k := by
  induction k with
  | zero => rfl
  | succ k ih =>
    obtain ⟨fr, hfr⟩ := h (first + k) (by omega) (by omega)
    rw [frames_succ hfr, length_append, ih fun n hge hlt => h n hge (by omega)]
    rfl

theorem Space.moves (hs : Space kend σ root nodes k fixed) (hsep : Separated child σ'.page root 2)
    (hholds : ∀ a, σ'.Holds root a ↔ a ∈ nodes')
    (hperm : (σ.freelist ++ pagesOf σ root nodes k).Perm (σ'.freelist ++ pagesOf σ' root nodes' k'))
    (huser : ∀ n, n < k' → ∃ fr, pageMap σ' root n = some fr ∧ Leaf fr.2)
    (hrest : ∀ n, k' ≤ n → pageMap σ' root n = fixed n)
    (hothers : ∀ a, a ∉ σ.freelist ++ pagesOf σ root nodes k → σ'.page a = σ.page a)
    (hkeeps : ∀ n, n < k → n < k' → pageMap σ' root n = pageMap σ root n) :
    Moves kend σ σ' root nodes nodes' k k' fixed where
  space :=
    { sep := hsep
      holds := hholds
      nodup := hperm.nodup hs.nodup
      ram := fun a ha => hs.ram a (hperm.mem_iff.2 ha)
      user := huser
      rest := hrest }
  perm := hperm
  others := hothers
  keeps := hkeeps

theorem kfree_returns (σ : Mem) (h : Ram kend a) : ∃ σ', kfree kend σ a = .ok σ' := by
  rw [kfree, if_neg]
  · exact ⟨_, rfl⟩
  rintro (hne | hlt | hle)
  · exact hne ((umod_PGSIZE a).2 h.aligned)
  · exact absurd h.above (BitVec.not_le.2 hlt)
  · exact absurd h.below (BitVec.not_lt.2 hle)

theorem uvmcreate_space (hnodup : σ.freelist.Nodup) (hram : ∀ a, a ∈ σ.freelist → Ram kend a)
    (h : uvmcreate σ = (σ', some root)) :
    Space kend σ' root [root] 0 (fun _ => none) ∧ σ.freelist = root :: σ'.freelist := by
  obtain ⟨htable, hfree, hholds, hmap⟩ := uvmcreate_ok hnodup (fun a ha => (hram a ha).aligned) h
  have hperm : σ.freelist.Perm (σ'.freelist ++ [root]) := by
    rw [hfree]
    exact (perm_append_singleton _ _).symm
  refine ⟨⟨htable.sep, ?_, hperm.nodup hnodup, ?_, ?_, ?_⟩, hfree⟩
  · intro a
    rw [mem_singleton]
    exact hholds a
  · intro a ha
    exact hram a (hperm.mem_iff.2 ha)
  · intro n hn
    exact absurd hn (Nat.not_lt_zero n)
  · intro n _
    rw [hmap]

theorem fourPages_space : Space 0x80022000 (uvmcreate fourPages).1 0x87fff000 [0x87fff000] 0
    (fun _ => none) := by
  have hnodup : fourPages.freelist.Nodup := by decide
  have hram : ∀ a, a ∈ fourPages.freelist → Ram 0x80022000 a := by
    intro a ha
    refine ⟨?_, ?_, ?_⟩ <;> revert a <;> simp [fourPages, PHYSTOP, Aligned]
  exact (uvmcreate_space hnodup hram
    (show uvmcreate fourPages = ((uvmcreate fourPages).1, some 0x87fff000) from rfl)).1

theorem Space.frame (hs : Space kend σ root nodes k fixed) (hsame : ∀ a, a ∈ nodes → σ'.page a = σ.page a)
    (hnodup : (σ'.freelist ++ pagesOf σ root nodes k).Nodup)
    (hram : ∀ a, a ∈ σ'.freelist → Ram kend a) :
    Space kend σ' root nodes k fixed ∧ pageMap σ' root = pageMap σ root := by
  have hpages : ∀ a, σ.Holds root a → σ'.page a = σ.page a := fun a ha => hsame a ((hs.holds a).1 ha)
  have hmap := pageMap_frame hpages
  refine ⟨⟨hs.sep.congr fun _ hq => follow_frame hpages hq, ?_, ?_, ?_, ?_, ?_⟩, hmap⟩
  · intro a
    rw [holds_frame hpages, hs.holds]
  · rwa [pagesOf, hmap]
  · intro a ha
    rw [pagesOf, hmap] at ha
    rcases mem_append.1 ha with ha | ha
    · exact hram a ha
    · exact hs.ram a (mem_append_right _ ha)
  · rw [hmap]
    exact hs.user
  · rw [hmap]
    exact hs.rest

/-- A process among others, which have the pages `others`. -/
structure Owned (kend : Addr) (σ : Mem) (root : Addr) (nodes : List Addr) (k : Nat)
    (fixed : Nat → Option Frame) (others : List Addr) : Prop where
  space : Space kend σ root nodes k fixed
  nodup : (σ.freelist ++ pagesOf σ root nodes k ++ others).Nodup
  ram : ∀ a, a ∈ others → Ram kend a

section

variable (ho : Owned kend σ root nodes k fixed others)
include ho

theorem Owned.moves
    (h : Moves kend σ σ' root nodes nodes' k k' fixed) : Owned kend σ' root nodes' k' fixed others where
  space := h.space
  nodup := (h.perm.append_right others).nodup ho.nodup
  ram := ho.ram

theorem Owned.others_same
    (h : Moves kend σ σ' root nodes nodes' k k' fixed) (a : Addr) (ha : a ∈ others) :
    σ'.page a = σ.page a :=
  h.others a fun hin => disjoint_of_nodup_append ho.nodup hin ha

theorem Owned.take {rest : List Addr} {mem : Addr}
    (hf : σ.freelist = mem :: rest) (hfree : σ'.freelist = rest)
    (hpages : ∀ a, a ≠ mem → σ'.page a = σ.page a) :
    Owned kend σ' root nodes k fixed (mem :: others) ∧ pageMap σ' root = pageMap σ root := by
  have hnodup := ho.space.nodup
  rw [hf] at hnodup
  have hmem : mem ∈ σ.freelist := by rw [hf]; exact mem_cons_self
  obtain ⟨hspace, hmap⟩ : Space kend σ' root nodes k fixed ∧ pageMap σ' root = pageMap σ root := ho.space.frame
    (fun a ha => hpages a fun heq => (nodup_cons.1 hnodup).1
      (heq ▸ mem_append_right _ (mem_append_left _ ha)))
    (by rw [hfree]; exact (nodup_cons.1 hnodup).2)
    (fun a ha => ho.space.ram a (mem_append_left _ (by
      rw [hf, ← hfree]
      exact mem_cons_of_mem _ ha)))
  refine ⟨⟨hspace, ?_, ?_⟩, hmap⟩
  · refine List.Perm.nodup ?_ ho.nodup
    rw [pagesOf, pagesOf, hmap, hf, hfree]
    refine perm_iff_count.2 fun a => ?_
    simp only [count_append, count_cons]
    omega
  intro a ha
  rcases mem_cons.1 ha with rfl | ha
  · exact ho.space.ram a (mem_append_left _ hmem)
  · exact ho.ram a ha

theorem Owned.give (ha : a ∈ others) (h : kfree kend σ a = .ok σ') :
    Owned kend σ' root nodes k fixed (others.erase a) ∧ pageMap σ' root = pageMap σ root := by
  have hfree : σ'.freelist = a :: σ.freelist := by rw [kfree_eq h]
  have hperm : (σ.freelist ++ pagesOf σ root nodes k ++ others).Perm
      (a :: σ.freelist ++ pagesOf σ root nodes k ++ others.erase a) := by
    refine perm_iff_count.2 fun b => ?_
    have hpos : 0 < others.count a := count_pos_iff.2 ha
    simp only [count_append, count_cons, count_erase]
    split
    · next hb =>
      have : b = a := (beq_iff_eq.1 hb).symm
      subst this
      omega
    · omega
  have hnodup := hperm.nodup ho.nodup
  obtain ⟨hspace, hmap⟩ : Space kend σ' root nodes k fixed ∧ pageMap σ' root = pageMap σ root := ho.space.frame
    (fun b hb => kfree_page_ne h fun heq => disjoint_of_nodup_append ho.nodup
      (heq ▸ mem_append_right _ (mem_append_left _ hb)) ha)
    (by rw [hfree]; exact hnodup.of_append_left)
    (fun b hb => by
      rw [hfree] at hb
      rcases mem_cons.1 hb with rfl | hb
      · exact ho.ram b ha
      · exact ho.space.ram b (mem_append_left _ hb))
  refine ⟨⟨hspace, ?_, ?_⟩, hmap⟩
  · rw [pagesOf, hmap, hfree]
    exact hnodup
  · intro b hb
    exact ho.ram b (mem_of_mem_erase hb)

end

/-! ## One more page -/

section GrowPage

variable {mem : Addr} {rest : List Addr} {perm : BitVec 64} {σ₁ : Mem}

theorem Space.take (hs : Space kend σ root nodes k fixed) (hf : σ.freelist = mem :: rest)
    (hfree : σ₁.freelist = rest) (hpages : ∀ a, a ≠ mem → σ₁.page a = σ.page a) :
    Table σ₁ root ∧ (∀ a, σ₁.Holds root a ↔ a ∈ nodes) ∧ pageMap σ₁ root = pageMap σ root := by
  have ht := hs.table
  have hmem : ¬ σ.Holds root mem := ht.free mem (by rw [hf]; exact mem_cons_self)
  have hsame : ∀ a, σ.Holds root a → σ₁.page a = σ.page a := fun a ha =>
    hpages a fun heq => hmem (heq ▸ ha)
  have hnd := ht.nodup
  rw [hf] at hnd
  refine ⟨ht.frame hsame ?_ ?_ ?_, ?_, pageMap_frame hsame⟩
  · intro a ha
    rw [hfree] at ha
    exact ht.free a (by rw [hf]; exact mem_cons_of_mem _ ha)
  · rw [hfree]
    exact (nodup_cons.1 hnd).2
  · intro a ha
    rw [hfree] at ha
    exact ht.aligned a (by rw [hf]; exact mem_cons_of_mem _ ha)
  · intro a
    rw [holds_frame hsame, hs.holds]

theorem pageAddr_range (hk : k < 2 ^ 26) :
    (pageAddr k + PGSIZE - 1).toNat = k * 4096 + 4095 ∧ mapCount (pageAddr k) PGSIZE = 1 := by
  have haddr := toNat_pageAddr hk
  have hlast : (pageAddr k + PGSIZE - 1).toNat = k * 4096 + 4095 := by
    unfold PGSIZE
    bv_omega
  refine ⟨hlast, ?_⟩
  rw [mapCount, hlast, haddr]
  omega

/-- Mapping a page behind the last one: the table may get new pages, and the page is mapped or,
    where there is no memory for the table, is given back. -/
theorem Space.map_next (hs : Space kend σ root nodes k fixed) (hk : k < 2 ^ 26) (hfix : fixed k = none)
    (hf : σ.freelist = mem :: rest) (hfree : σ₁.freelist = rest)
    (hpages : ∀ a, a ≠ mem → σ₁.page a = σ.page a) (hperm : perm.toNat < 1024)
    (hleaf : Leaf (perm ||| PTE_V)) :
    ∃ σ₂ r, mappages σ₁ root (pageAddr k) PGSIZE mem perm = .ok (σ₂, r) ∧
      ((r = 0 ∧ σ₂.freelist.length < σ.freelist.length ∧
          pageMap σ₂ root k = some (mem, perm ||| PTE_V) ∧ σ₂.page mem = σ₁.page mem ∧
          ∃ nodes', Changes kend σ σ₂ root nodes nodes' k (k + 1) fixed) ∨
        (r ≠ 0 ∧ ∃ σ₃ nodes', kfree kend σ₂ mem = .ok σ₃ ∧
          Changes kend σ σ₃ root nodes nodes' k k fixed)) := by
  obtain ⟨ht₁, hholds₁, hmap₁⟩ := hs.take hf hfree hpages
  obtain ⟨hlast, hcount⟩ := pageAddr_range hk
  have haddr := toNat_pageAddr hk
  have hpage : (pageAddr k).toNat / 4096 = k := by omega
  have hin : mem ∈ σ.freelist ++ pagesOf σ root nodes k := by
    rw [hf]
    exact mem_append_left _ mem_cons_self
  have hmem := hs.ram mem hin
  have hreturns : ∃ σ₂ r, mappages σ₁ root (pageAddr k) PGSIZE mem perm = .ok (σ₂, r) := by
    refine mappages_returns ht₁ hmem.aligned hperm (by omega) (by omega) ?_
    intro n hge hle
    obtain rfl : n = k := by omega
    rw [hmap₁, hs.rest n (Nat.le_refl _), hfix]
  obtain ⟨σ₂, r, hcall⟩ := hreturns
  refine ⟨σ₂, r, hcall, ?_⟩
  obtain ⟨count, hmaps, hr⟩ := mappages_ok ht₁ hmem.aligned hperm hcall
  obtain ⟨new, hnew, hlist⟩ := hmaps.alters
  rw [hcount] at hr
  rw [hpage] at hmaps
  rw [hfree] at hlist
  have hholds₂ : ∀ a, σ₂.Holds root a ↔ a ∈ nodes ++ new := fun a => by
    rw [hnew.nodes, hholds₁, mem_append]
  have houter : ∀ a, a ∉ σ.freelist → a ∉ nodes → a ≠ mem ∧ σ₂.page a = σ.page a := by
    intro a hfree hnode
    have hne : a ≠ mem := fun heq => hfree (by rw [hf, heq]; exact mem_cons_self)
    have hout : ¬ σ₂.Holds root a := by
      rw [hholds₂, mem_append, not_or]
      refine ⟨hnode, fun hin => hfree ?_⟩
      rw [hf, hlist]
      exact mem_cons_of_mem _ (mem_append_left _ hin)
    exact ⟨hne, (hnew.others a hout (not_mem_nil)).trans (hpages a hne)⟩
  have hothers : ∀ a, a ∉ σ.freelist ++ pagesOf σ root nodes k → a ≠ mem ∧ σ₂.page a = σ.page a := by
    intro a ha
    rw [mem_append, not_or, pagesOf, mem_append, not_or] at ha
    exact houter a ha.1 ha.2.1
  have hupper : Upper σ root → Upper σ₂ root := by
    intro hu
    have hsame : ∀ a, σ.Holds root a → σ₁.page a = σ.page a := fun a ha => hpages a fun heq =>
      hs.table.free mem (by rw [hf]; exact mem_cons_self) (heq ▸ ha)
    exact hnew.upper (hu.frame hsame)
  -- the page is neither in the table nor free
  have hnodup := hs.nodup
  rw [hf, hlist, pagesOf, cons_append] at hnodup
  have hfresh := (nodup_cons.1 hnodup).1
  simp only [mem_append, not_or] at hfresh
  have hout : ¬ σ₂.Holds root mem := by
    rw [hholds₂, mem_append, not_or]
    exact ⟨hfresh.2.1, hfresh.1.1⟩
  rcases hr with ⟨hr, hone, -⟩ | ⟨hr, -, hnone⟩
  · -- the page is mapped
    subst hone
    have hmap₂ : pageMap σ₂ root = update (pageMap σ root) k (some (mem, perm ||| PTE_V)) := by
      rw [hmaps.maps, hmap₁, ← mapPages_cons, mapPages_zero]
    have hframes : frames (pageMap σ₂ root) 0 (k + 1) = frames (pageMap σ root) 0 k ++ [mem] := by
      have hk' : pageMap σ₂ root (0 + k) = some (mem, perm ||| PTE_V) := by
        rw [Nat.zero_add, hmap₂, update_self]
      rw [frames_succ hk', frames_congr fun n _ hn => ?_]
      rw [hmap₂, update_of_ne (by omega)]
    refine .inl ⟨hr, ?_, ?_, hnew.others mem hout not_mem_nil, nodes ++ new,
      ⟨hs.moves hnew.table.sep hholds₂ ?_ ?_ ?_ (fun a ha => (hothers a ha).2) ?_, ?_, hupper⟩⟩
    · rw [hf, hlist]
      simp only [length_cons, length_append]
      omega
    · rw [hmap₂, update_self]
    · rw [pagesOf, pagesOf, hframes, hf, hlist]
      refine perm_iff_count.2 fun a => ?_
      simp only [count_append, count_cons, count_nil]
      omega
    · intro n hn
      by_cases hnk : n = k
      · rw [hmap₂, hnk, update_self]
        exact ⟨_, rfl, hleaf⟩
      · rw [hmap₂, update_of_ne hnk]
        exact hs.user n (by omega)
    · intro n hn
      rw [hmap₂, update_of_ne (by omega)]
      exact hs.rest n (by omega)
    · intro n hn _
      rw [hmap₂, update_of_ne (by omega)]
    · intro n fr hn _ hfr
      obtain ⟨hnot, hnode⟩ := hs.user_page hn hfr
      exact (houter fr.1 hnot hnode).2
  · -- no memory for the table: the page goes back
    obtain rfl : count = 0 := by
      have := hnone Nat.one_pos
      omega
    have hmap₂ : pageMap σ₂ root = pageMap σ root := by rw [hmaps.maps, mapPages_zero, hmap₁]
    have hnot : mem ∉ σ₂.freelist := hfresh.1.2
    obtain ⟨σ₃, hcall₃⟩ := kfree_returns σ₂ hmem
    obtain ⟨halt, hlist₃, hmap₃⟩ := kfree_alters hnew.table hout hnot hmem.aligned hcall₃
    refine .inr ⟨by omega, σ₃, nodes ++ new, hcall₃,
      ⟨hs.moves halt.table.sep ?_ ?_ ?_ ?_ ?_ ?_, ?_, ?_⟩⟩
    · intro a
      rw [halt.nodes, hholds₂]
      simp
    · rw [pagesOf, pagesOf, hmap₃, hmap₂, hf, hlist, hlist₃]
      refine perm_iff_count.2 fun a => ?_
      simp only [count_append, count_cons]
      omega
    · rw [hmap₃, hmap₂]
      exact hs.user
    · rw [hmap₃, hmap₂]
      exact hs.rest
    · intro a ha
      rw [kfree_page_ne hcall₃ (hothers a ha).1, (hothers a ha).2]
    · intro n _ _
      rw [hmap₃, hmap₂]
    · intro n fr hn _ hfr
      obtain ⟨hfree', hnode⟩ := hs.user_page hn hfr
      obtain ⟨hne, hsame⟩ := houter fr.1 hfree' hnode
      rw [kfree_page_ne hcall₃ hne, hsame]
    · exact fun hu => halt.upper (hupper hu)

end GrowPage

/-! ## How much memory there is -/

def KERNBASE : Addr := 0x80000000

theorem ram_length {l : List Addr} (hend : KERNBASE ≤ kend) (hnodup : l.Nodup)
    (hram : ∀ a, a ∈ l → Ram kend a) : l.length ≤ 32768 := by
  have hrange : ∀ a, a ∈ l → a.toNat % 4096 = 0 ∧ 0x80000000 ≤ a.toNat ∧ a.toNat < 0x88000000 := by
    intro a ha
    have hr := hram a ha
    exact ⟨hr.aligned, Nat.le_trans (BitVec.le_def.1 hend) (BitVec.le_def.1 hr.above),
      BitVec.lt_def.1 hr.below⟩
  have hnd : (l.map fun a => (a.toNat - 0x80000000) / 4096).Nodup := by
    refine hnodup.map_on fun a ha b hb hab => BitVec.eq_of_toNat_eq ?_
    have h₁ := hrange a ha
    have h₂ := hrange b hb
    omega
  have hsub : (l.map fun a => (a.toNat - 0x80000000) / 4096) ⊆ List.range 32768 := by
    intro n hn
    obtain ⟨a, ha, rfl⟩ := mem_map.1 hn
    have h₁ := hrange a ha
    exact mem_range.2 (by omega)
  have hle := (List.Nodup.subperm hnd hsub).length_le
  rwa [length_map, List.length_range] at hle

theorem Space.bound (hend : KERNBASE ≤ kend) (hs : Space kend σ root nodes k fixed) : k ≤ 32768 := by
  have hlen : (frames (pageMap σ root) 0 k).length = k := frames_length fun n _ hn => by
    obtain ⟨fr, hfr, -⟩ := hs.user n (by omega)
    exact ⟨fr, hfr⟩
  have hsub : ∀ a, a ∈ frames (pageMap σ root) 0 k → a ∈ σ.freelist ++ pagesOf σ root nodes k := fun a ha =>
    mem_append_right _ (mem_append_right _ ha)
  have hle := ram_length hend hs.nodup.of_append_right.of_append_right fun a ha => hs.ram a (hsub a ha)
  omega

/-! ## Fewer pages -/

theorem Leaf.ne_valid {flags : BitVec 64} (h : Leaf flags) : flags ≠ PTE_V := by
  rintro rfl
  exact h (by decide)

theorem Table.unmaps {first count : Nat} {free : Bool} (ht : Table σ root) (hmax : first + count ≤ 2 ^ 26)
    (hfirst : first < 2 ^ 26) (hrel : Releasable σ root (given (pageMap σ root) first count free))
    (hmapped : ∀ n, first ≤ n → n < first + count → ∃ fr, pageMap σ root n = some fr ∧ fr.2 ≠ PTE_V ∧
      (free = true → kend ≤ fr.1 ∧ fr.1 < PHYSTOP)) :
    ∃ σ', uvmunmap kend σ root (pageAddr first) (BitVec.ofNat 64 count) free = .ok σ' ∧
      Unmaps σ σ' root first count free := by
  have haddr := toNat_pageAddr hfirst
  have hpage : (pageAddr first).toNat / 4096 = first := by omega
  have hnat : (BitVec.ofNat 64 count).toNat = count := by
    rw [BitVec.toNat_ofNat]
    omega
  have hcount : unmapCount (pageAddr first) (BitVec.ofNat 64 count) = count := by
    rw [unmapCount_eq (by omega), hnat]
  have hal : Aligned (pageAddr first) := by
    rw [Aligned, haddr]
    omega
  have hbelow : (pageAddr first + BitVec.ofNat 64 count * PGSIZE).toNat ≤ 2 ^ 38 := by
    rw [BitVec.toNat_add, BitVec.toNat_mul, show PGSIZE.toNat = 4096 from rfl, hnat, haddr]
    omega
  rw [← hpage, ← hcount] at hrel hmapped
  obtain ⟨σ', hcall⟩ := uvmunmap_returns ht hal hrel hbelow hmapped
  have hun := uvmunmap_ok ht hrel hcall
  rw [hpage, hcount] at hun
  exact ⟨σ', hcall, hun⟩

theorem Space.unmap_last (hs : Space kend σ root nodes k fixed) (hle : k' ≤ k) (hk : k < 2 ^ 26)
    (hfix : ∀ n, n < k → fixed n = none) :
    ∃ σ', uvmunmap kend σ root (pageAddr k') (BitVec.ofNat 64 (k - k')) true = .ok σ' ∧
      Changes kend σ σ' root nodes nodes k k' fixed := by
  have hsplit : frames (pageMap σ root) 0 k
      = frames (pageMap σ root) 0 k' ++ frames (pageMap σ root) k' (k - k') := by
    have happ := frames_append (k := k') (pageMap σ root) 0 (k - k')
    rwa [Nat.add_sub_cancel' hle, Nat.zero_add] at happ
  have hnodup := hs.nodup
  rw [pagesOf, hsplit] at hnodup
  have hrel : Releasable σ root (given (pageMap σ root) k' (k - k') true) := by
    constructor
    · have hperm : (σ.freelist ++ (nodes ++ (frames (pageMap σ root) 0 k' ++
          frames (pageMap σ root) k' (k - k')))).Perm
          (frames (pageMap σ root) k' (k - k') ++ σ.freelist ++ (nodes ++ frames (pageMap σ root) 0 k')) := by
        refine perm_iff_count.2 fun a => ?_
        simp only [count_append]
        omega
      exact (hperm.nodup hnodup).of_append_left
    intro b hb hn
    exact disjoint_of_nodup_append hnodup.of_append_right ((hs.holds b).1 hn)
      (mem_append_right _ hb)
  have hmapped : ∀ n, k' ≤ n → n < k' + (k - k') → ∃ fr, pageMap σ root n = some fr ∧ fr.2 ≠ PTE_V ∧
      (true = true → kend ≤ fr.1 ∧ fr.1 < PHYSTOP) := by
    intro n hge hn
    obtain ⟨fr, hfr, hleaf⟩ := hs.user n (by omega)
    have hram := hs.ram fr.1 (mem_append_right _ (mem_append_right _
      (mem_frames (Nat.zero_le n) (by omega) hfr)))
    exact ⟨fr, hfr, hleaf.ne_valid, fun _ => ⟨hram.above, hram.below⟩⟩
  obtain ⟨σ', hcall, hun⟩ := hs.table.unmaps (by omega) (by omega) hrel hmapped
  have hholds : ∀ a, σ'.Holds root a ↔ a ∈ nodes := by
    intro a
    rw [hun.alters.nodes, hs.holds]
    simp
  refine ⟨σ', hcall, ⟨hs.moves hun.alters.table.sep hholds ?_ ?_ ?_ ?_ ?_, ?_, hun.alters.upper⟩⟩
  · have hframes : frames (pageMap σ' root) 0 k' = frames (pageMap σ root) 0 k' :=
      frames_congr fun n _ hn => by
        rw [hun.unmaps, unmapPages, if_neg (by omega)]
    rw [pagesOf, pagesOf, hsplit, hframes, hun.freelist]
    refine perm_iff_count.2 fun a => ?_
    simp only [count_append, count_reverse, given, if_true]
    omega
  · intro n hn
    rw [hun.unmaps, unmapPages, if_neg (by omega)]
    exact hs.user n (by omega)
  · intro n hn
    rw [hun.unmaps, unmapPages]
    split
    · exact (hfix n (by omega)).symm
    · exact hs.rest n (by omega)
  · intro a ha
    rw [mem_append, not_or, pagesOf, mem_append, not_or, hsplit, mem_append, not_or] at ha
    exact hun.alters.others a (fun hn => ha.2.1 ((hholds a).1 hn)) ha.2.2.2
  · intro n _ hn
    rw [hun.unmaps, unmapPages, if_neg (by omega)]
  intro n fr hn hn' hfr
  refine hun.alters.others fr.1 (fun hnode => (hs.user_page hn hfr).2 ((hholds _).1 hnode)) ?_
  -- the page is among those that stay
  have hstay : fr.1 ∈ frames (pageMap σ root) 0 k' := mem_frames (Nat.zero_le n) (by omega) hfr
  exact disjoint_of_nodup_append hnodup.of_append_right.of_append_right hstay

/-! ## `uvmdealloc` and `uvmalloc` -/

/-- The number of pages that a process of the given size has. -/
def pagesFor (sz : Addr) : Nat := (sz.toNat + 4095) / 4096

theorem pgRoundUp_eq {sz : Addr} (h : pagesFor sz < 2 ^ 26) : pgRoundUp sz = pageAddr (pagesFor sz) := by
  apply BitVec.eq_of_toNat_eq
  rw [toNat_pageAddr h]
  unfold pagesFor at h ⊢
  rw [toNat_pgRoundUp (by omega)]

theorem pagesFor_pageAddr (hk : k < 2 ^ 26) : pagesFor (pageAddr k) = k := by
  rw [pagesFor, toNat_pageAddr hk]
  omega

theorem int_of_lt {x : BitVec 64} (h : x.toNat < 2 ^ 31) : (x.truncate 32).signExtend 64 = x := by
  have htrunc : (x.truncate 32).toNat = x.toNat := by
    rw [BitVec.truncate_eq_setWidth, BitVec.toNat_setWidth]
    omega
  have hmsb : (x.truncate 32).msb = false := by
    rw [BitVec.msb_eq_decide, htrunc, decide_eq_false_iff_not]
    omega
  apply BitVec.eq_of_toNat_eq
  rw [BitVec.signExtend_eq_setWidth_of_msb_false hmsb, BitVec.toNat_setWidth, htrunc]
  omega

theorem pageAddr_sub {m : Nat} (hm : m < 2 ^ 26) (hle : k ≤ m) :
    (pageAddr m - pageAddr k) / PGSIZE = BitVec.ofNat 64 (m - k) := by
  have hm' := toNat_pageAddr hm
  have hk' := toNat_pageAddr (Nat.lt_of_le_of_lt hle hm)
  apply BitVec.eq_of_toNat_eq
  rw [BitVec.toNat_udiv, BitVec.toNat_sub_of_le (BitVec.le_def.2 (by omega)), hm', hk',
    show PGSIZE.toNat = 4096 from rfl, BitVec.toNat_ofNat]
  omega

theorem Space.dealloc (hs : Space kend σ root nodes (pagesFor oldsz) fixed)
    (hk : pagesFor oldsz < 2 ^ 26) (hfix : ∀ n, n < pagesFor oldsz → fixed n = none)
    (hlt : newsz < oldsz) :
    ∃ σ', uvmdealloc kend σ root oldsz newsz = .ok (σ', newsz) ∧
      Changes kend σ σ' root nodes nodes (pagesFor oldsz) (pagesFor newsz) fixed := by
  have hltn := BitVec.lt_def.1 hlt
  have hle : pagesFor newsz ≤ pagesFor oldsz := by
    unfold pagesFor
    omega
  rw [uvmdealloc, if_neg (BitVec.not_le.2 hlt), pgRoundUp_eq hk, pgRoundUp_eq (Nat.lt_of_le_of_lt hle hk)]
  have haddr := toNat_pageAddr hk
  have haddr' := toNat_pageAddr (Nat.lt_of_le_of_lt hle hk)
  split
  · have hnpages : (((pageAddr (pagesFor oldsz) - pageAddr (pagesFor newsz)) /
      PGSIZE).truncate 32).signExtend 64
        = BitVec.ofNat 64 (pagesFor oldsz - pagesFor newsz) := by
      rw [pageAddr_sub hk hle, int_of_lt]
      rw [BitVec.toNat_ofNat]
      omega
    obtain ⟨σ', hcall, hmoves⟩ := hs.unmap_last hle hk hfix
    refine ⟨σ', ?_, hmoves⟩
    show (uvmunmap kend σ root (pageAddr (pagesFor newsz)) _ true >>= fun σ => .ok (σ, newsz)) = _
    rw [hnpages, hcall]
    rfl
  next hnot =>
  rw [BitVec.lt_def, haddr, haddr'] at hnot
  obtain heq : pagesFor newsz = pagesFor oldsz := by omega
  rw [heq]
  exact ⟨σ, rfl, .refl hs⟩

theorem Space.giveBack (hend : KERNBASE ≤ kend) (hs : Space kend σ root nodes k fixed)
    (hfix : ∀ m, m < 2 ^ 26 - 2 → fixed m = none) (hk₀ : k₀ ≤ k) :
    ∃ σ' r, uvmdealloc kend σ root (pageAddr k) (pageAddr k₀) = .ok (σ', r) ∧
      Changes kend σ σ' root nodes nodes k k₀ fixed := by
  have hbound := hs.bound hend
  have hk : k < 2 ^ 26 := by omega
  have haddr := toNat_pageAddr hk
  have haddr₀ := toNat_pageAddr (Nat.lt_of_le_of_lt hk₀ hk)
  have hpages := pagesFor_pageAddr hk
  by_cases heq : k₀ = k
  · subst heq
    refine ⟨σ, pageAddr k₀, ?_, .refl hs⟩
    rw [uvmdealloc, if_pos (BitVec.le_refl _)]
  rw [← hpages] at hs
  have hlt : pageAddr k₀ < pageAddr k := BitVec.lt_def.2 (by omega)
  obtain ⟨σ', hcall, hmoves⟩ := hs.dealloc (by omega) (fun n hn => hfix n (by omega)) hlt
  rw [hpages, pagesFor_pageAddr (Nat.lt_of_le_of_lt hk₀ hk)] at hmoves
  exact ⟨σ', _, hcall, hmoves⟩

theorem userPerm_lt : userPerm.toNat < 1024 := by decide

theorem userPerm_leaf : Leaf (userPerm ||| PTE_V) := by
  unfold Leaf
  decide

theorem pageAddr_next (k : Nat) : pageAddr k + PGSIZE = pageAddr (k + 1) := by
  rw [pageAddr_succ, BitVec.add_comm]

theorem kalloc_cons {mem : Addr} {rest : List Addr} (h : σ.freelist = mem :: rest) :
    kalloc σ = ({ σ with freelist := rest }.memset mem 5, some mem) := by
  simp only [kalloc, h]

theorem pagesFor_le (hk : k < 2 ^ 26) (h : ¬ pageAddr k < newsz) : pagesFor newsz ≤ k := by
  rw [BitVec.lt_def, toNat_pageAddr hk] at h
  unfold pagesFor
  omega

theorem lt_pagesFor (hk : k < 2 ^ 26) (h : pageAddr k < newsz) : k < pagesFor newsz := by
  rw [BitVec.lt_def, toNat_pageAddr hk] at h
  unfold pagesFor
  omega

/-- What holds of the pages from `k` on: of their numbers, their flags and their contents. -/
def NewPages (P : Nat → BitVec 64 → (Fin 512 → BitVec 64) → Prop) (σ : Mem) (root : Addr) (k k' : Nat) : Prop :=
  ∀ n fr, k ≤ n → n < k' → pageMap σ root n = some fr → P n fr.2 (σ.page fr.1)

def Cleared (_ : Nat) (_ : BitVec 64) (page : Fin 512 → BitVec 64) : Prop := ∀ i, page i = 0

section

variable {P : Nat → BitVec 64 → (Fin 512 → BitVec 64) → Prop}

theorem NewPages.none (P : Nat → BitVec 64 → (Fin 512 → BitVec 64) → Prop) (σ : Mem) (root : Addr)
    (h : k' ≤ k) : NewPages P σ root k k' :=
  fun n _ hge hlt => by omega

theorem NewPages.cons {mem : Addr} {flags : BitVec 64} (hmap : pageMap σ root k = some (mem, flags))
    (hpage : P k flags (σ.page mem)) (hc : Changes kend σ σ' root nodes nodes' (k + 1) k' fixed)
    (h : NewPages P σ' root (k + 1) k') : NewPages P σ' root k k' := by
  intro n fr hge hlt hfr
  by_cases hn : n = k
  · subst hn
    rw [hc.keeps n (Nat.lt_succ_self n) hlt, hmap] at hfr
    cases hfr
    rw [hc.contents n _ (Nat.lt_succ_self n) hlt hmap]
    exact hpage
  · exact h n fr (by omega) hlt hfr

end

theorem Space.allocFrom (hend : KERNBASE ≤ kend)
    (hs : Space kend σ root nodes k fixed) (hfix : ∀ m, m < 2 ^ 26 - 2 → fixed m = none) (hk₀ : k₀ ≤ k)
    (hn : σ.freelist.length ≤ n) :
    ∃ σ' r nodes' k', uvmallocFrom kend root (pageAddr k₀) newsz n σ (pageAddr k) = .ok (σ', r) ∧
      Changes kend σ σ' root nodes nodes' k k' fixed ∧ NewPages Cleared σ' root k k' ∧
      ((r = newsz ∧ k' = max k (pagesFor newsz)) ∨ (r = 0 ∧ k' = k₀)) := by
  induction n generalizing σ nodes k with
  | zero =>
    have hk : k < 2 ^ 26 := by have := hs.bound hend; omega
    rw [uvmallocFrom]
    split
    · obtain ⟨σ', r, hcall, hmoves⟩ := hs.giveBack hend hfix hk₀
      refine ⟨σ', 0, nodes, k₀, ?_, hmoves, .none _ _ _ hk₀, .inr ⟨rfl, rfl⟩⟩
      rw [hcall]
      rfl
    next hdone =>
    have hle := pagesFor_le hk hdone
    exact ⟨σ, newsz, nodes, k, rfl, .refl hs, .none _ _ _ (Nat.le_refl k),
      .inl ⟨rfl, (Nat.max_eq_left hle).symm⟩⟩
  | succ n ih =>
    have hbound := hs.bound hend
    have hk : k < 2 ^ 26 := by omega
    rw [uvmallocFrom]
    split
    · next hmore =>
      cases hf : σ.freelist with
      | nil =>
        obtain ⟨σ', r, hcall, hmoves⟩ := hs.giveBack hend hfix hk₀
        refine ⟨σ', 0, nodes, k₀, ?_, hmoves, .none _ _ _ hk₀, .inr ⟨rfl, rfl⟩⟩
        simp only [kalloc, hf, hcall]
        rfl
      | cons mem rest =>
        have hpages : ∀ a, a ≠ mem →
            (({ σ with freelist := rest }.memset mem 5).memset mem 0).page a = σ.page a := fun a ha => by
          rw [Mem.memset_page_ne ha, Mem.memset_page_ne ha]
        obtain ⟨σ₂, r, hcall, hr⟩ :=
          hs.map_next hk (hfix k (by omega)) hf rfl hpages userPerm_lt userPerm_leaf
        simp only [kalloc_cons hf]
        rw [hcall]
        rcases hr with ⟨rfl, hlen, hpage, hcontent, nodes', hmoves⟩ | ⟨hr, σ₃, nodes', hfree, hmoves⟩
        · -- the page is mapped, and the loop goes on behind it
          have hlt := lt_pagesFor hk hmore
          have hclear : Cleared k (userPerm ||| PTE_V) (σ₂.page mem) := fun i => by
            rw [hcontent, Mem.memset_page_self]
            rfl
          obtain ⟨σ', r, nodes'', k', hrest, hmoves', hzero, hr⟩ :=
            ih hmoves.space (by omega) (by omega)
          refine ⟨σ', r, nodes'', k', ?_, hmoves.trans (.inr (by omega)) hmoves',
            .cons hpage hclear hmoves' hzero, ?_⟩
          · rw [← pageAddr_next] at hrest
            exact hrest
          rcases hr with ⟨hr, hk'⟩ | hr
          · exact .inl ⟨hr, by omega⟩
          · exact .inr hr
        obtain ⟨σ', r', hback, hmoves'⟩ := hmoves.space.giveBack hend hfix hk₀
        refine ⟨σ', 0, nodes', k₀, ?_, hmoves.trans (.inl hk₀) hmoves', .none _ _ _ hk₀, .inr ⟨rfl, rfl⟩⟩
        show (if r ≠ 0 then _ else _) = _
        rw [if_pos hr, hfree]
        show (uvmdealloc kend σ₃ root (pageAddr k) (pageAddr k₀) >>= fun _ => _) = _
        rw [hback]
        rfl
    · next hdone =>
      have hle := pagesFor_le hk hdone
      exact ⟨σ, newsz, nodes, k, rfl, .refl hs, .none _ _ _ (Nat.le_refl k),
        .inl ⟨rfl, (Nat.max_eq_left hle).symm⟩⟩

/-- **`uvmalloc` returns: it has mapped the pages up to the new size, or nothing has changed but the
    pages of the table.** -/
theorem Space.alloc (hend : KERNBASE ≤ kend) (hs : Space kend σ root nodes (pagesFor oldsz) fixed)
    (hfix : ∀ m, m < 2 ^ 26 - 2 → fixed m = none) (hle : oldsz ≤ newsz) :
    ∃ σ' r nodes' k', uvmalloc kend σ root oldsz newsz = .ok (σ', r) ∧
      Changes kend σ σ' root nodes nodes' (pagesFor oldsz) k' fixed ∧
      NewPages Cleared σ' root (pagesFor oldsz) k' ∧
      ((r = newsz ∧ k' = pagesFor newsz) ∨ (r = 0 ∧ k' = pagesFor oldsz)) := by
  have hbound := hs.bound hend
  have hmono : pagesFor oldsz ≤ pagesFor newsz := by
    have := BitVec.le_def.1 hle
    unfold pagesFor
    omega
  obtain ⟨σ', r, nodes', k', hcall, hmoves, hzero, hr⟩ :=
    hs.allocFrom hend hfix (Nat.le_refl _) (Nat.le_refl _)
  refine ⟨σ', r, nodes', k', ?_, hmoves, hzero, ?_⟩
  · rw [uvmalloc, if_neg (BitVec.not_lt.2 hle), pgRoundUp_eq (by omega)]
    exact hcall
  · rwa [Nat.max_eq_right hmono] at hr

end Xv6.Vm
