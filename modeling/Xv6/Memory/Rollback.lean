import Xv6.Memory.Free

set_option autoImplicit false

/-! # When there is no memory left (`uvmalloc`, `uvmcopy`)

`uvmalloc` and `uvmcopy` map pages one after another, and either of them may find that there is no
memory: for the page itself, or for a page of the table after others have been attached to it. They
then unmap what they have mapped. The pages of the table stay, and are given back with it. -/

namespace Xv6.Vm

open BitVec Function List Structures

/-! ## `vm.c` -/

/-- `memmove` of a whole page. -/
def Mem.copyPage (σ : Mem) (dst src : Addr) : Mem := { σ with page := update σ.page dst (σ.page src) }

/-- The end of `uvmcopy` at `err`. -/
def uvmcopyErr (kend new : Addr) (σ : Mem) (i : Addr) : Except String (Mem × Int) := do
  let σ ← uvmunmap kend σ new 0 (i / PGSIZE) true
  .ok (σ, -1)

/-- The loop of `uvmcopy`; `walk` panics at `MAXVA`. -/
def uvmcopyFrom (kend old new sz : Addr) : Nat → Mem → Addr → Except String (Mem × Int)
  | 0, σ, i => if i < sz then .error "walk" else .ok (σ, 0)
  | n + 1, σ, i =>
    if i < sz then do
      match ← walk σ old i false with
      | (_, none) => .error "uvmcopy: pte should exist"
      | (σ, some pte) =>
        if ¬ valid (σ.load pte) then .error "uvmcopy: page not present"
        else
          let pa := pte2pa (σ.load pte)
          let flags := pteFlags (σ.load pte)
          match kalloc σ with
          | (σ, none) => uvmcopyErr kend new σ i
          | (σ, some mem) => do
              let (σ, r) ← mappages (σ.copyPage mem pa) new i PGSIZE mem flags
              if r ≠ 0 then do
                let σ ← kfree kend σ mem
                uvmcopyErr kend new σ i
              else uvmcopyFrom kend old new sz n σ (i + PGSIZE)
    else .ok (σ, 0)

/-- Copy a process's memory into the page table of its child. -/
def uvmcopy (kend : Addr) (σ : Mem) (old new sz : Addr) : Except String (Mem × Int) :=
  uvmcopyFrom kend old new sz (pagesLeft 0) σ 0

/-! ## The table that is copied -/

variable {kend root old sz mem : Addr} {σ σ' σ₁ : Mem} {nodes others rest : List Addr} {k n count : Nat}
  {fixed : Nat → Option Frame} {fr : Frame}

/-- The first `count` pages of `old` are mapped, and its table and these pages are among
    `others`. -/
structure Source (σ : Mem) (old : Addr) (count : Nat) (others : List Addr) : Prop where
  holds : ∀ a, σ.Holds old a → a ∈ others
  mapped : ∀ n, n < count → ∃ fr, pageMap σ old n = some fr ∧ Leaf fr.2 ∧ fr.1 ∈ others

theorem Space.source (hs : Space kend σ old nodes k fixed) : Source σ old k (pagesOf σ old nodes k) where
  holds := fun a ha => mem_append_left _ ((hs.holds a).1 ha)
  mapped := by
    intro n hn
    obtain ⟨fr, hfr, hleaf⟩ := hs.user n hn
    exact ⟨fr, hfr, hleaf, mem_append_right _ (mem_frames (Nat.zero_le n) (by omega) hfr)⟩

theorem Source.frame (h : Source σ old count others) (hsame : ∀ a, a ∈ others → σ'.page a = σ.page a) :
    Source σ' old count others ∧ pageMap σ' old = pageMap σ old := by
  have hpages : ∀ a, σ.Holds old a → σ'.page a = σ.page a := fun a ha => hsame a (h.holds a ha)
  have hmap := pageMap_frame hpages
  refine ⟨⟨?_, ?_⟩, hmap⟩
  · intro a ha
    exact h.holds a ((holds_frame hpages a).1 ha)
  intro n hn
  rw [hmap]
  exact h.mapped n hn

theorem walk_mapped (hn : n < 2 ^ 26) (h : pageMap σ old n = some fr) :
    ∃ pte, walk σ old (pageAddr n) false = .ok (σ, some pte) ∧ valid (σ.load pte) = true ∧
      fr = (pte2pa (σ.load pte), pteFlags (σ.load pte)) := by
  have haddr := toNat_pageAddr hn
  rw [show n = (pageAddr n).toNat / 4096 by omega] at h
  obtain ⟨b, hf, hv, hfr⟩ := follow_of_pageMap (by omega) h
  refine ⟨⟨b, px 0 (pageAddr n)⟩, ?_, hv, hfr⟩
  rw [walk_of_lt (by omega), walkFrom_find, show follow child σ.page old (indices _ 2) = some b from hf]
  rfl

theorem pteFlags_again {e : BitVec 64} (h : valid e = true) :
    (pteFlags e).toNat < 1024 ∧ pteFlags e ||| PTE_V = pteFlags e := by
  constructor
  · rw [pteFlags, toNat_and]
    exact Nat.lt_of_le_of_lt Nat.and_le_right (by decide)
  have hbit : e.getLsbD 0 = true := by
    by_contra hne
    have hzero : e &&& PTE_V = 0 := by
      apply eq_of_getLsbD_eq
      intro i hi
      rw [getLsbD_and]
      by_cases h0 : i = 0
      · subst h0
        rw [Bool.eq_false_iff.2 hne, Bool.false_and]
        rfl
      have hone : PTE_V.getLsbD i = false := by
        rw [show PTE_V = 1#64 from rfl, getLsbD_one]
        simp [h0]
      simp [hone]
    rw [valid, hzero] at h
    cases h
  apply eq_of_getLsbD_eq
  intro i hi
  rw [getLsbD_or]
  by_cases h0 : i = 0
  · subst h0
    rw [pteFlags, getLsbD_and, hbit]
    rfl
  · rw [show PTE_V = 1#64 from rfl, getLsbD_one]
    simp [h0]

/-! ## The loop of `uvmcopy` -/

/-- The page has the flags and the contents that it has in `old`. -/
def Copied (σ : Mem) (old : Addr) (n : Nat) (flags : BitVec 64) (page : Fin 512 → BitVec 64) : Prop :=
  ∃ fr, pageMap σ old n = some fr ∧ flags = fr.2 ∧ page = σ.page fr.1

theorem Mem.copyPage_ne {dst src a : Addr} (σ : Mem) (h : a ≠ dst) : (σ.copyPage dst src).page a = σ.page a :=
  update_of_ne h _ _

theorem Mem.copyPage_self (σ : Mem) (dst src : Addr) : (σ.copyPage dst src).page dst = σ.page src :=
  update_self ..

theorem Space.copyErr (hend : KERNBASE ≤ kend) (hs : Space kend σ root nodes k fixed)
    (hlow : ∀ m, m < 2 ^ 26 - 2 → fixed m = none) :
    ∃ σ', uvmcopyErr kend root σ (pageAddr k) = .ok (σ', -1) ∧
      Changes kend σ σ' root nodes nodes k 0 fixed := by
  have hbound := hs.bound hend
  have haddr := toNat_pageAddr (n := k) (by omega)
  obtain ⟨σ', hcall, hc⟩ := hs.unmap_last (Nat.zero_le k) (by omega) fun m hm => hlow m (by omega)
  have hcount : pageAddr k / PGSIZE = BitVec.ofNat 64 (k - 0) := by
    apply eq_of_toNat_eq
    rw [toNat_udiv, haddr, toNat_ofNat, show PGSIZE.toNat = 4096 from rfl]
    omega
  have hunmap : uvmunmap kend σ root 0 (pageAddr k / PGSIZE) true = .ok σ' := by
    rw [hcount]
    exact hcall
  refine ⟨σ', ?_, hc⟩
  simp only [uvmcopyErr, hunmap, bind, Except.bind]

theorem uvmcopyFrom_succ {pte : PteAddr} (hmore : pageAddr k < sz)
    (hwalk : walk σ old (pageAddr k) false = .ok (σ, some pte)) (hv : valid (σ.load pte) = true) :
    uvmcopyFrom kend old root sz (n + 1) σ (pageAddr k) = (match kalloc σ with
      | (σ', none) => uvmcopyErr kend root σ' (pageAddr k)
      | (σ', some mem) => do
          let (σ₂, r) ← mappages (σ'.copyPage mem (pte2pa (σ.load pte))) root (pageAddr k) PGSIZE mem
            (pteFlags (σ.load pte))
          if r ≠ 0 then do
            let σ₃ ← kfree kend σ₂ mem
            uvmcopyErr kend root σ₃ (pageAddr k)
          else uvmcopyFrom kend old root sz n σ₂ (pageAddr k + PGSIZE)) := by
  rw [uvmcopyFrom, if_pos hmore, hwalk]
  simp only [bind, Except.bind, hv, not_true_eq_false, if_false]

variable {σ₀ : Mem}

/-- **The loop copies the pages up to the size, or gives all of them back.** -/
theorem Owned.copyFrom (hend : KERNBASE ≤ kend) (ho : Owned kend σ root nodes k fixed others)
    (hlow : ∀ m, m < 2 ^ 26 - 2 → fixed m = none) (hsrc : Source σ₀ old (pagesFor sz) others)
    (hsame : ∀ a, a ∈ others → σ.page a = σ₀.page a) (hn : pagesFor sz ≤ k + n) :
    ∃ σ' r nodes' k', uvmcopyFrom kend old root sz n σ (pageAddr k) = .ok (σ', r) ∧
      Changes kend σ σ' root nodes nodes' k k' fixed ∧ NewPages (Copied σ₀ old) σ' root k k' ∧
      ((r = 0 ∧ k' = max k (pagesFor sz)) ∨ (r = -1 ∧ k' = 0)) := by
  induction n generalizing σ nodes k with
  | zero =>
    have hbound := ho.space.bound hend
    have hdone : ¬ pageAddr k < sz := fun hlt => by
      have := lt_pagesFor (by omega) hlt
      omega
    refine ⟨σ, 0, nodes, k, ?_, .refl ho.space, .none _ _ _ (Nat.le_refl k), .inl ⟨rfl, ?_⟩⟩
    · rw [uvmcopyFrom, if_neg hdone]
    · exact (Nat.max_eq_left hn).symm
  | succ n ih =>
    have hs := ho.space
    have hbound := hs.bound hend
    by_cases hmore : pageAddr k < sz
    · have hk := lt_pagesFor (by omega) hmore
      obtain ⟨hsrc', hmap⟩ := hsrc.frame hsame
      obtain ⟨fr, hfr, hleaf, hin⟩ := hsrc'.mapped k hk
      obtain ⟨pte, hwalk, hv, rfl⟩ := walk_mapped (by omega) hfr
      rw [uvmcopyFrom_succ hmore hwalk hv]
      cases hf : σ.freelist with
      | nil =>
        obtain ⟨σ', hcall, hc⟩ := hs.copyErr hend hlow
        refine ⟨σ', -1, nodes, 0, ?_, hc, .none _ _ _ (Nat.zero_le k), .inr ⟨rfl, rfl⟩⟩
        simp only [kalloc, hf]
        exact hcall
      | cons mem rest =>
        obtain ⟨hsmall, hflags⟩ := pteFlags_again hv
        -- the page that is copied belongs to the other process, so it is not the new one
        have hne : pte2pa (σ.load pte) ≠ mem := by
          intro heq
          refine disjoint_of_nodup_append ho.nodup (mem_append_left _ ?_) (heq ▸ hin)
          rw [hf]
          exact mem_cons_self
        have hpages : ∀ a, a ≠ mem → (({ σ with freelist := rest }.memset mem 5).copyPage mem
            (pte2pa (σ.load pte))).page a = σ.page a := fun a ha => by
          rw [Mem.copyPage_ne _ ha, Mem.memset_page_ne ha]
        obtain ⟨σ₂, r, hcall, hr⟩ := hs.map_next (by omega) (hlow k (by omega)) hf rfl hpages hsmall
          (by rw [hflags]; exact hleaf)
        rw [kalloc_cons hf]
        simp only [hcall, bind, Except.bind]
        rcases hr with ⟨rfl, -, hpage, hcontent, nodes', hc⟩ | ⟨hr, σ₃, nodes', hfree, hc⟩
        · -- the page is mapped, and the loop goes on behind it
          have hcopied : Copied σ₀ old k (pteFlags (σ.load pte) ||| PTE_V) (σ₂.page mem) := by
            refine ⟨_, hmap ▸ hfr, hflags, ?_⟩
            rw [hcontent, Mem.copyPage_self, Mem.memset_page_ne hne]
            exact hsame _ hin
          have ho₂ := ho.moves hc.toMoves
          obtain ⟨σ', r, nodes'', k', hrest, hc', hnew, hr⟩ := ih ho₂
            (fun a ha => (ho.others_same hc.toMoves a ha).trans (hsame a ha)) (by omega)
          refine ⟨σ', r, nodes'', k', ?_, hc.trans (.inr (by omega)) hc', .cons hpage hcopied hc' hnew, ?_⟩
          · rw [← pageAddr_next] at hrest
            exact hrest
          rcases hr with ⟨hr, hk'⟩ | hr
          · exact .inl ⟨hr, by omega⟩
          · exact .inr hr
        -- no memory for the table: the page and those before it go back
        obtain ⟨σ', hback, hc'⟩ := hc.space.copyErr hend hlow
        refine ⟨σ', -1, nodes', 0, ?_, hc.trans (.inr (Nat.le_refl k)) hc', .none _ _ _ (Nat.zero_le k),
          .inr ⟨rfl, rfl⟩⟩
        rw [if_pos hr, hfree]
        exact hback
    · refine ⟨σ, 0, nodes, k, ?_, .refl hs, .none _ _ _ (Nat.le_refl k), .inl ⟨rfl, ?_⟩⟩
      · rw [uvmcopyFrom, if_neg hmore]
      · exact (Nat.max_eq_left (pagesFor_le (by omega) hmore)).symm

/-! ## A target that has memory already -/

theorem walkFrom_present {va b : Addr} (alloc : Bool) (level : Nat) (node : Addr)
    (h : follow child σ.page node (indices va level) = some b) :
    walkFrom va alloc level σ node = (σ, some ⟨b, px 0 va⟩) := by
  induction level generalizing node with
  | zero =>
    cases h
    rfl
  | succ level ih =>
    by_cases hv : valid (σ.load ⟨node, px (level + 1) va⟩) = true
    · rw [indices, follow_cons_some (child_of_valid hv)] at h
      simp only [walkFrom, hv, if_true]
      exact ih _ h
    · rw [indices, follow_cons_none (child_of_not_valid hv)] at h
      cases h

theorem mappages_remap {size pa perm : Addr} (hn : n < 2 ^ 26) (h : pageMap σ root n = some fr) :
    mappages σ root (pageAddr n) size pa perm = .error "remap" := by
  have haddr := toNat_pageAddr hn
  have hround : pgRoundDown (pageAddr n) = pageAddr n := by
    apply eq_of_toNat_eq
    rw [toNat_pgRoundDown]
    omega
  obtain ⟨turns, hturns⟩ : ∃ turns, pagesLeft (pageAddr n) = turns + 1 := by
    refine ⟨pagesLeft (pageAddr n) - 1, ?_⟩
    unfold pagesLeft
    omega
  obtain ⟨pte, hwalk, hv, -⟩ := walk_mapped hn h
  obtain ⟨hlt, hfollow, hindex⟩ := walk_find hwalk
  rw [mappages, hround, hturns, mappagesFrom_succ _ hlt, walkFrom_present true 2 root hfollow]
  simp only [← hindex, hv, if_true]

/-- If the target has memory already, `uvmcopy` can fail only before it has done anything. -/
theorem Owned.copy_used (hend : KERNBASE ≤ kend) (ho : Owned kend σ root nodes k fixed others) (hk : 0 < k)
    (hsrc : Source σ old (pagesFor sz) others) (h : uvmcopy kend σ old root sz = .ok (σ', -1)) : σ' = σ := by
  have hs := ho.space
  have hbound := hs.bound hend
  obtain ⟨turns, hturns⟩ : ∃ turns, pagesLeft 0 = turns + 1 := ⟨2 ^ 26 - 1, by decide⟩
  rw [uvmcopy, hturns] at h
  by_cases hmore : pageAddr 0 < sz
  · obtain ⟨fr, hfr, -, -⟩ := hsrc.mapped 0 (lt_pagesFor (by omega) hmore)
    obtain ⟨pte, hwalk, hv, -⟩ := walk_mapped (by omega) hfr
    rw [show uvmcopyFrom kend old root sz (turns + 1) σ 0 = _ from uvmcopyFrom_succ hmore hwalk hv] at h
    cases hf : σ.freelist with
    | nil =>
      -- nothing to unmap
      simp only [kalloc, hf] at h
      have hunmap : uvmunmap kend σ root 0 (pageAddr 0 / PGSIZE) true = .ok σ := by
        rw [show pageAddr 0 / PGSIZE = 0 by decide]
        rfl
      simp only [uvmcopyErr, hunmap, bind, Except.bind, Except.ok.injEq, Prod.mk.injEq] at h
      exact h.1.symm
    | cons mem rest =>
      have hpages : ∀ a, a ≠ mem → (({ σ with freelist := rest }.memset mem 5).copyPage mem
          (pte2pa (σ.load pte))).page a = σ.page a := fun a ha => by
        rw [Mem.copyPage_ne _ ha, Mem.memset_page_ne ha]
      obtain ⟨-, -, hmap⟩ := hs.take hf rfl hpages
      obtain ⟨fr', hfr', -⟩ := hs.user 0 hk
      rw [← hmap] at hfr'
      rw [kalloc_cons hf] at h
      simp only [mappages_remap (by omega) hfr', bind, Except.bind] at h
      cases h
  · have hdone : ¬ (0 : Addr) < sz := hmore
    rw [uvmcopyFrom, if_neg hdone] at h
    exact absurd (Prod.mk.inj (Except.ok.inj h)).2 (by decide)

/-! ## After a failure -/

/-- The call has failed without loss: the mappings of `root` are as before, every page is still
    free, in the table or mapped, and once, and freeing the process gives all of them back. -/
structure Restored (kend : Addr) (σ σ' : Mem) (root : Addr) (nodes : List Addr) (sz : Addr) : Prop where
  map : pageMap σ' root = pageMap σ root
  pages : ∃ nodes', (∀ a, σ'.Holds root a ↔ a ∈ nodes') ∧
    (σ'.freelist ++ pagesOf σ' root nodes' (pagesFor sz)).Nodup ∧
    (σ.freelist ++ pagesOf σ root nodes (pagesFor sz)).Perm
      (σ'.freelist ++ pagesOf σ' root nodes' (pagesFor sz))
  freed : ∃ σ'', procFreepagetable kend σ' root sz = .ok σ'' ∧
    σ''.freelist.Perm (σ.freelist ++ pagesOf σ root nodes (pagesFor sz))

theorem Changes.restored {nodes' : List Addr} (hend : KERNBASE ≤ kend)
    (hs : Space kend σ root nodes (pagesFor sz) fixed) (hu : Upper σ root) (hfix : ProcMappings fixed)
    (hc : Changes kend σ σ' root nodes nodes' (pagesFor sz) (pagesFor sz) fixed) :
    Restored kend σ σ' root nodes sz where
  map := hc.same_map hs
  pages := ⟨nodes', hc.space.holds, hc.space.nodup, hc.perm⟩
  freed := by
    obtain ⟨σ'', hcall, hperm⟩ := hc.space.procFreepagetable hend (hc.upper hu) hfix
    exact ⟨σ'', hcall, hperm.trans hc.perm.symm⟩

/-- **A failing `uvmalloc` or `uvmcopy` leaves the mappings of the target as they were and loses no
    page, however much memory there is.** -/
theorem no_memory_restores (hend : KERNBASE ≤ kend) (hs : Space kend σ root nodes (pagesFor sz) fixed)
    (hu : Upper σ root) (hfix : ProcMappings fixed) :
    (∀ newsz, sz ≤ newsz → ∃ σ' r, uvmalloc kend σ root sz newsz = .ok (σ', r) ∧
      (r = 0 → Restored kend σ σ' root nodes sz)) ∧
    (∀ old oldnodes oldfixed oldsz, Space kend σ old oldnodes (pagesFor oldsz) oldfixed →
      (σ.freelist ++ pagesOf σ root nodes (pagesFor sz) ++ pagesOf σ old oldnodes (pagesFor oldsz)).Nodup →
      (pagesFor sz = 0 → ∃ σ' r, uvmcopy kend σ old root oldsz = .ok (σ', r)) ∧
      ∀ σ', uvmcopy kend σ old root oldsz = .ok (σ', -1) →
        Restored kend σ σ' root nodes sz ∧ pageMap σ' old = pageMap σ old ∧
          ∀ a, σ'.Holds old a ↔ σ.Holds old a) := by
  refine ⟨?_, ?_⟩
  · intro newsz hle
    obtain ⟨σ', r, nodes', k', hcall, hc, -, hr⟩ := hs.alloc hend hfix.low hle
    refine ⟨σ', r, hcall, fun hzero => ?_⟩
    obtain rfl : k' = pagesFor sz := by
      rcases hr with ⟨hr, hk'⟩ | ⟨-, hk'⟩
      · -- a size of 0 is not a failure, and there was nothing to do
        have hnew : newsz.toNat = 0 := by
          rw [← hr, hzero]
          rfl
        have hle' := le_def.1 hle
        rw [hk']
        unfold pagesFor
        omega
      · exact hk'
    exact hc.restored hend hs hu hfix
  intro old oldnodes oldfixed oldsz hold hnodup
  have ho : Owned kend σ root nodes (pagesFor sz) fixed (pagesOf σ old oldnodes (pagesFor oldsz)) :=
    ⟨hs, hnodup, fun a ha => hold.ram a (mem_append_right _ ha)⟩
  have hbound := hold.bound hend
  have hturns : pagesFor oldsz ≤ 0 + pagesLeft 0 := by
    rw [show pagesLeft 0 = 2 ^ 26 by decide]
    omega
  have hcopy : pagesFor sz = 0 → ∃ σ' r nodes' k', uvmcopy kend σ old root oldsz = .ok (σ', r) ∧
      Changes kend σ σ' root nodes nodes' (pagesFor sz) k' fixed ∧ (r = 0 ∨ k' = 0) := by
    intro hzero
    rw [hzero] at ho ⊢
    obtain ⟨σ', r, nodes', k', hcall, hc, -, hr⟩ :=
      ho.copyFrom hend hfix.low hold.source (fun _ _ => rfl) hturns
    exact ⟨σ', r, nodes', k', hcall, hc, hr.imp And.left And.right⟩
  refine ⟨?_, ?_⟩
  · intro hzero
    obtain ⟨σ', r, -, -, hcall, -, -⟩ := hcopy hzero
    exact ⟨σ', r, hcall⟩
  intro σ' h
  obtain ⟨nodes', hc⟩ :
      ∃ nodes', Changes kend σ σ' root nodes nodes' (pagesFor sz) (pagesFor sz) fixed := by
    rcases Nat.eq_zero_or_pos (pagesFor sz) with hzero | hpos
    · obtain ⟨σ₁, r, nodes', k', hcall, hc, hr⟩ := hcopy hzero
      rw [h] at hcall
      cases hcall
      have hk' : k' = pagesFor sz := (hr.resolve_left (by decide)).trans hzero.symm
      exact ⟨nodes', hk' ▸ hc⟩
    · obtain rfl := ho.copy_used hend hpos hold.source h
      exact ⟨nodes, .refl hs⟩
  have hsame : ∀ a, σ.Holds old a → σ'.page a = σ.page a := fun a ha =>
    ho.others_same hc.toMoves a (hold.source.holds a ha)
  exact ⟨hc.restored hend hs hu hfix, pageMap_frame hsame, holds_frame hsame⟩

/-- The table takes three of four pages. The last one is there for a page of memory, but not for its
    table. -/
theorem no_memory_restores_page :
    ∃ σ root nodes σ', procPagetable 0x80022000 fourPages 0x80007000 0x87ffb000 = .ok (σ, some root) ∧
      uvmalloc 0x80022000 σ root 0 0x1000 = .ok (σ', 0) ∧ Restored 0x80022000 σ σ' root nodes 0 := by
  have hnodup : fourPages.freelist.Nodup := by decide
  have hram : ∀ a, a ∈ fourPages.freelist → Ram 0x80022000 a := by
    intro a ha
    refine ⟨?_, ?_, ?_⟩ <;> revert a <;> simp [fourPages, PHYSTOP, Aligned]
  obtain ⟨σ, root, hmade, hfails⟩ : ∃ σ root,
      procPagetable 0x80022000 fourPages 0x80007000 0x87ffb000 = .ok (σ, some root) ∧
      (uvmalloc 0x80022000 σ root 0 0x1000).map Prod.snd = .ok 0 := ⟨_, _, rfl, by rfl⟩
  obtain ⟨nodes, fixed, hs, hu, hfix, -⟩ := procPagetable_space hnodup hram (by decide) (by decide) hmade
  have hend : KERNBASE ≤ 0x80022000 := by decide
  have hspace : Space 0x80022000 σ root nodes (pagesFor 0) fixed := hs
  obtain ⟨σ', r, hcall, hrest⟩ := (no_memory_restores hend hspace hu hfix).1 0x1000 (by decide)
  have hr : r = 0 := by
    rw [hcall] at hfails
    exact Except.ok.inj hfails
  exact ⟨σ, root, nodes, σ', hmade, hr ▸ hcall, hrest hr⟩

end Xv6.Vm
