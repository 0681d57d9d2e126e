import Xv6.Memory.PageMap

set_option autoImplicit false

/-! # Page tables are finite maps

A page table is made by `uvmcreate` and changed by calls of `mappages`, `uvmunmap` and `uvmclear`,
while the rest of the kernel uses the memory outside it (`Built`). What the callers answer for is
part of that: physical addresses are page addresses, permissions are flags, and a page that is given
back is neither free nor a page of the table. Every such table is a tree, and the four functions do
to the map for which it stands what their names say. -/

namespace Xv6.Vm

open Option Structures

variable {σ σ' : Mem} {root va size pa npages kend : Addr} {perm : BitVec 64} {doFree : Bool} {r : Int}

/-- The number of pages that `mappages` is to map. -/
def mapCount (va size : Addr) : Nat := (va + size - 1).toNat / 4096 + 1 - va.toNat / 4096

/-- The number of pages that `uvmunmap` is to unmap. -/
def unmapCount (va npages : Addr) : Nat := (va + npages * PGSIZE).toNat / 4096 - va.toNat / 4096

/-! ## The functions as a whole -/

theorem pgRoundDown_page (a : Addr) : (pgRoundDown a).toNat / 4096 = a.toNat / 4096 := by
  rw [toNat_pgRoundDown]
  omega

theorem pgRoundDown_aligned (a : Addr) : Aligned (pgRoundDown a) := by
  rw [Aligned, toNat_pgRoundDown]
  omega

theorem mappages_ok (ht : Table σ root) (hpa : Aligned pa) (hperm : perm.toNat < 1024)
    (h : mappages σ root va size pa perm = .ok (σ', r)) :
    ∃ count, MapsTo σ σ' root (va.toNat / 4096) count pa perm ∧
      ((r = 0 ∧ count = mapCount va size ∧ 0 < count) ∨
        (r = -1 ∧ σ'.freelist = [] ∧ (0 < mapCount va size → count < mapCount va size))) := by
  obtain ⟨count, hmaps, hr⟩ :=
    mappagesFrom_ok ht (pgRoundDown_aligned va) (pgRoundDown_aligned _) hpa hperm rfl h
  rw [toNat_pgRoundDown va, toNat_pgRoundDown (va + size - 1),
    Nat.mul_div_cancel _ (by decide), Nat.mul_div_cancel _ (by decide)] at hr
  rw [pgRoundDown_page] at hmaps
  refine ⟨count, hmaps, ?_⟩
  unfold mapCount
  rcases hr with ⟨hr, hpos, heq⟩ | ⟨hr, hempty, hle⟩
  · exact .inl ⟨hr, by omega, hpos⟩
  refine .inr ⟨hr, hempty, fun hpos => ?_⟩
  have := hle (Nat.mul_le_mul_right _ (by omega))
  omega

theorem mappages_returns (ht : Table σ root) (hpa : Aligned pa) (hperm : perm.toNat < 1024)
    (hle : va.toNat ≤ (va + size - 1).toNat) (hmax : (va + size - 1).toNat < 2 ^ 38)
    (hfree : ∀ n, va.toNat / 4096 ≤ n → n ≤ (va + size - 1).toNat / 4096 → pageMap σ root n = none) :
    ∃ σ' r, mappages σ root va size pa perm = .ok (σ', r) := by
  refine mappagesFrom_returns ht (pgRoundDown_aligned va) (pgRoundDown_aligned _) hpa hperm rfl ?_ ?_ ?_
  · rw [toNat_pgRoundDown, toNat_pgRoundDown]
    exact Nat.mul_le_mul_right _ (Nat.div_le_div_right hle)
  · rw [toNat_pgRoundDown]
    omega
  · rw [pgRoundDown_page, pgRoundDown_page]
    exact hfree

theorem umod_PGSIZE (a : Addr) : a % PGSIZE = 0 ↔ Aligned a := by
  rw [← BitVec.toNat_inj, BitVec.toNat_umod]
  exact Iff.rfl

theorem end_aligned (ha : Aligned va) (npages : Addr) : Aligned (va + npages * PGSIZE) := by
  have ha' : va.toNat % 4096 = 0 := ha
  rw [Aligned, BitVec.toNat_add, BitVec.toNat_mul, show PGSIZE.toNat = 4096 from rfl]
  omega

theorem uvmunmap_ok (ht : Table σ root)
    (hrel : Releasable σ root (given (pageMap σ root) (va.toNat / 4096) (unmapCount va npages) doFree))
    (h : uvmunmap kend σ root va npages doFree = .ok σ') :
    Unmaps σ σ' root (va.toNat / 4096) (unmapCount va npages) doFree := by
  unfold uvmunmap at h
  split at h
  · cases h
  next ha =>
  rw [Ne, not_not, umod_PGSIZE] at ha
  exact (uvmunmapFrom_ok ht ha (end_aligned ha npages) rfl hrel h).1

theorem uvmunmap_returns (ht : Table σ root) (ha : Aligned va)
    (hrel : Releasable σ root (given (pageMap σ root) (va.toNat / 4096) (unmapCount va npages) doFree))
    (hmax : (va + npages * PGSIZE).toNat ≤ 2 ^ 38)
    (hmapped : ∀ n, va.toNat / 4096 ≤ n → n < va.toNat / 4096 + unmapCount va npages →
      ∃ fr, pageMap σ root n = some fr ∧ fr.2 ≠ PTE_V ∧
        (doFree = true → kend ≤ fr.1 ∧ fr.1 < PHYSTOP)) :
    ∃ σ', uvmunmap kend σ root va npages doFree = .ok σ' := by
  have hal : ¬ (va % PGSIZE ≠ 0) := not_not.2 ((umod_PGSIZE va).2 ha)
  rw [uvmunmap, if_neg hal]
  refine uvmunmapFrom_returns ht ha (end_aligned ha npages) rfl hrel (fun _ => hmax) fun n hge hlt => ?_
  refine hmapped n hge ?_
  unfold unmapCount
  omega

/-- A frame without the user's access. -/
def Frame.clearUser (fr : Frame) : Frame := (fr.1, fr.2 &&& ~~~PTE_U)

theorem frame_clearUser (e : BitVec 64) : frame (e &&& ~~~PTE_U) = (frame e).map Frame.clearUser := by
  have hvalid : valid (e &&& ~~~PTE_U) = valid e := by
    rw [valid, valid, BitVec.and_assoc, show ~~~PTE_U &&& PTE_V = PTE_V by decide]
  have hpa : pte2pa (e &&& ~~~PTE_U) = pte2pa e := by
    have hmask : ~~~PTE_U >>> 10 = BitVec.allOnes 64 >>> 10 := by decide
    rw [pte2pa, pte2pa, BitVec.ushiftRight_and_distrib, hmask, ← BitVec.ushiftRight_and_distrib,
      BitVec.and_allOnes]
  have hflags : pteFlags (e &&& ~~~PTE_U) = pteFlags e &&& ~~~PTE_U := by
    rw [pteFlags, pteFlags, BitVec.and_assoc, BitVec.and_comm (~~~PTE_U), ← BitVec.and_assoc]
  by_cases hv : valid e = true
  · rw [frame_of_valid hv, frame_of_valid (hvalid.trans hv), hpa, hflags]
    rfl
  · rw [frame_of_not_valid hv, frame_of_not_valid (hvalid ▸ hv)]
    rfl

theorem uvmclear_ok (ht : Table σ root) (h : uvmclear σ root va = .ok σ') :
    Alters σ σ' root [] [] ∧ σ'.freelist = σ.freelist ∧
      pageMap σ' root = Function.update (pageMap σ root) (va.toNat / 4096)
        ((pageMap σ root (va.toNat / 4096)).map Frame.clearUser) := by
  by_cases hlt : va.toNat < 2 ^ 38
  · rw [uvmclear, walk_of_lt hlt, walkFrom_find] at h
    cases hfollow : follow child σ.page root (path va) with
    | none =>
      rw [show follow child σ.page root (indices va 2) = none from hfollow] at h
      cases h
    | some b =>
      rw [show follow child σ.page root (indices va 2) = some b from hfollow] at h
      cases h
      refine ⟨store_alters ht hfollow _, rfl, ?_⟩
      rw [store_pageMap ht hfollow hlt, frame_clearUser, ← lookup_eq_pageMap hlt, lookup_eq_find hlt,
        find_of_follow hfollow]
      rfl
  · rw [uvmclear, walk_of_le (Nat.not_lt.1 hlt)] at h
    cases h

theorem uvmcreate_ok (hnodup : σ.freelist.Nodup) (haligned : ∀ a, a ∈ σ.freelist → Aligned a)
    (h : uvmcreate σ = (σ', some root)) :
    Table σ' root ∧ σ.freelist = root :: σ'.freelist ∧ (∀ a, σ'.Holds root a ↔ a = root) ∧
      pageMap σ' root = fun _ => none := by
  cases hf : σ.freelist with
  | nil =>
    simp only [uvmcreate, kalloc, hf] at h
    cases h
  | cons b rest =>
    simp only [uvmcreate, kalloc, hf, Prod.mk.injEq, some.injEq] at h
    obtain ⟨rfl, rfl⟩ := h
    have hzero : ∀ i, child ((({ σ with freelist := rest }.memset b 5).memset b 0).page b i) = none :=
      fun i => by
        rw [Mem.memset_page_self]
        rfl
    -- every path but the empty one ends at the first entry
    have hfollow : ∀ q a, follow child (({ σ with freelist := rest }.memset b 5).memset b 0).page b q
        = some a → q = [] ∧ a = b := by
      intro q a hq
      cases q with
      | nil => exact ⟨rfl, (some.inj hq).symm⟩
      | cons i q =>
        rw [follow_cons_none (hzero i)] at hq
        cases hq
    have hholds : ∀ a, (({ σ with freelist := rest }.memset b 5).memset b 0).Holds b a ↔ a = b := by
      intro a
      constructor
      · rintro ⟨q, -, hq⟩
        exact (hfollow q a hq).2
      · rintro rfl
        exact ⟨[], Nat.zero_le _, rfl⟩
    rw [hf] at hnodup haligned
    obtain ⟨hnot, hnd⟩ := List.nodup_cons.1 hnodup
    refine ⟨⟨?_, ?_, hnd, ?_⟩, rfl, hholds, ?_⟩
    · intro p q a _ _ hp hq
      rw [(hfollow p a hp).1, (hfollow q a hq).1]
    · intro a ha hn
      exact hnot ((hholds a).1 hn ▸ ha)
    · intro a ha
      exact haligned a (List.mem_cons_of_mem _ ha)
    funext n
    by_cases hn : n < 2 ^ 26
    · rw [pageMap_eq_find hn, find_of_follow_none]
      exact follow_cons_none (hzero _)
    · exact if_neg hn

theorem walkaddr_eq (σ : Mem) (root va : Addr) :
    walkaddr σ root va = .ok (match pageMap σ root (va.toNat / 4096) with
      | some (pa, flags) => if flags &&& PTE_U = 0 then 0 else pa
      | none => 0) := by
  have huser : ∀ e : BitVec 64, pteFlags e &&& PTE_U = e &&& PTE_U := fun e => by
    rw [pteFlags, BitVec.and_assoc, show (0x3FF : BitVec 64) &&& PTE_U = PTE_U by decide]
  by_cases hlt : va.toNat < 2 ^ 38
  · have hmax : ¬ MAXVA ≤ va := by
      rw [BitVec.le_def]
      exact Nat.not_le.2 hlt
    rw [walkaddr, if_neg hmax, walk_of_lt hlt, walkFrom_find, ← lookup_eq_pageMap hlt, lookup_eq_find hlt]
    cases hfollow : follow child σ.page root (path va) with
    | none =>
      rw [find_of_follow_none hfollow, show follow child σ.page root (indices va 2) = none from hfollow]
      rfl
    | some b =>
      rw [find_of_follow hfollow, show follow child σ.page root (indices va 2) = some b from hfollow]
      show (if ¬ valid (σ.page b (px 0 va)) = true then Except.ok 0
        else if σ.page b (px 0 va) &&& PTE_U = 0 then .ok 0 else .ok (pte2pa (σ.page b (px 0 va)))) = _
      by_cases hv : valid (σ.page b (px 0 va)) = true
      · rw [if_neg (not_not.2 hv), frame_of_valid hv]
        show _ = Except.ok (if pteFlags (σ.page b (px 0 va)) &&& PTE_U = 0 then 0
          else pte2pa (σ.page b (px 0 va)))
        rw [huser]
        split <;> rfl
      · rw [if_pos hv, frame_of_not_valid hv]
  · have hmax : MAXVA ≤ va := by
      rw [BitVec.le_def]
      exact Nat.not_lt.1 hlt
    have hn : ¬ va.toNat / 4096 < 2 ^ 26 := by omega
    rw [walkaddr, if_pos hmax, pageMap, if_neg hn]

/-! ## Every page table -/

/-- A page table made by `uvmcreate` and any calls of `mappages`, `uvmunmap` and `uvmclear`, in
    between which the rest of the kernel changes memory outside the table. -/
inductive Built (kend : Addr) : Mem → Addr → Prop
  | create {σ σ' : Mem} {root : Addr} (nodup : σ.freelist.Nodup)
      (aligned : ∀ a, a ∈ σ.freelist → Aligned a) (call : uvmcreate σ = (σ', some root)) :
      Built kend σ' root
  | mappages {σ σ' : Mem} {root va size pa : Addr} {perm : BitVec 64} {r : Int}
      (built : Built kend σ root) (aligned : Aligned pa) (flags : perm.toNat < 1024)
      (call : mappages σ root va size pa perm = .ok (σ', r)) : Built kend σ' root
  | uvmunmap {σ σ' : Mem} {root va npages : Addr} {doFree : Bool} (built : Built kend σ root)
      (releasable : Releasable σ root
        (given (pageMap σ root) (va.toNat / 4096) (unmapCount va npages) doFree))
      (call : uvmunmap kend σ root va npages doFree = .ok σ') : Built kend σ' root
  | uvmclear {σ σ' : Mem} {root va : Addr} (built : Built kend σ root)
      (call : uvmclear σ root va = .ok σ') : Built kend σ' root
  | other {σ σ' : Mem} {root : Addr} (built : Built kend σ root)
      (same : ∀ a, σ.Holds root a → σ'.page a = σ.page a)
      (free : ∀ a, a ∈ σ'.freelist → ¬ σ.Holds root a) (nodup : σ'.freelist.Nodup)
      (aligned : ∀ a, a ∈ σ'.freelist → Aligned a) : Built kend σ' root

theorem Built.table (hb : Built kend σ root) : Table σ root := by
  induction hb with
  | create nodup aligned call => exact (uvmcreate_ok nodup aligned call).1
  | mappages built aligned flags call ih =>
    obtain ⟨count, hmaps, -⟩ := mappages_ok ih aligned flags call
    obtain ⟨new, hnew, -⟩ := hmaps.alters
    exact hnew.table
  | uvmunmap built releasable call ih => exact (uvmunmap_ok ih releasable call).alters.table
  | uvmclear built call ih => exact (uvmclear_ok ih call).1.table
  | other built same free nodup aligned ih => exact ih.frame same free nodup aligned

/-- The table is a finite map from page numbers below `MAXVA / PGSIZE` to frames. -/
structure FiniteMap (kend : Addr) (σ : Mem) (root : Addr) : Prop where
  /-- `mappages` maps the pages of the range, which were not mapped, to the given frames and no
      others. Where it fails there is no free page left, and it has mapped the first few. -/
  map : ∀ va size pa perm σ' r, Aligned pa → perm.toNat < 1024 →
    mappages σ root va size pa perm = .ok (σ', r) →
    ∃ count, (∀ n, va.toNat / 4096 ≤ n → n < va.toNat / 4096 + count → pageMap σ root n = none) ∧
      pageMap σ' root = mapPages (pageMap σ root) (va.toNat / 4096) count pa (perm ||| PTE_V) ∧
      (r = 0 ∧ count = mapCount va size ∨
        r = -1 ∧ σ'.freelist = [] ∧ (0 < mapCount va size → count < mapCount va size))
  /-- `mappages` returns if the range is below `MAXVA` and none of its pages is mapped. -/
  mapReturns : ∀ va size pa perm, Aligned pa → perm.toNat < 1024 →
    va.toNat ≤ (va + size - 1).toNat → va + size - 1 < MAXVA →
    (∀ n, va.toNat / 4096 ≤ n → n < va.toNat / 4096 + mapCount va size → pageMap σ root n = none) →
    ∃ σ' r, mappages σ root va size pa perm = .ok (σ', r)
  /-- `uvmunmap` removes the pages of the range, which were mapped, and no others. -/
  unmap : ∀ va npages doFree σ',
    Releasable σ root (given (pageMap σ root) (va.toNat / 4096) (unmapCount va npages) doFree) →
    uvmunmap kend σ root va npages doFree = .ok σ' →
    (∀ n, va.toNat / 4096 ≤ n → n < va.toNat / 4096 + unmapCount va npages →
      ∃ fr, pageMap σ root n = some fr) ∧
    pageMap σ' root = unmapPages (pageMap σ root) (va.toNat / 4096) (unmapCount va npages)
  /-- `uvmunmap` returns if the range is below `MAXVA` and its pages are mapped, to memory that can
      be freed if it is to be freed. -/
  unmapReturns : ∀ va npages doFree, Aligned va →
    Releasable σ root (given (pageMap σ root) (va.toNat / 4096) (unmapCount va npages) doFree) →
    va + npages * PGSIZE ≤ MAXVA →
    (∀ n, va.toNat / 4096 ≤ n → n < va.toNat / 4096 + unmapCount va npages →
      ∃ fr, pageMap σ root n = some fr ∧ fr.2 ≠ PTE_V ∧
        (doFree = true → kend ≤ fr.1 ∧ fr.1 < PHYSTOP)) →
    ∃ σ', uvmunmap kend σ root va npages doFree = .ok σ'
  /-- `uvmclear` takes the user's access to one page away. -/
  clear : ∀ va σ', uvmclear σ root va = .ok σ' →
    pageMap σ' root = Function.update (pageMap σ root) (va.toNat / 4096)
      ((pageMap σ root (va.toNat / 4096)).map Frame.clearUser)
  /-- `walkaddr` finds the physical page of a page that is mapped for the user. -/
  addr : ∀ va, walkaddr σ root va = .ok (match pageMap σ root (va.toNat / 4096) with
    | some (pa, flags) => if flags &&& PTE_U = 0 then 0 else pa
    | none => 0)
  /-- Two pages never share an entry. -/
  entries : ∀ va va' pte, walk σ root va false = .ok (σ, some pte) →
    walk σ root va' false = .ok (σ, some pte) → va.toNat / 4096 = va'.toNat / 4096
  /-- No page of the table is reached by two paths. -/
  tree : Separated child σ.page root 2

theorem unmapCount_eq (h : va.toNat + npages.toNat * 4096 < 2 ^ 64) : unmapCount va npages = npages.toNat := by
  have hend : (va + npages * PGSIZE).toNat = va.toNat + npages.toNat * 4096 := by
    rw [BitVec.toNat_add, BitVec.toNat_mul, show PGSIZE.toNat = 4096 from rfl]
    omega
  rw [unmapCount, hend]
  omega

theorem walk_find {pte : PteAddr} (h : walk σ root va false = .ok (σ', some pte)) :
    va.toNat < 2 ^ 38 ∧ follow child σ.page root (path va) = some pte.page ∧ pte.index = px 0 va := by
  by_cases hlt : va.toNat < 2 ^ 38
  · rw [walk_of_lt hlt, walkFrom_find] at h
    obtain ⟨b, hb, rfl⟩ := map_eq_some_iff.1 (Prod.mk.inj (Except.ok.inj h)).2
    exact ⟨hlt, hb, rfl⟩
  · rw [walk_of_le (Nat.not_lt.1 hlt)] at h
    cases h

/-- **Every page table that is built with these functions behaves as a finite map.** -/
theorem built_finiteMap (hb : Built kend σ root) : FiniteMap kend σ root := by
  have ht := hb.table
  refine ⟨?_, ?_, ?_, ?_, ?_, walkaddr_eq σ root, ?_, ht.sep⟩
  · intro va size pa perm σ' r hpa hperm h
    obtain ⟨count, hmaps, hr⟩ := mappages_ok ht hpa hperm h
    refine ⟨count, hmaps.fresh, hmaps.maps, ?_⟩
    rcases hr with ⟨hr, hcount, -⟩ | hr
    · exact .inl ⟨hr, hcount⟩
    · exact .inr hr
  · intro va size pa perm hpa hperm hle hmax hfree
    refine mappages_returns ht hpa hperm hle (BitVec.lt_def.1 hmax) fun n hge hn => hfree n hge ?_
    unfold mapCount
    omega
  · intro va npages doFree σ' hrel h
    have hun := uvmunmap_ok ht hrel h
    refine ⟨fun n hge hlt => ?_, hun.unmaps⟩
    obtain ⟨fr, hfr, -⟩ := hun.mapped n hge hlt
    exact ⟨fr, hfr⟩
  · intro va npages doFree ha hrel hmax hmapped
    exact uvmunmap_returns ht ha hrel (BitVec.le_def.1 hmax) hmapped
  · intro va σ' h
    exact (uvmclear_ok ht h).2.2
  intro va va' pte h h'
  obtain ⟨hlt, hp, hi⟩ := walk_find h
  obtain ⟨hlt', hp', hi'⟩ := walk_find h'
  have hpath := ht.sep _ _ _ (path_length va).le (path_length va').le hp hp'
  exact page_eq_of_path hlt hlt' hpath (hi.symm.trans hi')

def fourPages : Mem where
  page := fun _ _ => 0
  freelist := [0x87fff000, 0x87ffe000, 0x87ffd000, 0x87ffc000]

theorem built_finiteMap_mapped : ∃ σ root σ' r, uvmcreate fourPages = (σ, some root) ∧
      mappages σ root 0x1000 0x1000 0x80000000 PTE_R = .ok (σ', r) ∧ FiniteMap 0x80022000 σ' root := by
  have hnodup : fourPages.freelist.Nodup := by decide
  have haligned : ∀ a, a ∈ fourPages.freelist → Aligned a := by simp [fourPages, Aligned]
  have hcreate : uvmcreate fourPages = ((uvmcreate fourPages).1, some 0x87fff000) := rfl
  have hb : Built 0x80022000 (uvmcreate fourPages).1 0x87fff000 := .create hnodup haligned hcreate
  have hempty := (uvmcreate_ok hnodup haligned hcreate).2.2.2
  obtain ⟨σ', r, h⟩ := (built_finiteMap hb).mapReturns 0x1000 0x1000 0x80000000 PTE_R (by decide)
    (by decide) (by decide) (by decide) fun n _ _ => by rw [hempty]
  exact ⟨_, _, σ', r, hcreate, h, built_finiteMap (hb.mappages (by decide) (by decide) h)⟩

end Xv6.Vm
