import Xv6.Memory.Walk

set_option autoImplicit false

/-! # The map that a page table stands for

For each page number below `MAXVA / PGSIZE` a page table says to which frame the page is mapped, if
it is: the answer is what `walk` finds (`lookup`). As an abstract map (`pageMap`) the table is
changed by `mappages` as by `mapPages`, by `uvmunmap` as by `unmapPages` and by `uvmclear` at one
page. -/

namespace Xv6.Vm

open Function List Structures

/-- The mapping that `walk` finds for an address. -/
def lookup (σ : Mem) (root va : Addr) : Option Frame :=
  match walk σ root va false with
  | .ok (σ, some pte) => frame (σ.load pte)
  | _ => none

def pageAddr (n : Nat) : Addr := BitVec.ofNat 64 (n * 4096)

/-- The map from page numbers to frames. -/
def pageMap (σ : Mem) (root : Addr) (n : Nat) : Option Frame :=
  if n < 2 ^ 26 then lookup σ root (pageAddr n) else none

/-- The map with `count` pages from `first` on mapped to the frames from `pa` on. -/
def mapPages (f : Nat → Option Frame) (first count : Nat) (pa : Addr) (flags : BitVec 64) (n : Nat) :
    Option Frame :=
  if first ≤ n ∧ n < first + count then some (pa + pageAddr (n - first), flags) else f n

/-- The map without `count` pages from `first` on. -/
def unmapPages (f : Nat → Option Frame) (first count : Nat) (n : Nat) : Option Frame :=
  if first ≤ n ∧ n < first + count then none else f n

/-- The physical pages to which `count` pages from `first` on are mapped. -/
def frames (f : Nat → Option Frame) (first count : Nat) : List Addr :=
  (List.range' first count).filterMap fun n => (f n).map Prod.fst

variable {σ σ' : Mem} {root va a pa last : Addr} {perm : BitVec 64} {f : Nat → Option Frame}
  {first count n : Nat}

/-! ## Looking pages up -/

theorem walk_of_lt (h : va.toNat < 2 ^ 38) (alloc : Bool) :
    walk σ root va alloc = .ok (walkFrom va alloc 2 σ root) := by
  have hlt : ¬ MAXVA ≤ va := by
    rw [BitVec.le_def]
    exact Nat.not_le.2 h
  rw [walk, if_neg hlt]

theorem walk_of_le (h : 2 ^ 38 ≤ va.toNat) (alloc : Bool) : walk σ root va alloc = .error "walk" := by
  have hle : MAXVA ≤ va := by
    rw [BitVec.le_def]
    exact h
  rw [walk, if_pos hle]

theorem lookup_eq_find (h : va.toNat < 2 ^ 38) :
    lookup σ root va = find child frame σ.page root (path va) (px 0 va) := by
  unfold lookup
  rw [walk_of_lt h, walkFrom_find]
  cases hf : follow child σ.page root (path va) with
  | none =>
    rw [find_of_follow_none hf, show follow child σ.page root (indices va 2) = none from hf]
    rfl
  | some b =>
    rw [find_of_follow hf, show follow child σ.page root (indices va 2) = some b from hf]
    rfl

theorem toNat_pageAddr (h : n < 2 ^ 26) : (pageAddr n).toNat = n * 4096 := by
  rw [pageAddr, BitVec.toNat_ofNat]
  omega

theorem pageMap_eq_find (hn : n < 2 ^ 26) :
    pageMap σ root n = find child frame σ.page root (path (pageAddr n)) (px 0 (pageAddr n)) := by
  have hlt : (pageAddr n).toNat < 2 ^ 38 := by
    rw [toNat_pageAddr hn]
    omega
  rw [pageMap, if_pos hn, lookup_eq_find hlt]

theorem lookup_eq_pageMap (h : va.toNat < 2 ^ 38) : lookup σ root va = pageMap σ root (va.toNat / 4096) := by
  have hn : va.toNat / 4096 < 2 ^ 26 := by omega
  have hpage : va.toNat / 4096 = (pageAddr (va.toNat / 4096)).toNat / 4096 := by
    rw [toNat_pageAddr hn]
    omega
  rw [lookup_eq_find h, pageMap_eq_find hn, path_eq_of_page hpage, px_eq_of_page hpage]

theorem pageMap_congr
    (h : ∀ q i, q.length = 2 → find child frame σ'.page root q i = find child frame σ.page root q i) :
    pageMap σ' root = pageMap σ root := by
  funext n
  by_cases hn : n < 2 ^ 26
  · rw [pageMap_eq_find hn, pageMap_eq_find hn, h _ _ (path_length _)]
  · rw [pageMap, pageMap, if_neg hn, if_neg hn]

/-! ## Memory outside the table -/

theorem holds_frame (h : ∀ b, σ.Holds root b → σ'.page b = σ.page b) (b : Addr) :
    σ'.Holds root b ↔ σ.Holds root b :=
  Node.congr (fun _ hq => follow_frame h hq) b

theorem pageMap_frame (h : ∀ b, σ.Holds root b → σ'.page b = σ.page b) :
    pageMap σ' root = pageMap σ root :=
  pageMap_congr fun _ _ hq => find_frame h hq.le

theorem Table.frame (ht : Table σ root) (h : ∀ b, σ.Holds root b → σ'.page b = σ.page b)
    (hfree : ∀ b, b ∈ σ'.freelist → ¬ σ.Holds root b) (hnodup : σ'.freelist.Nodup)
    (haligned : ∀ b, b ∈ σ'.freelist → Aligned b) : Table σ' root where
  sep := ht.sep.congr fun _ hq => follow_frame h hq
  free := fun b hb hn => hfree b hb ((holds_frame h b).1 hn)
  nodup := hnodup
  aligned := haligned

/-! ## Writing an entry at the bottom -/

section Store

variable (ht : Table σ root) (hp : follow child σ.page root (path va) = some a)

include ht hp

theorem store_alters (v : BitVec 64) : Alters σ (σ.store ⟨a, px 0 va⟩ v) root [] [] := by
  have hfollow : ∀ q : List (Fin 512), q.length ≤ 2 →
      follow child (σ.store ⟨a, px 0 va⟩ v).page root q = follow child σ.page root q := fun q hq =>
    ht.sep.follow_bottom (path_length va) hp (fun b hb => Mem.store_page_ne hb) hq
  have hnode := Node.congr hfollow
  refine ⟨⟨ht.sep.congr hfollow, ?_, ht.nodup, ht.aligned⟩, ?_, ?_, ?_⟩
  · intro b hb hn
    exact ht.free b hb ((hnode b).1 hn)
  · intro b
    simp [hnode b]
  · intro b hb _
    refine Mem.store_page_ne fun h => hb ((hnode b).2 ?_)
    exact h ▸ ⟨path va, (path_length va).le, hp⟩
  · exact fun hu =>
      hu.congr fun _ _ hq hb => Mem.store_page_ne (ht.sep.above_ne (path_length va) hp hq hb)

/-- **Only the page with that entry is mapped differently.** -/
theorem store_pageMap (hva : va.toNat < 2 ^ 38) (v : BitVec 64) :
    pageMap (σ.store ⟨a, px 0 va⟩ v) root
      = update (pageMap σ root) (va.toNat / 4096) (frame v) := by
  funext n
  by_cases hn : n < 2 ^ 26
  · have hother : ∀ j, j ≠ px 0 va → (σ.store ⟨a, px 0 va⟩ v).page a j = σ.page a j := fun j hj => by
      rw [Mem.store_page_self, update_of_ne hj]
    have hfind := ht.sep.find_bottom (j := px 0 (pageAddr n)) frame (path_length va) hp
      (fun b hb => Mem.store_page_ne hb) hother (path_length (pageAddr n))
    rw [pageMap_eq_find hn, hfind, ← pageMap_eq_find hn, Mem.store_page_self, update_self]
    have hnat := toNat_pageAddr hn
    by_cases hpage : n = va.toNat / 4096
    · have heq : (pageAddr n).toNat / 4096 = va.toNat / 4096 := by omega
      rw [if_pos ⟨path_eq_of_page heq, px_eq_of_page heq 0⟩, hpage, update_self]
    rw [if_neg, update_of_ne hpage]
    rintro ⟨hq, h0⟩
    have := page_eq_of_path (by omega) hva hq h0
    omega
  · rw [update_of_ne (by omega), pageMap, pageMap, if_neg hn, if_neg hn]

end Store

/-! ## `mappages` -/

theorem pageAddr_succ (n : Nat) : pageAddr (n + 1) = PGSIZE + pageAddr n := by
  apply BitVec.eq_of_toNat_eq
  rw [BitVec.toNat_add, pageAddr, pageAddr, BitVec.toNat_ofNat, BitVec.toNat_ofNat,
    show PGSIZE.toNat = 4096 from rfl]
  omega

theorem mapPages_zero (f : Nat → Option Frame) (first : Nat) (pa : Addr) (flags : BitVec 64) :
    mapPages f first 0 pa flags = f := by
  funext n
  exact if_neg (by omega)

theorem mapPages_cons (f : Nat → Option Frame) (first count : Nat) (pa : Addr) (flags : BitVec 64) :
    mapPages (update f first (some (pa, flags))) (first + 1) count (pa + PGSIZE) flags
      = mapPages f first (count + 1) pa flags := by
  funext n
  unfold mapPages
  by_cases hin : first + 1 ≤ n ∧ n < first + 1 + count
  · have hpa : pa + PGSIZE + pageAddr (n - (first + 1)) = pa + pageAddr (n - first) := by
      rw [BitVec.add_assoc, ← pageAddr_succ]
      congr 2
      omega
    rw [if_pos hin, if_pos (by omega), hpa]
  rw [if_neg hin]
  by_cases hn : n = first
  · subst hn
    rw [update_self, if_pos (by omega), Nat.sub_self, pageAddr, Nat.zero_mul, BitVec.add_zero]
  · rw [update_of_ne hn, if_neg (by omega)]

theorem walk_alloc {r : Option PteAddr} (ht : Table σ root) (hva : va.toNat < 2 ^ 38)
    (h : walkFrom va true 2 σ root = (σ', r)) :
    ∃ new, Alters σ σ' root new [] ∧ σ.freelist = new ++ σ'.freelist ∧
      pageMap σ' root = pageMap σ root ∧
      (∀ pte, r = some pte → follow child σ'.page root (path va) = some pte.page ∧
        pte.index = px 0 va ∧ frame (σ'.load pte) = pageMap σ root (va.toNat / 4096)) ∧
      (r = none → σ'.freelist = []) := by
  obtain ⟨new, hnew, hfree, hfind, hsome, hnone⟩ := walkFrom_alloc ht hva follow_nil rfl h
  have hmap := pageMap_congr hfind
  refine ⟨new, hnew, hfree, hmap, fun pte hpte => ?_, hnone⟩
  obtain ⟨hfollow, hindex⟩ := hsome pte hpte
  refine ⟨hfollow, hindex, ?_⟩
  rw [← hmap, ← lookup_eq_pageMap hva, lookup_eq_find hva,
    find_of_follow (show follow child σ'.page root (path va) = some pte.page from hfollow), ← hindex]
  rfl

theorem map_page {pte : PteAddr} (ht : Table σ root) (hva : va.toNat < 2 ^ 38) (hpa : Aligned pa)
    (hperm : perm.toNat < 1024) (h : walkFrom va true 2 σ root = (σ', some pte)) :
    ∃ new, Alters σ (σ'.store pte (pa2pte pa ||| perm ||| PTE_V)) root new [] ∧
      σ.freelist = new ++ σ'.freelist ∧
      pageMap (σ'.store pte (pa2pte pa ||| perm ||| PTE_V)) root
        = update (pageMap σ root) (va.toNat / 4096) (some (pa, perm ||| PTE_V)) := by
  obtain ⟨new, hnew, hfree, hmap, hsome, -⟩ := walk_alloc ht hva h
  obtain ⟨hfollow, hindex, -⟩ := hsome pte rfl
  obtain ⟨b, i⟩ := pte
  obtain rfl : i = px 0 va := hindex
  have hstore := store_alters hnew.table hfollow (pa2pte pa ||| perm ||| PTE_V)
  refine ⟨new, ?_, hfree, ?_⟩
  · have := hnew.trans hstore
    rwa [append_nil] at this
  · rw [store_pageMap hnew.table hfollow hva, hmap, frame_entry hpa hperm]

theorem Aligned.next (ha : Aligned a) : Aligned (a + PGSIZE) := by
  have ha' : a.toNat % 4096 = 0 := ha
  rw [Aligned, BitVec.toNat_add, show PGSIZE.toNat = 4096 from rfl]
  omega

theorem next_page (ha : Aligned a) (hlt : a.toNat < 2 ^ 38) :
    (a + PGSIZE).toNat = a.toNat + 4096 ∧ Aligned (a + PGSIZE) ∧
      (a + PGSIZE).toNat / 4096 = a.toNat / 4096 + 1 := by
  have hadd : (a + PGSIZE).toNat = a.toNat + 4096 := by
    rw [BitVec.toNat_add, show PGSIZE.toNat = 4096 from rfl]
    omega
  have ha' : a.toNat % 4096 = 0 := ha
  refine ⟨hadd, ?_, ?_⟩
  · rw [Aligned, hadd]
    omega
  · rw [hadd]
    omega

/-- What the loop of `mappages` has done when it returns. -/
structure MapsTo (σ σ' : Mem) (root : Addr) (first count : Nat) (pa : Addr) (perm : BitVec 64) :
    Prop where
  alters : ∃ new, Alters σ σ' root new [] ∧ σ.freelist = new ++ σ'.freelist
  bound : first + count ≤ 2 ^ 26
  fresh : ∀ n, first ≤ n → n < first + count → pageMap σ root n = none
  maps : pageMap σ' root = mapPages (pageMap σ root) first count pa (perm ||| PTE_V)

variable {σ₁ : Mem} {k : Nat} {fr : Frame} {b kend : Addr} {doFree : Bool}

theorem MapsTo.cons (h₁ : ∃ new, Alters σ σ₁ root new [] ∧ σ.freelist = new ++ σ₁.freelist)
    (hnone : pageMap σ root first = none)
    (hmap : pageMap σ₁ root = update (pageMap σ root) first (some (pa, perm ||| PTE_V)))
    (h : MapsTo σ₁ σ' root (first + 1) count (pa + PGSIZE) perm) :
    MapsTo σ σ' root first (count + 1) pa perm where
  alters := by
    obtain ⟨new, hnew, hfree⟩ := h₁
    obtain ⟨new', hnew', hfree'⟩ := h.alters
    exact ⟨new ++ new', hnew.trans hnew', by rw [hfree, hfree', append_assoc]⟩
  bound := by
    have := h.bound
    omega
  fresh := by
    intro n hge hlt
    by_cases hn : n = first
    · exact hn ▸ hnone
    · have hthis := h.fresh n (by omega) (by omega)
      rwa [hmap, update_of_ne hn] at hthis
  maps := by
    rw [h.maps, hmap, mapPages_cons]

theorem mappagesFrom_succ (k : Nat) (hlt : a.toNat < 2 ^ 38) :
    mappagesFrom root last perm (k + 1) σ a pa = match walkFrom a true 2 σ root with
        | (σ, none) => .ok (σ, -1)
        | (σ, some pte) =>
          if valid (σ.load pte) then .error "remap"
          else if a = last then .ok (σ.store pte (pa2pte pa ||| perm ||| PTE_V), 0)
          else mappagesFrom root last perm k (σ.store pte (pa2pte pa ||| perm ||| PTE_V)) (a + PGSIZE)
            (pa + PGSIZE) := by
  rw [mappagesFrom, walk_of_lt hlt]
  rfl

theorem mappagesFrom_ok {r : Int} (ht : Table σ root) (ha : Aligned a) (hlast : Aligned last)
    (hpa : Aligned pa) (hperm : perm.toNat < 1024) (hk : k = pagesLeft a)
    (h : mappagesFrom root last perm k σ a pa = .ok (σ', r)) :
    ∃ count, MapsTo σ σ' root (a.toNat / 4096) count pa perm ∧
      ((r = 0 ∧ 0 < count ∧ a.toNat / 4096 + count = last.toNat / 4096 + 1) ∨
        (r = -1 ∧ σ'.freelist = [] ∧
          (a.toNat ≤ last.toNat → a.toNat / 4096 + count ≤ last.toNat / 4096))) := by
  induction k generalizing σ a pa with
  | zero => cases h
  | succ k ih =>
    have ha' : a.toNat % 4096 = 0 := ha
    have hlast' : last.toNat % 4096 = 0 := hlast
    unfold pagesLeft at hk
    have hlt : a.toNat < 2 ^ 38 := by omega
    rw [mappagesFrom_succ k hlt] at h
    split at h
    · next σ₁ hw =>
      cases h
      obtain ⟨new, hnew, hfree, hmap, -, hempty⟩ := walk_alloc ht hlt hw
      refine ⟨0, ⟨⟨new, hnew, hfree⟩, by omega, fun n _ _ => by omega, ?_⟩, .inr ⟨rfl, hempty rfl, ?_⟩⟩
      · rw [mapPages_zero, hmap]
      · omega
    next σ₁ pte hw =>
    split at h
    · cases h
    next hv =>
    obtain ⟨-, -, -, -, hsome, -⟩ := walk_alloc ht hlt hw
    have hnone : pageMap σ root (a.toNat / 4096) = none := by
      rw [← (hsome pte rfl).2.2]
      exact frame_of_not_valid hv
    obtain ⟨new, hnew, hfree, hmap⟩ := map_page ht hlt hpa hperm hw
    split at h
    · next hend =>
      cases h
      have hrest : MapsTo (σ₁.store pte (pa2pte pa ||| perm ||| PTE_V))
          (σ₁.store pte (pa2pte pa ||| perm ||| PTE_V)) root (a.toNat / 4096 + 1) 0 (pa + PGSIZE) perm :=
        ⟨⟨[], .refl hnew.table, rfl⟩, by omega, fun n _ _ => by omega, (mapPages_zero ..).symm⟩
      exact ⟨1, .cons ⟨new, hnew, hfree⟩ hnone hmap hrest, .inl ⟨rfl, Nat.one_pos, by rw [hend]⟩⟩
    next hend =>
    obtain ⟨hnat, hal, hpage⟩ := next_page ha hlt
    obtain ⟨count, hmaps, hr⟩ := ih hnew.table hal hpa.next (by unfold pagesLeft; omega) h
    rw [hpage] at hmaps hr
    have hne : a.toNat ≠ last.toNat := fun heq => hend (BitVec.eq_of_toNat_eq heq)
    refine ⟨count + 1, .cons ⟨new, hnew, hfree⟩ hnone hmap hmaps, ?_⟩
    rcases hr with ⟨hr, hpos, heq⟩ | ⟨hr, hempty, hle⟩
    · exact .inl ⟨hr, by omega, by omega⟩
    · exact .inr ⟨hr, hempty, fun hal => by have := hle (by omega); omega⟩

theorem mappagesFrom_returns (ht : Table σ root) (ha : Aligned a) (hlast : Aligned last)
    (hpa : Aligned pa) (hperm : perm.toNat < 1024) (hk : k = pagesLeft a) (hle : a.toNat ≤ last.toNat)
    (hmax : last.toNat < 2 ^ 38)
    (hfree : ∀ n, a.toNat / 4096 ≤ n → n ≤ last.toNat / 4096 → pageMap σ root n = none) :
    ∃ σ' r, mappagesFrom root last perm k σ a pa = .ok (σ', r) := by
  induction k generalizing σ a pa with
  | zero =>
    unfold pagesLeft at hk
    omega
  | succ k ih =>
    have ha' : a.toNat % 4096 = 0 := ha
    have hlast' : last.toNat % 4096 = 0 := hlast
    unfold pagesLeft at hk
    have hlt : a.toNat < 2 ^ 38 := by omega
    rw [mappagesFrom_succ k hlt]
    split
    · exact ⟨_, _, rfl⟩
    next σ₁ pte hw =>
    obtain ⟨-, -, -, -, hsome, -⟩ := walk_alloc ht hlt hw
    have hv : ¬ valid (σ₁.load pte) = true := fun hv => by
      have hthis := (hsome pte rfl).2.2
      rw [hfree _ (Nat.le_refl _) (by omega), frame_of_valid hv] at hthis
      cases hthis
    rw [if_neg hv]
    split
    · exact ⟨_, _, rfl⟩
    next hend =>
    obtain ⟨new, hnew, -, hmap⟩ := map_page ht hlt hpa hperm hw
    obtain ⟨hnat, hal, hpage⟩ := next_page ha hlt
    have hne : a.toNat ≠ last.toNat := fun heq => hend (BitVec.eq_of_toNat_eq heq)
    refine ih hnew.table hal hpa.next (by unfold pagesLeft; omega) (by omega) fun n hge hn => ?_
    rw [hmap, update_of_ne (by omega)]
    exact hfree n (by omega) hn

/-! ## `uvmunmap` -/

theorem unmapPages_zero (f : Nat → Option Frame) (first : Nat) : unmapPages f first 0 = f := by
  funext n
  exact if_neg (by omega)

theorem unmapPages_cons (f : Nat → Option Frame) (first count : Nat) :
    unmapPages (update f first none) (first + 1) count = unmapPages f first (count + 1) := by
  funext n
  unfold unmapPages
  by_cases hin : first + 1 ≤ n ∧ n < first + 1 + count
  · rw [if_pos hin, if_pos (by omega)]
  rw [if_neg hin]
  by_cases hn : n = first
  · subst hn
    rw [update_self, if_pos (by omega)]
  · rw [update_of_ne hn, if_neg (by omega)]

theorem frames_congr {f g : Nat → Option Frame} (h : ∀ n, first ≤ n → n < first + count → f n = g n) :
    frames f first count = frames g first count := by
  refine filterMap_congr fun n hn => ?_
  obtain ⟨hge, hlt⟩ := mem_range'_1.1 hn
  rw [h n hge hlt]

theorem frames_cons (h : f first = some fr) :
    frames f first (count + 1) = fr.1 :: frames (update f first none) (first + 1) count := by
  have htail : frames (update f first none) (first + 1) count = frames f (first + 1) count :=
    frames_congr fun n hge _ => update_of_ne (by omega) _ _
  rw [htail, frames, range'_succ, filterMap_cons, h]
  rfl

theorem kfree_eq (h : kfree kend σ b = .ok σ') : σ' = { σ.memset b 1 with freelist := b :: σ.freelist } := by
  unfold kfree at h
  split at h
  · cases h
  · exact (Except.ok.inj h).symm

theorem kfree_page_ne {c : Addr} (h : kfree kend σ b = .ok σ') (hne : c ≠ b) : σ'.page c = σ.page c := by
  obtain rfl := kfree_eq h
  exact Mem.memset_page_ne (σ := σ) hne

theorem kfree_alters (ht : Table σ root) (hb : ¬ σ.Holds root b) (hf : b ∉ σ.freelist)
    (hal : Aligned b) (h : kfree kend σ b = .ok σ') :
    Alters σ σ' root [] [b] ∧ σ'.freelist = b :: σ.freelist ∧ pageMap σ' root = pageMap σ root := by
  have hpages : ∀ c, σ.Holds root c → σ'.page c = σ.page c := fun c hc =>
    kfree_page_ne h fun heq => hb (heq ▸ hc)
  have hothers : ∀ c, c ≠ b → σ'.page c = σ.page c := fun c hc => kfree_page_ne h hc
  obtain rfl := kfree_eq h
  refine ⟨⟨ht.frame hpages ?_ ?_ ?_, ?_, ?_, fun hu => hu.frame hpages⟩, rfl, pageMap_frame hpages⟩
  · intro c hc
    rcases mem_cons.1 hc with rfl | hc
    · exact hb
    · exact ht.free c hc
  · exact nodup_cons.2 ⟨hf, ht.nodup⟩
  · intro c hc
    rcases mem_cons.1 hc with rfl | hc
    · exact hal
    · exact ht.aligned c hc
  · intro c
    rw [holds_frame (σ := σ) hpages]
    simp
  · intro c _ hc
    exact hothers c fun heq => hc (mem_singleton.2 heq)

/-- The pages that `uvmunmap` gives back. -/
def given (f : Nat → Option Frame) (first count : Nat) (doFree : Bool) : List Addr :=
  if doFree then frames f first count else []

/-- The pages may be given back: they are not free, not in the table and no two of them are the
    same. -/
structure Releasable (σ : Mem) (root : Addr) (l : List Addr) : Prop where
  nodup : (l ++ σ.freelist).Nodup
  outside : ∀ b, b ∈ l → ¬ σ.Holds root b

/-- What the loop of `uvmunmap` has done when it returns. -/
structure Unmaps (σ σ' : Mem) (root : Addr) (first count : Nat) (doFree : Bool) : Prop where
  alters : Alters σ σ' root [] (given (pageMap σ root) first count doFree)
  freelist : σ'.freelist = (given (pageMap σ root) first count doFree).reverse ++ σ.freelist
  mapped : ∀ n, first ≤ n → n < first + count → ∃ fr, pageMap σ root n = some fr ∧ fr.2 ≠ PTE_V
  unmaps : pageMap σ' root = unmapPages (pageMap σ root) first count

theorem Unmaps.nil (ht : Table σ root) (first : Nat) (doFree : Bool) : Unmaps σ σ root first 0 doFree := by
  have hgiven : given (pageMap σ root) first 0 doFree = [] := by cases doFree <;> rfl
  refine ⟨?_, ?_, fun n _ _ => by omega, (unmapPages_zero ..).symm⟩
  · rw [hgiven]
    exact .refl ht
  · rw [hgiven]
    rfl

theorem unmap_page (ht : Table σ root)
    (hlt : a.toNat < 2 ^ 38) (hfollow : follow child σ.page root (path a) = some b)
    (hrel : doFree = true → ¬ σ.Holds root (pte2pa (σ.page b (px 0 a))) ∧
      pte2pa (σ.page b (px 0 a)) ∉ σ.freelist)
    (h : (if doFree = true then kfree kend σ (pte2pa (σ.page b (px 0 a))) else .ok σ) = .ok σ₁) :
    Alters σ (σ₁.store ⟨b, px 0 a⟩ 0) root [] (if doFree then [pte2pa (σ.page b (px 0 a))] else []) ∧
      σ₁.freelist = (if doFree then [pte2pa (σ.page b (px 0 a))] else []) ++ σ.freelist ∧
      pageMap (σ₁.store ⟨b, px 0 a⟩ 0) root = update (pageMap σ root) (a.toNat / 4096) none := by
  cases doFree with
  | false =>
    cases h
    refine ⟨store_alters ht hfollow 0, rfl, ?_⟩
    rw [store_pageMap ht hfollow hlt]
    rfl
  | true =>
    rw [if_pos rfl] at h ⊢
    obtain ⟨hout, hnot⟩ := hrel rfl
    obtain ⟨halt, hlist, hmap⟩ := kfree_alters ht hout hnot (pte2pa_aligned _) h
    have hpages : ∀ c, σ.Holds root c → σ₁.page c = σ.page c := by
      intro c hc
      refine kfree_page_ne h ?_
      rintro rfl
      exact hout hc
    have hfollow' : follow child σ₁.page root (path a) = some b :=
      (follow_frame hpages (path_length a).le).trans hfollow
    have hstore := halt.trans (store_alters halt.table hfollow' 0)
    refine ⟨hstore, hlist, ?_⟩
    rw [store_pageMap halt.table hfollow' hlt, hmap]
    rfl

theorem given_cons (h : f first = some fr) : given f first (count + 1) doFree
      = (if doFree then [fr.1] else []) ++ given (update f first none) (first + 1) count doFree := by
  cases doFree with
  | false => rfl
  | true => exact frames_cons h

theorem Unmaps.cons (hmapped : pageMap σ root first = some fr)
    (hleaf : fr.2 ≠ PTE_V) (h₁ : Alters σ σ₁ root [] (if doFree then [fr.1] else []))
    (hlist : σ₁.freelist = (if doFree then [fr.1] else []) ++ σ.freelist)
    (hmap : pageMap σ₁ root = update (pageMap σ root) first none)
    (h : Unmaps σ₁ σ' root (first + 1) count doFree) : Unmaps σ σ' root first (count + 1) doFree where
  alters := by
    rw [given_cons hmapped, ← hmap]
    exact h₁.trans h.alters
  freelist := by
    rw [h.freelist, hlist, given_cons hmapped, ← hmap, reverse_append, append_assoc]
    cases doFree <;> rfl
  mapped := by
    intro n hge hlt
    by_cases hn : n = first
    · exact ⟨fr, hn ▸ hmapped, hleaf⟩
    · have hthis := h.mapped n (by omega) (by omega)
      rwa [hmap, update_of_ne hn] at hthis
  unmaps := by
    rw [h.unmaps, hmap, unmapPages_cons]

theorem Releasable.tail (h : Releasable σ root (given (pageMap σ root) first (count + 1) doFree))
    (hmapped : pageMap σ root first = some fr)
    (h₁ : Alters σ σ₁ root [] (if doFree then [fr.1] else []))
    (hlist : σ₁.freelist = (if doFree then [fr.1] else []) ++ σ.freelist)
    (hmap : pageMap σ₁ root = update (pageMap σ root) first none) :
    Releasable σ₁ root (given (pageMap σ₁ root) (first + 1) count doFree) where
  nodup := by
    have hnd := h.nodup
    rw [given_cons hmapped, ← hmap] at hnd
    rw [hlist]
    refine hnd.perm ?_
    rw [← append_assoc]
    exact (perm_append_comm).append_right _
  outside := by
    intro b hb hn
    refine h.outside b ?_ ((h₁.nodes b).1 hn |>.resolve_right (by simp))
    rw [given_cons hmapped, ← hmap]
    exact mem_append_right _ hb

theorem uvmunmapFrom_succ (k : Nat) (hlt : a.toNat < 2 ^ 38) (hlast : a < last) :
    uvmunmapFrom kend root last doFree (k + 1) σ a = match follow child σ.page root (path a) with
        | none => .error "uvmunmap: walk"
        | some b =>
          if ¬ valid (σ.page b (px 0 a)) then .error "uvmunmap: not mapped"
          else if pteFlags (σ.page b (px 0 a)) = PTE_V then .error "uvmunmap: not a leaf"
          else
            (if doFree = true then kfree kend σ (pte2pa (σ.page b (px 0 a))) else .ok σ) >>= fun σ₁ =>
              uvmunmapFrom kend root last doFree k (σ₁.store ⟨b, px 0 a⟩ 0) (a + PGSIZE) := by
  rw [uvmunmapFrom, if_pos hlast, walk_of_lt hlt, walkFrom_find, path]
  cases follow child σ.page root (indices a 2) with
  | none => rfl
  | some b =>
    cases doFree with
    | false => simp only [Bool.false_eq_true, if_false]; rfl
    | true => simp only [if_true]; rfl

theorem uvmunmapFrom_turn (hlt : a.toNat < 2 ^ 38) (hmore : a < last)
    (hrel : Releasable σ root (given (pageMap σ root) (a.toNat / 4096) (count + 1) doFree))
    (h : uvmunmapFrom kend root last doFree (k + 1) σ a = .ok σ') :
    ∃ b σ₁, follow child σ.page root (path a) = some b ∧
      pageMap σ root (a.toNat / 4096) = some (pte2pa (σ.page b (px 0 a)), pteFlags (σ.page b (px 0 a))) ∧
      pteFlags (σ.page b (px 0 a)) ≠ PTE_V ∧
      (doFree = true → ¬ σ.Holds root (pte2pa (σ.page b (px 0 a))) ∧
        pte2pa (σ.page b (px 0 a)) ∉ σ.freelist) ∧
      (if doFree = true then kfree kend σ (pte2pa (σ.page b (px 0 a))) else .ok σ) = .ok σ₁ ∧
      uvmunmapFrom kend root last doFree k (σ₁.store ⟨b, px 0 a⟩ 0) (a + PGSIZE) = .ok σ' := by
  rw [uvmunmapFrom_succ k hlt hmore] at h
  cases hfollow : follow child σ.page root (path a) with
  | none =>
    rw [hfollow] at h
    cases h
  | some b =>
    simp only [hfollow] at h
    split at h
    · cases h
    next hv =>
    split at h
    · cases h
    next hleaf =>
    rw [not_not] at hv
    have hframe : pageMap σ root (a.toNat / 4096)
        = some (pte2pa (σ.page b (px 0 a)), pteFlags (σ.page b (px 0 a))) := by
      rw [← lookup_eq_pageMap hlt, lookup_eq_find hlt, find_of_follow hfollow]
      exact frame_of_valid hv
    obtain ⟨σ₁, hfree, hrest⟩ := ok_of_bind h
    refine ⟨b, σ₁, rfl, hframe, hleaf, ?_, hfree, hrest⟩
    rintro rfl
    rw [given_cons hframe] at hrel
    exact ⟨hrel.outside _ (by simp), fun hin => (nodup_cons.1 hrel.nodup).1 (by simp [hin])⟩

theorem uvmunmapFrom_ok (ht : Table σ root) (ha : Aligned a)
    (hlast : Aligned last) (hk : k = pagesLeft a)
    (hrel : Releasable σ root
      (given (pageMap σ root) (a.toNat / 4096) (last.toNat / 4096 - a.toNat / 4096) doFree))
    (h : uvmunmapFrom kend root last doFree k σ a = .ok σ') :
    Unmaps σ σ' root (a.toNat / 4096) (last.toNat / 4096 - a.toNat / 4096) doFree ∧
      (a.toNat < last.toNat → last.toNat ≤ 2 ^ 38) := by
  induction k generalizing σ a with
  | zero =>
    rw [uvmunmapFrom] at h
    split at h
    · cases h
    next hge =>
    rw [BitVec.lt_def, Nat.not_lt] at hge
    cases h
    rw [Nat.sub_eq_zero_of_le (Nat.div_le_div_right hge)]
    exact ⟨.nil ht _ _, fun hlt => by omega⟩
  | succ k ih =>
    have ha' : a.toNat % 4096 = 0 := ha
    have hlast' : last.toNat % 4096 = 0 := hlast
    unfold pagesLeft at hk
    have hlt : a.toNat < 2 ^ 38 := by omega
    by_cases hmore : a < last
    · have hmore' := BitVec.lt_def.1 hmore
      have hcount : last.toNat / 4096 - a.toNat / 4096
          = last.toNat / 4096 - (a.toNat / 4096 + 1) + 1 := by omega
      rw [hcount] at hrel ⊢
      obtain ⟨b, σ₁, hfollow, hframe, hleaf, hout, hfree, hrest⟩ := uvmunmapFrom_turn hlt hmore hrel h
      obtain ⟨halt, hlist, hmap⟩ := unmap_page ht hlt hfollow hout hfree
      obtain ⟨hnat, hal, hpage⟩ := next_page ha hlt
      have hrel' := hrel.tail hframe halt hlist hmap
      rw [← hpage] at hrel'
      obtain ⟨hun, hmax⟩ := ih halt.table hal (by unfold pagesLeft; omega) hrel' hrest
      rw [hpage] at hun
      exact ⟨.cons hframe hleaf halt hlist hmap hun, fun _ => by omega⟩
    rw [uvmunmapFrom, if_neg hmore] at h
    rw [BitVec.lt_def, Nat.not_lt] at hmore
    cases h
    rw [Nat.sub_eq_zero_of_le (Nat.div_le_div_right hmore)]
    exact ⟨.nil ht _ _, fun hlt => by omega⟩

theorem follow_of_pageMap (hlt : a.toNat < 2 ^ 38) (h : pageMap σ root (a.toNat / 4096) = some fr) :
    ∃ b, follow child σ.page root (path a) = some b ∧ valid (σ.page b (px 0 a)) = true ∧
      fr = (pte2pa (σ.page b (px 0 a)), pteFlags (σ.page b (px 0 a))) := by
  rw [← lookup_eq_pageMap hlt, lookup_eq_find hlt] at h
  cases hfollow : follow child σ.page root (path a) with
  | none =>
    rw [find_of_follow_none hfollow] at h
    cases h
  | some b =>
    rw [find_of_follow hfollow] at h
    by_cases hv : valid (σ.page b (px 0 a)) = true
    · rw [frame_of_valid hv] at h
      exact ⟨b, rfl, hv, (Option.some.inj h).symm⟩
    · rw [frame_of_not_valid hv] at h
      cases h

/-- `uvmunmap` panics only if a page of the range is not mapped or lies above `MAXVA`, or if a frame
    that it frees is not memory of the allocator. -/
theorem uvmunmapFrom_returns (ht : Table σ root)
    (ha : Aligned a) (hlast : Aligned last) (hk : k = pagesLeft a)
    (hrel : Releasable σ root
      (given (pageMap σ root) (a.toNat / 4096) (last.toNat / 4096 - a.toNat / 4096) doFree))
    (hmax : a.toNat < last.toNat → last.toNat ≤ 2 ^ 38)
    (hmapped : ∀ n, a.toNat / 4096 ≤ n → n < last.toNat / 4096 → ∃ fr, pageMap σ root n = some fr ∧
      fr.2 ≠ PTE_V ∧ (doFree = true → kend ≤ fr.1 ∧ fr.1 < PHYSTOP)) :
    ∃ σ', uvmunmapFrom kend root last doFree k σ a = .ok σ' := by
  induction k generalizing σ a with
  | zero =>
    have hge : ¬ a < last := fun hlt => by
      rw [BitVec.lt_def] at hlt
      have hle := hmax hlt
      unfold pagesLeft at hk
      omega
    rw [uvmunmapFrom, if_neg hge]
    exact ⟨_, rfl⟩
  | succ k ih =>
    have ha' : a.toNat % 4096 = 0 := ha
    have hlast' : last.toNat % 4096 = 0 := hlast
    unfold pagesLeft at hk
    have hlt : a.toNat < 2 ^ 38 := by omega
    by_cases hmore : a < last
    · rw [uvmunmapFrom_succ k hlt hmore]
      rw [BitVec.lt_def] at hmore
      obtain ⟨fr, hframe, hleaf, hrange⟩ := hmapped _ (Nat.le_refl _) (by omega)
      obtain ⟨b, hfollow, hv, rfl⟩ := follow_of_pageMap hlt hframe
      have hcount : last.toNat / 4096 - a.toNat / 4096
          = last.toNat / 4096 - (a.toNat / 4096 + 1) + 1 := by omega
      rw [hcount] at hrel
      obtain ⟨σ₁, hfree⟩ : ∃ σ₁, (if doFree = true then kfree kend σ (pte2pa (σ.page b (px 0 a)))
          else .ok σ) = .ok σ₁ := by
        cases doFree with
        | false => exact ⟨_, rfl⟩
        | true =>
          obtain ⟨hlo, hhi⟩ := hrange rfl
          have hal : pte2pa (σ.page b (px 0 a)) % PGSIZE = 0 := by
            apply BitVec.eq_of_toNat_eq
            rw [BitVec.toNat_umod]
            exact pte2pa_aligned _
          rw [if_pos rfl, kfree, if_neg]
          · exact ⟨_, rfl⟩
          rintro (hne | hlt | hle)
          · exact hne hal
          · exact absurd hlo (BitVec.not_le.2 hlt)
          · exact absurd hhi (BitVec.not_lt.2 hle)
      have hout : doFree = true → ¬ σ.Holds root (pte2pa (σ.page b (px 0 a))) ∧
          pte2pa (σ.page b (px 0 a)) ∉ σ.freelist := by
        rintro rfl
        rw [given_cons hframe] at hrel
        exact ⟨hrel.outside _ (by simp), fun hin => (nodup_cons.1 hrel.nodup).1 (by simp [hin])⟩
      obtain ⟨halt, hlist, hmap⟩ := unmap_page ht hlt hfollow hout hfree
      obtain ⟨hnat, hal, hpage⟩ := next_page ha hlt
      have hrel' := hrel.tail hframe halt hlist hmap
      rw [← hpage] at hrel'
      obtain ⟨σ', hrest⟩ := ih halt.table hal (by unfold pagesLeft; omega) hrel'
        (fun _ => hmax hmore) fun n hge hn => by
          rw [hmap, update_of_ne (by omega)]
          exact hmapped n (by omega) hn
      simp only [hfollow, not_true_eq_false, hv, if_false, if_neg hleaf, hfree]
      exact ⟨σ', hrest⟩
    · rw [uvmunmapFrom, if_neg hmore]
      exact ⟨_, rfl⟩

end Xv6.Vm
