import Xv6.Memory.PageTable

set_option autoImplicit false

/-! # What the page table functions do to the table

A page table is a radix tree of depth two over physical memory: the entries of its upper pages are
pointers to pages below (`child`), those of the pages at the bottom are the mappings (`frame`).
`Table` says that it is a tree whose pages are not on the free list. Each function is described by
what it adds to the pages of the table and what it leaves alone (`Alters`), and by what happens to
the map from page numbers to frames (`pageMap`) that the table stands for. -/

namespace Xv6.Vm

open Function List Structures Linked

/-- A frame: a physical page and the flags with which it is mapped. -/
abbrev Frame := Addr × BitVec 64

/-- The page to which an entry of an upper page points. -/
def child (e : BitVec 64) : Option Addr := if valid e then some (pte2pa e) else none

/-- The mapping in an entry of a page at the bottom. -/
def frame (e : BitVec 64) : Option Frame := if valid e then some (pte2pa e, pteFlags e) else none

/-- The indices of an address from the given level down to level 1. -/
def indices (va : Addr) : Nat → List (Fin 512)
  | 0 => []
  | level + 1 => px (level + 1) va :: indices va level

/-- The path from the top page to the page with the entry for an address. -/
def path (va : Addr) : List (Fin 512) := indices va 2

abbrev Mem.Holds (σ : Mem) (root a : Addr) : Prop := Node child σ.page root 2 a

/-- The pages of the table are a tree and not free; free pages are on the list once. -/
structure Table (σ : Mem) (root : Addr) : Prop where
  sep : Separated child σ.page root 2
  free : ∀ a, a ∈ σ.freelist → ¬ σ.Holds root a
  nodup : σ.freelist.Nodup
  aligned : ∀ a, a ∈ σ.freelist → Aligned a

/-- The entries of the upper pages are pointers, and those above `MAXVA` are not used. -/
structure Upper (σ : Mem) (root : Addr) : Prop where
  pointer : ∀ p a i, p.length < 2 → follow child σ.page root p = some a → valid (σ.page a i) = true →
    σ.page a i &&& (PTE_R ||| PTE_W ||| PTE_X) = 0
  half : ∀ i : Fin 512, 256 ≤ i.val → ¬ valid (σ.page root i) = true

/-- From `σ` to `σ'` the table has got the pages `new`, and of the pages that are not in it only
    those in `freed` have changed; the upper pages still hold pointers only, if they did. -/
structure Alters (σ σ' : Mem) (root : Addr) (new freed : List Addr) : Prop where
  table : Table σ' root
  nodes : ∀ a, σ'.Holds root a ↔ σ.Holds root a ∨ a ∈ new
  others : ∀ a, ¬ σ'.Holds root a → a ∉ freed → σ'.page a = σ.page a
  upper : Upper σ root → Upper σ' root

variable {σ σ' σ'' : Mem} {root va a pa : Addr} {e perm : BitVec 64} {new new' freed freed' : List Addr}

theorem Alters.refl (ht : Table σ root) : Alters σ σ root [] [] where
  table := ht
  nodes := by simp
  others := fun _ _ _ => rfl
  upper := id

theorem Alters.trans (h : Alters σ σ' root new freed) (h' : Alters σ' σ'' root new' freed') :
    Alters σ σ'' root (new ++ new') (freed ++ freed') where
  table := h'.table
  nodes := by
    intro a
    rw [h'.nodes, h.nodes, mem_append]
    exact or_assoc
  others := by
    intro a ha hf
    rw [mem_append, not_or] at hf
    have ha' : ¬ σ'.Holds root a := fun hn => ha ((h'.nodes a).2 (.inl hn))
    rw [h'.others a ha hf.2, h.others a ha' hf.1]
  upper := fun hu => h'.upper (h.upper hu)

/-! ## Entries -/

theorem child_of_valid (h : valid e = true) : child e = some (pte2pa e) := if_pos h

theorem child_of_not_valid (h : ¬ valid e = true) : child e = none := if_neg h

theorem frame_of_valid (h : valid e = true) : frame e = some (pte2pa e, pteFlags e) := if_pos h

theorem frame_of_not_valid (h : ¬ valid e = true) : frame e = none := if_neg h

theorem frame_entry (hpa : Aligned pa) (hperm : perm.toNat < 1024) :
    frame (pa2pte pa ||| perm ||| PTE_V) = some (pa, perm ||| PTE_V) := by
  rw [frame_of_valid valid_entry, pte2pa_entry hpa hperm, pteFlags_entry hperm]

theorem child_pointer (hpa : Aligned pa) : child (pa2pte pa ||| PTE_V) = some pa := by
  have h : pa2pte pa ||| PTE_V = pa2pte pa ||| 0 ||| PTE_V := by simp
  rw [h, child_of_valid valid_entry, pte2pa_entry hpa (by decide)]

theorem path_length (va : Addr) : (path va).length = 2 := rfl

variable {va' r : Addr} {i : Fin 512} {p : List (Fin 512)} {rest : List Addr}

theorem page_eq_of_path {va : Addr} (hva : va.toNat < 2 ^ 38) (hva' : va'.toNat < 2 ^ 38)
    (hp : path va = path va') (h0 : px 0 va = px 0 va') : va.toNat / 4096 = va'.toNat / 4096 := by
  have h2 : px 2 va = px 2 va' := (List.cons.inj hp).1
  have h1 : px 1 va = px 1 va' := (List.cons.inj (List.cons.inj hp).2).1
  exact page_eq_of_px hva hva' h2 h1 h0

theorem path_eq_of_page {va : Addr} (h : va.toNat / 4096 = va'.toNat / 4096) : path va = path va' := by
  simp only [path, indices, px_eq_of_page h]

/-! ## Memory -/

theorem Mem.store_page_ne {pte : PteAddr} {v : BitVec 64} (h : a ≠ pte.page) :
    (σ.store pte v).page a = σ.page a := update_of_ne h _ _

theorem Mem.store_page_self (σ : Mem) (pte : PteAddr) (v : BitVec 64) :
    (σ.store pte v).page pte.page = update (σ.page pte.page) pte.index v :=
  update_self ..

theorem Mem.memset_page_ne {c : BitVec 8} (h : a ≠ pa) : (σ.memset pa c).page a = σ.page a :=
  update_of_ne h _ _

theorem Mem.memset_page_self (σ : Mem) (pa : Addr) (c : BitVec 8) (i : Fin 512) :
    (σ.memset pa c).page pa i = c.replicate 8 := by
  show update σ.page pa (fun _ => c.replicate 8) pa i = _
  rw [update_self]

/-! ## The upper pages

`freewalk` tells a pointer to another page of the table from a mapping by its flags: a pointer has
none of `PTE_R`, `PTE_W` and `PTE_X`. That the entries of the upper pages are such pointers, and
that there are none in the half of the top page that stands for addresses above `MAXVA`, is what
`walk` sees to, and the rest of `vm.c` writes to the pages at the bottom only. -/

theorem Upper.congr (hu : Upper σ root)
    (h : ∀ p b, p.length < 2 → follow child σ.page root p = some b → σ'.page b = σ.page b) :
    Upper σ' root := by
  have hfollow : ∀ p : List (Fin 512), p.length < 2 →
      follow child σ'.page root p = follow child σ.page root p := fun p hp =>
    follow_agree (d := 2) (fun q b hq hb => h q b hq hb) hp.le
  constructor
  · intro p b i hp hb hv
    rw [hfollow p hp] at hb
    rw [h p b hp hb] at hv ⊢
    exact hu.pointer p b i hp hb hv
  intro i hi
  rw [h [] root (by decide) rfl]
  exact hu.half i hi

theorem Upper.frame (hu : Upper σ root) (h : ∀ b, σ.Holds root b → σ'.page b = σ.page b) : Upper σ' root :=
  hu.congr fun p b hp hb => h b ⟨p, hp.le, hb⟩

theorem pointer_flags (r : Addr) : (pa2pte r ||| PTE_V) &&& (PTE_R ||| PTE_W ||| PTE_X) = 0 := by
  have hlow : ∀ i : Fin 10, (PTE_V.getLsbD i.val && (PTE_R ||| PTE_W ||| PTE_X).getLsbD i.val) = false := by
    decide
  apply BitVec.eq_of_getLsbD_eq
  intro i hi
  rw [BitVec.getLsbD_and, BitVec.getLsbD_or, pa2pte, BitVec.getLsbD_shiftLeft]
  by_cases h : i < 10
  · have hbit := hlow ⟨i, h⟩
    simpa [h] using hbit
  have hmask : (PTE_R ||| PTE_W ||| PTE_X).getLsbD i = false := by
    rw [← BitVec.testBit_toNat]
    refine Nat.testBit_lt_two_pow (Nat.lt_of_lt_of_le ?_ (Nat.pow_le_pow_right (by decide) (Nat.not_lt.1 h)))
    decide
  rw [hmask, Bool.and_false]
  simp

theorem Upper.link (hu : Upper σ root) (ht : Table σ root)
    (hl : Linked child Vm.frame σ.page σ'.page root 2 p i a r) (hentry : σ'.page a i = pa2pte r ||| PTE_V)
    (hi : p = [] → i.val < 256) : Upper σ' root := by
  have hfollow : ∀ {q b}, q.length < 2 → follow child σ'.page root q = some b → b ≠ r →
      follow child σ.page root q = some b := by
    intro q b hq hb hne
    rw [follow_eq ht.sep hl hq.le] at hb
    split at hb
    · exact absurd (Option.some.inj hb).symm hne
    · exact hb
  constructor
  · intro q b j hq hb hv
    by_cases hbr : b = r
    · have hnone := hl.noValue j
      rw [← hbr, frame_of_valid hv] at hnone
      cases hnone
    have hold := hfollow hq hb hbr
    by_cases hba : b = a
    · subst hba
      by_cases hj : j = i
      · rw [hj, hentry]
        exact pointer_flags r
      · rw [hl.others j hj] at hv ⊢
        exact hu.pointer q b j hq hold hv
    · rw [hl.frame b hba hbr] at hv ⊢
      exact hu.pointer q b j hq hold hv
  intro j hj
  have hne : root ≠ r := fun h => hl.fresh ⟨[], Nat.zero_le _, congrArg some h⟩
  by_cases hra : root = a
  · have hp : p = [] := ht.sep p [] a hl.above.le (Nat.zero_le _) hl.path (congrArg some hra)
    have hji : j ≠ i := by
      rintro rfl
      have := hi hp
      omega
    rw [hra, hl.others j hji, ← hra]
    exact hu.half j hj
  · rw [hl.frame root hra hne]
    exact hu.half j hj

/-! ## `walk` -/

theorem walkFrom_find (va : Addr) (level : Nat) (σ : Mem) (node : Addr) :
    walkFrom va false level σ node
      = (σ, (follow child σ.page node (indices va level)).map (⟨·, px 0 va⟩)) := by
  induction level generalizing node with
  | zero => rfl
  | succ level ih =>
    rw [walkFrom, indices]
    by_cases hv : valid (σ.load ⟨node, px (level + 1) va⟩) = true
    · rw [follow_cons_some (child_of_valid hv)]
      simp only [hv, if_true]
      exact ih _
    · rw [follow_cons_none (child_of_not_valid hv)]
      simp [hv]

theorem link (ht : Table σ root)
    (hp : follow child σ.page root p = some a) (hlen : p.length < 2) (hv : ¬ valid (σ.page a i) = true)
    (hf : σ.freelist = r :: rest) :
    Linked child frame σ.page
      ((({ σ with freelist := rest }.memset r 5).memset r 0).store ⟨a, i⟩ (pa2pte r ||| PTE_V)).page
      root 2 p i a r := by
  have hr : r ∈ σ.freelist := by rw [hf]; exact mem_cons_self
  have hne : r ≠ a := fun h => ht.free r hr (h ▸ ⟨p, hlen.le, hp⟩)
  have hzero : ∀ j, ((({ σ with freelist := rest }.memset r 5).memset r 0).store ⟨a, i⟩
      (pa2pte r ||| PTE_V)).page r j = 0 := fun j => by
    rw [Mem.store_page_ne hne, Mem.memset_page_self]
    rfl
  refine ⟨hp, hlen, child_of_not_valid hv, ?_, ?_, ?_, ht.free r hr, ?_, ?_⟩
  · rw [Mem.store_page_self, update_self, child_pointer (ht.aligned r hr)]
  · intro j hj
    rw [Mem.store_page_self, update_of_ne hj, Mem.memset_page_ne hne.symm, Mem.memset_page_ne hne.symm]
  · intro c hca hcr
    rw [Mem.store_page_ne hca, Mem.memset_page_ne hcr, Mem.memset_page_ne hcr]
  · intro j
    rw [hzero]
    rfl
  · intro j
    rw [hzero]
    rfl

theorem alters_of_linked (ht : Table σ root) (hl : Linked child frame σ.page σ'.page root 2 p i a r)
    (hentry : σ'.page a i = pa2pte r ||| PTE_V) (hi : p = [] → i.val < 256)
    (hf : σ.freelist = r :: rest) (hf' : σ'.freelist = rest) : Alters σ σ' root [r] [] where
  table :=
    { sep := separated ht.sep hl
      free := by
        intro b hb hn
        rw [hf'] at hb
        rcases (node_iff ht.sep hl).1 hn with h | rfl
        · exact ht.free b (by rw [hf]; exact mem_cons_of_mem _ hb) h
        have hnd := ht.nodup
        rw [hf] at hnd
        exact (nodup_cons.1 hnd).1 hb
      nodup := by
        have hnd := ht.nodup
        rw [hf] at hnd
        rw [hf']
        exact (nodup_cons.1 hnd).2
      aligned := by
        intro b hb
        rw [hf'] at hb
        exact ht.aligned b (by rw [hf]; exact mem_cons_of_mem _ hb) }
  nodes := by
    intro b
    rw [mem_singleton]
    exact node_iff ht.sep hl
  others := by
    intro b hb _
    have hnr : b ≠ r := fun h => hb ((node_iff ht.sep hl).2 (.inr h))
    have hna : b ≠ a := fun h =>
      hb ((node_iff ht.sep hl).2 (.inl (h ▸ ⟨p, hl.above.le, hl.path⟩)))
    exact hl.frame b hna hnr
  upper := fun hu => hu.link ht hl hentry hi

/-- **With `alloc`, `walk` adds pages from the free list where the path ends early, and finds the
    entry unless the list runs out. No mapping changes.** -/
theorem walkFrom_alloc {level : Nat} {node : Addr} {r : Option PteAddr}
    (ht : Table σ root) (hva : va.toNat < 2 ^ 38) (hp : follow child σ.page root p = some node)
    (hlen : p.length + level = 2) (h : walkFrom va true level σ node = (σ', r)) :
    ∃ new, Alters σ σ' root new [] ∧ σ.freelist = new ++ σ'.freelist ∧
      (∀ q i, q.length = 2 → find child frame σ'.page root q i = find child frame σ.page root q i) ∧
      (∀ pte, r = some pte → follow child σ'.page root (p ++ indices va level) = some pte.page ∧
        pte.index = px 0 va) ∧
      (r = none → σ'.freelist = []) := by
  induction level generalizing σ node p with
  | zero =>
    cases h
    refine ⟨[], .refl ht, rfl, fun _ _ _ => rfl, ?_, nofun⟩
    rintro pte ⟨⟩
    rw [indices, append_nil]
    exact ⟨hp, rfl⟩
  | succ level ih =>
    have hlen' : (p ++ [px (level + 1) va]).length + level = 2 := by
      rw [length_append, length_singleton]
      omega
    rw [walkFrom] at h
    by_cases hv : valid (σ.load ⟨node, px (level + 1) va⟩) = true
    · simp only [hv, if_true] at h
      have hstep := (follow_concat_some (i := px (level + 1) va) hp).trans (child_of_valid hv)
      obtain ⟨new, hnew, hfree, hfind, hsome, hnone⟩ := ih ht hstep hlen' h
      rw [append_assoc] at hsome
      exact ⟨new, hnew, hfree, hfind, hsome, hnone⟩
    simp only [hv, if_true] at h
    cases hf : σ.freelist with
    | nil =>
      simp only [kalloc, hf] at h
      cases h
      exact ⟨[], .refl ht, hf.symm, fun _ _ _ => rfl, nofun, fun _ => hf⟩
    | cons b rest =>
      simp only [kalloc, hf] at h
      have hl := link ht hp (by omega) hv hf
      have hhalf : p = [] → (px (level + 1) va).val < 256 := by
        rintro rfl
        obtain rfl : level = 1 := by simpa using hlen
        rw [px_val]
        omega
      have hnew := alters_of_linked ht hl (by rw [Mem.store_page_self, update_self]) hhalf hf rfl
      obtain ⟨new, hnew', hfree, hfind, hsome, hnone⟩ :=
        ih hnew.table (follow_new ht.sep hl) hlen' h
      rw [append_assoc] at hsome
      refine ⟨b :: new, hnew.trans hnew', congrArg (b :: ·) hfree, ?_, hsome, hnone⟩
      intro q i hq
      rw [hfind q i hq]
      exact find_eq ht.sep hl hq

end Xv6.Vm
