import Xv6.Memory.Uvm

set_option autoImplicit false

/-! # Giving a page table back (`freewalk`, `uvmfree`)

`freewalk` goes down the pages of a table and frees them, from the bottom to the top. It panics if
it meets a mapping, and it may only go down pointers. For a table without mappings whose upper pages
are in order it frees the pages of the table, each of them once (`freewalk_ok`). -/

namespace Xv6.Vm

open Function List Structures

/-! ## `vm.c` -/

/-- The loop of `freewalk` over the entries of a page; `free` frees the page below. -/
def freewalkEntries (free : Mem → Addr → Except String Mem) (pagetable : Addr) :
    List (Fin 512) → Mem → Except String Mem
  | [], σ => .ok σ
  | i :: is, σ =>
    let pte := σ.page pagetable i
    if valid pte = true ∧ pte &&& (PTE_R ||| PTE_W ||| PTE_X) = 0 then do
      let σ ← free σ (pte2pa pte)
      freewalkEntries free pagetable is (σ.store ⟨pagetable, i⟩ 0)
    else if valid pte then .error "freewalk: leaf"
    else freewalkEntries free pagetable is σ

/-- Free the pages of a table with the given number of levels. The source does not count them: below
    the last one there is nothing to go down to. -/
def freewalk (kend : Addr) : Nat → Mem → Addr → Except String Mem
  | 0, _, _ => .error "freewalk: depth"
  | levels + 1, σ, pagetable => do
      let σ ← freewalkEntries (fun σ a => freewalk kend levels σ a) pagetable (List.finRange 512) σ
      kfree kend σ pagetable

/-- Free the user's memory and then the page table. -/
def uvmfree (kend : Addr) (σ : Mem) (pagetable sz : Addr) : Except String Mem := do
  let σ ← if 0 < sz then uvmunmap kend σ pagetable 0 (pgRoundUp sz / PGSIZE) true else .ok σ
  freewalk kend 3 σ pagetable

def TRAMPOLINE : Addr := MAXVA - PGSIZE
def TRAPFRAME : Addr := TRAMPOLINE - PGSIZE

/-- Free a process's page table and its memory. -/
def procFreepagetable (kend : Addr) (σ : Mem) (pagetable sz : Addr) : Except String Mem := do
  let σ ← uvmunmap kend σ pagetable TRAMPOLINE 1 false
  let σ ← uvmunmap kend σ pagetable TRAPFRAME 1 false
  uvmfree kend σ pagetable sz

/-- A page table for a process without memory, with the trampoline and the page of trapframes. -/
def procPagetable (kend : Addr) (σ : Mem) (trampoline trapframepointer : Addr) :
    Except String (Mem × Option Addr) :=
  match uvmcreate σ with
  | (σ, none) => .ok (σ, none)
  | (σ, some pagetable) => do
      let (σ, r) ← mappages σ pagetable TRAMPOLINE PGSIZE trampoline (PTE_R ||| PTE_X)
      if r < 0 then do
        let σ ← uvmfree kend σ pagetable 0
        .ok (σ, none)
      else do
        let (σ, r) ← mappages σ pagetable TRAPFRAME PGSIZE trapframepointer (PTE_R ||| PTE_W)
        if r < 0 then do
          let σ ← uvmunmap kend σ pagetable TRAMPOLINE 1 false
          let σ ← uvmfree kend σ pagetable 0
          .ok (σ, none)
        else .ok (σ, some pagetable)

/-! ## A tree without mappings -/

/-- The tree of depth `d` at `root` has no mappings, and its pages may be freed. -/
structure Emptied (kend : Addr) (σ : Mem) (root : Addr) (d : Nat) : Prop where
  sep : Separated child σ.page root d
  free : ∀ b, b ∈ σ.freelist → ¬ Node child σ.page root d b
  ram : ∀ b, Node child σ.page root d b → Ram kend b
  pointer : ∀ p b i, p.length < d → follow child σ.page root p = some b → valid (σ.page b i) = true →
    σ.page b i &&& (PTE_R ||| PTE_W ||| PTE_X) = 0
  bottom : ∀ p b i, p.length = d → follow child σ.page root p = some b → ¬ valid (σ.page b i) = true

/-- From `σ` to `σ'` the pages in `S` have been freed, each of them once, and of the others only
    those in `W` have been written to. -/
structure Frees (σ σ' : Mem) (S W : Addr → Prop) : Prop where
  nodup : σ'.freelist.Nodup
  free : ∀ b, b ∈ σ'.freelist ↔ b ∈ σ.freelist ∨ S b
  others : ∀ b, ¬ S b → ¬ W b → σ'.page b = σ.page b

variable {kend root a c : Addr} {σ σ' σ₁ : Mem} {d : Nat} {i : Fin 512}

theorem Emptied.frame (h : Emptied kend σ root d)
    (hsame : ∀ b, Node child σ.page root d b → σ'.page b = σ.page b)
    (hfree : ∀ b, b ∈ σ'.freelist → ¬ Node child σ.page root d b) : Emptied kend σ' root d := by
  have hfollow : ∀ p : List (Fin 512), p.length ≤ d →
      follow child σ'.page root p = follow child σ.page root p := fun p hp => follow_frame hsame hp
  have hnode := Node.congr hfollow
  refine ⟨h.sep.congr hfollow, ?_, ?_, ?_, ?_⟩
  · intro b hb hn
    exact hfree b hb ((hnode b).1 hn)
  · intro b hn
    exact h.ram b ((hnode b).1 hn)
  · intro p b i hp hb hv
    rw [hfollow p hp.le] at hb
    rw [hsame b ⟨p, hp.le, hb⟩] at hv ⊢
    exact h.pointer p b i hp hb hv
  · intro p b i hp hb
    rw [hfollow p hp.le] at hb
    rw [hsame b ⟨p, hp.le, hb⟩]
    exact h.bottom p b i hp hb

theorem Emptied.below (h : Emptied kend σ root (d + 1)) (hc : child (σ.page root i) = some c) :
    Emptied kend σ c d ∧ ¬ Node child σ.page c d root := by
  have hfollow : ∀ p, follow child σ.page root (i :: p) = follow child σ.page c p := fun p =>
    follow_cons_some hc
  have hnode : ∀ b, Node child σ.page c d b → Node child σ.page root (d + 1) b := by
    rintro b ⟨p, hp, hb⟩
    exact ⟨i :: p, Nat.succ_le_succ hp, (hfollow p).trans hb⟩
  refine ⟨⟨?_, ?_, ?_, ?_, ?_⟩, ?_⟩
  · intro p q b hp hq hpb hqb
    have heq := h.sep (i :: p) (i :: q) b (Nat.succ_le_succ hp) (Nat.succ_le_succ hq)
      ((hfollow p).trans hpb) ((hfollow q).trans hqb)
    exact (List.cons.inj heq).2
  · intro b hb hn
    exact h.free b hb (hnode b hn)
  · intro b hn
    exact h.ram b (hnode b hn)
  · intro p b j hp hb
    exact h.pointer (i :: p) b j (Nat.succ_lt_succ hp) ((hfollow p).trans hb)
  · intro p b j hp hb
    exact h.bottom (i :: p) b j (congrArg (· + 1) hp) ((hfollow p).trans hb)
  · rintro ⟨p, hp, hb⟩
    have heq := h.sep (i :: p) [] root (Nat.succ_le_succ hp) (Nat.zero_le _) ((hfollow p).trans hb) follow_nil
    cases heq

variable {b sz : Addr} {is : List (Fin 512)} {free : Mem → Addr → Except String Mem} {i₂ : Fin 512}

theorem Emptied.apart {j : Fin 512} {c' : Addr} (h : Emptied kend σ root (d + 1)) (hij : i ≠ j)
    (hc : child (σ.page root i) = some c) (hc' : child (σ.page root j) = some c')
    (hb : Node child σ.page c d b) : ¬ Node child σ.page c' d b := by
  rintro ⟨q, hq, hqb⟩
  obtain ⟨p, hp, hpb⟩ := hb
  have heq := h.sep (i :: p) (j :: q) b (Nat.succ_le_succ hp) (Nat.succ_le_succ hq)
    ((follow_cons_some hc).trans hpb) ((follow_cons_some hc').trans hqb)
  exact hij (List.cons.inj heq).1

/-! ## The loop over the entries -/

/-- The pages of the trees below the entries `is` of `root`. -/
def Below (σ : Mem) (root : Addr) (d : Nat) (is : List (Fin 512)) (b : Addr) : Prop :=
  ∃ i, i ∈ is ∧ ∃ c, child (σ.page root i) = some c ∧ Node child σ.page c d b

/-- The entries `is` of `root` that the loop has still to see: pointers to trees without mappings,
    which have no page in common and do not contain `root`. -/
structure Remaining (kend : Addr) (σ : Mem) (root : Addr) (d : Nat) (is : List (Fin 512)) : Prop where
  pointer : ∀ i, i ∈ is → valid (σ.page root i) = true →
    σ.page root i &&& (PTE_R ||| PTE_W ||| PTE_X) = 0
  tree : ∀ i c, i ∈ is → child (σ.page root i) = some c →
    Emptied kend σ c d ∧ ¬ Node child σ.page c d root
  apart : ∀ i j c c' b, i ∈ is → j ∈ is → i ≠ j → child (σ.page root i) = some c →
    child (σ.page root j) = some c' → Node child σ.page c d b → ¬ Node child σ.page c' d b

theorem Emptied.remaining (h : Emptied kend σ root (d + 1)) (is : List (Fin 512)) :
    Remaining kend σ root d is := by
  refine ⟨?_, ?_, ?_⟩
  · intro i _ hv
    exact h.pointer [] root i (Nat.succ_pos d) follow_nil hv
  · intro i c _ hc
    exact h.below hc
  · intro i j c c' b _ _ hij hc hc' hb
    exact h.apart hij hc hc' hb

theorem Remaining.tail (h : Remaining kend σ root d (i :: is)) : Remaining kend σ root d is := by
  refine ⟨?_, ?_, ?_⟩
  · intro j hj
    exact h.pointer j (mem_cons_of_mem i hj)
  · intro j c hj
    exact h.tree j c (mem_cons_of_mem i hj)
  · intro j k c c' b hj hk
    exact h.apart j k c c' b (mem_cons_of_mem i hj) (mem_cons_of_mem i hk)

theorem Remaining.others (h : Remaining kend σ root d (i :: is)) (hi : i ∉ is)
    (hc : child (σ.page root i) = some c)
    (hf : Frees σ σ₁ (Node child σ.page c d) (fun _ => False)) :
    (∀ j, j ∈ is → (σ₁.store ⟨root, i⟩ 0).page root j = σ.page root j) ∧
    (∀ j c' b, j ∈ is → child (σ.page root j) = some c' → Node child σ.page c' d b →
      (σ₁.store ⟨root, i⟩ 0).page b = σ.page b) := by
  have hroot : σ₁.page root = σ.page root := hf.others root (h.tree i c mem_cons_self hc).2 id
  refine ⟨?_, ?_⟩
  · intro j hj
    have hne : j ≠ i := fun heq => hi (heq ▸ hj)
    rw [Mem.store_page_self σ₁ ⟨root, i⟩ 0, update_of_ne hne, hroot]
  intro j c' b hj hc' hb
  have hj' : j ∈ i :: is := mem_cons_of_mem i hj
  have hne : j ≠ i := fun heq => hi (heq ▸ hj)
  have hb₁ : b ≠ root := fun heq => (h.tree j c' hj' hc').2 (heq ▸ hb)
  rw [Mem.store_page_ne hb₁]
  exact hf.others b (h.apart j i c' c b hj' mem_cons_self hne hc' hc hb) id

theorem Remaining.next {is : List (Fin 512)} (h : Remaining kend σ root d (i :: is)) (hi : i ∉ is)
    (hc : child (σ.page root i) = some c)
    (hf : Frees σ σ₁ (Node child σ.page c d) (fun _ => False)) :
    Remaining kend (σ₁.store ⟨root, i⟩ 0) root d is ∧
      ∀ b, Below (σ₁.store ⟨root, i⟩ 0) root d is b ↔ Below σ root d is b := by
  obtain ⟨hentry, htree⟩ := h.others hi hc hf
  have hnode : ∀ j c', j ∈ is → child (σ.page root j) = some c' → ∀ b,
      Node child (σ₁.store ⟨root, i⟩ 0).page c' d b ↔ Node child σ.page c' d b := by
    intro j c' hj hc'
    exact Node.congr fun p hp => follow_frame (htree j c' · hj hc') hp
  refine ⟨⟨?_, ?_, ?_⟩, ?_⟩
  · intro j hj hv
    rw [hentry j hj] at hv ⊢
    exact h.tail.pointer j hj hv
  · intro j c' hj hc'
    rw [hentry j hj] at hc'
    obtain ⟨he, hr⟩ := h.tail.tree j c' hj hc'
    refine ⟨he.frame (htree j c' · hj hc') ?_, fun hn => hr ((hnode j c' hj hc' root).1 hn)⟩
    -- the pages freed so far are the old free ones and the tree below `i`
    intro b hb hn
    rcases (hf.free b).1 hb with hb | hb
    · exact he.free b hb hn
    · have hne : i ≠ j := fun heq => hi (heq ▸ hj)
      exact h.apart i j c c' b mem_cons_self (mem_cons_of_mem i hj) hne hc hc' hb hn
  · intro j k c₁ c₂ b hj hk hjk hc₁ hc₂ hb
    rw [hentry j hj] at hc₁
    rw [hentry k hk] at hc₂
    rw [hnode k c₂ hk hc₂]
    exact h.tail.apart j k c₁ c₂ b hj hk hjk hc₁ hc₂ ((hnode j c₁ hj hc₁ b).1 hb)
  intro b
  constructor
  · rintro ⟨j, hj, c', hc', hb⟩
    rw [hentry j hj] at hc'
    exact ⟨j, hj, c', hc', (hnode j c' hj hc' b).1 hb⟩
  · rintro ⟨j, hj, c', hc', hb⟩
    exact ⟨j, hj, c', (congrArg child (hentry j hj)).trans hc', (hnode j c' hj hc' b).2 hb⟩

theorem below_cons : Below σ root d (i :: is) b ↔
      (∃ c, child (σ.page root i) = some c ∧ Node child σ.page c d b) ∨ Below σ root d is b := by
  simp only [Below, mem_cons, exists_eq_or_imp]

/-- The loop frees the trees below the entries, if `free` frees a tree without mappings. -/
theorem freewalkEntries_ok (hfree : ∀ σ a, σ.freelist.Nodup → Emptied kend σ a d →
      ∃ σ', free σ a = .ok σ' ∧ Frees σ σ' (Node child σ.page a d) (fun _ => False))
    (is : List (Fin 512)) (hnodup : is.Nodup) (hlist : σ.freelist.Nodup)
    (h : Remaining kend σ root d is) :
    ∃ σ', freewalkEntries free root is σ = .ok σ' ∧ Frees σ σ' (Below σ root d is) (· = root) := by
  induction is generalizing σ with
  | nil =>
    refine ⟨σ, rfl, hlist, ?_, fun _ _ _ => rfl⟩
    intro b
    simp [Below]
  | cons i is ih =>
    obtain ⟨hi, his⟩ := List.nodup_cons.1 hnodup
    by_cases hv : valid (σ.page root i) = true
    · have hc := child_of_valid hv
      obtain ⟨σ₁, hσ₁, hf⟩ := hfree σ _ hlist (h.tree i _ mem_cons_self hc).1
      obtain ⟨hnext, hbelow⟩ := h.next hi hc hf
      have hlist₁ : (σ₁.store ⟨root, i⟩ 0).freelist.Nodup := hf.nodup
      obtain ⟨σ', hσ', hf'⟩ := ih his hlist₁ hnext
      refine ⟨σ', ?_, hf'.nodup, ?_, ?_⟩
      · rw [freewalkEntries, if_pos ⟨hv, h.pointer i mem_cons_self hv⟩, hσ₁]
        exact hσ'
      · intro b
        have hb : b ∈ (σ₁.store ⟨root, i⟩ 0).freelist ↔ _ := hf.free b
        rw [hf'.free b, hb, hbelow b, below_cons, hc, or_assoc]
        simp only [Option.some.injEq, exists_eq_left']
      intro b hb hne
      rw [below_cons, not_or] at hb
      have hstep := hf'.others b (fun hn => hb.2 ((hbelow b).1 hn)) hne
      rw [hstep, Mem.store_page_ne hne]
      exact hf.others b (fun hn => hb.1 ⟨_, hc, hn⟩) id
    · obtain ⟨σ', hσ', hf'⟩ := ih his hlist h.tail
      -- an entry that is not valid has nothing below it
      have hbelow : ∀ b, Below σ root d (i :: is) b ↔ Below σ root d is b := by
        intro b
        rw [below_cons, child_of_not_valid hv]
        simp
      refine ⟨σ', ?_, hf'.nodup, ?_, ?_⟩
      · rw [freewalkEntries, if_neg (fun hp => hv hp.1), if_neg hv]
        exact hσ'
      · intro b
        rw [hf'.free b, hbelow b]
      · intro b hb hne
        exact hf'.others b (fun hn => hb ((hbelow b).2 hn)) hne

theorem freewalkEntries_bottom (is : List (Fin 512))
    (h : ∀ i, i ∈ is → ¬ valid (σ.page root i) = true) : freewalkEntries free root is σ = .ok σ := by
  induction is with
  | nil => rfl
  | cons i is ih =>
    have hv := h i mem_cons_self
    rw [freewalkEntries, if_neg (fun hp => hv hp.1), if_neg hv]
    exact ih fun j hj => h j (mem_cons_of_mem i hj)

/-! ## The whole tree -/

theorem Frees.kfree {S : Addr → Prop} (h : Frees σ σ₁ S (· = root)) (hfree : root ∉ σ.freelist)
    (hS : ¬ S root) (hr : Ram kend root) :
    ∃ σ', Vm.kfree kend σ₁ root = .ok σ' ∧ Frees σ σ' (fun b => b = root ∨ S b) (fun _ => False) := by
  obtain ⟨σ', hσ'⟩ := kfree_returns σ₁ hr
  refine ⟨σ', hσ', ?_, ?_, ?_⟩
  · rw [kfree_eq hσ']
    refine List.nodup_cons.2 ⟨fun hmem => ?_, h.nodup⟩
    exact ((h.free root).1 hmem).elim hfree hS
  · intro b
    have hb : b ∈ σ'.freelist ↔ b = root ∨ b ∈ σ₁.freelist := by
      rw [kfree_eq hσ']
      exact mem_cons
    rw [hb, h.free b, or_left_comm]
  · intro b hb _
    rw [not_or] at hb
    rw [kfree_page_ne hσ' hb.1]
    exact h.others b hb.2 hb.1

/-- **`freewalk` frees the pages of a tree without mappings, each of them once.** -/
theorem freewalk_ok (d : Nat) : ∀ (σ : Mem) (root : Addr), σ.freelist.Nodup → Emptied kend σ root d →
    ∃ σ', freewalk kend (d + 1) σ root = .ok σ' ∧
      Frees σ σ' (Node child σ.page root d) (fun _ => False) := by
  induction d with
  | zero =>
    intro σ root hlist h
    have hloop : freewalkEntries (fun σ a => freewalk kend 0 σ a) root (List.finRange 512) σ = .ok σ :=
      freewalkEntries_bottom _ fun i _ => h.bottom [] root i rfl follow_nil
    have hnode : ∀ b, Node child σ.page root 0 b ↔ b = root := by
      intro b
      constructor
      · rintro ⟨p, hp, hb⟩
        obtain rfl := List.length_eq_zero_iff.1 (Nat.le_zero.1 hp)
        exact (Option.some.inj hb).symm
      · rintro rfl
        exact ⟨[], Nat.zero_le _, follow_nil⟩
    have hroot : Node child σ.page root 0 root := (hnode root).2 rfl
    have hstart : Frees σ σ (fun _ => False) (· = root) :=
      ⟨hlist, fun b => by rw [or_false], fun _ _ _ => rfl⟩
    obtain ⟨σ', hσ', hf⟩ := hstart.kfree (fun hmem => h.free root hmem hroot) id (h.ram root hroot)
    refine ⟨σ', ?_, hf.nodup, ?_, ?_⟩
    · rw [freewalk, hloop]
      exact hσ'
    · intro b
      rw [hf.free b, hnode b, or_false]
    · intro b hb
      refine hf.others b fun hor => hb ?_
      exact (hnode b).2 (hor.elim id False.elim)
  | succ d ih =>
    intro σ root hlist h
    have hroot : Node child σ.page root (d + 1) root := node_succ_iff.2 (.inl rfl)
    obtain ⟨σ₁, hloop, hf₁⟩ := freewalkEntries_ok ih (List.finRange 512) (nodup_finRange 512) hlist
      (h.remaining _)
    have hnot : ¬ Below σ root d (List.finRange 512) root := by
      rintro ⟨i, _, c, hc, hb⟩
      exact (h.below hc).2 hb
    obtain ⟨σ', hσ', hf⟩ := hf₁.kfree (fun hmem => h.free root hmem hroot) hnot (h.ram root hroot)
    have hnode : ∀ b, Node child σ.page root (d + 1) b ↔ b = root ∨ Below σ root d (List.finRange 512) b := by
      intro b
      simp only [node_succ_iff, Below, mem_finRange, true_and]
    refine ⟨σ', ?_, hf.nodup, ?_, ?_⟩
    · rw [freewalk, hloop]
      exact hσ'
    · intro b
      rw [hf.free b, hnode b]
    · intro b hb
      exact hf.others b fun hor => hb ((hnode b).2 hor)

/-! ## Address spaces -/

/-- The number of the page for which an entry at the bottom stands. -/
def entryPage (i₂ i₁ i₀ : Fin 512) : Nat := (i₂.val * 512 + i₁.val) * 512 + i₀.val

theorem entryPage_lt (h : i₂.val < 256) (i₁ i₀ : Fin 512) : entryPage i₂ i₁ i₀ < 2 ^ 26 := by
  unfold entryPage
  omega

theorem entryPage_path (h : i₂.val < 256) (i₁ i₀ : Fin 512) :
    path (pageAddr (entryPage i₂ i₁ i₀)) = [i₂, i₁] ∧ px 0 (pageAddr (entryPage i₂ i₁ i₀)) = i₀ := by
  have haddr := toNat_pageAddr (entryPage_lt h i₁ i₀)
  have hpx : ∀ level j, entryPage i₂ i₁ i₀ * 4096 / 2 ^ (12 + 9 * level) % 512 = j.val →
      px level (pageAddr (entryPage i₂ i₁ i₀)) = j := by
    intro level j hj
    apply Fin.ext
    rw [px_val, haddr, hj]
  have h₂ := hpx 2 i₂ (by unfold entryPage; omega)
  have h₁ := hpx 1 i₁ (by unfold entryPage; omega)
  have h₀ := hpx 0 i₀ (by unfold entryPage; omega)
  exact ⟨by simp only [path, indices, h₂, h₁], h₀⟩

variable {nodes : List Addr} {k : Nat} {fixed : Nat → Option Frame}

theorem Upper.bottom {p : List (Fin 512)} (hu : Upper σ root) (hmap : ∀ n, pageMap σ root n = none)
    (hp : p.length = 2) (hb : follow child σ.page root p = some b) : ¬ valid (σ.page b i) = true := by
  intro hv
  obtain ⟨i₂, i₁, rfl⟩ := List.length_eq_two.1 hp
  by_cases hi : i₂.val < 256
  · obtain ⟨hpath, hpx⟩ := entryPage_path hi i₁ i
    have hfind := hmap (entryPage i₂ i₁ i)
    rw [pageMap_eq_find (entryPage_lt hi i₁ i), hpath, hpx, find_of_follow hb, Vm.frame_of_valid hv] at hfind
    cases hfind
  -- the top page has nothing in its upper half
  rw [follow_cons_none (child_of_not_valid (hu.half i₂ (Nat.not_lt.1 hi)))] at hb
  cases hb

theorem Space.emptied (hs : Space kend σ root nodes 0 (fun _ => none)) (hu : Upper σ root) :
    Emptied kend σ root 2 := by
  have hnode : ∀ b, σ.Holds root b → b ∈ pagesOf σ root nodes 0 := fun b hb =>
    mem_append_left _ ((hs.holds b).1 hb)
  refine ⟨hs.sep, hs.table.free, ?_, hu.pointer, ?_⟩
  · intro b hb
    exact hs.ram b (mem_append_right _ (hnode b hb))
  · intro p b i hp hb
    exact hu.bottom (fun n => hs.rest n (Nat.zero_le n)) hp hb

theorem Space.freewalk (hs : Space kend σ root nodes 0 (fun _ => none)) (hu : Upper σ root) :
    ∃ σ', Vm.freewalk kend 3 σ root = .ok σ' ∧ σ'.freelist.Perm (σ.freelist ++ pagesOf σ root nodes 0) := by
  obtain ⟨σ', hσ', hf⟩ := freewalk_ok 2 σ root hs.table.nodup (hs.emptied hu)
  refine ⟨σ', hσ', (perm_ext_iff_of_nodup hf.nodup hs.nodup).2 fun b => ?_⟩
  have hpages : pagesOf σ root nodes 0 = nodes := append_nil nodes
  rw [hf.free b, mem_append, hpages, ← hs.holds b]

theorem Space.uvmfree (hs : Space kend σ root nodes (pagesFor sz) (fun _ => none))
    (hk : pagesFor sz < 2 ^ 26) (hu : Upper σ root) :
    ∃ σ', Vm.uvmfree kend σ root sz = .ok σ' ∧
      σ'.freelist.Perm (σ.freelist ++ pagesOf σ root nodes (pagesFor sz)) := by
  obtain ⟨σ₁, hcall, hc⟩ := hs.unmap_last (Nat.zero_le _) hk fun _ _ => rfl
  obtain ⟨σ', hwalk, hperm⟩ := hc.space.freewalk (hc.upper hu)
  have haddr := toNat_pageAddr hk
  have hcount : pgRoundUp sz / PGSIZE = BitVec.ofNat 64 (pagesFor sz - 0) := by
    rw [pgRoundUp_eq hk]
    apply BitVec.eq_of_toNat_eq
    rw [BitVec.toNat_udiv, haddr, BitVec.toNat_ofNat, show PGSIZE.toNat = 4096 from rfl]
    omega
  by_cases hsz : 0 < sz
  · refine ⟨σ', ?_, hperm.trans hc.perm.symm⟩
    have hunmap : uvmunmap kend σ root 0 (pgRoundUp sz / PGSIZE) true = .ok σ₁ := by
      rw [hcount]
      exact hcall
    simp only [Vm.uvmfree, if_pos hsz, hunmap, bind, Except.bind, hwalk]
  have hzero : pagesFor sz = 0 := by
    have hle : sz.toNat ≤ 0 := BitVec.le_def.1 (BitVec.not_lt.1 hsz)
    unfold pagesFor
    omega
  rw [hzero] at hs ⊢
  obtain ⟨σ'', hwalk', hperm'⟩ := hs.freewalk hu
  refine ⟨σ'', ?_, hperm'⟩
  simp only [Vm.uvmfree, if_neg hsz, bind, Except.bind, hwalk']

theorem Space.unmap_fixed {n : Nat} {fr : Frame} (hs : Space kend σ root nodes k fixed) (hkn : k ≤ n)
    (hn : n < 2 ^ 26) (hfr : fixed n = some fr) (hleaf : Leaf fr.2) :
    ∃ σ', uvmunmap kend σ root (pageAddr n) 1 false = .ok σ' ∧ (Upper σ root → Upper σ' root) ∧
      Space kend σ' root nodes k (update fixed n none) ∧
      σ'.freelist ++ pagesOf σ' root nodes k = σ.freelist ++ pagesOf σ root nodes k := by
  have hrel : Releasable σ root (given (pageMap σ root) n 1 false) := ⟨hs.table.nodup, fun b hb => nomatch hb⟩
  obtain ⟨σ', hcall, hun⟩ := hs.table.unmaps (by omega) hn hrel fun m hge hlt => by
    obtain rfl : m = n := by omega
    exact ⟨fr, (hs.rest m hkn).trans hfr, hleaf.ne_valid, nofun⟩
  have hsame : ∀ m, m ≠ n → pageMap σ' root m = pageMap σ root m := by
    intro m hm
    rw [hun.unmaps, unmapPages, if_neg (by omega)]
  have hlist : σ'.freelist = σ.freelist := hun.freelist
  have hframes : frames (pageMap σ' root) 0 k = frames (pageMap σ root) 0 k :=
    frames_congr fun m _ hm => hsame m (by omega)
  have hpages : σ'.freelist ++ pagesOf σ' root nodes k = σ.freelist ++ pagesOf σ root nodes k := by
    rw [pagesOf, pagesOf, hlist, hframes]
  refine ⟨σ', hcall, hun.alters.upper, ⟨hun.alters.table.sep, ?_, ?_, ?_, ?_, ?_⟩, hpages⟩
  · intro a
    rw [hun.alters.nodes, hs.holds]
    simp
  · rw [hpages]
    exact hs.nodup
  · rw [hpages]
    exact hs.ram
  · intro m hm
    rw [hsame m (by omega)]
    exact hs.user m hm
  intro m hm
  by_cases heq : m = n
  · subst heq
    rw [update_self, hun.unmaps, unmapPages, if_pos (by omega)]
  · rw [update_of_ne heq, hsame m heq]
    exact hs.rest m hm

/-- The mappings of a process above its memory: the trampoline and the trapframes. -/
structure ProcMappings (fixed : Nat → Option Frame) : Prop where
  low : ∀ n, n < 2 ^ 26 - 2 → fixed n = none
  trapframe : ∃ fr, fixed (2 ^ 26 - 2) = some fr ∧ Leaf fr.2
  trampoline : ∃ fr, fixed (2 ^ 26 - 1) = some fr ∧ Leaf fr.2

theorem TRAMPOLINE_eq : TRAMPOLINE = pageAddr (2 ^ 26 - 1) := by decide

theorem TRAPFRAME_eq : TRAPFRAME = pageAddr (2 ^ 26 - 2) := by decide

/-- **`proc_freepagetable` gives back the pages of a process's memory and of its table, each of them
    once.** -/
theorem Space.procFreepagetable (hend : KERNBASE ≤ kend)
    (hs : Space kend σ root nodes (pagesFor sz) fixed) (hu : Upper σ root) (hfix : ProcMappings fixed) :
    ∃ σ', Vm.procFreepagetable kend σ root sz = .ok σ' ∧
      σ'.freelist.Perm (σ.freelist ++ pagesOf σ root nodes (pagesFor sz)) := by
  have hbound := hs.bound hend
  obtain ⟨fr, hfr, hleaf⟩ := hfix.trampoline
  obtain ⟨σ₁, hcall₁, hu₁, hs₁, hpages₁⟩ := hs.unmap_fixed (by omega) (by omega) hfr hleaf
  obtain ⟨fr', hfr', hleaf'⟩ := hfix.trapframe
  have hfr₁ : update fixed (2 ^ 26 - 1) none (2 ^ 26 - 2) = some fr' := by
    rw [update_of_ne (by omega), hfr']
  obtain ⟨σ₂, hcall₂, hu₂, hs₂, hpages₂⟩ := hs₁.unmap_fixed (by omega) (by omega) hfr₁ hleaf'
  -- now nothing is left above the user's memory
  have hrest : ∀ n, pagesFor sz ≤ n → pageMap σ₂ root n = none := by
    intro n hn
    by_cases hmax : n < 2 ^ 26
    · rw [hs₂.rest n hn]
      by_cases h₂ : n = 2 ^ 26 - 2
      · rw [h₂, update_self]
      rw [update_of_ne h₂]
      by_cases h₁ : n = 2 ^ 26 - 1
      · rw [h₁, update_self]
      · rw [update_of_ne h₁, hfix.low n (by omega)]
    · rw [pageMap, if_neg hmax]
  have hs₃ : Space kend σ₂ root nodes (pagesFor sz) (fun _ => none) := { hs₂ with rest := hrest }
  obtain ⟨σ', hcall, hperm⟩ := hs₃.uvmfree (by omega) (hu₂ (hu₁ hu))
  refine ⟨σ', ?_, ?_⟩
  · simp only [Vm.procFreepagetable, TRAMPOLINE_eq, TRAPFRAME_eq, hcall₁, hcall₂, bind, Except.bind, hcall]
  · rwa [hpages₂, hpages₁] at hperm

/-! ## A new process's table -/

theorem Space.map_fixed {n : Nat} {pa : Addr} {perm : BitVec 64} {r : Int}
    (hs : Space kend σ root nodes k fixed) (hkn : k ≤ n) (hn : n < 2 ^ 26) (hpa : Aligned pa)
    (hperm : perm.toNat < 1024) (h : mappages σ root (pageAddr n) PGSIZE pa perm = .ok (σ', r))
    (hr : ¬ r < 0) :
    ∃ nodes', Space kend σ' root nodes' k (update fixed n (some (pa, perm ||| PTE_V))) ∧
      (Upper σ root → Upper σ' root) ∧
      (σ.freelist ++ pagesOf σ root nodes k).Perm (σ'.freelist ++ pagesOf σ' root nodes' k) := by
  have haddr := toNat_pageAddr hn
  obtain ⟨-, hone⟩ := pageAddr_range hn
  obtain ⟨count, hmaps, hcount⟩ := mappages_ok hs.table hpa hperm h
  obtain ⟨new, hnew, hlist⟩ := hmaps.alters
  obtain rfl : count = 1 := by omega
  rw [show (pageAddr n).toNat / 4096 = n by omega] at hmaps
  have hmap : pageMap σ' root = update (pageMap σ root) n (some (pa, perm ||| PTE_V)) := by
    rw [hmaps.maps, ← mapPages_cons, mapPages_zero]
  have hframes : frames (pageMap σ' root) 0 k = frames (pageMap σ root) 0 k :=
    frames_congr fun m _ hm => by rw [hmap, update_of_ne (by omega)]
  have hpages : (σ.freelist ++ pagesOf σ root nodes k).Perm
      (σ'.freelist ++ pagesOf σ' root (nodes ++ new) k) := by
    rw [pagesOf, pagesOf, hframes, hlist]
    refine List.perm_iff_count.2 fun a => ?_
    simp only [count_append]
    omega
  refine ⟨nodes ++ new, ⟨hnew.table.sep, ?_, hpages.nodup hs.nodup, ?_, ?_, ?_⟩, hnew.upper, hpages⟩
  · intro a
    rw [hnew.nodes, hs.holds, mem_append]
  · intro a ha
    exact hs.ram a (hpages.mem_iff.2 ha)
  · intro m hm
    rw [hmap, update_of_ne (by omega)]
    exact hs.user m hm
  intro m hm
  rw [hmap]
  by_cases heq : m = n
  · rw [heq, update_self, update_self]
  · rw [update_of_ne heq, update_of_ne heq]
    exact hs.rest m hm

theorem Upper.uvmcreate (h : Vm.uvmcreate σ = (σ', some root)) : Upper σ' root := by
  have hzero : ∀ i, σ'.page root i = 0 := by
    intro i
    cases hf : σ.freelist with
    | nil =>
      simp only [Vm.uvmcreate, kalloc, hf] at h
      cases h
    | cons b rest =>
      simp only [Vm.uvmcreate, kalloc_cons hf, Prod.mk.injEq, Option.some.injEq] at h
      obtain ⟨rfl, rfl⟩ := h
      rw [Mem.memset_page_self]
      rfl
  have hnot : ∀ i, ¬ valid (σ'.page root i) = true := by
    intro i
    rw [hzero i]
    decide
  refine ⟨?_, fun i _ => hnot i⟩
  -- there is only the top page
  intro p b i hp hb hv
  cases p with
  | nil =>
    cases hb
    exact absurd hv (hnot i)
  | cons j p =>
    rw [follow_cons_none (child_of_not_valid (hnot j))] at hb
    cases hb

theorem procPagetable_space {trampoline trapframepointer : Addr} (hnodup : σ.freelist.Nodup)
    (hram : ∀ a, a ∈ σ.freelist → Ram kend a) (htramp : Aligned trampoline) (htf : Aligned trapframepointer)
    (h : procPagetable kend σ trampoline trapframepointer = .ok (σ', some root)) :
    ∃ nodes fixed, Space kend σ' root nodes 0 fixed ∧ Upper σ' root ∧ ProcMappings fixed ∧
      σ.freelist.Perm (σ'.freelist ++ pagesOf σ' root nodes 0) := by
  unfold procPagetable at h
  split at h
  · cases h
  next σ₁ pagetable hcreate =>
  obtain ⟨hs, hlist⟩ := uvmcreate_space hnodup hram hcreate
  have hu : Upper σ₁ pagetable := .uvmcreate hcreate
  cases h₁ : mappages σ₁ pagetable TRAMPOLINE PGSIZE trampoline (PTE_R ||| PTE_X) with
  | error e =>
    rw [h₁] at h
    cases h
  | ok res₁ =>
    obtain ⟨σ₂, r₁⟩ := res₁
    simp only [h₁, bind, Except.bind] at h
    split at h
    · split at h
      · cases h
      · cases h
    next hr₁ =>
    cases h₂ : mappages σ₂ pagetable TRAPFRAME PGSIZE trapframepointer (PTE_R ||| PTE_W) with
    | error e =>
      rw [h₂] at h
      cases h
    | ok res₂ =>
      obtain ⟨σ₃, r₂⟩ := res₂
      simp only [h₂] at h
      split at h
      · split at h
        · cases h
        split at h
        · cases h
        · cases h
      next hr₂ =>
      obtain ⟨rfl, rfl⟩ := h
      rw [TRAMPOLINE_eq] at h₁
      rw [TRAPFRAME_eq] at h₂
      obtain ⟨nodes₂, hs₂, hu₂, hperm₂⟩ :=
        hs.map_fixed (Nat.zero_le _) (by omega) htramp (by decide) h₁ hr₁
      obtain ⟨nodes₃, hs₃, hu₃, hperm₃⟩ :=
        hs₂.map_fixed (Nat.zero_le _) (by omega) htf (by decide) h₂ hr₂
      have hleaf₁ : Leaf (PTE_R ||| PTE_X ||| PTE_V) := by
        unfold Leaf
        decide
      have hleaf₂ : Leaf (PTE_R ||| PTE_W ||| PTE_V) := by
        unfold Leaf
        decide
      refine ⟨nodes₃, _, hs₃, hu₃ (hu₂ hu), ⟨?_, ?_, ?_⟩, ?_⟩
      · intro n hn
        rw [update_of_ne (by omega), update_of_ne (by omega)]
      · exact ⟨_, update_self .., hleaf₂⟩
      · refine ⟨(trampoline, PTE_R ||| PTE_X ||| PTE_V), ?_, hleaf₁⟩
        rw [update_of_ne (by decide), update_self]
      · rw [hlist]
        exact (perm_append_singleton _ _).symm.trans (hperm₂.trans hperm₃)

end Xv6.Vm
