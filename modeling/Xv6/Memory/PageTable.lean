import Xv6.Structures.Radix

set_option autoImplicit false

/-! # Page tables (`kalloc.c`, the first half of `vm.c`)

Physical memory is a page of 512 words at each page address, together with the allocator's free list
(the source threads the list through the free pages; here it is a list). A page table is the address
of its top page: everything else about it is in memory, in the entries that `walk` follows and
fills. Addresses and entries are 64-bit words, packed and taken apart with the shifts and masks of
`riscv.h`.

A function that can panic returns an `Except` with the panic's text. The two loops over a range of
pages end, at the latest, when `walk` panics on the first address that is too large: they get as
many turns as there are pages up to there. -/

namespace Xv6.Vm

open BitVec Function

abbrev Addr := BitVec 64

/-! ## `riscv.h` -/

def PGSIZE : Addr := 4096

def MAXVA : Addr := 1 <<< (9 + 9 + 9 + 12 - 1)

def PTE_V : BitVec 64 := 1 <<< 0
def PTE_R : BitVec 64 := 1 <<< 1
def PTE_W : BitVec 64 := 1 <<< 2
def PTE_X : BitVec 64 := 1 <<< 3
def PTE_U : BitVec 64 := 1 <<< 4

def pgRoundUp (sz : Addr) : Addr := (sz + PGSIZE - 1) &&& ~~~(PGSIZE - 1)

def pgRoundDown (a : Addr) : Addr := a &&& ~~~(PGSIZE - 1)

/-- `PA2PTE`: a physical address at its place in an entry. -/
def pa2pte (pa : Addr) : BitVec 64 := (pa >>> 12) <<< 10

/-- `PTE2PA`: the physical address in an entry. -/
def pte2pa (pte : BitVec 64) : Addr := (pte >>> 10) <<< 12

/-- `PTE_FLAGS`: the other ten bits of an entry. -/
def pteFlags (pte : BitVec 64) : BitVec 64 := pte &&& 0x3FF

def valid (pte : BitVec 64) : Bool := pte &&& PTE_V != 0

theorem and_mask_lt (x : BitVec 64) : (x &&& 0x1FF).toNat < 512 := by
  rw [toNat_and]
  exact Nat.lt_of_le_of_lt Nat.and_le_right (by decide)

/-- `PX`: the index of an address at one of the three levels. -/
def px (level : Nat) (va : Addr) : Fin 512 :=
  ⟨((va >>> (12 + 9 * level)) &&& 0x1FF).toNat, and_mask_lt _⟩

/-! ## Memory and its allocator -/

/-- The contents of the pages, and the pages on `kmem.freelist`. -/
structure Mem where
  page : Addr → Fin 512 → BitVec 64
  freelist : List Addr

/-- A `pte_t *`: the entry of a page. -/
structure PteAddr where
  page : Addr
  index : Fin 512
  deriving DecidableEq

namespace Mem

def load (σ : Mem) (pte : PteAddr) : BitVec 64 := σ.page pte.page pte.index

def store (σ : Mem) (pte : PteAddr) (v : BitVec 64) : Mem :=
  { σ with page := update σ.page pte.page (update (σ.page pte.page) pte.index v) }

/-- `memset(pa, c, PGSIZE)`. -/
def memset (σ : Mem) (pa : Addr) (c : BitVec 8) : Mem :=
  { σ with page := update σ.page pa fun _ => c.replicate 8 }

end Mem

def PHYSTOP : Addr := 0x80000000 + 128 * 1024 * 1024

/-- Take a page from the free list and fill it with junk. -/
def kalloc (σ : Mem) : Mem × Option Addr :=
  match σ.freelist with
  | [] => (σ, none)
  | r :: rest => ({ σ with freelist := rest }.memset r 5, some r)

/-- Fill a page with junk and put it on the free list; `kend` is the end of the kernel's own
    memory. -/
def kfree (kend : Addr) (σ : Mem) (pa : Addr) : Except String Mem :=
  if pa % PGSIZE ≠ 0 ∨ pa < kend ∨ PHYSTOP ≤ pa then .error "kfree"
  else .ok { σ.memset pa 1 with freelist := pa :: σ.freelist }

/-! ## `vm.c` -/

/-- The loop of `walk`, from the given level down to the entry at level 0. -/
def walkFrom (va : Addr) (alloc : Bool) : Nat → Mem → Addr → Mem × Option PteAddr
  | 0, σ, pagetable => (σ, some ⟨pagetable, px 0 va⟩)
  | level + 1, σ, pagetable =>
    let pte : PteAddr := ⟨pagetable, px (level + 1) va⟩
    if valid (σ.load pte) then walkFrom va alloc level σ (pte2pa (σ.load pte))
    else if alloc then
      match kalloc σ with
      | (σ, none) => (σ, none)
      | (σ, some pagetable) =>
        let σ := σ.memset pagetable 0
        let σ := σ.store pte (pa2pte pagetable ||| PTE_V)
        walkFrom va alloc level σ pagetable
    else (σ, none)

/-- The entry for `va` at level 0, or none. With `alloc`, missing pages of the table are made. -/
def walk (σ : Mem) (pagetable va : Addr) (alloc : Bool) : Except String (Mem × Option PteAddr) :=
  if MAXVA ≤ va then .error "walk" else .ok (walkFrom va alloc 2 σ pagetable)

/-- The physical address of a user page, or 0. -/
def walkaddr (σ : Mem) (pagetable va : Addr) : Except String Addr :=
  if MAXVA ≤ va then .ok 0
  else do
    match ← walk σ pagetable va false with
    | (_, none) => .ok 0
    | (σ, some pte) =>
      if ¬ valid (σ.load pte) then .ok 0
      else if σ.load pte &&& PTE_U = 0 then .ok 0
      else .ok (pte2pa (σ.load pte))

/-- The number of pages from `a` up to `MAXVA`. -/
def pagesLeft (a : Addr) : Nat := 2 ^ 26 - a.toNat / 4096

def mappagesFrom (pagetable last perm : Addr) : Nat → Mem → Addr → Addr → Except String (Mem × Int)
  | 0, _, _, _ => .error "walk"
  | n + 1, σ, a, pa => do
      match ← walk σ pagetable a true with
      | (σ, none) => .ok (σ, -1)
      | (σ, some pte) =>
        if valid (σ.load pte) then .error "remap"
        else
          let σ := σ.store pte (pa2pte pa ||| perm ||| PTE_V)
          if a = last then .ok (σ, 0)
          else mappagesFrom pagetable last perm n σ (a + PGSIZE) (pa + PGSIZE)

/-- Make entries for the pages of `[va, va + size)` that refer to physical memory from `pa` on. -/
def mappages (σ : Mem) (pagetable va size pa perm : Addr) : Except String (Mem × Int) :=
  let a := pgRoundDown va
  let last := pgRoundDown (va + size - 1)
  mappagesFrom pagetable last perm (pagesLeft a) σ a pa

def uvmunmapFrom (kend pagetable last : Addr) (doFree : Bool) : Nat → Mem → Addr → Except String Mem
  | 0, σ, a => if a < last then .error "walk" else .ok σ
  | n + 1, σ, a =>
    if a < last then do
      match ← walk σ pagetable a false with
      | (_, none) => .error "uvmunmap: walk"
      | (σ, some pte) =>
        if ¬ valid (σ.load pte) then .error "uvmunmap: not mapped"
        else if pteFlags (σ.load pte) = PTE_V then .error "uvmunmap: not a leaf"
        else do
          let σ ← if doFree then kfree kend σ (pte2pa (σ.load pte)) else .ok σ
          uvmunmapFrom kend pagetable last doFree n (σ.store pte 0) (a + PGSIZE)
    else .ok σ

/-- Remove the entries of `npages` pages from `va` on, and free the memory on request. -/
def uvmunmap (kend : Addr) (σ : Mem) (pagetable va npages : Addr) (doFree : Bool) : Except String Mem :=
  if va % PGSIZE ≠ 0 then .error "uvmunmap: not aligned"
  else uvmunmapFrom kend pagetable (va + npages * PGSIZE) doFree (pagesLeft va) σ va

def uvmcreate (σ : Mem) : Mem × Option Addr :=
  match kalloc σ with
  | (σ, none) => (σ, none)
  | (σ, some pagetable) => (σ.memset pagetable 0, some pagetable)

/-- Take the user's access to a page away. -/
def uvmclear (σ : Mem) (pagetable va : Addr) : Except String Mem := do
  match ← walk σ pagetable va false with
  | (_, none) => .error "uvmclear"
  | (σ, some pte) => .ok (σ.store pte (σ.load pte &&& ~~~PTE_U))

theorem ok_of_bind {α β : Type} {x : Except String α} {g : α → Except String β} {b : β}
    (h : (x >>= g) = .ok b) : ∃ a, x = .ok a ∧ g a = .ok b := by
  cases x with
  | error e => cases h
  | ok a => exact ⟨a, rfl, h⟩

/-! ## Entries and addresses as numbers -/

/-- A page address. -/
def Aligned (a : Addr) : Prop := a.toNat % 4096 = 0

instance (a : Addr) : Decidable (Aligned a) := inferInstanceAs (Decidable (a.toNat % 4096 = 0))

theorem and_not_mask (a : Addr) : a &&& ~~~(PGSIZE - 1) = (a >>> 12) <<< 12 := by
  have hm : (PGSIZE - 1).toNat = 2 ^ 12 - 1 := by decide
  apply eq_of_getLsbD_eq
  intro i hi
  rw [getLsbD_and, getLsbD_not, ← testBit_toNat (PGSIZE - 1), hm,
    Nat.testBit_two_pow_sub_one, getLsbD_shiftLeft, getLsbD_ushiftRight, decide_eq_true hi]
  by_cases h : i < 12
  · simp [h]
  · rw [Nat.add_sub_cancel' (Nat.le_of_not_lt h)]
    simp [h]

theorem toNat_and_not_mask (a : Addr) : (a &&& ~~~(PGSIZE - 1)).toNat = a.toNat / 4096 * 4096 := by
  rw [and_not_mask, toNat_shiftLeft, toNat_ushiftRight, Nat.shiftRight_eq_div_pow, Nat.shiftLeft_eq]
  omega

theorem toNat_pgRoundDown (a : Addr) : (pgRoundDown a).toNat = a.toNat / 4096 * 4096 :=
  toNat_and_not_mask a

theorem toNat_pgRoundUp {a : Addr} (h : a.toNat + 4095 < 2 ^ 64) :
    (pgRoundUp a).toNat = (a.toNat + 4095) / 4096 * 4096 := by
  have hadd : (a + PGSIZE - 1).toNat = a.toNat + 4095 := by
    unfold PGSIZE
    bv_omega
  rw [pgRoundUp, toNat_and_not_mask, hadd]

theorem toNat_pa2pte (pa : Addr) : (pa2pte pa).toNat = pa.toNat / 4096 * 1024 := by
  rw [pa2pte, toNat_shiftLeft, toNat_ushiftRight, Nat.shiftRight_eq_div_pow, Nat.shiftLeft_eq]
  omega

theorem toNat_pte2pa (e : BitVec 64) : (pte2pa e).toNat = e.toNat / 1024 * 4096 % 2 ^ 64 := by
  rw [pte2pa, toNat_shiftLeft, toNat_ushiftRight, Nat.shiftRight_eq_div_pow, Nat.shiftLeft_eq]

theorem toNat_pteFlags (e : BitVec 64) : (pteFlags e).toNat = e.toNat % 1024 := by
  rw [pteFlags, toNat_and]
  exact Nat.and_two_pow_sub_one_eq_mod _ 10

theorem valid_iff (e : BitVec 64) : valid e = true ↔ e.toNat % 2 = 1 := by
  have h : (e &&& PTE_V).toNat = e.toNat % 2 := by
    rw [toNat_and]
    exact Nat.and_two_pow_sub_one_eq_mod _ 1
  rw [valid, bne_iff_ne, Ne, ← toNat_inj, h]
  show ¬ e.toNat % 2 = 0 ↔ _
  omega

variable {perm : BitVec 64} {pa va va' : Addr}

theorem toNat_entry (pa : Addr) (hperm : perm.toNat < 1024) :
    (pa2pte pa ||| perm ||| PTE_V).toNat = pa.toNat / 4096 * 1024 + (perm ||| PTE_V).toNat := by
  have hlt : (perm ||| PTE_V).toNat < 2 ^ 10 := by
    rw [toNat_or]
    exact Nat.or_lt_two_pow hperm (by decide)
  have hor := Nat.shiftLeft_add_eq_or_of_lt hlt (pa.toNat / 4096)
  rw [Nat.shiftLeft_eq] at hor
  rw [BitVec.or_assoc, toNat_or, toNat_pa2pte]
  exact hor.symm

theorem flags_lt (hperm : perm.toNat < 1024) : (perm ||| PTE_V).toNat < 1024 := by
  rw [toNat_or]
  exact Nat.or_lt_two_pow (n := 10) hperm (by decide)

theorem pte2pa_aligned (e : BitVec 64) : Aligned (pte2pa e) := by
  rw [Aligned, toNat_pte2pa]
  omega

theorem pte2pa_entry (hpa : Aligned pa) (hperm : perm.toNat < 1024) :
    pte2pa (pa2pte pa ||| perm ||| PTE_V) = pa := by
  have hlt := flags_lt hperm
  have hpa' : pa.toNat % 4096 = 0 := hpa
  apply eq_of_toNat_eq
  rw [toNat_pte2pa, toNat_entry pa hperm]
  omega

theorem pteFlags_entry (hperm : perm.toNat < 1024) :
    pteFlags (pa2pte pa ||| perm ||| PTE_V) = perm ||| PTE_V := by
  have hlt := flags_lt hperm
  apply eq_of_toNat_eq
  rw [toNat_pteFlags, toNat_entry pa hperm]
  omega

theorem valid_entry : valid (pa2pte pa ||| perm ||| PTE_V) = true := by
  rw [valid_iff, toNat_or, Nat.or_mod_two_eq_one]
  exact .inr rfl

theorem px_val (level : Nat) (va : Addr) : (px level va).val = va.toNat / 2 ^ (12 + 9 * level) % 512 := by
  show ((va >>> (12 + 9 * level)) &&& 0x1FF).toNat = _
  rw [toNat_and, toNat_ushiftRight, Nat.shiftRight_eq_div_pow]
  exact Nat.and_two_pow_sub_one_eq_mod _ 9

theorem page_eq_of_px (hva : va.toNat < 2 ^ 38) (hva' : va'.toNat < 2 ^ 38)
    (h2 : px 2 va = px 2 va') (h1 : px 1 va = px 1 va') (h0 : px 0 va = px 0 va') :
    va.toNat / 4096 = va'.toNat / 4096 := by
  have e2 := congrArg Fin.val h2
  have e1 := congrArg Fin.val h1
  have e0 := congrArg Fin.val h0
  simp only [px_val, Nat.reduceMul, Nat.reduceAdd, Nat.reducePow] at e0 e1 e2
  omega

theorem px_eq_of_page (h : va.toNat / 4096 = va'.toNat / 4096) (level : Nat) : px level va = px level va' := by
  apply Fin.ext
  rw [px_val, px_val, Nat.pow_add, ← Nat.div_div_eq_div_mul, ← Nat.div_div_eq_div_mul]
  exact congrArg (fun n => n / 2 ^ (9 * level) % 512) h

end Xv6.Vm
