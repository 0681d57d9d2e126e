import Xv6.Memory.Uvm
import Xv6.Structures.Runs

set_option autoImplicit false

/-! # `sbrk` by the threads of one process

`sys_sbrk` reads `p->sz` for its result, and only then does `growproc` take `p->lock` and read
`p->sz` again. Threads of one process can come in between, so that two calls return the same
address. As long as `p->sz` is still what the thread has read when its `growproc` runs, the memory
that the calls return is their own.

`growproc` has `p->lock` for all it does and is one step. The rest of the kernel takes free pages
and gives pages back at any time. -/

namespace Xv6.Vm

open BitVec Function Option Structures

/-- `growproc(n)` for a process with the given page table and size: the new size and the result. The
    size is held in a `uint` on the way. -/
def growproc (kend : Addr) (σ : Mem) (pagetable sz : Addr) (n : BitVec 32) :
    Except String (Mem × Addr × Int) :=
  let old : BitVec 32 := sz.truncate 32
  if 0 < n.toInt then do
    let (σ, r) ← uvmalloc kend σ pagetable (old.zeroExtend 64) ((old + n).zeroExtend 64)
    if r.truncate 32 = (0 : BitVec 32) then .ok (σ, sz, -1)
    else .ok (σ, (r.truncate 32).zeroExtend 64, 0)
  else if n.toInt < 0 then do
    let (σ, r) ← uvmdealloc kend σ pagetable (old.zeroExtend 64) ((old + n).zeroExtend 64)
    .ok (σ, (r.truncate 32).zeroExtend 64, 0)
  else .ok (σ, old.zeroExtend 64, 0)

section Growproc

variable {kend root sz : Addr} {σ : Mem} {nodes : List Addr} {fixed : Nat → Option Frame}
  {n : BitVec 32}

theorem Space.size (hend : KERNBASE ≤ kend) (hs : Space kend σ root nodes (pagesFor sz) fixed) :
    sz.toNat ≤ 2 ^ 27 := by
  have hbound := hs.bound hend
  unfold pagesFor at hbound
  omega

theorem uint_of_lt {x : BitVec 64} (h : x.toNat < 2 ^ 32) : (x.truncate 32).zeroExtend 64 = x := by
  apply eq_of_toNat_eq
  rw [toNat_setWidth, truncate_eq_setWidth, toNat_setWidth]
  omega

section

variable (hend : KERNBASE ≤ kend) (hs : Space kend σ root nodes (pagesFor sz) fixed)
    (hfix : ∀ m, m < 2 ^ 26 - 2 → fixed m = none)
include hend hs hfix

/-- **`growproc` with a positive amount returns; it has added that much memory, or it has failed and
    nothing is lost.** -/
theorem Space.grow (hn : 0 < n.toInt) :
    ∃ σ' sz' r nodes', growproc kend σ root sz n = .ok (σ', sz', r) ∧
      Changes kend σ σ' root nodes nodes' (pagesFor sz) (pagesFor sz') fixed ∧
      NewPages Cleared σ' root (pagesFor sz) (pagesFor sz') ∧
      ((r = 0 ∧ sz'.toNat = sz.toNat + n.toNat) ∨ (r = -1 ∧ sz' = sz)) := by
  have hsz := hs.size hend
  have hold : (sz.truncate 32).zeroExtend 64 = sz := uint_of_lt (by omega)
  have hpos : 0 < n.toNat ∧ n.toNat < 2 ^ 31 := by
    rw [toInt_eq_toNat_cond] at hn
    split at hn <;> omega
  have hnew : ((sz.truncate 32 + n).zeroExtend 64 : Addr).toNat = sz.toNat + n.toNat := by
    rw [toNat_setWidth, toNat_add, truncate_eq_setWidth, toNat_setWidth]
    omega
  have hle : sz ≤ (sz.truncate 32 + n).zeroExtend 64 := by
    rw [le_def, hnew]
    omega
  obtain ⟨σ', r, nodes', k', hcall, hmoves, hzero, hr⟩ := hs.alloc hend hfix hle
  rw [growproc, if_pos hn, hold, hcall]
  rcases hr with ⟨rfl, rfl⟩ | ⟨rfl, rfl⟩
  · refine ⟨σ', _, 0, nodes', ?_, hmoves, hzero, .inl ⟨rfl, hnew⟩⟩
    have hsame := uint_of_lt (x := (sz.truncate 32 + n).zeroExtend 64) (by omega)
    have hne : ((sz.truncate 32 + n).zeroExtend 64 : Addr).truncate 32 ≠ (0 : BitVec 32) := by
      intro hzero
      rw [hzero] at hsame
      rw [← hsame] at hnew
      have : (BitVec.zeroExtend 64 (0 : BitVec 32)).toNat = 0 := rfl
      omega
    show (if _ then _ else _) = _
    rw [if_neg hne, hsame]
  · exact ⟨σ', sz, -1, nodes', rfl, hmoves, hzero, .inr ⟨rfl, rfl⟩⟩

theorem Space.shrink (hn : n.toInt < 0) (hpos : 0 ≤ (sz.toNat : Int) + n.toInt) :
    ∃ σ' sz', growproc kend σ root sz n = .ok (σ', sz', 0) ∧
      Changes kend σ σ' root nodes nodes (pagesFor sz) (pagesFor sz') fixed ∧
      (sz'.toNat : Int) = sz.toNat + n.toInt := by
  have hsz := hs.size hend
  have hbound := hs.bound hend
  have hold : (sz.truncate 32).zeroExtend 64 = sz := uint_of_lt (by omega)
  have hnew : (((sz.truncate 32 + n).zeroExtend 64 : Addr).toNat : Int) = sz.toNat + n.toInt := by
    rw [toInt_eq_toNat_cond] at hn hpos ⊢
    rw [toNat_setWidth, toNat_add, truncate_eq_setWidth, toNat_setWidth]
    split at hn <;> split at hpos <;> omega
  have hlt : (sz.truncate 32 + n).zeroExtend 64 < sz := lt_def.2 (by omega)
  obtain ⟨σ', hcall, hmoves⟩ := hs.dealloc (by omega) (fun m hm => hfix m (by omega)) hlt
  rw [growproc, if_neg (by omega), if_pos hn, hold, hcall]
  refine ⟨σ', _, rfl, ?_, ?_⟩
  · rwa [uint_of_lt (Nat.lt_trans (lt_def.1 hlt) (by omega))]
  · rw [uint_of_lt (Nat.lt_trans (lt_def.1 hlt) (by omega)), hnew]

omit hfix in
/-- An amount that takes away more than there is wraps around: nothing is done, and the call
    succeeds. -/
theorem Space.overshrink (hneg : (sz.toNat : Int) + n.toInt < 0) :
    growproc kend σ root sz n = .ok (σ, sz, 0) := by
  have hsz := hs.size hend
  have hold : (sz.truncate 32).zeroExtend 64 = sz := uint_of_lt (by omega)
  have hge : sz ≤ (sz.truncate 32 + n).zeroExtend 64 := by
    rw [toInt_eq_toNat_cond] at hneg
    rw [le_def, toNat_setWidth, toNat_add, truncate_eq_setWidth, toNat_setWidth]
    split at hneg <;> omega
  rw [growproc, if_neg (by omega), if_pos (by omega), hold, uvmdealloc, if_pos hge]
  show Except.ok (σ, (sz.truncate 32).zeroExtend 64, (0 : Int)) = _
  rw [hold]

theorem Space.growproc_changes (n : BitVec 32) :
    ∃ σ' sz' r nodes', growproc kend σ root sz n = .ok (σ', sz', r) ∧
      Changes kend σ σ' root nodes nodes' (pagesFor sz) (pagesFor sz') fixed := by
  rcases Int.lt_trichotomy n.toInt 0 with hneg | hzero | hgrow
  · by_cases hpos : 0 ≤ (sz.toNat : Int) + n.toInt
    · obtain ⟨σ', sz', hcall, hc, -⟩ := hs.shrink hend hfix hneg hpos
      exact ⟨σ', sz', 0, nodes, hcall, hc⟩
    · exact ⟨σ, sz, 0, nodes, hs.overshrink hend (Int.not_le.1 hpos), .refl hs⟩
  · refine ⟨σ, sz, 0, nodes, ?_, .refl hs⟩
    rw [growproc, if_neg (by omega), if_neg (by omega), uint_of_lt (by have := hs.size hend; omega)]
  · obtain ⟨σ', sz', r, nodes', hcall, hc, -⟩ := hs.grow hend hfix hgrow
    exact ⟨σ', sz', r, nodes', hcall, hc⟩

end

/-- What `growproc(n)` is to do: it changes the size by exactly `n`, with new pages that are zero
    and the old ones as they were, or it fails and changes neither the size nor any mapping. -/
def Grows (σ σ' : Mem) (root sz sz' : Addr) (n : BitVec 32) (r : Int) : Prop :=
  (∀ m fr, m < pagesFor sz → m < pagesFor sz' → pageMap σ root m = some fr →
    pageMap σ' root m = some fr ∧ σ'.page fr.1 = σ.page fr.1) ∧
  (∀ m, pagesFor sz ≤ m → m < pagesFor sz' →
    ∃ fr, pageMap σ' root m = some fr ∧ ∀ i, σ'.page fr.1 i = 0) ∧
  ((r = 0 ∧ (sz'.toNat : Int) = sz.toNat + n.toInt) ∨
    (r = -1 ∧ sz' = sz ∧ pageMap σ' root = pageMap σ root))

section

variable (hend : KERNBASE ≤ kend) (hs : Space kend σ root nodes (pagesFor sz) fixed)
  (hfix : ∀ m, m < 2 ^ 26 - 2 → fixed m = none)
include hend hs hfix

theorem Space.grows (hpos : 0 ≤ (sz.toNat : Int) + n.toInt) :
    ∃ σ' sz' r, growproc kend σ root sz n = .ok (σ', sz', r) ∧ Grows σ σ' root sz sz' n r := by
  have hall : ∀ {σ' sz' nodes'}, Changes kend σ σ' root nodes nodes' (pagesFor sz) (pagesFor sz') fixed →
      ∀ m fr, m < pagesFor sz → m < pagesFor sz' → pageMap σ root m = some fr →
        pageMap σ' root m = some fr ∧ σ'.page fr.1 = σ.page fr.1 := fun hc m fr hm hm' hfr =>
    ⟨(hc.keeps m hm hm').trans hfr, hc.contents m fr hm hm' hfr⟩
  rcases Int.lt_trichotomy n.toInt 0 with hneg | hzero | hgrow
  · obtain ⟨σ', sz', hcall, hc, hsz'⟩ := hs.shrink hend hfix hneg hpos
    have hle : pagesFor sz' ≤ pagesFor sz := by
      unfold pagesFor
      omega
    exact ⟨σ', sz', 0, hcall, hall hc, fun m hge hlt => by omega, .inl ⟨rfl, hsz'⟩⟩
  · have hsz := hs.size hend
    refine ⟨σ, sz, 0, ?_, fun m fr _ _ hfr => ⟨hfr, rfl⟩, fun m hge hlt => by omega, .inl ⟨rfl, by omega⟩⟩
    rw [growproc, if_neg (by omega), if_neg (by omega), uint_of_lt (by omega)]
  obtain ⟨σ', sz', r, nodes', hcall, hc, hclear, hr⟩ := hs.grow hend hfix hgrow
  refine ⟨σ', sz', r, hcall, hall hc, ?_, ?_⟩
  · intro m hge hlt
    obtain ⟨fr, hfr, -⟩ := hc.space.user m hlt
    exact ⟨fr, hfr, hclear m fr hge hlt hfr⟩
  rcases hr with ⟨hr, hsz'⟩ | ⟨hr, rfl⟩
  · refine .inl ⟨hr, ?_⟩
    rw [toInt_eq_toNat_cond] at hgrow ⊢
    split at hgrow <;> omega
  · exact .inr ⟨hr, rfl, hc.same_map hs⟩

end

/-- **`growproc` does what it is to do exactly if the amount does not take away more than there
    is.** -/
theorem growproc_exact (hend : KERNBASE ≤ kend) (hs : Space kend σ root nodes (pagesFor sz) fixed)
    (hfix : ∀ m, m < 2 ^ 26 - 2 → fixed m = none) (n : BitVec 32) :
    ∃ σ' sz' r, growproc kend σ root sz n = .ok (σ', sz', r) ∧
      (Grows σ σ' root sz sz' n r ↔ 0 ≤ (sz.toNat : Int) + n.toInt) := by
  by_cases hpos : 0 ≤ (sz.toNat : Int) + n.toInt
  · obtain ⟨σ', sz', r, hcall, hg⟩ := hs.grows hend hfix hpos
    exact ⟨σ', sz', r, hcall, iff_of_true hg hpos⟩
  · refine ⟨σ, sz, 0, hs.overshrink hend (Int.not_le.1 hpos), iff_of_false ?_ hpos⟩
    rintro ⟨-, -, ⟨-, hsz⟩ | ⟨hr, -⟩⟩
    · omega
    · cases hr

end Growproc

theorem growproc_exact_page :
    ∃ σ' sz' r, growproc 0x80022000 (uvmcreate fourPages).1 0x87fff000 0 4097 = .ok (σ', sz', r) ∧
      Grows (uvmcreate fourPages).1 σ' 0x87fff000 0 sz' 4097 r := by
  have hs : Space 0x80022000 (uvmcreate fourPages).1 0x87fff000 [0x87fff000] (pagesFor 0) (fun _ => none) :=
    fourPages_space
  obtain ⟨σ', sz', r, hcall, hg⟩ := growproc_exact (by decide) hs (fun _ _ => rfl) 4097
  exact ⟨σ', sz', r, hcall, hg.2 (by decide)⟩

/-- A process without memory gives a byte back, and the call succeeds. -/
theorem growproc_wraps : (0 : Int) + (-1 : BitVec 32).toInt < 0 ∧
      (growproc 0x80022000 (uvmcreate fourPages).1 0x87fff000 0 (-1)).map Prod.snd = .ok (0, 0) := by
  constructor
  · decide
  · rfl

/-! ## The threads of a process -/

/-- A thread in `sys_sbrk`: its argument, and what it has read for its result. -/
structure Call where
  n : BitVec 32
  addr : BitVec 32
  deriving DecidableEq

/-- The memory of a process, the calls of its threads, and the pages that are in use elsewhere. -/
structure Heap (T : Type) where
  σ : Mem
  sz : Addr
  calls : T → Option Call
  others : List Addr

inductive HeapAct (T : Type)
  /-- The thread reads `p->sz` for its result. -/
  | read (t : T) (n : BitVec 32)
  /-- The thread calls `growproc` and returns. -/
  | grow (t : T)
  /-- Another process takes a page. -/
  | take
  /-- Another process gives a page back. -/
  | give (a : Addr)

section Machine

variable {T : Type} [DecidableEq T] (kend root : Addr)

def Heap.step (s : Heap T) : HeapAct T → Option (Heap T)
  | .read t n =>
    match s.calls t with
    | some _ => none
    | none =>
      -- int addr = p->sz
      if 0 < n.toInt then some { s with calls := update s.calls t (some ⟨n, s.sz.truncate 32⟩) }
      else none
  | .grow t =>
    match s.calls t with
    | none => none
    | some c =>
      match growproc kend s.σ root s.sz c.n with
      | .error _ => none
      | .ok (σ, sz, _) => some { s with σ := σ, sz := sz, calls := update s.calls t none }
  | .take =>
    match kalloc s.σ with
    | (_, none) => none
    | (σ, some a) => some { s with σ := σ, others := a :: s.others }
  | .give a =>
    if a ∈ s.others then
      match kfree kend s.σ a with
      | .error _ => none
      | .ok σ => some { s with σ := σ, others := s.others.erase a }
    else none

/-- What a call that has succeeded returns: its address, as a `uint64`, and its amount. -/
def Heap.result (s : Heap T) : HeapAct T → Option (Nat × Nat)
  | .grow t =>
    match s.calls t with
    | none => none
    | some c =>
      match growproc kend s.σ root s.sz c.n with
      | .ok (_, _, 0) => some ((c.addr.signExtend 64 : Addr).toNat, c.n.toNat)
      | _ => none
  | _ => none

/-- The calls that have succeeded so far. -/
def noteSbrk (s : Heap T) (i : HeapAct T) (done : List (Nat × Nat)) : List (Nat × Nat) :=
  match s.result kend root i with
  | some r => r :: done
  | none => done

/-- When a thread's `growproc` runs, `p->sz` is what the thread has read. -/
def unchanged (s : Heap T) (i : HeapAct T) (_ : List (Nat × Nat)) : Prop :=
  match i with
  | .grow t => (s.calls t).all (fun c => c.addr == s.sz.truncate 32) = true
  | _ => True

instance unchanged.decidable (s : Heap T) (i : HeapAct T) (done : List (Nat × Nat)) :
    Decidable (unchanged s i done) :=
  match i with
  | .grow t => inferInstanceAs (Decidable ((s.calls t).all (fun c => c.addr == s.sz.truncate 32) = true))
  | .read .. => .isTrue trivial
  | .take => .isTrue trivial
  | .give _ => .isTrue trivial

/-- Two pieces of memory do not overlap. -/
def Apart (r r' : Nat × Nat) : Prop := r.1 + r.2 ≤ r'.1 ∨ r'.1 + r'.2 ≤ r.1

/-- The pages of the process and of the others are all different, and the calls ask for memory. -/
structure Heap.Ok (fixed : Nat → Option Frame) (s : Heap T) : Prop where
  owned : ∃ nodes, Owned kend s.σ root nodes (pagesFor s.sz) fixed s.others
  calls : ∀ t c, s.calls t = some c → 0 < c.n.toInt

/-- What the calls have returned lies below `p->sz`, and no two pieces overlap. -/
structure Heap.Good (s : Heap T) (done : List (Nat × Nat)) : Prop where
  below : ∀ r, r ∈ done → r.1 + r.2 ≤ s.sz.toNat
  apart : done.Pairwise Apart

end Machine

section Steps

variable {T : Type} [DecidableEq T] {kend root : Addr} {fixed : Nat → Option Frame} {s s' : Heap T}
  {i : HeapAct T} {done : List (Nat × Nat)}

section

variable (hend : KERNBASE ≤ kend) (hfix : ∀ m, m < 2 ^ 26 - 2 → fixed m = none)
    (hok : s.Ok kend root fixed) (h : s.step kend root i = some s')
include hend hfix hok h

theorem Heap.Ok.step : s'.Ok kend root fixed := by
  obtain ⟨⟨nodes, howned⟩, hcalls⟩ := hok
  cases i with
  | read t n =>
    simp only [Heap.step] at h
    split at h
    · cases h
    obtain ⟨hpos, ⟨⟩⟩ := ite_none_right_eq_some.1 h
    refine ⟨⟨nodes, howned⟩, fun t' c (hc : update s.calls t _ t' = _) => ?_⟩
    by_cases ht : t' = t
    · rw [ht, update_self] at hc
      cases hc
      exact hpos
    · rw [update_of_ne ht] at hc
      exact hcalls t' c hc
  | grow t =>
    simp only [Heap.step] at h
    split at h
    · cases h
    next c hc =>
    obtain ⟨σ', sz', r, nodes', hcall, hchanges⟩ := howned.space.growproc_changes hend hfix c.n
    rw [hcall] at h
    cases h
    refine ⟨⟨nodes', howned.moves hchanges.toMoves⟩, fun t' c' (hc' : update s.calls t _ t' = _) => ?_⟩
    by_cases ht : t' = t
    · rw [ht, update_self] at hc'
      cases hc'
    · rw [update_of_ne ht] at hc'
      exact hcalls t' c' hc'
  | take =>
    simp only [Heap.step] at h
    cases hf : s.σ.freelist with
    | nil =>
      simp only [kalloc, hf] at h
      cases h
    | cons a rest =>
      rw [kalloc_cons hf] at h
      cases h
      obtain ⟨howned', -⟩ := howned.take hf rfl
        fun b hb => (Mem.memset_page_ne hb : _ = ({ s.σ with freelist := rest } : Mem).page b)
      exact ⟨⟨nodes, howned'⟩, hcalls⟩
  | give a =>
    obtain ⟨ha, h⟩ := ite_none_right_eq_some.1 h
    split at h
    · cases h
    next σ' hfree =>
    cases h
    exact ⟨⟨nodes, (howned.give ha hfree).1⟩, hcalls⟩

theorem Heap.Good.step (hc : unchanged s i done)
    (hg : s.Good done) : s'.Good (noteSbrk kend root s i done) := by
  obtain ⟨⟨nodes, howned⟩, hcalls⟩ := hok
  cases i with
  | read t n =>
    simp only [Heap.step] at h
    split at h
    · cases h
    · obtain ⟨-, ⟨⟩⟩ := ite_none_right_eq_some.1 h
      exact ⟨hg.below, hg.apart⟩
  | grow t =>
    simp only [Heap.step] at h
    split at h
    · cases h
    next c hcall =>
    have hsize := howned.space.size hend
    obtain ⟨σ', sz', r, nodes', hgrow, -, -, hr⟩ := howned.space.grow hend hfix (hcalls t c hcall)
    rw [hgrow] at h
    cases h
    have haddr : (c.addr.signExtend 64 : Addr) = s.sz := by
      simp only [unchanged, hcall, all_some, beq_iff_eq] at hc
      rw [hc]
      exact int_of_lt (by omega)
    rcases hr with ⟨rfl, hsz⟩ | ⟨rfl, rfl⟩
    · have hnote : noteSbrk kend root s (.grow t) done = (s.sz.toNat, c.n.toNat) :: done := by
        simp only [noteSbrk, Heap.result, hcall, hgrow, haddr]
      rw [hnote]
      refine ⟨?_, List.pairwise_cons.2 ⟨fun r hr => .inr (hg.below r hr), hg.apart⟩⟩
      intro r hr
      show r.1 + r.2 ≤ sz'.toNat
      rcases List.mem_cons.1 hr with rfl | hr
      · exact hsz.ge
      · have := hg.below r hr
        omega
    have hnote : noteSbrk kend root s (.grow t) done = done := by
      simp only [noteSbrk, Heap.result, hcall, hgrow]
    rw [hnote]
    exact ⟨hg.below, hg.apart⟩
  | take =>
    simp only [Heap.step] at h
    split at h
    · cases h
    · cases h
      exact ⟨hg.below, hg.apart⟩
  | give a =>
    simp only [Heap.step] at h
    split at h
    · split at h
      · cases h
      · cases h
        exact ⟨hg.below, hg.apart⟩
    · cases h

end

theorem Space.mapped {σ : Mem} {nodes : List Addr} {sz : Addr} {x : Nat} (hend : KERNBASE ≤ kend)
    (hs : Space kend σ root nodes (pagesFor sz) fixed) (hx : x < sz.toNat) :
    ∃ fr, lookup σ root (BitVec.ofNat 64 x) = some fr := by
  have hsize := hs.size hend
  have hnat : (BitVec.ofNat 64 x).toNat = x := by
    rw [toNat_ofNat]
    omega
  have hpage : x / 4096 < pagesFor sz := by
    unfold pagesFor
    omega
  obtain ⟨fr, hfr, -⟩ := hs.user _ hpage
  refine ⟨fr, ?_⟩
  rw [lookup_eq_pageMap (by omega), hnat]
  exact hfr

/-- **`sbrk` with positive amounts by the threads of a process: `growproc` always returns, and in
    every run in which `p->sz` is what the thread has read whenever its `growproc` runs, the pieces
    of memory that the calls return do not overlap and are mapped.** -/
theorem sbrk_apart {s₀ : Heap T} {tr : List (HeapAct T)} (hend : KERNBASE ≤ kend)
    (hfix : ∀ m, m < 2 ^ 26 - 2 → fixed m = none) (hok : s₀.Ok kend root fixed)
    (hrun : runs (Heap.step kend root) s₀ tr = some s) :
    (∀ t c, s.calls t = some c → ∃ r, growproc kend s.σ root s.sz c.n = .ok r) ∧
    (Along (Heap.step kend root) (noteSbrk kend root) unchanged s₀ [] tr →
      (history (Heap.step kend root) (noteSbrk kend root) s₀ [] tr).Pairwise Apart ∧
      ∀ r, r ∈ history (Heap.step kend root) (noteSbrk kend root) s₀ [] tr →
        ∀ x, r.1 ≤ x → x < r.1 + r.2 → ∃ fr, lookup s.σ root (BitVec.ofNat 64 x) = some fr) := by
  have hok' : s.Ok kend root fixed := runs_preserve (fun s => s.Ok kend root fixed) hrun hok
    fun s i s' hstep h => h.step hend hfix hstep
  obtain ⟨nodes, howned⟩ := hok'.owned
  refine ⟨fun t c _ => ?_, fun halong => ?_⟩
  · obtain ⟨σ', sz', r, nodes', hcall, -⟩ := howned.space.growproc_changes hend hfix c.n
    exact ⟨_, hcall⟩
  obtain ⟨-, hgood⟩ := halong.invariant (fun s done => s.Ok kend root fixed ∧ s.Good done) hrun
    ⟨hok, ⟨nofun, List.Pairwise.nil⟩⟩
    fun s i s' done hstep hc ⟨hok, hg⟩ => ⟨hok.step hend hfix hstep, hg.step hend hfix hok hstep hc⟩
  refine ⟨hgood.apart, fun r hr x _ hx => ?_⟩
  exact howned.space.mapped hend (Nat.lt_of_lt_of_le hx (hgood.below r hr))

end Steps

/-- Two threads of a process without memory. -/
def twoThreads : Heap Bool where
  σ := (uvmcreate fourPages).1
  sz := 0
  calls := fun _ => none
  others := []

theorem twoThreads_ok : twoThreads.Ok 0x80022000 0x87fff000 fun _ => none := by
  refine ⟨⟨[0x87fff000], fourPages_space, ?_, nofun⟩, nofun⟩
  rw [twoThreads, List.append_nil]
  exact fourPages_space.nodup

def oneAfterTheOther : List (HeapAct Bool) := [.read true 1, .grow true, .read false 1, .grow false]

theorem sbrk_apart_two : ∃ s, runs (Heap.step 0x80022000 0x87fff000) twoThreads oneAfterTheOther = some s ∧
    Along (Heap.step 0x80022000 0x87fff000) (noteSbrk 0x80022000 0x87fff000) unchanged twoThreads []
      oneAfterTheOther ∧
    history (Heap.step 0x80022000 0x87fff000) (noteSbrk 0x80022000 0x87fff000) twoThreads []
      oneAfterTheOther = [(1, 1), (0, 1)] ∧ [((1 : Nat), (1 : Nat)), (0, 1)].Pairwise Apart := by
  have hsome : (runs (Heap.step 0x80022000 0x87fff000) twoThreads oneAfterTheOther).isSome = true := by
    decide +kernel
  obtain ⟨s, hs⟩ := isSome_iff_exists.1 hsome
  have halong : Along (Heap.step 0x80022000 0x87fff000) (noteSbrk 0x80022000 0x87fff000) unchanged
      twoThreads [] oneAfterTheOther := by decide +kernel
  have hdone : history (Heap.step 0x80022000 0x87fff000) (noteSbrk 0x80022000 0x87fff000) twoThreads []
      oneAfterTheOther = [(1, 1), (0, 1)] := by decide +kernel
  obtain ⟨hapart, -⟩ := (sbrk_apart (by decide) (fun _ _ => rfl) twoThreads_ok hs).2 halong
  rw [hdone] at hapart
  exact ⟨s, hs, halong, hdone, hapart⟩

/-- Both threads read `p->sz` before either of them calls `growproc`. -/
def bothRead : List (HeapAct Bool) := [.read true 1, .read false 1, .grow true, .grow false]

/-- Both calls return the same address. -/
theorem bothRead_overlap :
    (runs (Heap.step 0x80022000 0x87fff000) twoThreads bothRead).isSome = true ∧
      twoThreads.Ok 0x80022000 0x87fff000 (fun _ => none) ∧
      history (Heap.step 0x80022000 0x87fff000) (noteSbrk 0x80022000 0x87fff000) twoThreads [] bothRead
        = [(0, 1), (0, 1)] ∧ ¬ [((0 : Nat), (1 : Nat)), (0, 1)].Pairwise Apart := by
  refine ⟨by decide +kernel, twoThreads_ok, by decide +kernel, ?_⟩
  simp [Apart]

end Xv6.Vm
