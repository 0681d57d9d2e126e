import Mathlib.Data.List.GetD
import Xv6.Memory.Uvm

set_option autoImplicit false

/-! # `copyout` and `copyin`

The two functions split a range of user addresses at the page boundaries and copy each part through
the page to which it is mapped. Here the user's memory is what a page table makes of physical memory
(`userMem`): a byte for each user address that is mapped for the user, below `MAXVA`. In a table
whose user pages are different physical pages, a copy changes the bytes of its range and no others,
up to the first page that is not there.

The kernel's buffer is a list of bytes. Its length is the argument `len`. -/

namespace Xv6.Vm

open BitVec List Option Structures Mem

/-! ## Bytes of physical memory -/

def getByte (w : BitVec 64) (k : Nat) : BitVec 8 := w.extractLsb' (8 * k) 8

def setByte (w : BitVec 64) (k : Nat) (b : BitVec 8) : BitVec 64 :=
  (w &&& ~~~((0xFF : BitVec 64) <<< (8 * k))) ||| (b.zeroExtend 64 <<< (8 * k))

/-- The word of a page that an offset is in. -/
def wordIndex (off : Nat) : Fin 512 := ⟨off / 8 % 512, Nat.mod_lt _ (by decide)⟩

def Mem.byteAt (σ : Mem) (page : Addr) (off : Nat) : BitVec 8 :=
  getByte (σ.page page (wordIndex off)) (off % 8)

def Mem.byte (σ : Mem) (a : Addr) : BitVec 8 := σ.byteAt (pgRoundDown a) (a.toNat % 4096)

def Mem.setByte (σ : Mem) (a : Addr) (b : BitVec 8) : Mem :=
  σ.store ⟨pgRoundDown a, wordIndex (a.toNat % 4096)⟩
    (Vm.setByte (σ.page (pgRoundDown a) (wordIndex (a.toNat % 4096))) (a.toNat % 4096 % 8) b)

/-- `memmove` from a buffer of the kernel to physical memory. -/
def Mem.write (σ : Mem) (pa : Addr) : List (BitVec 8) → Mem
  | [] => σ
  | b :: bs => (σ.setByte pa b).write (pa + 1) bs

/-- `memmove` from physical memory to a buffer of the kernel. -/
def Mem.read (σ : Mem) (pa : Addr) : Nat → List (BitVec 8)
  | 0 => []
  | n + 1 => σ.byte pa :: σ.read (pa + 1) n

/-! ## `vm.c` -/

/-- The loop of `copyout`. Every turn copies at least one byte. -/
def copyoutFrom (pagetable : Addr) : Nat → Mem → Addr → List (BitVec 8) → Except String (Mem × Int)
  | 0, σ, _, _ => .ok (σ, 0)
  | turns + 1, σ, dstva, src =>
    if src.length = 0 then .ok (σ, 0)
    else do
      let va0 := pgRoundDown dstva
      let pa0 ← walkaddr σ pagetable va0
      if pa0 = 0 then .ok (σ, -1)
      else
        let n := min (PGSIZE - (dstva - va0)).toNat src.length
        copyoutFrom pagetable turns (σ.write (pa0 + (dstva - va0)) (src.take n)) (va0 + PGSIZE) (src.drop n)

/-- Copy the bytes from the kernel to the user's address `dstva`. -/
def copyout (σ : Mem) (pagetable dstva : Addr) (src : List (BitVec 8)) : Except String (Mem × Int) :=
  copyoutFrom pagetable src.length σ dstva src

/-- The loop of `copyin`: the bytes that it has copied, and the result. -/
def copyinFrom (σ : Mem) (pagetable : Addr) : Nat → Addr → Nat → Except String (List (BitVec 8) × Int)
  | 0, _, _ => .ok ([], 0)
  | turns + 1, srcva, len =>
    if len = 0 then .ok ([], 0)
    else do
      let va0 := pgRoundDown srcva
      let pa0 ← walkaddr σ pagetable va0
      if pa0 = 0 then .ok ([], -1)
      else
        let n := min (PGSIZE - (srcva - va0)).toNat len
        let (dst, r) ← copyinFrom σ pagetable turns (va0 + PGSIZE) (len - n)
        .ok (σ.read (pa0 + (srcva - va0)) n ++ dst, r)

/-- Copy bytes from the user's address `srcva` to the kernel. -/
def copyin (σ : Mem) (pagetable srcva : Addr) (len : Nat) : Except String (List (BitVec 8) × Int) :=
  copyinFrom σ pagetable len srcva len

/-! ## Reading back single bytes -/

theorem getByte_setByte_self (w : BitVec 64) {k : Nat} (hk : k < 8) (b : BitVec 8) :
    getByte (setByte w k b) k = b := by
  apply eq_of_getLsbD_eq
  intro i hi
  rw [getByte, setByte, getLsbD_extractLsb', getLsbD_or, getLsbD_and,
    getLsbD_not, getLsbD_shiftLeft, getLsbD_shiftLeft, getLsbD_setWidth,
    Nat.add_sub_cancel_left]
  have hff : (0xFF : BitVec 64).getLsbD i = true := by
    have : ∀ j : Fin 8, (0xFF : BitVec 64).getLsbD j.val = true := by decide
    exact this ⟨i, hi⟩
  rw [hff]
  have h1 : 8 * k + i < 64 := by omega
  have h2 : ¬ 8 * k + i < 8 * k := by omega
  have h3 : i < 64 := by omega
  simp [hi, h1, h2, h3]

theorem getByte_setByte_ne (w : BitVec 64) {k j : Nat} (hj : j < 8) (hne : j ≠ k) (b : BitVec 8) :
    getByte (setByte w k b) j = getByte w j := by
  apply eq_of_getLsbD_eq
  intro i hi
  rw [getByte, getByte, setByte, getLsbD_extractLsb', getLsbD_extractLsb', getLsbD_or,
    getLsbD_and, getLsbD_not, getLsbD_shiftLeft, getLsbD_shiftLeft,
    getLsbD_setWidth]
  have h1 : 8 * j + i < 64 := by omega
  by_cases hlt : 8 * j + i < 8 * k
  · simp [h1, hlt]
  have hge : 8 ≤ 8 * j + i - 8 * k := by omega
  have hff : (0xFF : BitVec 64).getLsbD (8 * j + i - 8 * k) = false := by
    rw [← testBit_toNat]
    refine Nat.testBit_lt_two_pow (Nat.lt_of_lt_of_le ?_ (Nat.pow_le_pow_right (by decide) hge))
    decide
  have hb : b.getLsbD (8 * j + i - 8 * k) = false := getLsbD_of_ge b _ hge
  rw [hff, hb]
  simp [h1]

variable {σ σ' : Mem} {root va pa page : Addr} {off j n : Nat} {b : BitVec 8} {bs src : List (BitVec 8)}

section

variable (hpa : Aligned pa) (hoff : off < 4096)
include hpa hoff

theorem page_address :
    pgRoundDown (pa + BitVec.ofNat 64 off) = pa ∧ (pa + BitVec.ofNat 64 off).toNat % 4096 = off := by
  have hpa' : pa.toNat % 4096 = 0 := hpa
  have hadd : (pa + BitVec.ofNat 64 off).toNat = pa.toNat + off := by
    rw [toNat_add, toNat_ofNat]
    have := pa.isLt
    omega
  refine ⟨eq_of_toNat_eq ?_, by omega⟩
  rw [toNat_pgRoundDown, hadd]
  omega

theorem byteAt_setByte (hj : j < 4096) : (σ.setByte (pa + BitVec.ofNat 64 off) b).byteAt page j
      = if page = pa ∧ j = off then b else σ.byteAt page j := by
  obtain ⟨hpage, hmod⟩ := page_address hpa hoff
  rw [Mem.setByte, hpage, hmod]
  by_cases hp : page = pa
  · subst hp
    rw [Mem.byteAt, Mem.byteAt, Mem.store_page_self σ ⟨page, _⟩, Function.update_apply]
    by_cases hw : wordIndex j = wordIndex off
    · have hdiv : j / 8 % 512 = off / 8 % 512 := congrArg Fin.val hw
      rw [if_pos hw]
      by_cases hjo : j = off
      · subst hjo
        rw [if_pos ⟨rfl, rfl⟩, getByte_setByte_self _ (Nat.mod_lt _ (by decide))]
      · rw [if_neg fun h => hjo h.2, getByte_setByte_ne _ (Nat.mod_lt _ (by decide)) (by omega), hw]
    rw [if_neg hw, if_neg]
    rintro ⟨-, rfl⟩
    exact hw rfl
  · rw [if_neg fun h => hp h.1, Mem.byteAt, Mem.store_page_ne hp]
    rfl

theorem setByte_page (hp : page ≠ pa) : (σ.setByte (pa + BitVec.ofNat 64 off) b).page page = σ.page page := by
  rw [Mem.setByte, (page_address hpa hoff).1]
  exact Mem.store_page_ne hp

end

theorem next_byte (pa : Addr) (off : Nat) : pa + BitVec.ofNat 64 off + 1 = pa + BitVec.ofNat 64 (off + 1) := by
  rw [BitVec.add_assoc, ofNat_add]
  rfl

/-- **The bytes of a page after a copy into it.** -/
theorem byteAt_write (hpa : Aligned pa) (hoff : off + bs.length ≤ 4096) (hj : j < 4096) :
    (σ.write (pa + BitVec.ofNat 64 off) bs).byteAt page j
      = if page = pa ∧ off ≤ j ∧ j < off + bs.length then bs.getD (j - off) 0 else σ.byteAt page j := by
  induction bs generalizing σ off with
  | nil =>
    rw [write, if_neg]
    simp only [length_nil]
    omega
  | cons b bs ih =>
    rw [length_cons] at hoff ⊢
    rw [write, next_byte, ih (by omega), byteAt_setByte hpa (by omega) hj]
    by_cases hin : page = pa ∧ off + 1 ≤ j ∧ j < off + 1 + bs.length
    · have hsub : j - off = j - (off + 1) + 1 := by omega
      rw [if_pos hin, if_pos ⟨hin.1, by omega, by omega⟩, hsub, getD_cons_succ]
    rw [if_neg hin]
    by_cases hself : page = pa ∧ j = off
    · obtain ⟨rfl, rfl⟩ := hself
      rw [if_pos ⟨rfl, rfl⟩, if_pos ⟨rfl, Nat.le_refl _, by omega⟩, Nat.sub_self, getD_cons_zero]
    rw [if_neg hself, if_neg]
    rintro ⟨hp, hge, hlt⟩
    by_cases hjo : j = off
    · exact hself ⟨hp, hjo⟩
    · exact hin ⟨hp, by omega, by omega⟩

theorem write_page (hpa : Aligned pa) (hoff : off + bs.length ≤ 4096) (hp : page ≠ pa) :
    (σ.write (pa + BitVec.ofNat 64 off) bs).page page = σ.page page := by
  induction bs generalizing σ off with
  | nil => rfl
  | cons b bs ih =>
    rw [length_cons] at hoff
    rw [write, next_byte, ih (by omega), setByte_page hpa (by omega) hp]

theorem read_page (hpa : Aligned pa) (hoff : off + n ≤ 4096) :
    σ.read (pa + BitVec.ofNat 64 off) n = (List.range' off n).map (σ.byteAt pa) := by
  induction n generalizing off with
  | zero => rfl
  | succ n ih =>
    obtain ⟨hpage, hmod⟩ := page_address hpa (show off < 4096 by omega)
    rw [Mem.read, next_byte, ih (by omega), range'_succ, map_cons, Mem.byte, hpage, hmod]

/-! ## The user's memory -/

/-- The physical page that the user has at a page number: it is below `MAXVA`, valid and
    accessible. -/
def userPage (σ : Mem) (root : Addr) (n : Nat) : Option Addr :=
  match pageMap σ root n with
  | some (pa, flags) => if flags &&& PTE_U = 0 then none else some pa
  | none => none

/-- The byte that the user has at an address. -/
def userMem (σ : Mem) (root : Addr) (a : Nat) : Option (BitVec 8) :=
  (userPage σ root (a / 4096)).map fun pa => σ.byteAt pa (a % 4096)

/-- The user pages are different pages of physical memory, and none of them belongs to the table. -/
structure Distinct (σ : Mem) (root : Addr) : Prop where
  present : ∀ n pa, userPage σ root n = some pa → pa ≠ 0
  outside : ∀ n pa, userPage σ root n = some pa → ¬ σ.Holds root pa
  inj : ∀ n n' pa, userPage σ root n = some pa → userPage σ root n' = some pa → n = n'

/-- Memory with the given bytes from an address on. -/
def putBytes (um : Nat → Option (BitVec 8)) (a : Nat) (bs : List (BitVec 8)) :
    Nat → Option (BitVec 8) := fun c =>
  if a ≤ c ∧ c < a + bs.length then some (bs.getD (c - a) 0) else um c

theorem putBytes_nil (um : Nat → Option (BitVec 8)) (a : Nat) : putBytes um a [] = um := by
  funext c
  exact if_neg (by simp only [length_nil]; omega)

theorem putBytes_append (um : Nat → Option (BitVec 8)) (a : Nat) (bs bs' : List (BitVec 8)) :
    putBytes (putBytes um a bs) (a + bs.length) bs' = putBytes um a (bs ++ bs') := by
  funext c
  simp only [putBytes, length_append]
  by_cases hsnd : a + bs.length ≤ c ∧ c < a + bs.length + bs'.length
  · rw [if_pos hsnd, if_pos (by omega), getD_append_right _ _ _ _ (by omega), Nat.sub_sub]
  rw [if_neg hsnd]
  by_cases hfst : a ≤ c ∧ c < a + bs.length
  · rw [if_pos hfst, if_pos (by omega), getD_append _ _ _ _ (by omega)]
  · rw [if_neg hfst, if_neg (by omega)]

theorem userPage_lt (h : userPage σ root n = some pa) : n < 2 ^ 26 := by
  by_contra hge
  rw [userPage, pageMap, if_neg hge] at h
  cases h

theorem userPage_aligned (h : userPage σ root n = some pa) : Aligned pa := by
  have hn := userPage_lt h
  unfold userPage at h
  split at h
  · next pa' flags hmap =>
    have hnat := toNat_pageAddr hn
    have hpage : pageMap σ root ((pageAddr n).toNat / 4096) = some (pa', flags) := by
      rwa [hnat, Nat.mul_div_cancel _ (by decide)]
    obtain ⟨b, -, -, hfr⟩ := follow_of_pageMap (by omega) hpage
    obtain ⟨-, ⟨⟩⟩ := ite_none_left_eq_some.1 h
    rw [(Prod.mk.inj hfr).1]
    exact pte2pa_aligned _
  · cases h

theorem walkaddr_page (σ : Mem) (root va : Addr) :
    walkaddr σ root (pgRoundDown va) = .ok ((userPage σ root (va.toNat / 4096)).getD 0) := by
  rw [walkaddr_eq, pgRoundDown_page, userPage]
  cases pageMap σ root (va.toNat / 4096) with
  | none => rfl
  | some fr =>
    obtain ⟨pa, flags⟩ := fr
    show Except.ok (if flags &&& PTE_U = 0 then 0 else pa) =
      .ok ((if flags &&& PTE_U = 0 then none else some pa).getD 0)
    split <;> rfl

theorem page_offset (va : Addr) : va - pgRoundDown va = BitVec.ofNat 64 (va.toNat % 4096) ∧
    (PGSIZE - (va - pgRoundDown va)).toNat = 4096 - va.toNat % 4096 := by
  have hdown := toNat_pgRoundDown va
  have hsub : (va - pgRoundDown va).toNat = va.toNat % 4096 := by
    rw [toNat_sub_of_le (le_def.2 (by omega)), hdown]
    omega
  constructor
  · apply eq_of_toNat_eq
    rw [hsub, toNat_ofNat]
    omega
  rw [toNat_sub_of_le, hsub]
  · rfl
  rw [le_def, hsub]
  show va.toNat % 4096 ≤ 4096
  omega

theorem Distinct.write (hd : Distinct σ root) {a : Nat} (hpage : userPage σ root (a / 4096) = some pa)
    (hlen : a % 4096 + bs.length ≤ 4096) :
    let σ' := σ.write (pa + BitVec.ofNat 64 (a % 4096)) bs
    pageMap σ' root = pageMap σ root ∧ Distinct σ' root ∧
      userMem σ' root = putBytes (userMem σ root) a bs := by
  intro σ'
  have hpa := userPage_aligned hpage
  have hpages : ∀ c, c ≠ pa → σ'.page c = σ.page c := fun c hc => write_page hpa hlen hc
  have hnodes : ∀ c, σ.Holds root c → σ'.page c = σ.page c := by
    intro c hc
    refine hpages c ?_
    rintro rfl
    exact hd.outside _ _ hpage hc
  have hmap : pageMap σ' root = pageMap σ root := pageMap_frame hnodes
  have huser : userPage σ' root = userPage σ root := by
    funext n
    rw [userPage, userPage, hmap]
  refine ⟨hmap, ⟨?_, ?_, ?_⟩, ?_⟩
  · rw [huser]
    exact hd.present
  · rw [huser]
    intro n pa' h hn
    exact hd.outside n pa' h ((holds_frame hnodes pa').1 hn)
  · rw [huser]
    exact hd.inj
  funext c
  rw [userMem, putBytes, huser]
  by_cases hc : c / 4096 = a / 4096
  · have hbyte : σ'.byteAt pa (c % 4096) = _ := byteAt_write hpa hlen (Nat.mod_lt c (by decide))
    rw [userMem, hc, hpage, map_some, map_some, hbyte]
    by_cases hin : a ≤ c ∧ c < a + bs.length
    · rw [if_pos hin, if_pos ⟨rfl, by omega, by omega⟩, show c % 4096 - a % 4096 = c - a by omega]
    rw [if_neg hin, if_neg]
    rintro ⟨-, hge, hlt⟩
    exact hin ⟨by omega, by omega⟩
  rw [if_neg (by omega), userMem]
  cases hother : userPage σ root (c / 4096) with
  | none => rfl
  | some pa' =>
    have hne : pa' ≠ pa := by
      rintro rfl
      exact hc (hd.inj _ _ _ hother hpage)
    rw [map_some, map_some, Mem.byteAt, Mem.byteAt, hpages pa' hne]

/-! ## The loops -/

theorem copyoutFrom_nil (turns : Nat) (σ : Mem) (va : Addr) : copyoutFrom root turns σ va [] = .ok (σ, 0) := by
  cases turns <;> rfl

theorem copyoutFrom_missing (turns : Nat) (hne : src ≠ []) (h : userPage σ root (va.toNat / 4096) = none) :
    copyoutFrom root (turns + 1) σ va src = .ok (σ, -1) := by
  rw [copyoutFrom, if_neg (by simpa using hne)]
  simp only [walkaddr_page, h]
  rfl

theorem copyoutFrom_page (hd : Distinct σ root) (turns : Nat) (hne : src ≠ [])
    (h : userPage σ root (va.toNat / 4096) = some pa) :
    copyoutFrom root (turns + 1) σ va src = copyoutFrom root turns
        (σ.write (pa + BitVec.ofNat 64 (va.toNat % 4096)) (src.take (min (4096 - va.toNat % 4096) src.length)))
        (pgRoundDown va + PGSIZE) (src.drop (min (4096 - va.toNat % 4096) src.length)) := by
  obtain ⟨hoff, hleft⟩ := page_offset va
  rw [copyoutFrom, if_neg (by simpa using hne)]
  simp only [walkaddr_page, h, getD_some]
  show (if pa = 0 then _ else _) = _
  rw [if_neg (hd.present _ _ h), hleft, hoff]

theorem next_page_address (h : userPage σ root (va.toNat / 4096) = some pa) :
    (pgRoundDown va + PGSIZE).toNat = (va.toNat / 4096 + 1) * 4096 := by
  have hlt := userPage_lt h
  have hdown := toNat_pgRoundDown va
  rw [(next_page (pgRoundDown_aligned va) (by omega)).1, hdown]
  omega

/-- **`copyout` copies up to the first page that the user does not have.** -/
theorem copyoutFrom_spec {turns : Nat} (hd : Distinct σ root) (hturns : src.length ≤ turns) :
    ∃ σ' r m, copyoutFrom root turns σ va src = .ok (σ', r) ∧ pageMap σ' root = pageMap σ root ∧
      Distinct σ' root ∧ userMem σ' root = putBytes (userMem σ root) va.toNat (src.take m) ∧
      (∀ c, va.toNat ≤ c → c < va.toNat + m → userPage σ root (c / 4096) ≠ none) ∧
      ((r = 0 ∧ m = src.length) ∨
        (r = -1 ∧ m < src.length ∧ userPage σ root ((va.toNat + m) / 4096) = none)) := by
  induction turns generalizing σ va src with
  | zero =>
    obtain rfl : src = [] := length_eq_zero_iff.1 (by omega)
    exact ⟨σ, 0, 0, rfl, rfl, hd, (putBytes_nil ..).symm, fun c _ _ => by omega, .inl ⟨rfl, rfl⟩⟩
  | succ turns ih =>
    by_cases hne : src = []
    · subst hne
      exact ⟨σ, 0, 0, copyoutFrom_nil .., rfl, hd, (putBytes_nil ..).symm, fun c _ _ => by omega,
        .inl ⟨rfl, rfl⟩⟩
    have hpos : 0 < src.length := length_pos_iff.2 hne
    cases hpage : userPage σ root (va.toNat / 4096) with
    | none =>
      exact ⟨σ, -1, 0, copyoutFrom_missing turns hne hpage, rfl, hd, (putBytes_nil ..).symm,
        fun c _ _ => by omega, .inr ⟨rfl, hpos, hpage⟩⟩
    | some pa =>
      rw [copyoutFrom_page hd turns hne hpage]
      generalize hn : min (4096 - va.toNat % 4096) src.length = n
      have htake : (src.take n).length = n := length_take_of_le (by omega)
      have hfits : va.toNat % 4096 + (src.take n).length ≤ 4096 := by omega
      obtain ⟨hmap₁, hd₁, hmem₁⟩ := hd.write hpage hfits
      have huser : ∀ m, userPage (σ.write (pa + BitVec.ofNat 64 (va.toNat % 4096)) (src.take n)) root m
          = userPage σ root m := fun m => by rw [userPage, userPage, hmap₁]
      have hfirst : ∀ c, va.toNat ≤ c → c < va.toNat + n → userPage σ root (c / 4096) ≠ none := by
        intro c hge hlt
        have hc : c / 4096 = va.toNat / 4096 := by omega
        rw [hc, hpage]
        exact nofun
      by_cases hlast : src.length ≤ 4096 - va.toNat % 4096
      · -- the range ends in this page
        have hdrop : src.drop n = [] := drop_eq_nil_of_le (by omega)
        rw [hdrop]
        exact ⟨_, 0, n, copyoutFrom_nil .., hmap₁, hd₁, hmem₁, hfirst, .inl ⟨rfl, by omega⟩⟩
      have hnext := next_page_address hpage
      have hstart : (pgRoundDown va + PGSIZE).toNat = va.toNat + n := by omega
      obtain ⟨σ', r, m, hcall, hmap, hd', hmem, hpages, hr⟩ :=
        @ih _ (pgRoundDown va + PGSIZE) (src.drop n) hd₁ (by rw [length_drop]; omega)
      rw [length_drop, hstart] at hr
      rw [hstart] at hpages
      refine ⟨σ', r, n + m, hcall, hmap.trans hmap₁, hd', ?_, ?_, ?_⟩
      · have hput := putBytes_append (userMem σ root) va.toNat (src.take n) ((src.drop n).take m)
        rw [htake] at hput
        rw [hmem, hstart, hmem₁, hput, ← take_add]
      · intro c hge hlt
        by_cases hc : c < va.toNat + n
        · exact hfirst c hge hc
        · rw [← huser]
          exact hpages c (by omega) (by omega)
      · rw [huser, Nat.add_assoc] at hr
        rcases hr with ⟨hr, hm⟩ | ⟨hr, hm, hnone⟩
        · exact .inl ⟨hr, by omega⟩
        · exact .inr ⟨hr, by omega, hnone⟩

theorem copyinFrom_spec {turns : Nat} (hd : Distinct σ root) (hturns : src.length ≤ turns)
    (h : ∀ c, va.toNat ≤ c → c < va.toNat + src.length →
      userMem σ root c = some (src.getD (c - va.toNat) 0)) :
    copyinFrom σ root turns va src.length = .ok (src, 0) := by
  induction turns generalizing va src with
  | zero =>
    obtain rfl : src = [] := length_eq_zero_iff.1 (by omega)
    rfl
  | succ turns ih =>
    by_cases hne : src = []
    · subst hne
      rfl
    have hpos : 0 < src.length := length_pos_iff.2 hne
    obtain ⟨pa, hpage, -⟩ := map_eq_some_iff.1 (h va.toNat (Nat.le_refl _) (by omega))
    obtain ⟨hoff, hleft⟩ := page_offset va
    rw [copyinFrom, if_neg (by omega)]
    simp only [walkaddr_page, hpage, getD_some]
    show (if pa = 0 then _ else _) = _
    rw [if_neg (hd.present _ _ hpage), hleft, hoff]
    generalize hn : min (4096 - va.toNat % 4096) src.length = n
    have hpart : σ.read (pa + BitVec.ofNat 64 (va.toNat % 4096)) n = src.take n := by
      rw [read_page (userPage_aligned hpage) (by omega)]
      refine ext_getElem (by rw [length_map, length_range', length_take_of_le (by omega)])
        fun i hi hi' => ?_
      rw [length_map, length_range'] at hi
      have hbyte := h (va.toNat + i) (by omega) (by omega)
      have hdiv : (va.toNat + i) / 4096 = va.toNat / 4096 := by omega
      rw [userMem, hdiv, hpage, map_some, Nat.add_sub_cancel_left,
        show (va.toNat + i) % 4096 = va.toNat % 4096 + i by omega] at hbyte
      rw [getElem_map, getElem_range', Nat.one_mul, some.inj hbyte, getElem_take, getD_eq_getElem]
    have hrest : copyinFrom σ root turns (pgRoundDown va + PGSIZE) (src.length - n) = .ok (src.drop n, 0) := by
      rw [← length_drop]
      refine ih (by rw [length_drop]; omega) fun c hge hlt => ?_
      rw [length_drop] at hlt
      have hnext := next_page_address hpage
      by_cases hlast : src.length ≤ 4096 - va.toNat % 4096
      · omega
      have hstart : (pgRoundDown va + PGSIZE).toNat = va.toNat + n := by omega
      rw [hstart] at hge hlt ⊢
      rw [h c (by omega) (by omega), getD_eq_getElem?_getD, getD_eq_getElem?_getD,
        getElem?_drop, show n + (c - (va.toNat + n)) = c - va.toNat by omega]
    show (copyinFrom σ root turns (pgRoundDown va + PGSIZE) (src.length - n) >>= fun x =>
      .ok (σ.read (pa + BitVec.ofNat 64 (va.toNat % 4096)) n ++ x.1, x.2)) = _
    rw [hrest, hpart]
    show Except.ok (src.take n ++ src.drop n, (0 : Int)) = _
    rw [take_append_drop]

/-- **`copyout` and `copyin`, for every address and length**: a copy succeeds if the user has all
    the pages of its range, and then the user's memory has the bytes and is otherwise the same; if
    it fails, only bytes of the range before the first missing page have changed; and what has been
    copied out can be copied in. -/
theorem copyout_exact (hd : Distinct σ root) (va : Addr) (src : List (BitVec 8)) :
    ∃ σ' r, copyout σ root va src = .ok (σ', r) ∧ (r = 0 ∨ r = -1) ∧
      (r = 0 ↔ ∀ c, va.toNat ≤ c → c < va.toNat + src.length → userPage σ root (c / 4096) ≠ none) ∧
      (r = 0 → (∀ c, userMem σ' root c = if va.toNat ≤ c ∧ c < va.toNat + src.length
          then some (src.getD (c - va.toNat) 0) else userMem σ root c) ∧
        copyin σ' root va src.length = .ok (src, 0)) ∧
      (r = -1 → ∀ c, userMem σ' root c ≠ userMem σ root c →
        (va.toNat ≤ c ∧ c < va.toNat + src.length) ∧
          ∀ c', va.toNat ≤ c' → c' ≤ c → userPage σ root (c' / 4096) ≠ none) := by
  obtain ⟨σ', r, m, hcall, hmap, hd', hmem, hpages, hr⟩ :=
    @copyoutFrom_spec _ _ va _ _ hd (Nat.le_refl src.length)
  refine ⟨σ', r, hcall, ?_, ?_, ?_, ?_⟩
  · rcases hr with ⟨hr, -⟩ | ⟨hr, -⟩
    · exact .inl hr
    · exact .inr hr
  · constructor
    · intro hzero
      obtain ⟨-, rfl⟩ := hr.resolve_right fun h => by omega
      exact hpages
    intro hall
    rcases hr with ⟨hr, -⟩ | ⟨-, hm, hnone⟩
    · exact hr
    · exact absurd hnone (hall _ (by omega) (by omega))
  · intro hzero
    obtain ⟨-, rfl⟩ := hr.resolve_right fun h => by omega
    rw [take_length] at hmem
    have hbytes : ∀ c, userMem σ' root c = _ := fun c => congrFun hmem c
    refine ⟨hbytes, copyinFrom_spec hd' (Nat.le_refl _) fun c hge hlt => ?_⟩
    rw [hbytes, putBytes, if_pos ⟨hge, hlt⟩]
  intro hfail c hc
  obtain ⟨-, hm, -⟩ := hr.resolve_left fun h => by omega
  have htake : (src.take m).length = m := length_take_of_le (by omega)
  rw [hmem, putBytes, htake] at hc
  have hin : va.toNat ≤ c ∧ c < va.toNat + m := by
    by_contra hout
    exact hc (if_neg hout)
  exact ⟨by omega, fun c' hge hle => hpages c' hge (by omega)⟩

theorem frames_inj {f : Nat → Option Frame} {k n' : Nat} {fr fr' : Frame} (h : (frames f 0 k).Nodup)
    (hn : n < k) (hn' : n' < k) (hf : f n = some fr) (hf' : f n' = some fr') (heq : fr.1 = fr'.1) : n = n' := by
  induction k with
  | zero => exact absurd hn (Nat.not_lt_zero n)
  | succ k ih =>
    have happ := frames_append (k := k) f 0 1
    rw [Nat.zero_add] at happ
    rw [happ] at h
    have hlast : ∀ {m g}, f m = some g → m = k → g.1 ∈ frames f k 1 := by
      rintro m g hg rfl
      exact mem_frames (Nat.le_refl m) (Nat.lt_succ_self m) hg
    have hfirst : ∀ {m g}, f m = some g → m < k → g.1 ∈ frames f 0 k := fun hg hm =>
      mem_frames (Nat.zero_le _) (by omega) hg
    rcases Nat.lt_succ_iff_lt_or_eq.1 hn with hlt | hk
    · rcases Nat.lt_succ_iff_lt_or_eq.1 hn' with hlt' | hk'
      · exact ih h.of_append_left hlt hlt'
      have hin := hfirst hf hlt
      rw [heq] at hin
      exact absurd (hlast hf' hk') (disjoint_of_nodup_append h hin)
    rcases Nat.lt_succ_iff_lt_or_eq.1 hn' with hlt' | hk'
    · have hin := hfirst hf' hlt'
      rw [← heq] at hin
      exact absurd (hlast hf hk) (disjoint_of_nodup_append h hin)
    · omega

/-- The page tables of processes are such tables: their user pages come from the allocator. -/
theorem Space.distinct {kend : Addr} {nodes : List Addr} {k : Nat} {fixed : Nat → Option Frame}
    (hend : KERNBASE ≤ kend) (hs : Space kend σ root nodes k fixed)
    (hfix : ∀ n fr, fixed n = some fr → fr.2 &&& PTE_U = 0) : Distinct σ root := by
  have huser : ∀ n pa, userPage σ root n = some pa → n < k ∧ ∃ fr, pageMap σ root n = some fr ∧ fr.1 = pa := by
    intro n pa h
    unfold userPage at h
    split at h
    · next pa' flags hmap =>
      obtain ⟨hflag, h⟩ := ite_none_left_eq_some.1 h
      refine ⟨?_, _, hmap, some.inj h⟩
      by_contra hge
      rw [hs.rest n (Nat.not_lt.1 hge)] at hmap
      exact hflag (hfix n _ hmap)
    · cases h
  have hmem : ∀ n pa, userPage σ root n = some pa → pa ∈ frames (pageMap σ root) 0 k := by
    intro n pa h
    obtain ⟨hn, fr, hmap, rfl⟩ := huser n pa h
    exact mem_frames (Nat.zero_le n) (by omega) hmap
  refine ⟨?_, ?_, ?_⟩
  · rintro n pa h rfl
    have hram := hs.ram 0 (mem_append_right _ (mem_append_right _ (hmem n 0 h)))
    exact absurd (BitVec.le_trans hend hram.above) (by decide)
  · intro n pa h hn
    exact disjoint_of_nodup_append hs.nodup.of_append_right ((hs.holds pa).1 hn) (hmem n pa h)
  · intro n n' pa h h'
    obtain ⟨hn, fr, hmap, hfr⟩ := huser n pa h
    obtain ⟨hn', fr', hmap', hfr'⟩ := huser n' pa h'
    exact frames_inj hs.nodup.of_append_right.of_append_right hn hn' hmap hmap' (hfr.trans hfr'.symm)

def onePage : Mem :=
  match uvmalloc 0x80022000 (uvmcreate fourPages).1 0x87fff000 0 4096 with
  | .ok (σ, _) => σ
  | .error _ => fourPages

theorem onePage_distinct : Distinct onePage 0x87fff000 := by
  have hle : (0 : Addr) ≤ 4096 := by decide
  obtain ⟨σ', r, nodes', k', hcall, hmoves, -⟩ :=
    Space.alloc (by decide) fourPages_space (fun _ _ => rfl) hle
  have hone : onePage = σ' := by rw [onePage, hcall]
  rw [hone]
  exact hmoves.space.distinct (by decide) nofun

theorem copyout_exact_page : ∃ σ', copyout onePage 0x87fff000 4000 [1, 2, 3] = .ok (σ', 0) ∧
      copyin σ' 0x87fff000 4000 3 = .ok ([1, 2, 3], 0) := by
  obtain ⟨σ', r, hcall, -, hiff, hzero, -⟩ := copyout_exact onePage_distinct 4000 [1, 2, 3]
  have hpage : userPage onePage 0x87fff000 0 ≠ none := by decide +kernel
  have hr : r = 0 := by
    refine hiff.2 fun c hge hlt => ?_
    have hge' : 4000 ≤ c := hge
    have hlt' : c < 4000 + 3 := hlt
    rwa [show c / 4096 = 0 by omega]
  subst hr
  exact ⟨σ', hcall, (hzero rfl).2⟩

end Xv6.Vm
