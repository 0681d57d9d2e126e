import Xv6.Memory.Copy

set_option autoImplicit false

/-! # `copyinstr` and `fetchstr`

The string at a user address is read page by page. The result is compared with reading the user's
memory byte by byte (`userStr`). -/

namespace Xv6.Vm

open List Option

/-- The inner loop of `copyinstr` over a part of a page: the bytes that it has copied, and
    `got_null`. -/
def copyPart (σ : Mem) (p : Addr) : Nat → List (BitVec 8) × Bool
  | 0 => ([], false)
  | n + 1 =>
    if σ.byte p = 0 then ([0], true) else (σ.byte p :: (copyPart σ (p + 1) n).1, (copyPart σ (p + 1) n).2)

def copyinstrFrom (σ : Mem) (pagetable : Addr) : Nat → Addr → Nat → Except String (List (BitVec 8) × Int)
  | 0, _, _ => .ok ([], -1)
  | turns + 1, srcva, max =>
    if max = 0 then .ok ([], -1)
    else do
      let va0 := pgRoundDown srcva
      let pa0 ← walkaddr σ pagetable va0
      if pa0 = 0 then .ok ([], -1)
      else
        let n := min (PGSIZE - (srcva - va0)).toNat max
        let part := copyPart σ (pa0 + (srcva - va0)) n
        if part.2 then .ok (part.1, 0)
        else do
          let (dst, r) ← copyinstrFrom σ pagetable turns (va0 + PGSIZE) (max - n)
          .ok (part.1 ++ dst, r)

/-- Copy a string from the user's address `srcva` to the kernel: the bytes copied, and the
    result. -/
def copyinstr (σ : Mem) (pagetable srcva : Addr) (max : Nat) : Except String (List (BitVec 8) × Int) :=
  copyinstrFrom σ pagetable max srcva max

/-- `syscall.c`; the result of a successful call is `strlen(buf)`. -/
def fetchstr (σ : Mem) (pagetable addr : Addr) (max : Nat) : Except String (List (BitVec 8) × Int) := do
  let (buf, err) ← copyinstr σ pagetable addr max
  if err < 0 then .ok (buf, err) else .ok (buf, (buf.takeWhile (· ≠ 0)).length)

/-! ## Byte by byte -/

/-- What a reader gets up to a null byte, an address that is not there, or the limit. -/
def userStr (um : Nat → Option (BitVec 8)) : Nat → Nat → List (BitVec 8) × Int
  | _, 0 => ([], -1)
  | a, max + 1 =>
    match um a with
    | none => ([], -1)
    | some b => if b = 0 then ([0], 0) else (b :: (userStr um (a + 1) max).1, (userStr um (a + 1) max).2)

variable {σ : Mem} {root pa va : Addr} {um : Nat → Option (BitVec 8)} {a off n max : Nat}

theorem userStr_missing (h : um a = none) : userStr um a max = ([], -1) := by
  cases max with
  | zero => rfl
  | succ max => rw [userStr, h]

/-- Reading on after the part of a page. -/
theorem userStr_part (hpa : Aligned pa) (hoff : off + n ≤ 4096)
    (hum : ∀ i, i < n → um (a + i) = some (σ.byteAt pa (off + i))) (m : Nat) :
    userStr um a (n + m) =
      let part := copyPart σ (pa + BitVec.ofNat 64 off) n
      if part.2 then (part.1, 0)
      else (part.1 ++ (userStr um (a + n) m).1, (userStr um (a + n) m).2) := by
  induction n generalizing a off with
  | zero => simp [copyPart]
  | succ n ih =>
    obtain ⟨hpage, hmod⟩ := page_address hpa (show off < 4096 by omega)
    have hbyte : σ.byte (pa + BitVec.ofNat 64 off) = σ.byteAt pa off := by
      rw [Mem.byte, hpage, hmod]
    have hrest := @ih (a + 1) (off + 1) (by omega) fun i hi => by
      rw [Nat.add_assoc, Nat.add_comm 1, hum (i + 1) (by omega), Nat.add_right_comm, Nat.add_assoc]
    have hfirst : um a = some (σ.byteAt pa off) := hum 0 (by omega)
    rw [Nat.add_right_comm, userStr, hfirst, copyPart, hbyte, next_byte]
    show (if σ.byteAt pa off = 0 then _ else _) = _
    by_cases hzero : σ.byteAt pa off = 0
    · rw [if_pos hzero, if_pos hzero]
      rfl
    · rw [if_neg hzero, if_neg hzero, hrest, Nat.add_right_comm a 1 n]
      dsimp only
      split <;> rfl

/-- **The page-wise loop reads the string that the user has.** -/
theorem copyinstrFrom_eq (hd : Distinct σ root) {turns : Nat} (hturns : max ≤ turns) :
    copyinstrFrom σ root turns va max = .ok (userStr (userMem σ root) va.toNat max) := by
  induction turns generalizing va max with
  | zero =>
    obtain rfl : max = 0 := by omega
    rfl
  | succ turns ih =>
    by_cases hmax : max = 0
    · subst hmax
      rfl
    obtain ⟨hoff, hleft⟩ := page_offset va
    rw [copyinstrFrom, if_neg hmax]
    simp only [walkaddr_page]
    cases hpage : userPage σ root (va.toNat / 4096) with
    | none =>
      rw [userStr_missing (by rw [userMem, hpage, map_none])]
      rfl
    | some pa =>
      show (if pa = 0 then _ else _) = _
      rw [if_neg (hd.present _ _ hpage), hleft, hoff]
      generalize hn : min (4096 - va.toNat % 4096) max = n
      obtain ⟨m, rfl⟩ : ∃ m, max = n + m := ⟨max - n, by omega⟩
      have hpart := @userStr_part σ pa (userMem σ root) va.toNat (va.toNat % 4096) n
        (userPage_aligned hpage) (by omega)
        (fun i hi => by
          rw [userMem, show (va.toNat + i) / 4096 = va.toNat / 4096 by omega, hpage, map_some,
            show (va.toNat + i) % 4096 = va.toNat % 4096 + i by omega]) m
      have hrest : copyinstrFrom σ root turns (pgRoundDown va + PGSIZE) m
          = .ok (userStr (userMem σ root) (va.toNat + n) m) := by
        rw [ih (by omega)]
        by_cases hm : m = 0
        · rw [hm, userStr, userStr]
        · have hnext := next_page_address hpage
          rw [show (pgRoundDown va + PGSIZE).toNat = va.toNat + n by omega]
      rw [hpart, Nat.add_sub_cancel_left, getD_some]
      dsimp only
      split
      · rfl
      · rw [hrest]
        rfl

/-- The bytes are those the user has; they end with the only null byte, or where the reader had to
    stop. -/
theorem userStr_spec (um : Nat → Option (BitVec 8)) (a max : Nat) :
    (userStr um a max).1.length ≤ max ∧
    (∀ i, i < (userStr um a max).1.length → um (a + i) = (userStr um a max).1[i]?) ∧
    ((userStr um a max).2 = 0 ∧ (∃ str, (userStr um a max).1 = str ++ [0] ∧ 0 ∉ str) ∨
      (userStr um a max).2 = -1 ∧ 0 ∉ (userStr um a max).1 ∧
        ((userStr um a max).1.length = max ∨ um (a + (userStr um a max).1.length) = none)) := by
  induction max generalizing a with
  | zero => simp [userStr]
  | succ max ih =>
    rw [userStr]
    cases hb : um a with
    | none => simp [hb]
    | some b =>
      dsimp only
      by_cases hzero : b = 0
      · subst hzero
        simp [hb]
      · obtain ⟨hlen, hbytes, hend⟩ := ih (a + 1)
        rw [if_neg hzero]
        refine ⟨Nat.succ_le_succ hlen, fun i hi => ?_, ?_⟩
        · cases i with
          | zero => exact hb
          | succ i =>
            rw [getElem?_cons_succ, ← hbytes i (Nat.lt_of_succ_lt_succ hi)]
            congr 1
            omega
        rcases hend with ⟨hr, str, hstr, hnot⟩ | ⟨hr, hnot, hstop⟩
        · exact .inl ⟨hr, b :: str, by rw [hstr]; rfl, not_mem_cons_of_ne_of_not_mem (Ne.symm hzero) hnot⟩
        · refine .inr ⟨hr, not_mem_cons_of_ne_of_not_mem (Ne.symm hzero) hnot,
            hstop.imp (congrArg (· + 1)) fun h => ?_⟩
          rw [← h]
          congr 1
          rw [length_cons]
          omega

/-- **`fetchstr` gives the kernel the user's string and its length**, if it ends before the limit
and before the first address that is not there; if not, the result is -1. It never copies more than
`max` bytes. -/
theorem fetchstr_exact (hd : Distinct σ root) (va : Addr) (max : Nat) :
    ∃ buf r, fetchstr σ root va max = .ok (buf, r) ∧ buf.length ≤ max ∧
      (∀ i, i < buf.length → userMem σ root (va.toNat + i) = buf[i]?) ∧
      ((∃ str : List (BitVec 8), buf = str ++ [0] ∧ 0 ∉ str ∧ r = str.length) ∨
        r = -1 ∧ 0 ∉ buf ∧ (buf.length = max ∨ userMem σ root (va.toNat + buf.length) = none)) := by
  obtain ⟨hlen, hbytes, hend⟩ := userStr_spec (userMem σ root) va.toNat max
  have hcall : copyinstr σ root va max = .ok (userStr (userMem σ root) va.toNat max) :=
    copyinstrFrom_eq hd (Nat.le_refl max)
  rw [fetchstr, hcall]
  generalize userStr (userMem σ root) va.toNat max = res at *
  obtain ⟨buf, r⟩ := res
  rcases hend with ⟨hr, str, hstr, hnot⟩ | ⟨hr, hnot, hstop⟩
  · obtain rfl : r = 0 := hr
    obtain rfl : buf = str ++ [0] := hstr
    refine ⟨_, _, rfl, hlen, hbytes, .inl ⟨str, rfl, hnot, ?_⟩⟩
    rw [takeWhile_append_of_pos (by simpa using fun x hx (h : x = 0) => hnot (h ▸ hx))]
    simp
  · obtain rfl : r = -1 := hr
    exact ⟨_, _, rfl, hlen, hbytes, .inr ⟨rfl, hnot, hstop⟩⟩

/-- The string `init` at the end of the user's only page. -/
theorem fetchstr_exact_init :
    let σ := onePage.write (0x87ffe000 + 4000) [0x69, 0x6e, 0x69, 0x74, 0]
    fetchstr σ 0x87fff000 4000 128 = .ok ([0x69, 0x6e, 0x69, 0x74, 0], 4) ∧
      userMem σ 0x87fff000 4003 = some 0x74 := by
  have hpage : userPage onePage 0x87fff000 0 = some 0x87ffe000 := by decide +kernel
  have hfits : 4000 % 4096 + [0x69, 0x6e, 0x69, 0x74, (0 : BitVec 8)].length ≤ 4096 := by decide
  obtain ⟨-, hd, -⟩ := onePage_distinct.write (a := 4000) hpage hfits
  obtain ⟨buf, r, hcall, -, hbytes, -⟩ := fetchstr_exact hd 4000 128
  have hval : fetchstr (onePage.write (0x87ffe000 + 4000) [0x69, 0x6e, 0x69, 0x74, 0]) 0x87fff000 4000 128 =
      .ok ([0x69, 0x6e, 0x69, 0x74, 0], 4) := by decide +kernel
  cases hcall.symm.trans hval
  exact ⟨hcall, hbytes 3 (by decide)⟩

end Xv6.Vm
