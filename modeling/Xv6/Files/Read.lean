import Xv6.Files.Offset

set_option autoImplicit false

/-! # How much a read copies

`fileread` on the three kinds of files that a descriptor can stand for. The length `n` is an `int`
in `piperead` and `consoleread`, whose loops end at once if it is negative, but `readi` takes it as
a `uint`. The bytes that are given to `copyout` are counted beside the memory. -/

namespace Xv6.Files

variable {M : Type} (copyout : M → Nat → List Byte → M × Bool)

/-- `copyout` with the number of bytes it has been given. -/
def counting (mem : M × Nat) (dst : Nat) (bs : List Byte) : (M × Nat) × Bool :=
  (((copyout mem.1 dst bs).1, mem.2 + bs.length), (copyout mem.1 dst bs).2)

/-- The loop of `piperead` on the bytes in the buffer, from the `i`-th byte on; the lock is held. -/
def pipereadFrom (n : Int) (addr : Nat) : List Byte → M → Int → M × List Byte × Int
  | [], mem, i => (mem, [], i)
  | ch :: buf, mem, i =>
    if i < n then
      match copyout mem (addr + i.toNat) [ch] with
      | (mem, true) => pipereadFrom n addr buf mem (i + 1)
      | (mem, false) => (mem, buf, i)
    else (mem, ch :: buf, i)

def ctrlD : Byte := 4

def newline : Byte := 10

variable (wait : Nat → Option (Byte × List Byte))

/-- The loop of `consoleread`, with `n` of `target` bytes to go. The lock is free while it sleeps:
    then `wait` gives the input that there is afterwards, or `none` if the process has been
    killed. -/
def consolereadFrom (target : Int) : Nat → M → Nat → Int → List Byte → M × List Byte × Int
  | 0, mem, _, n, buf => (mem, buf, target - n)
  | fuel + 1, mem, dst, n, buf =>
    if n > 0 then
      match (match buf with | [] => wait fuel | c :: buf => some (c, buf)) with
      | none => (mem, buf, -1)
      | some (c, buf) =>
        -- the end of the file is saved for the next call if there is something to return
        if c = ctrlD then (mem, if n < target then c :: buf else buf, target - n)
        else
          match copyout mem dst [c] with
          | (mem, false) => (mem, buf, target - n)
          | (mem, true) =>
            if c = newline then (mem, buf, target - (n - 1))
            else consolereadFrom target fuel mem (dst + 1) (n - 1) buf
    else (mem, buf, target - n)

/-- What is read: an inode at the offset of the file, the buffer of a pipe as `piperead` finds it
    after it has waited, the input of the console, or a device that cannot be read. -/
inductive Source
  | inode (content : List Byte) (off : BitVec 32)
  | pipe (buf : List Byte)
  | console (buf : List Byte)
  | nodev

/-- `struct file`, as far as `fileread` looks at it. -/
structure Readable where
  readable : Bool
  src : Source

/-- `fileread` behind its first test. -/
def readSource (mem : M) (addr : Nat) (n : Int) : Source → M × Source × Int
  | .inode c off =>
    let (mem, r) := readi copyout c mem addr off.toNat (n % 2 ^ 32).toNat
    (mem, .inode c (if r > 0 then off + BitVec.ofInt 32 r else off), r)
  | .pipe buf =>
    let (mem, buf, r) := pipereadFrom copyout n addr buf mem 0
    (mem, .pipe buf, r)
  | .console buf =>
    let (mem, buf, r) := consolereadFrom copyout wait n n.toNat mem addr n buf
    (mem, .console buf, r)
  | .nodev => (mem, .nodev, -1)

def fileread (mem : M) (addr : Nat) (n : Int) (f : Readable) : M × Readable × Int :=
  if f.readable = false then (mem, f, -1)
  else
    let (mem, src, r) := readSource copyout wait mem addr n f.src
    (mem, { f with src }, r)

/-! ## The loops -/

variable {copyout} {mem : M × Nat} {n : Int} {c : List Byte}

theorem counting_count {mem' : M × Nat} {dst : Nat} {bs : List Byte} {ok : Bool}
    (h : counting copyout mem dst bs = (mem', ok)) : mem'.2 = mem.2 + bs.length := by
  cases h
  rfl

theorem pipereadFrom_count {addr : Nat} (buf : List Byte) (i : Int) :
    (pipereadFrom (counting copyout) n addr buf mem i).1.2 ≤ mem.2 + (n - i).toNat := by
  fun_induction pipereadFrom (counting copyout) n addr buf mem i with
  | case2 ch buf mem i hlt mem' hcopy ih =>
    have hone : mem'.2 = mem.2 + 1 := counting_count hcopy
    omega
  | case3 ch buf mem i hlt mem' hcopy =>
    have hone : mem'.2 = mem.2 + 1 := counting_count hcopy
    simp only
    omega
  | _ => exact Nat.le_add_right _ _

theorem consolereadFrom_count (target : Int) (fuel dst : Nat) (buf : List Byte) :
    (consolereadFrom (counting copyout) wait target fuel mem dst n buf).1.2 ≤ mem.2 + n.toNat := by
  fun_induction consolereadFrom (counting copyout) wait target fuel mem dst n buf with
  | case4 fuel mem dst n buf hpos ch rest _ _ mem' hcopy
  | case5 fuel mem dst n buf hpos rest mem' _ _ hcopy =>
    have hone : mem'.2 = mem.2 + 1 := counting_count hcopy
    simp only
    omega
  | case6 fuel mem dst n buf hpos ch rest _ _ mem' hcopy _ ih =>
    have hone : mem'.2 = mem.2 + 1 := counting_count hcopy
    omega
  | _ => exact Nat.le_add_right _ _

theorem readiFrom_count (fuel dst off rest tot : Nat) :
    mem.2 ≤ (readiFrom (counting copyout) c fuel mem dst off rest tot).1.2 ∧
      (readiFrom (counting copyout) c fuel mem dst off rest tot).1.2 ≤ mem.2 + rest ∧
      (fuel ≠ 0 → rest ≠ 0 → off < c.length →
        mem.2 < (readiFrom (counting copyout) c fuel mem dst off rest tot).1.2) := by
  induction fuel generalizing mem dst off rest tot with
  | zero => exact ⟨Nat.le_refl _, Nat.le_add_right _ _, fun h => absurd rfl h⟩
  | succ fuel ih =>
    simp only [readiFrom]
    split
    · next hrest => exact ⟨Nat.le_refl _, Nat.le_add_right _ _, fun _ h => absurd hrest h⟩
    next hrest =>
    have hpos := @piece_pos off rest hrest
    have hle := piece_le off rest
    have hlen : ((c.drop off).take (piece off rest)).length = min (piece off rest) (c.length - off) := by
      rw [List.length_take, List.length_drop]
    split
    · next mem' hcopy =>
      have hcount := counting_count hcopy
      have := @ih mem' (dst + piece off rest) (off + piece off rest) (rest - piece off rest)
        (tot + piece off rest)
      omega
    next mem' hcopy =>
    have hcount := counting_count hcopy
    simp only
    omega

/-! ## A negative length -/

/-- The length is not negative, or `readi` refuses the range that it makes of it. -/
def Source.Bounded (n : Int) : Source → Prop
  | .inode c off => 0 ≤ n ∨ c.length ≤ off.toNat ∨ -n ≤ off.toNat
  | .pipe _ | .console _ | .nodev => True

theorem readi_none (mem : M) (addr : Nat) {off : Nat} (hn : -2 ^ 31 ≤ n) (hneg : n < 0) (hoff : off < 2 ^ 32)
    (hf : c.length ≤ off ∨ -n ≤ off) : readi copyout c mem addr off (n % 2 ^ 32).toNat = (mem, 0) := by
  unfold readi
  split
  · rfl
  next hc =>
  -- the offset is the size: nothing is left
  obtain rfl : off = c.length := by omega
  rw [if_pos (by omega), Nat.sub_self]
  rfl

theorem readi_count (addr off k : Nat) : (readi (counting copyout) c mem addr off k).1.2 ≤ mem.2 + k := by
  unfold readi
  split
  · exact Nat.le_add_right _ _
  · refine Nat.le_trans (readiFrom_count ..).2.1 (Nat.add_le_add_left ?_ _)
    split <;> omega

theorem readi_some (addr : Nat) {off : Nat} (hn : -2 ^ 31 ≤ n) (hoff : off < c.length) (hneg : off < -n) :
    mem.2 < (readi (counting copyout) c mem addr off (n % 2 ^ 32).toNat).1.2 := by
  unfold readi
  rw [if_neg (by omega)]
  refine (readiFrom_count ..).2.2 ?_ ?_ hoff <;> split <;> omega

theorem readSource_bounded (mem : M) (addr : Nat) (f : Source) (hn : -2 ^ 31 ≤ n ∧ n < 2 ^ 31) :
    ((readSource (counting copyout) wait (mem, 0) addr n f).1.2 ≤ n.toNat ↔ f.Bounded n) ∧
      (f.Bounded n → n < 0 → (readSource (counting copyout) wait (mem, 0) addr n f).1 = (mem, 0) ∧
        (readSource (counting copyout) wait (mem, 0) addr n f).2.1 = f) := by
  cases f with
  | inode c off =>
    have hnone : n < 0 → Source.Bounded n (.inode c off) →
        readi (counting copyout) c (mem, 0) addr off.toNat (n % 2 ^ 32).toNat = ((mem, 0), 0) := by
      intro hneg hf
      exact readi_none _ addr hn.1 hneg off.isLt (hf.resolve_left (by omega))
    refine ⟨⟨fun hle => ?_, fun hf => ?_⟩, fun hf hneg => ?_⟩
    · by_contra hf
      simp only [Source.Bounded, not_or, Int.not_le, Nat.not_le] at hf
      have hsome : 0 < (readSource (counting copyout) wait (mem, 0) addr n (.inode c off)).1.2 :=
        @readi_some _ copyout (mem, 0) n c addr off.toNat hn.1 hf.2.1 hf.2.2
      omega
    · rcases Int.lt_or_le n 0 with hneg | hpos
      · simp only [readSource, hnone hneg hf]
        exact Nat.zero_le _
      have hcount : (readSource (counting copyout) wait (mem, 0) addr n (.inode c off)).1.2 ≤
          0 + (n % 2 ^ 32).toNat := readi_count ..
      omega
    · simp only [readSource, hnone hneg hf]
      exact ⟨trivial, rfl⟩
  | pipe buf =>
    have hcount := @pipereadFrom_count _ copyout (mem, 0) n addr buf 0
    rw [Int.sub_zero, Nat.zero_add] at hcount
    refine ⟨⟨fun _ => trivial, fun _ => hcount⟩, fun _ hneg => ?_⟩
    cases buf with
    | nil => exact ⟨rfl, rfl⟩
    | cons ch buf =>
      have hend : ¬ (0 : Int) < n := by omega
      simp [readSource, pipereadFrom, hend]
  | console buf =>
    have hcount := @consolereadFrom_count _ copyout wait (mem, 0) n n n.toNat addr buf
    rw [Nat.zero_add] at hcount
    refine ⟨⟨fun _ => trivial, fun _ => hcount⟩, fun _ hneg => ?_⟩
    have hzero : n.toNat = 0 := by omega
    simp [readSource, hzero, consolereadFrom]
  | nodev => exact ⟨⟨fun _ => trivial, fun _ => Nat.zero_le _⟩, fun _ _ => ⟨rfl, rfl⟩⟩

/-- The file is not open for reading, or the length is one that what is read takes. -/
def Readable.Bounded (n : Int) (f : Readable) : Prop := f.readable = false ∨ f.src.Bounded n

/-- **A read copies no more than `n` bytes, and nothing if `n` is negative, except from an inode
    whose offset is below both its size and `-n`**: there the length becomes a large `uint`. -/
theorem fileread_bounded_iff (mem : M) (addr : Nat) (f : Readable) (hn : -2 ^ 31 ≤ n ∧ n < 2 ^ 31) :
    ((fileread (counting copyout) wait (mem, 0) addr n f).1.2 ≤ n.toNat ↔ f.Bounded n) ∧
      (f.Bounded n → n < 0 → (fileread (counting copyout) wait (mem, 0) addr n f).1 = (mem, 0) ∧
        (fileread (counting copyout) wait (mem, 0) addr n f).2.1 = f) := by
  obtain ⟨readable, src⟩ := f
  unfold fileread Readable.Bounded
  cases readable with
  | false => exact ⟨⟨fun _ => .inl rfl, fun _ => Nat.zero_le _⟩, fun _ _ => ⟨rfl, rfl⟩⟩
  | true =>
    obtain ⟨hiff, hneg⟩ := @readSource_bounded M copyout wait n mem addr src hn
    simp only [Bool.true_eq_false, if_false, false_or]
    exact ⟨hiff, fun hf h => ⟨(hneg hf h).1, by rw [(hneg hf h).2]⟩⟩

/-- Memory that takes every copy. -/
def taking (mem : List Byte) (_ : Nat) (bs : List Byte) : List Byte × Bool := (mem ++ bs, true)

theorem fileread_bounded_iff_two :
    (fileread (counting taking) (fun _ => none) ([], 0) 0 2 ⟨true, .inode [1, 2, 3] 0⟩).1.2 ≤ 2 :=
  (fileread_bounded_iff (fun _ => none) [] 0 ⟨true, .inode [1, 2, 3] 0⟩ (by decide)).1.2
    (.inr (.inl (by decide)))

/-- `read(fd, addr, -1)` copies the whole file, and its offset moves. -/
theorem negative_read_copies :
    fileread (counting taking) (fun _ => none) ([], 0) 0 (-1) ⟨true, .inode [1, 2, 3] 0⟩ =
      (([1, 2, 3], 3), ⟨true, .inode [1, 2, 3] 3⟩, 3) := by
  rfl

end Xv6.Files
