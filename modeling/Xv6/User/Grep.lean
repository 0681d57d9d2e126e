import Mathlib.Algebra.Order.BigOperators.Ring.Finset
import Mathlib.Computability.Language
import Mathlib.Data.List.TakeWhile

set_option autoImplicit false

/-! # grep

`match`, `matchhere` and `matchstar` of `user/grep.c` against the language of a pattern, and the
loop of `grep` against the lines of its input. A string is the list of its characters before the
NUL. -/

namespace Xv6.Grep

open Computability List

/-- `matchstar`, with `matchhere(re, ·)` for the pattern `re` after the star. -/
def matchstar (c : Char) (here : List Char → Bool) : List Char → Bool
  | [] => here []
  | t :: text => here (t :: text) || ((t == c || c == '.') && matchstar c here text)

def matchhere : List Char → List Char → Bool
  | [], _ => true
  | c :: '*' :: re, text => matchstar c (matchhere re) text
  | ['$'], text => text.isEmpty
  | _ :: _, [] => false
  | c :: re, t :: text => (c == '.' || c == t) && matchhere re text

/-- The loop of `match`, which looks at the empty string too. -/
def matchLoop (re : List Char) : List Char → Bool
  | [] => matchhere re []
  | t :: text => matchhere re (t :: text) || matchLoop re text

/-- `match`. -/
def matchText : List Char → List Char → Bool
  | '^' :: re, text => matchhere re text
  | re, text => matchLoop re text

/-! ## What a pattern stands for -/

inductive Item
  | star (c : Char)
  | char (c : Char)
  /-- A final `$`. -/
  | atEnd

/-- A pattern, read from left to right. -/
def items : List Char → List Item
  | [] => []
  | c :: '*' :: re => .star c :: items re
  | ['$'] => [.atEnd]
  | c :: re => .char c :: items re

/-- One character equal to `c`, any character if `c` is a dot. -/
def single (c : Char) : Language Char := {w | ∃ t, w = [t] ∧ (c = '.' ∨ c = t)}

def Item.lang : Item → Language Char
  | .star c => (single c)∗
  | .char c => single c
  | .atEnd => 1

/-- The items, one after the other. -/
def lang (l : List Item) : Language Char := (l.map Item.lang).prod

/-- The pattern matches `w` where `rest` follows in the text. -/
def Matches (re w rest : List Char) : Prop :=
  w ∈ lang (items re) ∧ (.atEnd ∈ items re → rest = [])

/-! ## The code against it -/

variable {c : Char} {L : Language Char} {final : Prop} {re text : List Char}

/-- The text begins with a word of the language, and is this word where it has to end. -/
def Begins (L : Language Char) (final : Prop) (text : List Char) : Prop :=
  ∃ w rest, text = w ++ rest ∧ w ∈ L ∧ (final → rest = [])

theorem begins_single_mul :
    Begins (single c * L) final text ↔ ∃ t rest, text = t :: rest ∧ (c = '.' ∨ c = t) ∧
      Begins L final rest := by
  constructor
  · rintro ⟨w, rest, rfl, hw, hfinal⟩
    obtain ⟨_, ⟨t, rfl, ht⟩, v, hv, rfl⟩ := Language.mem_mul.1 hw
    exact ⟨t, v ++ rest, rfl, ht, v, rest, rfl, hv, hfinal⟩
  · rintro ⟨t, _, rfl, ht, w, rest, rfl, hw, hfinal⟩
    exact ⟨t :: w, rest, rfl, Language.mem_mul.2 ⟨[t], ⟨t, rfl, ht⟩, w, hw, rfl⟩, hfinal⟩

theorem begins_star_mul : Begins ((single c)∗ * L) final text ↔
      Begins L final text ∨ Begins (single c * ((single c)∗ * L)) final text := by
  have hunfold : (single c)∗ * L = L + single c * ((single c)∗ * L) := by
    rw [← mul_assoc, ← one_add_mul, Language.one_add_self_mul_kstar_eq_kstar]
  constructor
  · rintro ⟨w, rest, rfl, hw, hfinal⟩
    rw [hunfold] at hw
    exact hw.imp (⟨w, rest, rfl, ·, hfinal⟩) (⟨w, rest, rfl, ·, hfinal⟩)
  rintro (⟨w, rest, rfl, hw, hfinal⟩ | ⟨w, rest, rfl, hw, hfinal⟩)
  · exact ⟨w, rest, rfl, hunfold ▸ .inl hw, hfinal⟩
  · exact ⟨w, rest, rfl, hunfold ▸ .inr hw, hfinal⟩

theorem matchstar_iff {here : List Char → Bool} (hhere : ∀ text, here text = true ↔ Begins L final text)
    (text : List Char) : matchstar c here text = true ↔ Begins ((single c)∗ * L) final text := by
  induction text with
  | nil =>
    rw [begins_star_mul, begins_single_mul]
    simp [matchstar, hhere]
  | cons t text ih =>
    rw [begins_star_mul, begins_single_mul]
    simp [matchstar, hhere, ih, eq_comm (a := t) (b := c), or_comm (a := c = t)]

theorem matchhere_iff (re text : List Char) :
    matchhere re text = true ↔ Begins (lang (items re)) (.atEnd ∈ items re) text := by
  induction re using items.induct generalizing text with
  | case1 => simp [matchhere, items, lang, Begins]
  | case2 c re ih =>
    rw [matchhere, matchstar_iff ih]
    simp [items, lang, Item.lang]
  | case3 => simp [matchhere, items, lang, Item.lang, Begins]
  | case4 c re hstar hend ih =>
    have hitems : items (c :: re) = .char c :: items re := items.eq_4 c re hstar hend
    simp only [hitems, lang, map_cons, prod_cons, Item.lang, mem_cons, reduceCtorEq, false_or]
    rw [begins_single_mul]
    cases text with
    | nil => simp [matchhere]
    | cons t text => simp [matchhere, ih, lang]

theorem matchLoop_iff :
    matchLoop re text = true ↔ ∃ before rest, text = before ++ rest ∧ matchhere re rest = true := by
  induction text with
  | nil => simp [matchLoop]
  | cons t text ih =>
    rw [matchLoop, Bool.or_eq_true, ih]
    constructor
    · rintro (h | ⟨before, rest, rfl, h⟩)
      · exact ⟨[], _, rfl, h⟩
      · exact ⟨t :: before, rest, rfl, h⟩
    rintro ⟨before, rest, heq, h⟩
    cases before with
    | nil => exact .inl (heq ▸ h)
    | cons _ before =>
      cases heq
      exact .inr ⟨before, rest, rfl, h⟩

/-- **`match` finds a pattern where a part of the text is in its language**, a part at the beginning
    if the pattern starts with `^`. -/
theorem matchText_iff (re text : List Char) : matchText re text = true ↔
      match re with
      | '^' :: re => ∃ w rest, text = w ++ rest ∧ Matches re w rest
      | re => ∃ before w rest, text = before ++ w ++ rest ∧ Matches re w rest := by
  unfold matchText
  split
  · exact matchhere_iff _ _
  simp only [matchLoop_iff, matchhere_iff, Begins, Matches, append_assoc]
  constructor
  · rintro ⟨before, _, rfl, w, rest, rfl, h⟩
    exact ⟨before, w, rest, rfl, h⟩
  · rintro ⟨before, w, rest, rfl, h⟩
    exact ⟨before, w ++ rest, rfl, w, rest, rfl, h⟩

/-! ## The loop over the input

The buffer holds the `m` characters before the NUL that `grep` puts behind them. -/

/-- `strchr`: the string before the first `c` and what follows it. -/
def strchr (c : Char) : List Char → Option (List Char × List Char)
  | [] => none
  | x :: s =>
    if x = '\x00' then none
    else if x = c then some ([], s)
    else (strchr c s).map fun (line, rest) => (x :: line, rest)

theorem strchr_eq {s line rest : List Char} (h : strchr c s = some (line, rest)) :
    s = line ++ c :: rest ∧ c ∉ line := by
  induction s generalizing line with
  | nil => cases h
  | cons x s ih =>
    unfold strchr at h
    split_ifs at h with h0 hx
    · cases h
      exact ⟨by rw [hx, nil_append], not_mem_nil⟩
    obtain ⟨⟨line', rest'⟩, hs, ⟨⟩⟩ := Option.map_eq_some_iff.1 h
    obtain ⟨rfl, hc⟩ := ih hs
    exact ⟨rfl, not_mem_cons_of_ne_of_not_mem (Ne.symm hx) hc⟩

theorem strchr_none {s : List Char} (h : strchr c s = none) (h0 : '\x00' ∉ s) : c ∉ s := by
  induction s with
  | nil => exact not_mem_nil
  | cons x s ih =>
    rw [mem_cons, not_or] at h0
    unfold strchr at h
    rw [if_neg (Ne.symm h0.1)] at h
    split_ifs at h with hx
    exact not_mem_cons_of_ne_of_not_mem (Ne.symm hx) (ih (Option.map_eq_none_iff.1 h) h0.2)

/-- The inner loop from `p` on: what it writes, and the characters from its last `p` on. -/
def scan (re p : List Char) : List Char × List Char :=
  match _ : strchr '\n' p with
  | none => ([], p)
  | some (line, rest) =>
    let (out, tail) := scan re rest
    (if matchText re line then line ++ '\n' :: out else out, tail)
termination_by p.length
decreasing_by
  rename_i h
  rw [(strchr_eq h).1, length_append, length_cons]
  omega

/-- `read` of at most `size` characters. Between one and all of those that are left come, as `want`
    says. -/
def read (want size : Nat) (input : List Char) : List Char × List Char :=
  input.splitAt (min (max want 1) size)

/-- The loop of `grep` from its `i`-th `read` on, with `buf` in the buffer: what it writes. -/
def grepFrom (re : List Char) (want : Nat → Nat) (i : Nat) (buf input : List Char) : List Char :=
  match _ : read (want i) (1024 - buf.length - 1) input with
  | ([], _) => []
  | (x :: got, input') =>
    let (out, tail) := scan re (buf ++ x :: got)
    out ++ grepFrom re want (i + 1) tail input'
termination_by input.length
decreasing_by
  rename_i h
  rw [read, splitAt_eq, Prod.mk.injEq] at h
  have hlen := congrArg List.length (take_append_drop (min (max (want i) 1) (1024 - buf.length - 1)) input)
  rw [h.1, h.2, length_append, length_cons] at hlen
  omega

def grep (re : List Char) (want : Nat → Nat) (input : List Char) : List Char := grepFrom re want 0 [] input

/-- The lines of the input that a newline ends. -/
def terminated (input : List Char) : List (List Char) := (input.splitOn '\n').dropLast

/-- The lines that match, each with its newline. -/
def report (re : List Char) (lines : List (List Char)) : List Char :=
  ((lines.filter (matchText re)).map (· ++ ['\n'])).flatten

variable {buf input line : List Char}

theorem terminated_tail (h : '\n' ∉ input) : terminated input = [] := by
  rw [terminated, splitOn_eq_singleton h, dropLast_singleton]

theorem terminated_line (h : '\n' ∉ line) : terminated (line ++ '\n' :: input) = line :: terminated input := by
  rw [terminated, splitOn_append_cons_self_of_not_mem h,
    dropLast_cons_of_ne_nil (splitOn_ne_nil _ _), terminated]

/-- The inner loop writes the lines that end in the buffer, and the rest of the input begins with
    what it leaves. -/
theorem scan_eq (re : List Char) (h0 : '\x00' ∉ buf) :
    ∃ lines tail, scan re buf = (report re lines, tail) ∧ '\n' ∉ tail ∧ '\x00' ∉ tail ∧
      tail.length ≤ buf.length ∧ (∀ l ∈ lines, l.length < buf.length) ∧
      ∀ input, terminated (buf ++ input) = lines ++ terminated (tail ++ input) := by
  fun_induction scan re buf with
  | case1 p h => exact ⟨[], p, rfl, strchr_none h h0, h0, le_rfl, by simp, fun _ => rfl⟩
  | case2 p line rest h out tail hs ih =>
    obtain ⟨rfl, hline⟩ := strchr_eq h
    obtain ⟨lines, tail', heq, hn, h0', hlen, hshort, hterm⟩ := ih fun hm => h0 (by simp [hm])
    rw [hs, Prod.mk.injEq] at heq
    obtain ⟨rfl, rfl⟩ := heq
    refine ⟨line :: lines, tail, ?_, hn, h0', by simp; omega, ?_, fun input => ?_⟩
    · cases hm : matchText re line <;> simp [report, hm]
    · rintro l (_ | ⟨_, hl⟩)
      · simp
      have := hshort l hl
      simp
      omega
    · rw [append_assoc, cons_append, terminated_line hline, hterm, cons_append]

/-- The lines in front of the first one that leaves no room for a newline behind it in the
    buffer. -/
def seen (lines : List (List Char)) : List (List Char) := lines.takeWhile (·.length < 1023)

theorem report_append (re : List Char) (lines lines' : List (List Char)) :
    report re (lines ++ lines') = report re lines ++ report re lines' := by
  simp only [report, filter_append, map_append, flatten_append]

theorem grepFrom_eq (re : List Char) (want : Nat → Nat) (i : Nat) (hn : '\n' ∉ buf) (h0 : '\x00' ∉ buf ++ input)
    (hlen : buf.length ≤ 1023) : grepFrom re want i buf input =
      report re (seen (terminated (buf ++ input))) := by
  fun_induction grepFrom re want i buf input with
  | case1 i buf input rest h =>
    rw [read, splitAt_eq, Prod.mk.injEq, take_eq_nil_iff] at h
    -- the input is at its end, or the buffer is full
    by_cases hin : '\n' ∈ input
    · obtain ⟨line, more, rfl, hline⟩ := eq_append_cons_of_mem hin
      have hfull : ¬ (buf ++ line).length < 1023 := by
        have := h.1.resolve_right (by simp)
        rw [length_append]
        omega
      rw [← append_assoc, terminated_line (by simp [hn, hline]), seen,
        takeWhile_cons_of_neg (by simpa using hfull)]
      rfl
    · rw [terminated_tail (by simp [hn, hin])]
      rfl
  | case2 i buf input x got input' h out tail hs ih =>
    rw [read, splitAt_eq, Prod.mk.injEq] at h
    have happ : input = x :: got ++ input' := by rw [← h.1, ← h.2, take_append_drop]
    have hgot : (buf ++ x :: got).length ≤ 1023 := by
      rw [← h.1, length_append, length_take]
      omega
    rw [happ, ← append_assoc] at h0 ⊢
    obtain ⟨lines, tail', heq, hn', h0', hlen', hshort, hterm⟩ := scan_eq re fun hm => h0 (mem_append_left _ hm)
    rw [hs, Prod.mk.injEq] at heq
    obtain ⟨rfl, rfl⟩ := heq
    rw [ih hn' (by simp_all) (hlen'.trans hgot), hterm, seen, seen,
      takeWhile_append_of_pos fun l hl => by simpa using (hshort l hl).trans_le hgot]
    exact (report_append ..).symm

theorem grep_seen (re : List Char) (want : Nat → Nat) (h0 : '\x00' ∉ input) :
    grep re want input = report re (seen (terminated input)) :=
  grepFrom_eq re want 0 not_mem_nil h0 (Nat.zero_le _)

theorem report_eq_nil {re : List Char} {lines : List (List Char)} :
    report re lines = [] ↔ ∀ l ∈ lines, matchText re l = false := by
  simp [report, flatten_eq_nil_iff, forall_comm (α := List Char)]

/-- **`grep` writes the lines that match, in order and each once, exactly if none of them comes
    after a line of 1023 or more characters or is such a line**, however `read` splits the input. -/
theorem grep_eq (re : List Char) (want : Nat → Nat) (input : List Char) (h0 : '\x00' ∉ input) :
    grep re want input = report re (terminated input) ↔
      ∀ l ∈ (terminated input).dropWhile (·.length < 1023), matchText re l = false := by
  have hall : report re (terminated input) =
      report re (seen (terminated input)) ++ report re ((terminated input).dropWhile (·.length < 1023)) := by
    rw [← report_append, seen, takeWhile_append_dropWhile]
  rw [grep_seen re want h0, hall, self_eq_append_right, report_eq_nil]

theorem grep_eq_two : grep ['b'] (fun _ => 2) ['a', '\n', 'b', '\n'] = ['b', '\n'] :=
  (grep_eq ['b'] (fun _ => 2) ['a', '\n', 'b', '\n'] (by decide)).2 (by decide)

/-- A line of 1023 characters fills the buffer: the next `read` has no room for any, and `grep`
    stops. -/
theorem grep_long_line : '\x00' ∉ List.replicate 1023 'a' ++ ['\n'] ∧
      (∀ want, grep ['a'] want (List.replicate 1023 'a' ++ ['\n']) = []) ∧
      report ['a'] (terminated (List.replicate 1023 'a' ++ ['\n'])) = List.replicate 1023 'a' ++ ['\n'] := by
  generalize hk : 1023 = k
  obtain ⟨n, rfl⟩ : ∃ n, k = n + 1 := ⟨1022, hk.symm⟩
  have h0 : '\x00' ∉ List.replicate (n + 1) 'a' ++ ['\n'] := by simp
  have hterm : terminated (List.replicate (n + 1) 'a' ++ ['\n']) = [List.replicate (n + 1) 'a'] := by
    rw [terminated_line (by simp)]
    rfl
  refine ⟨h0, fun want => ?_, ?_⟩
  · rw [grep_seen _ want h0, hterm, seen, takeWhile_cons_of_neg (by simp [hk])]
    rfl
  · rw [hterm]
    simp [report, matchText, matchLoop, matchhere, replicate_succ]

end Xv6.Grep
