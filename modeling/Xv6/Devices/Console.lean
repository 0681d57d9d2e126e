import Xv6.Structures.Fifo
import Xv6.Structures.Runs

set_option autoImplicit false

/-! # The console's input

`consoleintr` and `consoleread` of `console.c`: an editor that fills a ring, and readers that empty
it. Each call of `consoleintr` is one step, and so is each turn of the loop of `consoleread`; a
reader that finds nothing sleeps. What the user has typed is kept beside the ring as text
(`Typed`). -/

namespace Xv6.Console

open BitVec Function List Option Structures

abbrev INPUT_BUF : Nat := 128

/-- `C(x)`. -/
def ctrl (x : Char) : BitVec 8 := BitVec.ofNat 8 x.toNat - 64

structure Cons where
  buf : Fin INPUT_BUF → BitVec 8
  r : BitVec 32
  w : BitVec 32
  e : BitVec 32

/-- The loop that kills a line; it makes as many turns at most as there are characters. -/
def killLine : Nat → Cons → Cons
  | 0, s => s
  | k + 1, s =>
    if s.e ≠ s.w ∧ s.buf (slot INPUT_BUF (s.e - 1)) ≠ 10 then killLine k { s with e := s.e - 1 } else s

/-- A character is stored, and with the last one of a line or of the ring the line is given to the
    readers. -/
def store (s : Cons) (c : BitVec 8) : Cons :=
  let s := { s with buf := update s.buf (slot INPUT_BUF s.e) c, e := s.e + 1 }
  if c = 10 ∨ c = ctrl 'D' ∨ s.e = s.r + BitVec.ofNat 32 INPUT_BUF then { s with w := s.e } else s

def consoleintr (s : Cons) (c : BitVec 8) : Cons :=
  if c = ctrl 'P' then s
  else if c = ctrl 'U' then killLine (s.e - s.w).toNat s
  else if c = ctrl 'H' ∨ c = 0x7f then if s.e ≠ s.w then { s with e := s.e - 1 } else s
  else if c ≠ 0 ∧ (s.e - s.r).toNat < INPUT_BUF then store s (if c = 13 then 10 else c)
  else s

/-- What a reader gets: a byte, or the result 0. -/
inductive Event
  | byte (b : BitVec 8)
  | zero
deriving DecidableEq

structure State (T : Type) where
  cons : Cons
  /-- `n` and `target` of the calls of `consoleread`. -/
  calls : T → Option (Nat × Nat)
  /-- What the calls have given so far. -/
  given : List Event

inductive Act (T : Type)
  | intr (c : BitVec 8)
  /-- A call of `consoleread`, for `n` bytes. -/
  | read (t : T) (n : Nat)
  /-- A turn of its loop. -/
  | turn (t : T)
  /-- The reader has been killed, and returns -1. -/
  | killed (t : T)

variable {T : Type} [DecidableEq T]

/-- `consoleread` returns `target - n`. -/
def State.return_ (s : State T) (t : T) (n target : Nat) : State T :=
  { s with
    calls := update s.calls t none
    given := if target - n = 0 then s.given ++ [.zero] else s.given }

def State.step (s : State T) : Act T → Option (State T)
  | .intr c => some { s with cons := consoleintr s.cons c }
  | .read t n =>
    if s.calls t = none ∧ 0 < n then some { s with calls := update s.calls t (some (n, n)) } else none
  | .killed t =>
    if s.calls t ≠ none ∧ s.cons.r = s.cons.w then some { s with calls := update s.calls t none }
    else none
  | .turn t =>
    match s.calls t with
    | none => none
    | some (n, target) =>
      if s.cons.r = s.cons.w then none
      else
        let c := s.cons.buf (slot INPUT_BUF s.cons.r)
        let next : State T := { s with cons := { s.cons with r := s.cons.r + 1 } }
        -- an end of file after some bytes is left for the next call
        if c = ctrl 'D' then some (if n < target then s.return_ t n target else next.return_ t n target)
        else
          let next : State T := { next with given := next.given ++ [.byte c] }
          if c = 10 ∨ n - 1 = 0 then some (next.return_ t (n - 1) target)
          else some { next with calls := update next.calls t (some (n - 1, target)) }

/-! ## What is typed -/

/-- The line that is being edited, and all that has been committed. -/
structure Typed where
  line : List (BitVec 8)
  committed : List (BitVec 8)

/-- A character of the line is typed while `queued` characters are waiting or being edited. -/
def Typed.add (h : Typed) (queued : Nat) (c : BitVec 8) : Typed :=
  if c = 10 ∨ c = ctrl 'D' ∨ queued + 1 = INPUT_BUF then ⟨[], h.committed ++ (h.line ++ [c])⟩
  else { h with line := h.line ++ [c] }

def Typed.type (h : Typed) (queued : Nat) (c : BitVec 8) : Typed :=
  if c = ctrl 'P' then h
  else if c = ctrl 'U' then { h with line := [] }
  else if c = ctrl 'H' ∨ c = 0x7f then { h with line := h.line.dropLast }
  else if c ≠ 0 ∧ queued < INPUT_BUF then h.add queued (if c = 13 then 10 else c)
  else h

def noteTyped (s : State T) (a : Act T) (h : Typed) : Typed :=
  match a with
  | .intr c => h.type (s.cons.e - s.cons.r).toNat c
  | _ => h

/-- What a reader gets for a committed character. -/
def event (b : BitVec 8) : Event := if b = ctrl 'D' then .zero else .byte b

/-! ## The ring holds it -/

/-- The ring holds the committed characters that are not read, and the line after them. -/
structure Rep (s : Cons) (pend line : List (BitVec 8)) : Prop where
  queued : Queued s.buf s.r (pend ++ line)
  write : s.w = s.r + BitVec.ofNat 32 pend.length
  edit : s.e = s.w + BitVec.ofNat 32 line.length
  room : pend.length + line.length ≤ INPUT_BUF
  full : pend.length + line.length = INPUT_BUF → line = []
  plain : 10 ∉ line

theorem toNat_sub {i j : BitVec 32} {k : Nat} (h : j = i + BitVec.ofNat 32 k) (hk : k < 2 ^ 32) :
    (j - i).toNat = k := by
  rw [h, BitVec.add_comm, BitVec.add_sub_cancel, toNat_ofNat, Nat.mod_eq_of_lt hk]

variable {s : Cons} {pend line : List (BitVec 8)} {c : BitVec 8}

section

variable (h : Rep s pend line)
include h

theorem Rep.small : pend.length + line.length < 2 ^ 32 := Nat.lt_of_le_of_lt h.room (by decide)

theorem Rep.edit_read : s.e = s.r + BitVec.ofNat 32 (pend ++ line).length := by
  rw [h.edit, h.write, length_append, ofNat_add, BitVec.add_assoc]

theorem Rep.lengths : (s.w - s.r).toNat = pend.length ∧ (s.e - s.w).toNat = line.length ∧
    (s.e - s.r).toNat = pend.length + line.length := by
  have hsmall := h.small
  have hall := toNat_sub h.edit_read (by rw [length_append]; exact hsmall)
  rw [length_append] at hall
  exact ⟨toNat_sub h.write (by omega), toNat_sub h.edit (by omega), hall⟩

theorem Rep.line_eq_nil : s.e = s.w ↔ line = [] := by
  have hsmall := h.small
  rw [h.edit, eq_comm]
  exact counter_eq_iff s.w (by omega)

theorem Rep.pend_eq_nil : s.r = s.w ↔ pend = [] := by
  have hsmall := h.small
  rw [h.write]
  exact counter_eq_iff s.r (by omega)

end

theorem Rep.erase (h : Rep s pend (line ++ [c])) :
    s.buf (slot INPUT_BUF (s.e - 1)) = c ∧ s.e ≠ s.w ∧ Rep { s with e := s.e - 1 } pend line := by
  have he : s.e - 1 = s.r + BitVec.ofNat 32 (pend ++ line).length := by
    rw [h.edit_read, ← List.append_assoc, List.length_append, BitVec.ofNat_add, ← BitVec.add_assoc]
    exact BitVec.add_sub_cancel ..
  have hq := h.queued
  rw [← List.append_assoc, queued_concat, ← he] at hq
  have hroom := h.room
  rw [length_append, length_singleton] at hroom
  refine ⟨hq.2, fun hnil => ?_, hq.1, h.write, ?_, by omega, fun hfull => by omega,
    fun hin => h.plain (mem_append_left _ hin)⟩
  · simpa using h.line_eq_nil.1 hnil
  · rw [he, h.write, length_append, ofNat_add, BitVec.add_assoc]

theorem Rep.kill (h : Rep s pend line) : Rep (killLine line.length s) pend [] := by
  induction line using List.reverseRecOn generalizing s with
  | nil => exact h
  | append_singleton line c ih =>
    obtain ⟨hc, hne, hrep⟩ := h.erase
    have hplain : s.buf (slot INPUT_BUF (s.e - 1)) ≠ 10 := by
      rw [hc]
      rintro rfl
      exact h.plain (mem_append_right _ mem_cons_self)
    rw [length_append, length_singleton, killLine, if_pos ⟨hne, hplain⟩]
    exact ih hrep

theorem Rep.store (committed : List (BitVec 8)) (h : Rep s pend line)
    (hroom : pend.length + line.length < INPUT_BUF) (c : BitVec 8) :
    let h' := Typed.add ⟨line, committed⟩ (pend.length + line.length) c
    ∃ new, h'.committed = committed ++ new ∧ Rep (store s c) (pend ++ new) h'.line := by
  have hlen : (pend ++ (line ++ [c])).length = pend.length + line.length + 1 := by simp [Nat.add_assoc]
  have hqueued : Queued (update s.buf (slot INPUT_BUF s.e) c) s.r (pend ++ (line ++ [c])) := by
    rw [← List.append_assoc, h.edit_read]
    exact h.queued.push (by decide) (by rw [length_append]; exact hroom)
  have hedit : s.e + 1 = s.r + BitVec.ofNat 32 (pend ++ (line ++ [c])).length := by
    rw [h.edit_read, hlen, length_append, ofNat_add _ 1, BitVec.add_assoc]
    rfl
  -- the ring is full just if the indices say so
  have hfull : s.e + 1 = s.r + BitVec.ofNat 32 INPUT_BUF ↔ pend.length + line.length + 1 = INPUT_BUF := by
    rw [hedit, hlen, BitVec.add_right_inj]
    refine ⟨fun heq => ?_, fun heq => by rw [heq]⟩
    have hnat := congrArg BitVec.toNat heq
    have hsmall : pend.length + line.length + 1 < 2 ^ 32 := Nat.lt_of_le_of_lt hroom (by decide)
    rwa [toNat_ofNat, Nat.mod_eq_of_lt hsmall] at hnat
  unfold Console.store Typed.add
  simp only [hfull]
  split_ifs with hcommit
  · refine ⟨line ++ [c], rfl, ?_, hedit, (BitVec.add_zero _).symm, ?_, fun _ => rfl, not_mem_nil⟩
    · rw [append_nil]
      exact hqueued
    · rw [hlen]
      exact hroom
  obtain ⟨hnl, -, hnot⟩ := (not_or.1 hcommit).imp_right not_or.1
  refine ⟨[], (append_nil _).symm, ?_, ?_, ?_, ?_, fun heq => absurd ?_ hnot, fun hin => ?_⟩
  · rwa [append_nil]
  · rw [append_nil]
    exact h.write
  · rw [hedit, h.write, length_append, ofNat_add, BitVec.add_assoc]
  · rwa [append_nil, ← length_append, hlen]
  · rwa [append_nil, ← length_append, hlen] at heq
  · rcases mem_append.1 hin with hin | hin
    · exact h.plain hin
    · exact hnl (mem_singleton.1 hin).symm

theorem Rep.next (h : Rep s (c :: pend) line) : Rep { s with r := s.r + 1 } pend line := by
  have hroom := h.room
  rw [length_cons] at hroom
  refine ⟨h.queued.2, ?_, h.edit, by omega, fun hfull => by omega, h.plain⟩
  rw [counter_succ]
  exact h.write

theorem consoleintr_rep (committed : List (BitVec 8)) (h : Rep s pend line) (c : BitVec 8) :
    let h' := Typed.type ⟨line, committed⟩ (s.e - s.r).toNat c
    ∃ new, h'.committed = committed ++ new ∧ Rep (consoleintr s c) (pend ++ new) h'.line := by
  have hkeep : ∀ {s' line'}, Rep s' pend line' → ∃ new, committed = committed ++ new ∧
    Rep s' (pend ++ new) line' :=
    fun h => ⟨[], (append_nil _).symm, by rwa [append_nil]⟩
  unfold consoleintr Typed.type
  rw [h.lengths.2.1, h.lengths.2.2]
  generalize (if c = 13 then 10 else c) = stored
  split_ifs with hp hu hh he hc
  · exact hkeep h
  · exact hkeep h.kill
  · cases line using List.reverseRecOn with
    | nil => exact absurd (h.line_eq_nil.2 rfl) he
    | append_singleton line x =>
      dsimp only
      rw [dropLast_concat]
      exact hkeep h.erase.2.2
  · obtain rfl := h.line_eq_nil.1 (Decidable.of_not_not he)
    exact hkeep h
  · exact h.store committed hc.2 _
  · exact hkeep h

/-! ## Runs -/

structure Holds (s : State T) (h : Typed) (pend : List (BitVec 8)) : Prop where
  rep : Rep s.cons pend h.line
  calls : ∀ t n target, s.calls t = some (n, target) → 0 < n ∧ n ≤ target
  stream : s.given ++ pend.map event = h.committed.map event

theorem Holds.step {s s' : State T} {h : Typed} {a : Act T} (hs : Holds s h pend) (hstep : s.step a = some s') :
    ∃ pend', Holds s' (noteTyped s a h) pend' := by
  have hcalls : ∀ {t : T} {o : Option (Nat × Nat)}, (∀ n target, o = some (n, target) → 0 < n ∧ n ≤ target) →
      ∀ t' n target, update s.calls t o t' = some (n, target) → 0 < n ∧ n ≤ target := by
    intro t o ho t' n target h'
    by_cases ht : t' = t
    · rw [ht, update_self] at h'
      exact ho n target h'
    · rw [update_of_ne ht] at h'
      exact hs.calls t' n target h'
  cases a with
  | intr c =>
    cases hstep
    obtain ⟨new, hnew, hrep⟩ := consoleintr_rep h.committed hs.rep c
    refine ⟨pend ++ new, hrep, hs.calls, ?_⟩
    rw [show (noteTyped s (.intr c) h).committed = _ from hnew, map_append, map_append, ← hs.stream,
      List.append_assoc]
  | read t n =>
    obtain ⟨hn, ⟨⟩⟩ := ite_none_right_eq_some.1 hstep
    refine ⟨pend, hs.rep, hcalls ?_, hs.stream⟩
    rintro _ _ ⟨⟩
    exact ⟨hn.2, Nat.le_refl _⟩
  | killed t =>
    obtain ⟨-, ⟨⟩⟩ := ite_none_right_eq_some.1 hstep
    exact ⟨pend, hs.rep, hcalls nofun, hs.stream⟩
  | turn t =>
    unfold State.step at hstep
    cases hcall : s.calls t with
    | none => simp [hcall] at hstep
    | some call =>
      obtain ⟨n, target⟩ := call
      obtain ⟨hpos, hle⟩ := hs.calls t n target hcall
      simp only [hcall] at hstep
      obtain ⟨hne, hstep⟩ := ite_none_left_eq_some.1 hstep
      cases pend with
      | nil => exact absurd (hs.rep.pend_eq_nil.2 rfl) hne
      | cons b pend =>
        have hb : s.cons.buf (slot INPUT_BUF s.cons.r) = b := hs.rep.queued.1
        have hstream := hs.stream
        rw [map_cons] at hstream
        rw [hb] at hstep
        split_ifs at hstep with hd hlt hend
        · cases hstep
          have hgiven : (s.return_ t n target).given = s.given := if_neg (by omega)
          exact ⟨b :: pend, hs.rep, hcalls nofun, hgiven ▸ hs.stream⟩
        · cases hstep
          refine ⟨pend, hs.rep.next, hcalls nofun, ?_⟩
          rw [event, if_pos hd] at hstream
          rw [State.return_, if_pos (by omega), List.append_assoc]
          exact hstream
        · cases hstep
          refine ⟨pend, hs.rep.next, hcalls nofun, ?_⟩
          rw [event, if_neg hd] at hstream
          rw [State.return_, if_neg (by omega), List.append_assoc]
          exact hstream
        cases hstep
        refine ⟨pend, hs.rep.next, hcalls ?_, ?_⟩
        · rintro _ _ ⟨⟩
          omega
        rw [event, if_neg hd] at hstream
        rw [List.append_assoc]
        exact hstream

def Erases (c : BitVec 8) : Prop := c = ctrl 'U' ∨ c = ctrl 'H' ∨ c = 0x7f

theorem Rep.erases (h : Rep s pend line) (hc : Erases c) :
    ∃ line', line' <+: line ∧ Rep (consoleintr s c) pend line' := by
  obtain ⟨new, hnew, hrep⟩ := consoleintr_rep [] h c
  rcases hc with rfl | hc
  · obtain rfl : new = [] := hnew.symm
    exact ⟨[], nil_prefix, append_nil pend ▸ hrep⟩
  have htype : Typed.type ⟨line, []⟩ (s.e - s.r).toNat c = ⟨line.dropLast, []⟩ := by
    rcases hc with rfl | rfl <;> rfl
  rw [htype] at hnew hrep
  obtain rfl : new = [] := hnew.symm
  exact ⟨line.dropLast, dropLast_prefix _, append_nil pend ▸ hrep⟩

/-- The console before the first character, its indices anywhere. -/
def State.start (buf : Fin INPUT_BUF → BitVec 8) (i : BitVec 32) : State T :=
  ⟨⟨buf, i, i, i⟩, fun _ => none, []⟩

/-- **The readers get what has been committed**, each byte once and in order, and 0 for a control-D.
    What is committed stays in the ring until it is read; what is erased is in the line. -/
theorem console_stream {buf : Fin INPUT_BUF → BitVec 8} {i : BitVec 32} {tr : List (Act T)} {s : State T}
    (hrun : runs State.step (State.start buf i) tr = some s) :
    let h := history State.step noteTyped (State.start buf i) ⟨[], []⟩ tr
    let c := s.cons
    (c.w - c.r).toNat ≤ (c.e - c.r).toNat ∧ (c.e - c.r).toNat ≤ INPUT_BUF ∧
      (c.e - c.w).toNat = (c.e - c.r).toNat - (c.w - c.r).toNat ∧ ((c.e - c.r).toNat = INPUT_BUF → c.w = c.e) ∧
      ∃ pend, Rep c pend h.line ∧ s.given ++ pend.map event = h.committed.map event ∧
        ∀ x, Erases x → ∃ line, line <+: h.line ∧ Rep (consoleintr c x) pend line := by
  have hstart : Holds (State.start (T := T) buf i) ⟨[], []⟩ [] :=
    ⟨⟨trivial, by simp [State.start], by simp [State.start], Nat.zero_le _, fun _ => rfl,
      not_mem_nil⟩, nofun, rfl⟩
  obtain ⟨pend, hs⟩ := runs_invariant (fun s h => ∃ pend, Holds s h pend) hrun ⟨[], hstart⟩
    fun s a s' h hstep ⟨pend, hs⟩ => hs.step hstep
  obtain ⟨hw, he, hall⟩ := hs.rep.lengths
  have hroom := hs.rep.room
  refine ⟨by omega, by omega, by omega, fun hfull => ?_, pend, hs.rep, hs.stream, fun x hx => hs.rep.erases hx⟩
  exact (hs.rep.line_eq_nil.2 (hs.rep.full (hall.symm.trans hfull))).symm

/-- Two characters, one of them erased, and a newline, while a reader waits. -/
def typing : List (Act Unit) := [.read () 9, .intr 97, .intr 98, .intr 8, .intr 13, .turn (), .turn ()]

theorem console_stream_line :
    ∃ s, runs State.step (State.start (fun _ => 0) 0xffffffff) typing = some s ∧
      s.given = [.byte 97, .byte 10] ∧ (s.cons.e - s.cons.r).toNat ≤ INPUT_BUF := by
  have hgiven : (runs State.step (State.start (fun _ => 0) 0xffffffff) typing).map State.given =
      some [.byte 97, .byte 10] := by decide +kernel
  obtain ⟨s, hs, hs'⟩ := map_eq_some_iff.1 hgiven
  exact ⟨s, hs, hs', (console_stream hs).2.1⟩

end Xv6.Console
