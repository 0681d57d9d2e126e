import Xv6.FileSystem.Bio
import Xv6.Structures.Runs

set_option autoImplicit false

/-! # The space in the log

The part of `log.c` that works on `struct log` in memory: `begin_op`, `log_write` and `end_op`, each
with `log.lock` held, and the end of a commit. `begin_op` lets an operation in if the log would
still have room for `MAXOPBLOCKS` new blocks of every operation under way, in `LOGSIZE` blocks.
`log_write` refuses to go beyond `log.size - 1`, which is one less if `mkfs` has made the log
`LOGSIZE` blocks long, because one of these is the header; and it refuses as soon as the log is
full, also for a block that is in the log already. So three operations that use all they may are one
block too many. With one block less for each operation the log is large enough. -/

namespace Xv6.Fs

open Function List Option Structures

/-- `struct log`: `lh.n` is the length of the list, which holds `lh.block`. -/
structure Log where
  outstanding : Nat := 0
  committing : Bool := false
  blocks : List BlockNo := []
  deriving DecidableEq

namespace Log

/-- The loop of `begin_op`; with `none` it sleeps. -/
def beginOp (l : Log) : Option Log :=
  if l.committing then none
  else if l.blocks.length + (l.outstanding + 1) * MAXOPBLOCKS > LOGSIZE then none
  else some { l with outstanding := l.outstanding + 1 }

/-- `log_write` for the block `x`, where `size` is `log.size`. The result says whether the block is
    new in the log. -/
def logWrite (l : Log) (size : Nat) (x : BlockNo) : Except String (Log × Bool) :=
  if l.blocks.length ≥ LOGSIZE ∨ l.blocks.length ≥ size - 1 then .error "too big a transaction"
  else if l.outstanding < 1 then .error "log_write outside of trans"
  else if x ∈ l.blocks then .ok (l, false)
  else .ok ({ l with blocks := l.blocks ++ [x] }, true)

/-- The first critical section of `end_op`. The result says whether to commit. -/
def endOp (l : Log) : Except String (Log × Bool) :=
  let l := { l with outstanding := l.outstanding - 1 }
  if l.committing then .error "log.committing"
  else if l.outstanding = 0 then .ok ({ l with committing := true }, true)
  else .ok (l, false)

/-- `log.lh.n = 0` in `commit`. -/
def clear (l : Log) : Log := { l with blocks := [] }

/-- The second critical section of `end_op`. -/
def finish (l : Log) : Log := { l with committing := false }

end Log

/-! ## Operations -/

/-- The log and the threads that are between `begin_op` and `end_op`. -/
structure Ops (T : Type) where
  log : Log := {}
  ops : List T := []
  deriving DecidableEq

inductive LogAct (T : Type) where
  | beginOp (t : T)
  | logWrite (t : T) (x : BlockNo)
  | endOp (t : T)
  | clear
  | finish

variable {T : Type} [DecidableEq T]

/-- One step of a thread; `none` if it has to wait, panics, or does not follow the order of the
    calls. -/
def Ops.step (size : Nat) (s : Ops T) : LogAct T → Option (Ops T)
  | .beginOp t =>
    if t ∈ s.ops then none
    else
      match s.log.beginOp with
      | some l => some { log := l, ops := t :: s.ops }
      | none => none
  | .logWrite t x =>
    if t ∈ s.ops then
      match s.log.logWrite size x with
      | .ok (l, _) => some { s with log := l }
      | .error _ => none
    else none
  | .endOp t =>
    if t ∈ s.ops then
      match s.log.endOp with
      | .ok (l, _) => some { log := l, ops := s.ops.erase t }
      | .error _ => none
    else none
  | .clear => if s.log.committing then some { s with log := s.log.clear } else none
  | .finish =>
    if s.log.committing ∧ s.log.blocks = [] then some { s with log := s.log.finish } else none

/-- The different blocks that each thread has passed to `log_write` in its operation. -/
def notePassed (_ : Ops T) : LogAct T → (T → List BlockNo) → T → List BlockNo
  | .beginOp t, passed => update passed t []
  | .logWrite t x, passed => update passed t ((passed t).insert x)
  | _, passed => passed

/-- The operation passes at most `k` different blocks to `log_write`. -/
def passesAtMost (k : Nat) (_ : Ops T) : LogAct T → (T → List BlockNo) → Prop
  | .logWrite t x, passed => ((passed t).insert x).length ≤ k
  | _, _ => True

instance (k : Nat) (s : Ops T) (a : LogAct T) (passed : T → List BlockNo) :
    Decidable (passesAtMost k s a passed) := by
  cases a <;> unfold passesAtMost <;> infer_instance

/-! ## What a step does -/

/-- The steps, with what each of them finds. -/
inductive OpsMove (size : Nat) (s : Ops T) : LogAct T → Ops T → Prop
  | beginOp (t : T) (hnew : t ∉ s.ops) (hidle : s.log.committing = false)
      (hroom : s.log.blocks.length + (s.log.outstanding + 1) * MAXOPBLOCKS ≤ LOGSIZE) :
      OpsMove size s (.beginOp t)
        { log := { s.log with outstanding := s.log.outstanding + 1 }, ops := t :: s.ops }
  | absorbed (t : T) (x : BlockNo) (ht : t ∈ s.ops) (hx : x ∈ s.log.blocks) :
      OpsMove size s (.logWrite t x) s
  | logged (t : T) (x : BlockNo) (ht : t ∈ s.ops) (hx : x ∉ s.log.blocks)
      (hmax : s.log.blocks.length < LOGSIZE) (hsize : s.log.blocks.length < size - 1) :
      OpsMove size s (.logWrite t x) { s with log := { s.log with blocks := s.log.blocks ++ [x] } }
  | endOp (t : T) (ht : t ∈ s.ops) (hidle : s.log.committing = false) :
      OpsMove size s (.endOp t)
        { log := { s.log with
            outstanding := s.log.outstanding - 1
            committing := decide (s.log.outstanding - 1 = 0) }
          ops := s.ops.erase t }
  | clear (hcom : s.log.committing = true) :
      OpsMove size s .clear { s with log := { s.log with blocks := [] } }
  | finish (hcom : s.log.committing = true) (hempty : s.log.blocks = []) :
      OpsMove size s .finish { s with log := { s.log with committing := false } }

section

variable {size : Nat} {s s' : Ops T} {a : LogAct T} {l : Log} {x : BlockNo}

theorem Log.beginOp_eq_some {l' : Log} (h : l.beginOp = some l') :
    l.committing = false ∧ l.blocks.length + (l.outstanding + 1) * MAXOPBLOCKS ≤ LOGSIZE ∧
      l' = { l with outstanding := l.outstanding + 1 } := by
  obtain ⟨hcom, h⟩ := ite_none_left_eq_some.1 h
  obtain ⟨hroom, ⟨⟩⟩ := ite_none_left_eq_some.1 h
  exact ⟨Bool.eq_false_iff.2 hcom, Nat.le_of_not_lt hroom, rfl⟩

theorem Log.logWrite_eq_ok {r : Log × Bool} (h : l.logWrite size x = .ok r) :
    l.blocks.length < LOGSIZE ∧ l.blocks.length < size - 1 ∧
      (x ∈ l.blocks ∧ r = (l, false) ∨
        x ∉ l.blocks ∧ r = ({ l with blocks := l.blocks ++ [x] }, true)) := by
  unfold Log.logWrite at h
  split at h
  · cases h
  next hfull =>
  split at h
  · cases h
  refine ⟨Nat.lt_of_not_le fun hle => hfull (.inl hle),
    Nat.lt_of_not_le fun hle => hfull (.inr hle), ?_⟩
  split at h
  · next hx => exact .inl ⟨hx, (Except.ok.inj h).symm⟩
  · next hx => exact .inr ⟨hx, (Except.ok.inj h).symm⟩

theorem Log.endOp_eq_ok {r : Log × Bool} (h : l.endOp = .ok r) :
    l.committing = false ∧ r = ({ l with
      outstanding := l.outstanding - 1
      committing := decide (l.outstanding - 1 = 0) }, decide (l.outstanding - 1 = 0)) := by
  unfold Log.endOp at h
  dsimp only at h
  split at h
  · cases h
  next hcom =>
  have hidle : l.committing = false := Bool.eq_false_iff.2 hcom
  refine ⟨hidle, ?_⟩
  split at h
  · next hlast => rw [← Except.ok.inj h, decide_eq_true hlast]
  · next hlast => rw [← Except.ok.inj h, decide_eq_false hlast, hidle]

theorem ops_move (h : s.step size a = some s') : OpsMove size s a s' := by
  cases a with
  | beginOp t =>
    obtain ⟨hnew, h⟩ := ite_none_left_eq_some.1 h
    split at h
    · next l hl =>
      obtain ⟨hidle, hroom, rfl⟩ := Log.beginOp_eq_some hl
      cases h
      exact .beginOp t hnew hidle hroom
    · cases h
  | logWrite t x =>
    obtain ⟨ht, h⟩ := ite_none_right_eq_some.1 h
    split at h
    · next l new hl =>
      cases h
      obtain ⟨hmax, hsize, ⟨hx, hr⟩ | ⟨hx, hr⟩⟩ := Log.logWrite_eq_ok hl
      · cases hr
        exact .absorbed t x ht hx
      · cases hr
        exact .logged t x ht hx hmax hsize
    · cases h
  | endOp t =>
    obtain ⟨ht, h⟩ := ite_none_right_eq_some.1 h
    split at h
    · next l last hl =>
      cases h
      obtain ⟨hidle, hr⟩ := Log.endOp_eq_ok hl
      cases hr
      exact .endOp t ht hidle
    · cases h
  | clear =>
    obtain ⟨hcom, ⟨⟩⟩ := ite_none_right_eq_some.1 h
    exact .clear hcom
  | finish =>
    obtain ⟨hcom, ⟨⟩⟩ := ite_none_right_eq_some.1 h
    exact .finish hcom.1 hcom.2

end

/-! ## The room that is left -/

/-- The blocks that the operations under way may still put into the log, if each of them passes at
    most `k` blocks. -/
def Ops.reserved (k : Nat) (s : Ops T) (passed : T → List BlockNo) : Nat :=
  (s.ops.map fun t => k - (passed t).length).sum

/-- The log with the operations under way: what they have passed is in the log, the log is empty
    when there is neither an operation nor a commit, and no commit goes on during an operation. -/
structure Ops.Ok (s : Ops T) (passed : T → List BlockNo) : Prop where
  nodup : s.ops.Nodup
  outstanding : s.log.outstanding = s.ops.length
  logged : ∀ t ∈ s.ops, ∀ x ∈ passed t, x ∈ s.log.blocks
  empty : s.ops = [] → s.log.committing = false → s.log.blocks = []
  alone : s.log.committing = true → s.ops = []

section

variable {size : Nat} {s s' : Ops T} {a : LogAct T} {passed : T → List BlockNo}

theorem Ops.Ok.step (h : s.Ok passed) (hm : OpsMove size s a s') : s'.Ok (notePassed s a passed) := by
  cases hm with
  | beginOp t hnew hidle =>
    refine ⟨nodup_cons.2 ⟨hnew, h.nodup⟩, by simp [h.outstanding], fun t' ht' x hx => ?_, nofun,
      fun hcom => ?_⟩
    · simp only [notePassed, update_apply] at hx
      split at hx
      · cases hx
      · next hne => exact h.logged t' (mem_of_ne_of_mem hne ht') x hx
    · cases hcom.symm.trans hidle
  | absorbed t x ht hx =>
    refine ⟨h.nodup, h.outstanding, fun t' ht' y hy => ?_, h.empty, h.alone⟩
    simp only [notePassed, update_apply] at hy
    split at hy
    · rcases mem_insert_iff.1 hy with rfl | hy
      · exact hx
      · exact h.logged t ht y hy
    · exact h.logged t' ht' y hy
  | logged t x ht hx =>
    refine ⟨h.nodup, h.outstanding, fun t' ht' y hy => ?_, fun hnone => ?_, h.alone⟩
    · simp only [notePassed, update_apply] at hy
      refine mem_append.2 ?_
      split at hy
      · rcases mem_insert_iff.1 hy with rfl | hy
        · exact .inr (mem_singleton_self y)
        · exact .inl (h.logged t ht y hy)
      · exact .inl (h.logged t' ht' y hy)
    · rw [show s.ops = [] from hnone] at ht
      cases ht
  | endOp t ht hidle =>
    have hlen := length_erase_of_mem ht
    refine ⟨h.nodup.erase t, ?_, fun t' ht' => h.logged t' (mem_of_mem_erase ht'),
      fun hnone hcom => ?_, fun hcom => ?_⟩
    · show s.log.outstanding - 1 = _
      rw [h.outstanding, hlen]
    · -- the last operation turns to the commit
      have hzero : (s.ops.erase t).length = 0 := length_eq_zero_iff.2 hnone
      have hout := h.outstanding
      exact absurd (by omega) (of_decide_eq_false hcom)
    · have hzero := of_decide_eq_true hcom
      have hout := h.outstanding
      show s.ops.erase t = []
      exact length_eq_zero_iff.1 (by omega)
  | clear hcom =>
    refine ⟨h.nodup, h.outstanding, fun t ht => ?_, fun _ _ => rfl, h.alone⟩
    rw [show s.ops = [] from h.alone hcom] at ht
    cases ht
  | finish hcom hempty => exact ⟨h.nodup, h.outstanding, h.logged, fun _ _ => hempty, nofun⟩

omit [DecidableEq T] in
theorem Ops.reserved_le (k : Nat) (s : Ops T) (passed : T → List BlockNo) :
    s.reserved k passed ≤ s.ops.length * k := by
  have hsum := sum_le_card_nsmul (s.ops.map fun t => k - (passed t).length) k fun n hn => by
    obtain ⟨t, -, rfl⟩ := mem_map.1 hn
    exact Nat.sub_le ..
  simpa [Ops.reserved] using hsum

theorem reserved_erase {t : T} (k : Nat) (passed : T → List BlockNo) (l : List BlockNo)
    (hnodup : s.ops.Nodup) (ht : t ∈ s.ops) :
    s.reserved k (update passed t l) =
      (k - l.length) + ((s.ops.erase t).map fun t' => k - (passed t').length).sum := by
  have hperm := ((perm_cons_erase ht).map fun t' =>
    k - (update passed t l t').length).sum_eq
  rw [Ops.reserved, hperm, map_cons, sum_cons, update_self]
  congr 2
  refine map_congr_left fun t' ht' => ?_
  have hne : t' ≠ t := by
    rintro rfl
    exact (Nodup.mem_erase_iff hnodup).1 ht' |>.1 rfl
  rw [update_of_ne hne]

/-- One step keeps room in the log for all that the operations under way may still pass, if none of
    them passes `MAXOPBLOCKS` blocks. -/
theorem Ops.Ok.room (h : s.Ok passed) (hm : OpsMove LOGSIZE s a s')
    (hc : passesAtMost (MAXOPBLOCKS - 1) s a passed)
    (hroom : s.log.blocks.length + s.reserved (MAXOPBLOCKS - 1) passed < LOGSIZE - 1) :
    s'.log.blocks.length + s'.reserved (MAXOPBLOCKS - 1) (notePassed s a passed) < LOGSIZE - 1 := by
  have hmax : MAXOPBLOCKS = 10 := rfl
  have hsize : LOGSIZE = 30 := rfl
  have hself : ∀ t ∈ s.ops, s.reserved (MAXOPBLOCKS - 1) passed =
      (MAXOPBLOCKS - 1 - (passed t).length) +
        ((s.ops.erase t).map fun t' => MAXOPBLOCKS - 1 - (passed t').length).sum := by
    intro t ht
    have hsame := reserved_erase (MAXOPBLOCKS - 1) passed (passed t) h.nodup ht
    rwa [update_eq_self] at hsame
  cases hm with
  | beginOp t hnew hidle hroom' =>
    have hle := s.reserved_le (MAXOPBLOCKS - 1) passed
    have hout := h.outstanding
    have hadd : Ops.reserved (MAXOPBLOCKS - 1)
        { log := { s.log with outstanding := s.log.outstanding + 1 }, ops := t :: s.ops }
        (update passed t []) = (MAXOPBLOCKS - 1) + s.reserved (MAXOPBLOCKS - 1) passed := by
      simp only [Ops.reserved, map_cons, sum_cons, update_self, length_nil]
      refine congrArg (MAXOPBLOCKS - 1 + List.sum ·) (map_congr_left fun t' ht' => ?_)
      rw [update_of_ne (fun he : t' = t => hnew (he ▸ ht'))]
    simp only [notePassed]
    rw [hadd]
    rw [hout, hmax, hsize] at hroom'
    rw [hmax, hsize] at *
    -- the first operation finds an empty log; later ones leave a block to each operation
    by_cases hnone : s.ops = []
    · rw [h.empty hnone hidle] at hroom' ⊢
      simp only [hnone, length_nil] at hle ⊢
      omega
    · have hpos := length_pos_iff.2 hnone
      omega
  | absorbed t x ht hx =>
    have hins := reserved_erase (MAXOPBLOCKS - 1) passed ((passed t).insert x) h.nodup ht
    have hold := hself t ht
    have hlen : (passed t).length ≤ ((passed t).insert x).length :=
      length_le_length_insert
    show s.log.blocks.length + s.reserved _ (update passed t ((passed t).insert x)) < _
    omega
  | logged t x ht hx =>
    have hins := reserved_erase (MAXOPBLOCKS - 1) passed ((passed t).insert x) h.nodup ht
    have hold := hself t ht
    -- a block that is new in the log is new for the operation
    have hlen : ((passed t).insert x).length = (passed t).length + 1 :=
      length_insert_of_not_mem fun hmem => hx (h.logged t ht x hmem)
    have hk : ((passed t).insert x).length ≤ MAXOPBLOCKS - 1 := hc
    show (s.log.blocks ++ [x]).length + s.reserved _ (update passed t ((passed t).insert x)) < _
    rw [length_append, length_singleton]
    omega
  | endOp t ht =>
    have hold := hself t ht
    show s.log.blocks.length +
      ((s.ops.erase t).map fun t' => MAXOPBLOCKS - 1 - (passed t').length).sum < _
    omega
  | clear => exact Nat.lt_of_le_of_lt (Nat.add_le_add_right (Nat.zero_le _) _) hroom
  | finish => exact hroom

theorem OpsMove.length_le (hm : OpsMove size s a s') (h : s.log.blocks.length ≤ size - 1) :
    s'.log.blocks.length ≤ size - 1 := by
  cases hm with
  | logged t x ht hx _ hsize =>
    rw [length_append, length_singleton]
    exact hsize
  | clear => exact Nat.zero_le _
  | beginOp | absorbed | endOp | finish => exact h

end

omit [DecidableEq T] in
theorem start_ops_ok : (({} : Ops T)).Ok fun _ => [] where
  nodup := nodup_nil
  outstanding := rfl
  logged := nofun
  empty := fun _ _ => rfl
  alone := nofun

/-- **The space in a log of `LOGSIZE` blocks.** There is always a log block for each block in the
    log, and as long as every operation passes fewer than `MAXOPBLOCKS` different blocks to
    `log_write` there is room for one more. -/
theorem log_has_room {tr : List (LogAct T)} {s : Ops T}
    (hrun : runs (Ops.step LOGSIZE) {} tr = some s) :
    s.log.blocks.length ≤ LOGSIZE - 1 ∧
    (Along (Ops.step LOGSIZE) notePassed (passesAtMost (MAXOPBLOCKS - 1)) {} (fun _ => []) tr →
      ∀ x, s.log.logWrite LOGSIZE x ≠ .error "too big a transaction") := by
  constructor
  · exact runs_preserve (fun s => s.log.blocks.length ≤ LOGSIZE - 1) hrun (Nat.zero_le _)
      fun s a s' hstep => (ops_move hstep).length_le
  intro hpasses x
  obtain ⟨-, hroom⟩ := hpasses.invariant (fun s passed => s.Ok passed ∧
      s.log.blocks.length + s.reserved (MAXOPBLOCKS - 1) passed < LOGSIZE - 1)
    hrun ⟨start_ops_ok, show 0 + 0 < LOGSIZE - 1 by decide⟩
    fun s a s' passed hstep hc ⟨hok, hroom⟩ =>
      ⟨hok.step (ops_move hstep), hok.room (ops_move hstep) hc hroom⟩
  have hless : s.log.blocks.length < LOGSIZE - 1 :=
    Nat.lt_of_le_of_lt (Nat.le_add_right ..) hroom
  unfold Log.logWrite
  rw [if_neg (by omega)]
  -- the other outcomes are not this panic
  split
  · exact fun he => absurd (Except.error.inj he) (by decide)
  · split <;> exact nofun

/-- The calls of an operation that passes `n` blocks from `x` on. -/
def writesFrom (t : Nat) (x n : Nat) : List (LogAct Nat) :=
  (List.range n).map fun i => .logWrite t (BitVec.ofNat 32 (x + i))

/-- Three operations at once, of which two have passed `MAXOPBLOCKS` blocks and the third one
    less. -/
def threeOps : List (LogAct Nat) :=
  [.beginOp 0, .beginOp 1, .beginOp 2] ++ writesFrom 0 100 MAXOPBLOCKS ++
    writesFrom 1 200 MAXOPBLOCKS ++ writesFrom 2 300 (MAXOPBLOCKS - 1)

theorem log_has_room_two : ∃ s, runs (Ops.step LOGSIZE) {} (threeOps.take 12) = some s ∧
    s.log.blocks.length ≤ LOGSIZE - 1 ∧
    s.log.logWrite LOGSIZE 200 ≠ .error "too big a transaction" := by
  have hsome : (runs (Ops.step LOGSIZE) {} (threeOps.take 12)).isSome = true := by decide +kernel
  obtain ⟨s, hs⟩ := isSome_iff_exists.1 hsome
  obtain ⟨hlen, hroom⟩ := log_has_room hs
  exact ⟨s, hs, hlen, hroom (by decide +kernel) 200⟩

/-- The last block that the third operation may pass is one too many. -/
theorem threeOps_too_big : ∃ s, runs (Ops.step LOGSIZE) {} threeOps = some s ∧
    Along (Ops.step LOGSIZE) notePassed (passesAtMost MAXOPBLOCKS) {} (fun _ => []) threeOps ∧
    passesAtMost MAXOPBLOCKS s (.logWrite 2 309)
      (history (Ops.step LOGSIZE) notePassed {} (fun _ => []) threeOps) ∧
    2 ∈ s.ops ∧ s.log.logWrite LOGSIZE 309 = .error "too big a transaction" := by
  refine ⟨⟨⟨3, false, (threeOps.drop 3).filterMap fun a =>
    match a with
    | .logWrite _ x => some x
    | _ => none⟩, [2, 1, 0]⟩, ?_, ?_, ?_, ?_, ?_⟩
  all_goals decide +kernel

end Xv6.Fs
