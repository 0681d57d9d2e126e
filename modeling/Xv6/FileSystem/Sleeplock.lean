import Xv6.Structures.Runs

set_option autoImplicit false

/-! # Sleep locks (`sleeplock.c`)

Any number of threads use one sleep lock: through `acquiresleep` and `releasesleep`, and through the
test with which `bwrite`, `brelse` and `iunlock` begin, which panics unless `holdingsleep` is true.
What is done under the spin lock `lk->lk` is one step. A thread is known to the lock by the pid of
its process. -/

namespace Xv6.Sleeplocks

open Option Structures

inductive Pc
  | idle
  /-- Asleep in the loop of `acquiresleep`. -/
  | asleep
  /-- Behind the test of `brelse` or `iunlock`, before `releasesleep`. -/
  | passed
deriving DecidableEq

/-- The lock and the threads `T`. -/
structure Sleeplock (T : Type) where
  locked : Bool
  pid : Int
  pc : T → Pc

inductive Act (T : Type)
  | acquiresleep (t : T)
  /-- A thread that slept looks at `lk->locked` again. -/
  | again (t : T)
  | guard (t : T)
  | releasesleep (t : T)

variable {T : Type}

namespace Sleeplock

/-- `myproc()->pid` of a thread is `pid t`. -/
def holdingsleep (pid : T → Int) (s : Sleeplock T) (t : T) : Bool := s.locked && s.pid == pid t

variable {pid : T → Int} {s s' : Sleeplock T} {t : T} {h : Option T}

/-- `lk->locked` and `lk->pid` are what the holder has written. -/
def Records (pid : T → Int) (s : Sleeplock T) (h : Option T) : Prop :=
  match h with
  | some u => s.locked = true ∧ s.pid = pid u
  | none => s.locked = false

theorem Records.holding_iff (hr : Records pid s h) :
    s.holdingsleep pid t = true ↔ ∃ u, h = some u ∧ pid u = pid t := by
  unfold holdingsleep
  cases h with
  | none =>
    rw [show s.locked = false from hr]
    simp
  | some u =>
    rw [hr.1, hr.2]
    simp

variable [DecidableEq T]

def at_ (s : Sleeplock T) (t : T) (pc : Pc) : Sleeplock T := { s with pc := Function.update s.pc t pc }

/-- A turn of the loop of `acquiresleep`. -/
def take (pid : T → Int) (s : Sleeplock T) (t : T) : Sleeplock T :=
  if s.locked then s.at_ t .asleep else { s.at_ t .idle with locked := true, pid := pid t }

def step (pid : T → Int) (s : Sleeplock T) : Act T → Option (Sleeplock T)
  | .acquiresleep t => if s.pc t = .idle then some (s.take pid t) else none
  | .again t => if s.pc t = .asleep then some (s.take pid t) else none
  | .guard t =>
    -- otherwise a panic
    if s.pc t = .idle ∧ s.holdingsleep pid t = true then some (s.at_ t .passed) else none
  | .releasesleep t =>
    if s.pc t = .asleep then none else some { s.at_ t .idle with locked := false, pid := 0 }

/-- The thread that has taken the lock since it was last released. -/
def noteHolder (s : Sleeplock T) (a : Act T) (h : Option T) : Option T :=
  match a with
  | .acquiresleep t | .again t => if s.locked then h else some t
  | .guard _ => h
  | .releasesleep _ => none

theorem Records.take (hr : Records pid s h) (t : T) :
    Records pid (s.take pid t) (if s.locked then h else some t) := by
  unfold Sleeplock.take
  cases hl : s.locked with
  | true => cases h with
    | some u => exact hr
    | none => cases hl.symm.trans hr
  | false => exact ⟨rfl, rfl⟩

theorem Records.step {a : Act T} (hstep : s.step pid a = some s') (hr : Records pid s h) :
    Records pid s' (noteHolder s a h) := by
  cases a with
  | acquiresleep t | again t =>
    obtain ⟨-, ⟨⟩⟩ := ite_none_right_eq_some.1 hstep
    exact hr.take t
  | guard t =>
    obtain ⟨-, ⟨⟩⟩ := ite_none_right_eq_some.1 hstep
    cases h <;> exact hr
  | releasesleep t =>
    obtain ⟨-, ⟨⟩⟩ := ite_none_left_eq_some.1 hstep
    exact rfl

/-- **In every run from a free lock, `holdingsleep` is true for the threads of the process whose
    thread has taken the lock.** It is true for that thread alone if no sibling of the holder
    asks. -/
theorem holdingsleep_iff {tr : List (Act T)} (hfree : s.locked = false)
    (hrun : runs (step pid) s tr = some s') (t : T) :
    let h := history (step pid) noteHolder s none tr
    (s'.holdingsleep pid t = true ↔ ∃ u, h = some u ∧ pid u = pid t) ∧
      ((∀ u, h = some u → pid u = pid t → u = t) → (s'.holdingsleep pid t = true ↔ h = some t)) := by
  intro h
  have hr : Records pid s' h :=
    runs_invariant (Records pid) hrun hfree fun _ _ _ _ hstep hr => hr.step hstep
  refine ⟨hr.holding_iff, fun halone => hr.holding_iff.trans ⟨?_, fun hh => ⟨t, hh, rfl⟩⟩⟩
  rintro ⟨u, hu, hpid⟩
  rwa [halone u hu hpid] at hu

/-- Threads 0 and 1 are of one process, thread 2 is of another. -/
def pids : Fin 3 → Int
  | 0 => 7
  | 1 => 7
  | 2 => 8

def free : Sleeplock (Fin 3) where
  locked := false
  pid := 0
  pc := fun _ => .idle

theorem holdingsleep_iff_taken :
    ∃ s', runs (step pids) free [.acquiresleep 2] = some s' ∧ (s'.holdingsleep pids 2 = true ↔
      history (step pids) noteHolder free none [.acquiresleep 2] = some 2) := by
  obtain ⟨s', hrun⟩ : ∃ s', runs (step pids) free [.acquiresleep 2] = some s' := ⟨_, rfl⟩
  exact ⟨s', hrun, (holdingsleep_iff rfl hrun 2).2 (by decide)⟩

/-- Thread 0 has the lock. Thread 1 passes the test and releases it, and thread 2 takes it. -/
theorem sibling_passes_guard :
    ∃ s s', runs (step pids) free [.acquiresleep 0] = some s ∧ s.holdingsleep pids 1 = true ∧
      runs (step pids) s [.guard 1, .releasesleep 1, .acquiresleep 2] = some s' ∧
      s'.holdingsleep pids 2 = true :=
  ⟨_, _, rfl, rfl, rfl, rfl⟩

end Sleeplock

end Xv6.Sleeplocks
