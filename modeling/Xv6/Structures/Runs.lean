import Mathlib.Algebra.Order.BigOperators.Ring.Finset

set_option autoImplicit false

/-! # Runs of a system with steps that may be impossible

A system with states `σ` and steps `ι`, each of which leads to one state or cannot be taken. A run
is a list of steps that can be taken one after the other (`runs`). What a run has done so far that
its state does not show is a history: a value that each step brings up to date from the state in
which it is taken (`history`). -/

namespace Structures

variable {σ ι η : Type}

/-- The state after the steps of a run, if all of them can be taken. -/
def runs (step : σ → ι → Option σ) : σ → List ι → Option σ
  | s, [] => some s
  | s, i :: tr =>
    match step s i with
    | some s' => runs step s' tr
    | none => none

/-- The history after the run from `s` with history `h`. -/
def history (step : σ → ι → Option σ) (upd : σ → ι → η → η) : σ → η → List ι → η
  | _, h, [] => h
  | s, h, i :: tr =>
    match step s i with
    | some s' => history step upd s' (upd s i h) tr
    | none => h

/-- Every step of the run is taken in a state and with a history that meet `cond`. -/
def Along (step : σ → ι → Option σ) (upd : σ → ι → η → η) (cond : σ → ι → η → Prop) :
    σ → η → List ι → Prop
  | _, _, [] => True
  | s, h, i :: tr =>
    match step s i with
    | some s' => cond s i h ∧ Along step upd cond s' (upd s i h) tr
    | none => True

instance Along.decidable (step : σ → ι → Option σ) (upd : σ → ι → η → η)
    (cond : σ → ι → η → Prop) [∀ s i h, Decidable (cond s i h)] :
    (s : σ) → (h : η) → (tr : List ι) → Decidable (Along step upd cond s h tr)
  | _, _, [] => .isTrue trivial
  | s, h, i :: tr =>
    show Decidable (match step s i with
      | some s' => cond s i h ∧ Along step upd cond s' (upd s i h) tr
      | none => True) from
    match step s i with
    | some s' =>
      match (inferInstance : Decidable (cond s i h)),
        Along.decidable step upd cond s' (upd s i h) tr with
      | .isTrue hc, .isTrue ha => .isTrue ⟨hc, ha⟩
      | .isFalse hc, _ => .isFalse fun ha => hc ha.1
      | _, .isFalse ha => .isFalse fun ha' => ha ha'.2
    | none => .isTrue trivial

section

variable {step : σ → ι → Option σ} {upd : σ → ι → η → η} {cond : σ → ι → η → Prop} {s s' : σ}
  {h : η} {tr : List ι}

theorem Along.invariant (Inv : σ → η → Prop) (ha : Along step upd cond s h tr)
    (hrun : runs step s tr = some s') (hs : Inv s h)
    (hstep : ∀ s i s' h, step s i = some s' → cond s i h → Inv s h → Inv s' (upd s i h)) :
    Inv s' (history step upd s h tr) := by
  induction tr generalizing s h with
  | nil =>
    cases hrun
    exact hs
  | cons i tr ih =>
    unfold runs at hrun
    unfold Along at ha
    unfold history
    cases hi : step s i with
    | none =>
      rw [hi] at hrun
      cases hrun
    | some s₁ =>
      rw [hi] at hrun ha
      exact ih ha.2 hrun (hstep s i s₁ h hi ha.1 hs)

theorem along_of (hc : ∀ s i h, cond s i h) : Along step upd cond s h tr := by
  induction tr generalizing s h with
  | nil => trivial
  | cons i tr ih =>
    unfold Along
    split
    · exact ⟨hc _ _ _, ih⟩
    · trivial

theorem runs_invariant (Inv : σ → η → Prop) (hrun : runs step s tr = some s') (hs : Inv s h)
    (hstep : ∀ s i s' h, step s i = some s' → Inv s h → Inv s' (upd s i h)) :
    Inv s' (history step upd s h tr) :=
  (along_of fun _ _ _ => trivial : Along step upd (fun _ _ _ => True) s h tr).invariant Inv hrun hs
    fun s i s' h hi _ => hstep s i s' h hi

theorem runs_preserve (Inv : σ → Prop) (hrun : runs step s tr = some s') (hs : Inv s)
    (hstep : ∀ s i s', step s i = some s' → Inv s → Inv s') : Inv s' :=
  @runs_invariant σ ι Unit step (fun _ _ _ => ()) s s' () tr (fun s _ => Inv s) hrun hs
    fun s i s' _ => hstep s i s'

end

end Structures
