import Xv6.Machine.Basic

set_option autoImplicit false

/-! # Runs with a history

What a run has done so far that its state does not show: a value that every step brings up to date,
from the state in which it is taken. Conditions on the steps may depend on it. -/

namespace Machine

variable {C T L F A M I H : Type} [DecidableEq C] [DecidableEq T] [DecidableEq L]

/-- The history after a run from `s` with history `h`. -/
def history (P : Prog C T L F A M I) (upd : State C T L F M → C → I → H → H) :
    State C T L F M → H → List (C × I) → H
  | _, h, [] => h
  | s, h, e :: tr => history P upd (exec P s e.1 e.2) (upd s e.1 e.2 h) tr

/-- Every step of the run is taken in a state and with a history that meet `cond`. -/
def AlongHistory (P : Prog C T L F A M I) (upd : State C T L F M → C → I → H → H)
    (cond : State C T L F M → C → I → H → Prop) : State C T L F M → H → List (C × I) → Prop
  | _, _, [] => True
  | s, h, e :: tr =>
    cond s e.1 e.2 h ∧ AlongHistory P upd cond (exec P s e.1 e.2) (upd s e.1 e.2 h) tr

instance AlongHistory.decidable (P : Prog C T L F A M I) (upd : State C T L F M → C → I → H → H)
    (cond : State C T L F M → C → I → H → Prop) [∀ s c i h, Decidable (cond s c i h)] :
    (s : State C T L F M) → (h : H) → (tr : List (C × I)) →
      Decidable (AlongHistory P upd cond s h tr)
  | _, _, [] => .isTrue trivial
  | s, h, e :: tr =>
    match (inferInstance : Decidable (cond s e.1 e.2 h)),
      AlongHistory.decidable P upd cond (exec P s e.1 e.2) (upd s e.1 e.2 h) tr with
    | .isTrue h, .isTrue h' => .isTrue ⟨h, h'⟩
    | .isFalse h, _ => .isFalse fun h' => h h'.1
    | _, .isFalse h => .isFalse fun h' => h h'.2

variable {P : Prog C T L F A M I} {h : H} {s : State C T L F M} {tr : List (C × I)}
  {upd : State C T L F M → C → I → H → H}

theorem AlongHistory.invariant {cond : State C T L F M → C → I → H → Prop}
    (Inv : State C T L F M → H → Prop) (ha : AlongHistory P upd cond s h tr) (hs : Inv s h)
    (hstep : ∀ s c i h, cond s c i h → Inv s h → Inv (exec P s c i) (upd s c i h)) :
    Inv (run P s tr) (history P upd s h tr) := by
  induction tr generalizing s h with
  | nil => exact hs
  | cons e tr ih =>
    obtain ⟨hc, htr⟩ := ha
    exact ih htr (hstep s e.1 e.2 h hc hs)

theorem Along.history_invariant {cond : State C T L F M → C → I → Prop}
    (Inv : State C T L F M → H → Prop) (ha : Along P cond s tr) (hs : Inv s h)
    (hstep : ∀ s c i h, cond s c i → Inv s h → Inv (exec P s c i) (upd s c i h)) :
    Inv (run P s tr) (history P upd s h tr) := by
  induction tr generalizing s h with
  | nil => exact hs
  | cons e tr ih =>
    obtain ⟨hc, htr⟩ := ha
    exact ih htr (hstep s e.1 e.2 h hc hs)

end Machine
