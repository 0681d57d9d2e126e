import Mathlib.Algebra.Order.BigOperators.Ring.Finset

set_option autoImplicit false

/-! # Programs with a state and errors

A program that works on a state and can fail is a function from states to a result with a new state,
or to an error. `Wp E m Q s` says that `m` started in `s` ends with a result and a state of which
`Q` holds, or with an error of which `E` holds. -/

namespace Structures

variable {σ ε α β : Type}

abbrev Prog (σ ε α : Type) : Type := StateT σ (Except ε) α

def Wp (E : ε → Prop) (m : Prog σ ε α) (Q : α → σ → Prop) (s : σ) : Prop :=
  match m s with
  | .ok (a, s') => Q a s'
  | .error e => E e

namespace Wp

variable {E : ε → Prop} {m : Prog σ ε α} {f : α → Prog σ ε β} {Q R : α → σ → Prop} {S : β → σ → Prop} {s s' : σ}
  {a : α} {e : ε}

theorem bind (h : Wp E m (fun a => Wp E (f a) S) s) : Wp E (m >>= f) S s := by
  unfold Wp at h ⊢
  change (match (m s >>= fun p => f p.1 p.2) with | .ok (b, s') => S b s' | .error e => E e)
  cases hm : m s with
  | ok p | error e =>
    rw [hm] at h
    exact h

theorem mono (h : Wp E m Q s) (hQ : ∀ a s', Q a s' → R a s') : Wp E m R s := by
  unfold Wp at h ⊢
  split
  · next hm =>
    rw [hm] at h
    exact hQ _ _ h
  next hm =>
  rw [hm] at h
  exact h

theorem of_ok (h : Wp E m Q s) (hm : m s = .ok (a, s')) : Q a s' := by
  unfold Wp at h
  rw [hm] at h
  exact h

theorem of_error (h : Wp E m Q s) (hm : m s = .error e) : E e := by
  unfold Wp at h
  rw [hm] at h
  exact h

end Wp

end Structures
