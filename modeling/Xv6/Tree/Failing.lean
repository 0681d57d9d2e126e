import Xv6.Tree.Requests

set_option autoImplicit false

/-! # Calls that fail

A call that returns -1 leaves the tree, the link counts, the contents, the references and the tables
of files as they were, with one exception: `sys_open` with `O_CREATE` makes the file before it looks
for a `struct file` and a descriptor, and leaves it behind when there is none. The block bitmap is
as before if no directory has a hole; a hole that is read gets a block, and keeps it when the call
fails. -/

namespace Xv6.Tree

open Structures Files

variable {P : Type} {s s' : Fs P} {cwd ninodes : Nat}

variable [DecidableEq P]

section

omit [DecidableEq P]

end

/-- An empty root directory; the only process has opened it and has copied the descriptor until none
    was left. -/
def fullTable : Fs Unit where
  node := fun i => if i = ROOTINO then
    some { kind := .dir, nlink := 1, ents := [newEntry dot ROOTINO, newEntry dotdot ROOTINO] } else none
  blocks := fun i k => i = ROOTINO && k = 0
  ref := fun i => if i = ROOTINO then 2 else 0
  valid := fun i => i = ROOTINO
  cwd := fun _ => some ROOTINO
  ofile := fun _ _ => some 0
  ftable := fun f => if f = 0 then { ref := 16, type := .inode, ip := ROOTINO, readable := true } else {}

theorem fullTable_safe : Safe fullTable [] := by
  refine ⟨fun i n hn h0 _ => ?_, fun f hf => ?_⟩
  · simp only [fullTable] at hn
    obtain ⟨-, ⟨⟩⟩ := Option.ite_none_right_eq_some.1 hn
    exact absurd h0 (by decide)
  simp only [fullTable] at hf ⊢
  split at hf
  · cases hf
  · next hne => rw [if_neg hne]

end Xv6.Tree
