import Mathlib.Data.List.TakeWhile
import Xv6.Tree.Failing

set_option autoImplicit false

/-! # `namex` as a fold over the components of a path

The elements that `skipelem` finds are the parts of the path between slashes that are not empty, cut
to fourteen bytes, and `namex` looks up one after the other. -/

namespace Xv6.Tree

open Files List Option Structures

def components (path : List Byte) : List (List Byte) :=
  ((path.splitOn slash).filter (· ≠ [])).map (take DIRSIZ)

/-- The inode that a directory has under a name. -/
def child (node : Nat → Option Node) (d : Nat) (name : List Byte) : Option Nat :=
  (node d).bind fun n => if n.kind = .dir then (lookup name n.ents).map (·.1) else none

/-- What `namei` finds, and what `nameiparent` finds. -/
def walk (node : Nat → Option Node) (parent : Bool) (ip : Nat) (els : List (List Byte)) :
    Option (Nat × List Byte) :=
  if parent then
    els.getLast?.bind fun name => (els.dropLast.foldlM (child node) ip).bind fun d =>
      if (node d).any (·.kind = .dir) then some (d, name) else none
  else (els.foldlM (child node) ip).map (·, [])

/-! ## Elements are components -/

section

variable {w : List Byte} (h : slash ∉ w) (hne : w ≠ [])
include h hne

theorem components_word : components w = [w.take DIRSIZ] := by
  simp [components, splitOn_eq_singleton h, hne]

theorem components_append (q : List Byte) : components (w ++ slash :: q) = w.take DIRSIZ :: components q := by
  simp [components, splitOn_append_cons_self_of_not_mem h, hne]

end

theorem components_slash (q : List Byte) : components (slash :: q) = components q := by
  rw [components, ← nil_append (slash :: q), splitOn_append_cons_self_of_not_mem not_mem_nil]
  rfl

theorem components_dropWhile (path : List Byte) :
    components (path.dropWhile (· = slash)) = components path := by
  induction path with
  | nil => rfl
  | cons c path ih =>
    by_cases hc : c = slash
    · subst hc
      rw [dropWhile_cons_of_pos (by decide), ih, components_slash]
    · rw [dropWhile_cons_of_neg (by simpa using hc)]

/-- A path that begins with an element. -/
theorem components_cons {c : Byte} (hc : c ≠ slash) (p : List Byte) :
    components (c :: p) = ((c :: p).takeWhile (· ≠ slash)).take DIRSIZ :: components
      (p.dropWhile (· ≠ slash)) := by
  have hsplit := takeWhile_append_dropWhile (p := (· ≠ slash)) (l := p)
  have hnot : slash ∉ c :: p.takeWhile (· ≠ slash) := by
    rw [mem_cons]
    rintro (h | h)
    · exact hc h.symm
    · simpa using mem_takeWhile_imp h
  rw [takeWhile_cons_of_pos (by simpa using hc)]
  cases hr : p.dropWhile (· ≠ slash) with
  | nil =>
    rw [hr, append_nil] at hsplit
    rw [hsplit] at hnot ⊢
    exact components_word hnot (cons_ne_nil _ _)
  | cons b r =>
    obtain rfl : b = slash := by
      have hb := head?_dropWhile_not (· ≠ slash) p
      rw [hr] at hb
      simpa using hb
    rw [components_slash, ← components_append hnot (cons_ne_nil _ _), cons_append, ← hr, hsplit]

theorem elementsFrom_eq {n : Nat} {path : List Byte} (h : path.length ≤ n) :
    elementsFrom n path = components path := by
  induction n generalizing path with
  | zero =>
    obtain rfl : path = [] := length_eq_zero_iff.1 (by omega)
    rfl
  | succ n ih =>
    have hle : (path.dropWhile (· = slash)).length ≤ path.length := (dropWhile_sublist _).length_le
    rw [elementsFrom, ← components_dropWhile]
    cases hp : path.dropWhile (· = slash) with
    | nil => rfl
    | cons c p =>
      have hc : c ≠ slash := by
        have hc := head?_dropWhile_not (· = slash) path
        rw [hp] at hc
        simpa using hc
      have hshort : (p.dropWhile (· ≠ slash)).length ≤ p.length := (dropWhile_sublist _).length_le
      rw [hp, length_cons] at hle
      rw [components_cons hc, if_neg (cons_ne_nil _ _), dropWhile_cons_of_pos (by simpa using hc),
        ih (by omega)]

/-! ## The walk -/

theorem walk_last (node : Nat → Option Node) (ip : Nat) (name : List Byte) :
    walk node true ip [name] = if (node ip).any (·.kind = .dir) then some (ip, name) else none := rfl

theorem walk_cons (node : Nat → Option Node) {parent : Bool} (ip : Nat) (name : List Byte)
    {rest : List (List Byte)}
    (h : ¬ (parent = true ∧ rest = [])) :
    walk node parent ip (name :: rest) = (child node ip name).bind fun d => walk node parent d rest := by
  cases parent with
  | false =>
    show Option.map _ ((child node ip name).bind fun d => rest.foldlM (child node) d) = _
    rw [map_bind]
    rfl
  | true =>
    obtain ⟨b, r, rfl⟩ := exists_cons_of_ne_nil fun hr => h ⟨rfl, hr⟩
    show (((b :: r).getLast?).bind fun last =>
      ((child node ip name).bind fun d => ((b :: r).dropLast).foldlM (child node) d).bind _) = _
    rw [getLast?_cons]
    simp only [bind_some, bind_assoc]
    rfl

theorem resolveFrom_eq (node : Nat → Option Node) (parent : Bool) (ip : Nat) (els : List (List Byte)) :
    resolveFrom node parent ip els = walk node parent ip els := by
  induction els generalizing ip with
  | nil => cases parent <;> rfl
  | cons name rest ih =>
    rw [resolveFrom]
    by_cases hlast : parent = true ∧ rest = []
    · obtain ⟨rfl, rfl⟩ := hlast
      rw [walk_last]
      cases node ip with
      | none => rfl
      | some n => by_cases hk : n.kind = .dir <;> simp [hk]
    rw [walk_cons node ip name hlast, child]
    cases node ip with
    | none => rfl
    | some n =>
      by_cases hk : n.kind = .dir
      · cases hl : lookup name n.ents <;> simp [hk, hlast, hl, ih]
      · simp [hk]

/-- **`namex`, for every path**: `namei` finds the inode to which the lookups of all components
lead, `nameiparent` the directory to which all but the last lead, with the last. Nothing is found
where a name is missing or is looked up in something else than a directory, or where there is no
last component. The tree and the open files are as before, and so are the references, but for one to
the inode found. -/
theorem namex_fold {P : Type} {s : Fs P} (hs : Safe s []) (cwd : Nat) (parent : Bool) (path : List Byte) :
    Wp (· = "ilock: no type") (namex cwd parent path)
      (fun r s' => r = walk s.node parent (if path.head? = some slash then ROOTINO else cwd) (components path) ∧
        s'.node = s.node ∧ s'.cwd = s.cwd ∧ s'.ofile = s.ofile ∧ s'.ftable = s.ftable ∧
        ∀ i, s'.ref i = s.ref i + if r.map (·.1) = some i then 1 else 0) s := by
  refine (Holds.refl s).wp_namex (E := (· = "ilock: no type")) (G := fun _ => True) hs (nil_subset _) (.inl rfl)
    (.inl rfl) (.inl rfl) parent _ fun s' hs' => ⟨?_, hs'.node, hs'.cwd, hs'.ofile, hs'.ftable, fun i => ?_⟩
  · rw [resolve, elements, elementsFrom_eq (Nat.le_refl _), resolveFrom_eq]
    rfl
  · rw [hs'.ref i, append_nil, found]
    cases resolve s.node cwd parent path with
    | none => rfl
    | some d => simp [count_singleton]

theorem namex_fold_dots :
    Wp (· = "ilock: no type") (namex ROOTINO true [46, slash, 46, 46])
      (fun r s' => r = walk fullTable.node true ROOTINO [[46], [46, 46]] ∧ s'.node = fullTable.node ∧
        s'.cwd = fullTable.cwd ∧ s'.ofile = fullTable.ofile ∧ s'.ftable = fullTable.ftable ∧
        ∀ i, s'.ref i = fullTable.ref i + if r.map (·.1) = some i then 1 else 0) fullTable :=
  namex_fold fullTable_safe ROOTINO true [46, slash, 46, 46]

end Xv6.Tree
