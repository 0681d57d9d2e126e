import Xv6.Tree.Calls

set_option autoImplicit false

/-! # What a call holds

A call takes references to inodes and gives them back. `Holds s s' l` says that `s'` is `s` but for
the references `l` that the call has: this is what the functions that only look at the tree keep
(`iget`, `ilock`, `iput`, `namex`). `iput` frees no inode there, because an inode without links that
is allocated has a reference in `s` (`Safe`), which is one more than the call's. -/

namespace Xv6.Tree

open Files Function List Option Structures

variable {P : Type} {E : String → Prop} {s s₁ s' : Fs P} {i : Nat} {l : List Nat}

/-- No inode has a hole among its entries: all their blocks are on the disk. -/
def Fs.Dense (s : Fs P) : Prop :=
  ∀ i n, s.node i = some n → ∀ k, perBlock * k < n.ents.length → s.blocks i k = true

/-- `s'` is `s` with the references `l` besides. If there are holes, blocks may have been
    allocated. -/
structure Holds (s s' : Fs P) (l : List Nat) : Prop where
  node : s'.node = s.node
  cwd : s'.cwd = s.cwd
  ofile : s'.ofile = s.ofile
  ftable : s'.ftable = s.ftable
  ref : ∀ i, s'.ref i = s.ref i + l.count i
  valid : ∀ i, 0 < s.ref i → s.valid i = true → s'.valid i = true
  blocks : s.Dense → s'.blocks = s.blocks

theorem Holds.refl (s : Fs P) : Holds s s [] := ⟨rfl, rfl, rfl, rfl, fun _ => rfl, fun _ _ h => h, fun _ => rfl⟩

variable {l' : List Nat} {Q : Unit → Fs P → Prop} {ents : List Dirent} {j m ip cwd d : Nat}
  {name : List Byte} {G : Nat → Prop} {els : List (List Byte)}

theorem Holds.perm (h : Holds s s' l) (hp : l.Perm l') : Holds s s' l' :=
  ⟨h.node, h.cwd, h.ofile, h.ftable, fun i => by rw [h.ref i, hp.count_eq], h.valid, h.blocks⟩

/-- An inode that is allocated without links has a reference and has been read, unless it is one of
    `l`; and a free entry of the table of files has no type. -/
structure Safe (s : Fs P) (l : List Nat) : Prop where
  refs : ∀ i n, s.node i = some n → n.nlink = 0 → i ∉ l → 0 < s.ref i ∧ s.valid i = true
  closed : ∀ f, (s.ftable f).ref = 0 → (s.ftable f).type = .none

theorem Safe.mono (hs : Safe s l) (hsub : l ⊆ l') : Safe s l' :=
  ⟨fun i n hn h0 hi => hs.refs i n hn h0 fun h => hi (hsub h), hs.closed⟩

theorem count_cons_nat (i j : Nat) (l : List Nat) : (j :: l).count i = l.count i + if j = i then 1 else 0 := by
  rw [count_cons]
  simp only [beq_iff_eq]

/-! ## References -/

theorem update_ref (ref : Nat → Nat) (i j n : Nat) :
    update ref i n j = if j = i then n else ref j := update_apply ..

theorem Holds.wp_iget (h : Holds s s₁ l) (hQ : ∀ s', Holds s s' (i :: l) → Q () s') : Wp E (iget i) Q s₁ := by
  refine hQ _ ⟨h.node, h.cwd, h.ofile, h.ftable, fun j => ?_, fun j hj hv => ?_, h.blocks⟩
  · change update s₁.ref i (s₁.ref i + 1) j = _
    rw [update_ref, count_cons_nat, h.ref i, h.ref j]
    by_cases hij : j = i
    · subst hij
      simp only [if_true]
      omega
    · rw [if_neg hij, if_neg (Ne.symm hij)]
      omega
  change (if s₁.ref i = 0 then update s₁.valid i false else s₁.valid) j = true
  split
  · next h0 =>
    have hji : j ≠ i := by
      rintro rfl
      rw [h.ref] at h0
      omega
    rw [update_of_ne hji]
    exact h.valid j hj hv
  · exact h.valid j hj hv

theorem Holds.wp_idup (h : Holds s s₁ l) (hQ : ∀ s', Holds s s' (i :: l) → Q () s') : Wp E (idup i) Q s₁ := by
  refine hQ _ ⟨h.node, h.cwd, h.ofile, h.ftable, fun j => ?_, h.valid, h.blocks⟩
  change update s₁.ref i (s₁.ref i + 1) j = _
  rw [update_ref, count_cons_nat, h.ref i, h.ref j]
  by_cases hij : j = i
  · subst hij
    simp only [if_true]
    omega
  · rw [if_neg hij, if_neg (Ne.symm hij)]
    omega

theorem Holds.wp_iput_valid (h : Holds s s₁ (i :: l)) (hs : Safe s l') (hsub : l' ⊆ l)
    (hQ : ∀ s', Holds s s' l → s'.valid = s₁.valid → Q () s') : Wp E (iput i) Q s₁ := by
  have hfrees : s₁.frees i = false := by
    by_contra hf
    rw [Bool.not_eq_false] at hf
    simp only [Fs.frees, Bool.and_eq_true, decide_eq_true_eq, any_eq_true_iff_get] at hf
    obtain ⟨⟨h1, -⟩, hn, h0⟩ := hf
    rw [h.ref, count_cons_nat, if_pos rfl] at h1
    have hil : i ∉ l := count_eq_zero.1 (by omega)
    have hnode : s.node i = some ((s₁.node i).get hn) := by
      rw [← h.node]
      exact (some_get hn).symm
    have := (hs.refs i _ hnode h0 fun hi => hil (hsub hi)).1
    omega
  change Q () (if s₁.frees i then _ else _)
  rw [hfrees]
  refine hQ _ ⟨h.node, h.cwd, h.ofile, h.ftable, fun j => ?_, h.valid, h.blocks⟩ rfl
  change update s₁.ref i (s₁.ref i - 1) j = _
  have hi := h.ref i
  have hj := h.ref j
  rw [count_cons_nat] at hi hj
  rw [update_ref]
  by_cases hij : j = i
  · subst hij
    rw [if_pos rfl] at hi ⊢
    omega
  rw [if_neg (Ne.symm hij)] at hj
  rw [if_neg hij]
  omega

theorem Holds.wp_iput (h : Holds s s₁ (i :: l)) (hs : Safe s l') (hsub : l' ⊆ l)
    (hQ : ∀ s', Holds s s' l → Q () s') : Wp E (iput i) Q s₁ :=
  h.wp_iput_valid hs hsub fun s' h' _ => hQ s' h'

theorem Holds.lock (h : Holds s s₁ l) (i : Nat) : Holds s { s₁ with valid := update s₁.valid i true } l := by
  refine ⟨h.node, h.cwd, h.ofile, h.ftable, h.ref, fun j hj hv => ?_, h.blocks⟩
  change update s₁.valid i true j = true
  by_cases hij : j = i
  · rw [hij, update_self]
  · rw [update_of_ne hij]
    exact h.valid j hj hv

theorem Holds.wp_ilock (h : Holds s s₁ l) {Q : Node → Fs P → Prop} (hE : s.node i = none → E "ilock: no type")
    (hQ : ∀ n s', s.node i = some n → Holds s s' l → s'.valid i = true → Q n s') : Wp E (ilock i) Q s₁ := by
  have hnode : s₁.node i = s.node i := congrFun h.node i
  unfold Wp ilock
  cases hn : s.node i with
  | none =>
    rw [hnode, hn]
    exact hE hn
  | some n =>
    rw [hnode, hn]
    exact hQ n _ hn (h.lock i) (update_self ..)

theorem Holds.wp_fields (h : Holds s s₁ l) {Q : Node → Fs P → Prop} {n : Node} (hn : s.node i = some n)
    (hQ : Q n s₁) : Wp E (fields i) Q s₁ := by
  unfold Wp fields
  rw [h.node, hn]
  exact hQ

theorem touch_eq {blocks : Nat → Nat → Bool} {a b : Nat} (h : ∀ k, perBlock * k < b → blocks i k = true) :
    touch blocks i a b = blocks := by
  funext j k
  unfold touch
  by_cases hj : j = i
  · subst hj
    by_cases hk : perBlock * k < b
    · rw [h k hk, Bool.true_or]
    · simp [hk]
  · simp [hj]

/-- Entries that a directory without holes has are read and written without a new block. -/
theorem Holds.wp_access (h : Holds s s₁ l) {n : Node} (hn : s.node i = some n) {a b : Nat}
    (hb : b ≤ n.ents.length) (hQ : ∀ s', Holds s s' l → s'.valid = s₁.valid → Q () s') :
    Wp E (access i a b) Q s₁ := by
  refine hQ _ ⟨h.node, h.cwd, h.ofile, h.ftable, h.ref, h.valid, fun hd => ?_⟩ rfl
  have hblocks := h.blocks hd
  refine (touch_eq fun k hk => ?_).trans hblocks
  rw [hblocks]
  exact hd i n hn k (by omega)

/-! ## Paths -/

/-- What `namex` finds in the tree. -/
def resolveFrom (node : Nat → Option Node) (parent : Bool) : Nat → List (List Byte) → Option (Nat × List Byte)
  | ip, [] => if parent then none else some (ip, [])
  | ip, name :: rest =>
    match node ip with
    | none => none
    | some n =>
      if n.kind ≠ .dir then none
      else if parent ∧ rest = [] then some (ip, name)
      else
        match lookup name n.ents with
        | none => none
        | some (next, _) => resolveFrom node parent next rest

/-- Where a path starts. -/
def start (cwd : Nat) (path : List Byte) : Nat := if path.head? = some slash then ROOTINO else cwd

def resolve (node : Nat → Option Node) (cwd : Nat) (parent : Bool) (path : List Byte) :
    Option (Nat × List Byte) :=
  resolveFrom node parent (start cwd path) (elements path)

/-- The inode to which `namex` returns a reference. -/
def found (r : Option (Nat × List Byte)) : List Nat := (r.map (·.1)).toList

/-- A set of inodes that `dirlookup` does not leave, all of them allocated. -/
def Closed (s : Fs P) (G : Nat → Prop) : Prop :=
  ∀ i, G i → ∃ n, s.node i = some n ∧ (n.kind = .dir → ∀ e, e ∈ n.ents → e.inum ≠ 0 → G e.inum)

theorem lookupFrom_mem {k : Nat} (h : lookupFrom name k ents = some (j, m)) :
    ∃ e, ents[m - k]? = some e ∧ k ≤ m ∧ fits name e = true ∧ e.inum = j := by
  induction ents generalizing k with
  | nil => cases h
  | cons e es ih =>
    rw [lookupFrom] at h
    split at h
    · next hf =>
      cases h
      exact ⟨e, by simp, le_refl _, hf, rfl⟩
    obtain ⟨e', he', hle, hf, hj⟩ := ih h
    refine ⟨e', ?_, by omega, hf, hj⟩
    rw [show m - k = (m - (k + 1)) + 1 by omega, getElem?_cons_succ]
    exact he'

theorem lookup_mem (h : lookup name ents = some (j, m)) :
    ∃ e, ents[m]? = some e ∧ e.inum = j ∧ j ≠ 0 ∧ namecmp name e.name = 0 := by
  obtain ⟨e, he, -, hf, hj⟩ := lookupFrom_mem h
  simp only [fits, Bool.and_eq_true, decide_eq_true_eq] at hf
  exact ⟨e, he, hj, hj ▸ hf.1, hf.2⟩

theorem scanned_le (name : List Byte) (ents : List Dirent) : scanned name ents ≤ ents.length := by
  unfold scanned
  split
  · next j k hl =>
    obtain ⟨e, he, -⟩ := lookup_mem hl
    exact (List.getElem?_eq_some_iff.1 he).1
  · exact le_refl _

theorem Holds.wp_namexFrom (hs : Safe s l') (hsub : l' ⊆ l)
    (hE : E "ilock: no type" ∨ Closed s G) (parent : Bool) (els : List (List Byte))
    (hip : E "ilock: no type" ∨ G ip) (h : Holds s s₁ (ip :: l)) {Q : Option (Nat × List Byte) → Fs P → Prop}
    (hQ : ∀ s', Holds s s' (found (resolveFrom s.node parent ip els) ++ l) →
      Q (resolveFrom s.node parent ip els) s') :
    Wp E (namexFrom parent ip els) Q s₁ := by
  induction els generalizing ip s₁ with
  | nil =>
    rw [resolveFrom] at hQ
    rw [namexFrom]
    split
    · next hp =>
      rw [if_pos hp] at hQ
      exact .bind (h.wp_iput hs hsub fun s' hs' => hQ s' hs')
    next hp =>
    rw [if_neg hp] at hQ
    exact hQ s₁ h
  | cons name rest ih =>
    rw [namexFrom]
    have hEip : s.node ip = none → E "ilock: no type" := fun hnone => by
      rcases hE with hE | hG
      · exact hE
      refine hip.elim id fun hg => ?_
      obtain ⟨n, hn, -⟩ := hG ip hg
      cases hnone.symm.trans hn
    refine .bind (h.wp_ilock hEip fun n s₂ hn h₂ _ => ?_)
    rw [resolveFrom, hn] at hQ
    simp only at hQ
    split
    · next hk =>
      rw [if_pos hk] at hQ
      exact .bind (h₂.wp_iput hs hsub fun s' hs' => hQ s' hs')
    next hk =>
    rw [if_neg hk] at hQ
    split
    · next hp =>
      rw [if_pos hp] at hQ
      exact hQ s₂ h₂
    next hp =>
    rw [if_neg hp] at hQ
    refine .bind (h₂.wp_access hn (scanned_le ..) fun s₂ h₂ _ => ?_)
    cases hl : lookup name n.ents with
    | none =>
      rw [hl] at hQ
      exact .bind (h₂.wp_iput hs hsub fun s' hs' => hQ s' hs')
    | some r =>
      obtain ⟨next, m⟩ := r
      rw [hl] at hQ
      refine .bind (h₂.wp_iget fun s₃ h₃ => .bind ?_)
      refine (h₃.perm (.swap ip next l)).wp_iput hs (fun x hx => mem_cons_of_mem _ (hsub hx)) fun s₄ h₄ => ?_
      refine ih ?_ h₄ hQ
      rcases hE with hE | hG
      · exact .inl hE
      refine hip.imp_right fun hg => ?_
      obtain ⟨n', hn', hents⟩ := hG ip hg
      cases hn.symm.trans hn'
      obtain ⟨e, he, rfl, h0, -⟩ := lookup_mem hl
      exact hents (not_not.1 hk) e (mem_of_getElem? he) h0

theorem Holds.wp_namex (h : Holds s s₁ l) (hs : Safe s l') (hsub : l' ⊆ l)
    (hE : E "ilock: no type" ∨ Closed s G) (hroot : E "ilock: no type" ∨ G ROOTINO)
    (hcwd : E "ilock: no type" ∨ G cwd) (parent : Bool) (path : List Byte)
    {Q : Option (Nat × List Byte) → Fs P → Prop}
    (hQ : ∀ s', Holds s s' (found (resolve s.node cwd parent path) ++ l) →
      Q (resolve s.node cwd parent path) s') :
    Wp E (namex cwd parent path) Q s₁ := by
  unfold namex
  unfold resolve start at hQ
  split
  · next hslash =>
    rw [if_pos hslash] at hQ
    exact .bind (h.wp_iget fun s₂ h₂ => h₂.wp_namexFrom hs hsub hE parent _ hroot hQ)
  next hslash =>
  rw [if_neg hslash] at hQ
  exact .bind (h.wp_idup fun s₂ h₂ => h₂.wp_namexFrom hs hsub hE parent _ hcwd hQ)

theorem resolveFrom_parent {node : Nat → Option Node}
    (h : resolveFrom node true ip els = some (d, name)) : ∃ n, node d = some n ∧ n.kind = .dir := by
  induction els generalizing ip with
  | nil => cases h
  | cons x rest ih =>
    rw [resolveFrom] at h
    split at h
    · cases h
    next n hn =>
    obtain ⟨hk, h⟩ := ite_none_left_eq_some.1 h
    split at h
    · cases h
      exact ⟨n, hn, not_not.1 hk⟩
    split at h
    · cases h
    · exact ih h

theorem start_good (hroot : G ROOTINO) (hcwd : G cwd) (path : List Byte) : G (start cwd path) := by
  unfold start
  split
  · exact hroot
  · exact hcwd

theorem resolveFrom_good {parent : Bool} (hG : Closed s G) (hip : G ip)
    (h : resolveFrom s.node parent ip els = some (d, name)) :
    G d := by
  induction els generalizing ip with
  | nil =>
    rw [resolveFrom] at h
    split at h
    · cases h
    · cases h
      exact hip
  | cons x rest ih =>
    rw [resolveFrom] at h
    obtain ⟨n, hn, hents⟩ := hG ip hip
    rw [hn] at h
    obtain ⟨hk, h⟩ := ite_none_left_eq_some.1 h
    split at h
    · cases h
      exact hip
    split at h
    · cases h
    next next m hl =>
    obtain ⟨e, he, rfl, h0, -⟩ := lookup_mem hl
    exact ih (hents (not_not.1 hk) e (mem_of_getElem? he) h0) h

end Xv6.Tree
