import Xv6.Tree.Changes
import Xv6.Tree.Requests

set_option autoImplicit false

/-! # Links and references

`Ok` is what holds of the file system while the references `l` belong to a call: the names and link
counts are right, the reference count of an inode is the number of current directories and open
files on it, and an inode without links is allocated only while it is referenced. Every call keeps
it. -/

namespace Xv6.Tree

open Files Function List Option Structures

variable {P : Type} [Fintype P] [DecidableEq P] {E : String → Prop} {N : Nat} {s s' : Fs P}
    {i : Nat} {l : List Nat}
  {p : P}

/-- The file is open on the inode. -/
def File.opens (ff : File) (i : Nat) : Prop := ff.type ≠ .none ∧ ff.ip = i

instance (ff : File) (i : Nat) : Decidable (ff.opens i) := inferInstanceAs (Decidable (_ ∧ _))

/-- How many current directories and open files there are on the inode. -/
def held (s : Fs P) (i : Nat) : Nat :=
  (∑ p, if s.cwd p = some i then 1 else 0) + ∑ f, if (s.ftable f).opens i then 1 else 0

structure Ok (N : Nat) (s : Fs P) (l : List Nat) : Prop where
  graph : Graph N s.node
  ref : ∀ i, s.ref i = held s i + l.count i
  alloc : ∀ i, 0 < s.ref i → ∃ n, s.node i = some n
  safe : ∀ i n, s.node i = some n → n.nlink = 0 → 0 < s.ref i ∧ s.valid i = true
  closed : ∀ f, (s.ftable f).ref = 0 → (s.ftable f).type = .none

omit [DecidableEq P] in
theorem held_congr (hcwd : s'.cwd = s.cwd) (hft : s'.ftable = s.ftable) (i : Nat) : held s' i = held s i := by
  unfold held
  rw [hcwd, hft]

theorem held_cwd (s : Fs P) (p : P) (o : Option Nat) (i : Nat) :
    held { s with cwd := update s.cwd p o } i + (if s.cwd p = some i then 1 else 0) =
      held s i + if o = some i then 1 else 0 := by
  have h := sum_table (fun o : Option Nat => if o = some i then 1 else 0) s.cwd p o
  unfold held
  simp only at h ⊢
  omega

omit [DecidableEq P] in
theorem held_file (s : Fs P) (f : Fin NFILE) (ff : File) (i : Nat) :
    held { s with ftable := update s.ftable f ff } i + (if (s.ftable f).opens i then 1 else 0) =
      held s i + if ff.opens i then 1 else 0 := by
  have h := sum_table (fun ff : File => if ff.opens i then 1 else 0) s.ftable f ff
  unfold held
  simp only at h ⊢
  omega

omit [DecidableEq P] in
theorem held_pos_cwd (h : s.cwd p = some i) : 0 < held s i := by
  have hle := Finset.single_le_sum (f := fun q => if s.cwd q = some i then 1 else 0) (fun _ _ => Nat.zero_le _)
    (Finset.mem_univ p)
  simp only [h, if_true] at hle
  unfold held
  omega

namespace Ok

omit [DecidableEq P]

theorem toSafe (h : Ok N s l) (l' : List Nat) : Safe s l' := ⟨fun i n hn h0 _ => h.safe i n hn h0, h.closed⟩

theorem holds (h : Ok N s []) (hh : Holds s s' l) (hl : ∀ i, i ∈ l → ∃ n, s.node i = some n) : Ok N s' l := by
  refine ⟨hh.node ▸ h.graph, fun i => ?_, fun i hi => ?_, fun i n hn h0 => ?_, fun f hf => ?_⟩
  · rw [hh.ref i, h.ref i, held_congr hh.cwd hh.ftable, count_nil, Nat.add_zero]
  · rw [hh.node]
    by_cases hmem : i ∈ l
    · exact hl i hmem
    · rw [hh.ref i, List.count_eq_zero.2 hmem] at hi
      exact h.alloc i hi
  · rw [hh.node] at hn
    obtain ⟨hpos, hv⟩ := h.safe i n hn h0
    refine ⟨?_, hh.valid i hpos hv⟩
    rw [hh.ref i]
    omega
  · rw [hh.ftable] at hf ⊢
    exact h.closed f hf

end Ok

/-! ## Giving a reference back -/

def Fs.drop (s : Fs P) (i : Nat) : Fs P :=
  if s.frees i then
    { s with
      node := update s.node i none
      blocks := freeBlocks s.blocks i
      valid := update s.valid i false
      ref := update s.ref i (s.ref i - 1) }
  else { s with ref := update s.ref i (s.ref i - 1) }

section

omit [Fintype P] [DecidableEq P]

theorem Fs.drop_cwd (s : Fs P) (i : Nat) : (s.drop i).cwd = s.cwd := by
  unfold Fs.drop
  split <;> rfl

theorem Fs.drop_ftable (s : Fs P) (i : Nat) : (s.drop i).ftable = s.ftable := by
  unfold Fs.drop
  split <;> rfl

theorem Fs.drop_ref (s : Fs P) (i j : Nat) : (s.drop i).ref j = if j = i then s.ref i - 1 else s.ref j := by
  rw [← update_ref]
  unfold Fs.drop
  split <;> rfl

theorem Fs.frees_iff (s : Fs P) (i : Nat) :
    s.frees i = true ↔ s.ref i = 1 ∧ s.valid i = true ∧ ∃ n, s.node i = some n ∧ n.nlink = 0 := by
  unfold Fs.frees
  cases s.node i with
  | none => simp
  | some n => simp [and_assoc]

end

omit [DecidableEq P] in
/-- **`iput` frees an inode when its last link and its last reference are gone.** -/
theorem Ok.drop (h : Ok N s (i :: l)) : Ok N (s.drop i) l := by
  have hheld : ∀ j, held (s.drop i) j = held s j := held_congr (s.drop_cwd i) (s.drop_ftable i)
  have href : ∀ j, (s.drop i).ref j = held s j + l.count j := by
    intro j
    have hj := h.ref j
    rw [count_cons_nat] at hj
    rw [Fs.drop_ref]
    by_cases hji : j = i
    · subst hji
      rw [if_pos rfl] at hj ⊢
      omega
    rw [if_neg (Ne.symm hji)] at hj
    rw [if_neg hji]
    omega
  have hi := h.ref i
  rw [count_cons_nat, if_pos rfl] at hi
  have hclosed : ∀ f, ((s.drop i).ftable f).ref = 0 → ((s.drop i).ftable f).type = .none := by
    rw [Fs.drop_ftable]
    exact h.closed
  by_cases hf : s.frees i = true
  · obtain ⟨h1, -, n, hn, h0⟩ := (s.frees_iff i).1 hf
    have hnode : (s.drop i).node = update s.node i none := by
      unfold Fs.drop
      rw [if_pos hf]
    have hvalid : (s.drop i).valid = update s.valid i false := by
      unfold Fs.drop
      rw [if_pos hf]
    refine ⟨?_, fun j => by rw [href, hheld], fun j hj => ?_, fun j m hm hm0 => ?_, hclosed⟩
    · rw [hnode]
      exact h.graph.free hn h0
    · have hji : j ≠ i := by
        rintro rfl
        rw [href] at hj
        omega
      rw [hnode, update_of_ne hji]
      refine h.alloc j ?_
      rw [Fs.drop_ref, if_neg hji] at hj
      exact hj
    have hji : j ≠ i := by
      rintro rfl
      rw [hnode, update_self] at hm
      cases hm
    rw [hnode, update_of_ne hji] at hm
    rw [hvalid, update_of_ne hji, Fs.drop_ref, if_neg hji]
    exact h.safe j m hm hm0
  · have hnode : (s.drop i).node = s.node := by
      unfold Fs.drop
      rw [if_neg hf]
    have hvalid : (s.drop i).valid = s.valid := by
      unfold Fs.drop
      rw [if_neg hf]
    refine ⟨by rw [hnode]; exact h.graph, fun j => by rw [href, hheld], fun j hj => ?_, fun j m hm hm0 => ?_, hclosed⟩
    · rw [hnode]
      refine h.alloc j ?_
      rw [Fs.drop_ref] at hj
      split at hj
      · next hji =>
        subst hji
        omega
      · exact hj
    rw [hnode] at hm
    obtain ⟨hpos, hv⟩ := h.safe j m hm hm0
    rw [hvalid, Fs.drop_ref]
    refine ⟨?_, hv⟩
    split
    · next hji =>
      -- without links, the last reference would have freed it
      subst hji
      have hne : s.ref j ≠ 1 := fun h1 => hf ((s.frees_iff j).2 ⟨h1, hv, m, hm, hm0⟩)
      omega
    · exact hpos

omit [Fintype P] [DecidableEq P] in
theorem Fs.drop_linkedDir (s : Fs P) (i : Nat) {j : Nat} (hj : LinkedDir s.node j) :
    LinkedDir (s.drop i).node j := by
  unfold Fs.drop
  split
  · next hf =>
    obtain ⟨-, -, n, hn, h0⟩ := (s.frees_iff i).1 hf
    obtain ⟨m, hm, hk, hm0⟩ := hj
    have hji : j ≠ i := by
      rintro rfl
      exact hm0 (some.inj (hn.symm.trans hm) ▸ h0)
    exact ⟨m, (update_of_ne hji ..).trans hm, hk, hm0⟩
  · exact hj

/-! ## Current directories -/

theorem Ok.leave (h : Ok N s l) (hcwd : s.cwd p = some i) :
    Ok N { s with cwd := update s.cwd p none } (i :: l) := by
  refine ⟨h.graph, fun j => ?_, h.alloc, h.safe, h.closed⟩
  have hheld := held_cwd s p none j
  have hj := h.ref j
  rw [if_neg (by exact nofun : ¬ (none : Option Nat) = some j), hcwd] at hheld
  simp only [some.injEq] at hheld
  rw [count_cons_nat]
  change s.ref j = _
  omega

theorem Ok.enter (h : Ok N s (i :: l)) (hcwd : s.cwd p = none) :
    Ok N { s with cwd := update s.cwd p (some i) } l := by
  refine ⟨h.graph, fun j => ?_, h.alloc, h.safe, h.closed⟩
  have hheld := held_cwd s p (some i) j
  have hj := h.ref j
  rw [if_neg (by rw [hcwd]; exact nofun : ¬ s.cwd p = some j)] at hheld
  simp only [some.injEq] at hheld
  rw [count_cons_nat] at hj
  change s.ref j = _
  omega

omit [Fintype P] [DecidableEq P] in
theorem Fs.drop_setCwd (s : Fs P) (i : Nat) (c : P → Option Nat) : ({ s with cwd := c } : Fs P).drop i =
    { s.drop i with cwd := c } := by
  unfold Fs.drop
  by_cases hf : s.frees i = true
  · rw [if_pos hf, if_pos (show ({ s with cwd := c } : Fs P).frees i = true from hf)]
  · rw [if_neg hf, if_neg (show ¬ ({ s with cwd := c } : Fs P).frees i = true from hf)]

/-- The end of `chdir` and of `exit`: the old directory is given back before the new one is
    stored. -/
theorem Ok.swap (h : Ok N s l) (hcwd : s.cwd p = some i) (o : Option Nat) :
    ∃ t : Fs P, Ok N t l ∧ t.cwd = update s.cwd p none ∧
      { s.drop i with cwd := update s.cwd p o } = { t with cwd := update t.cwd p o } ∧
      ∀ j, LinkedDir s.node j → LinkedDir t.node j := by
  refine ⟨({ s with cwd := update s.cwd p none } : Fs P).drop i, (h.leave hcwd).drop, Fs.drop_cwd .., ?_,
    fun j hj => Fs.drop_linkedDir _ i hj⟩
  rw [Fs.drop_setCwd s i (update s.cwd p none)]
  simp only [update_idem]

/-! ## Open files -/

variable {f : Fin NFILE} {ff : File} {a b : Nat} {n x y : Node}

theorem closed_update {ftable : Fin NFILE → File} (h : ∀ g, (ftable g).ref = 0 → (ftable g).type = .none)
    (hff : ff.ref = 0 → ff.type = .none) (g : Fin NFILE) (hg : (update ftable f ff g).ref = 0) :
    (update ftable f ff g).type = .none := by
  by_cases hgf : g = f
  · subst hgf
    rw [update_self] at hg ⊢
    exact hff hg
  · rw [update_of_ne hgf] at hg ⊢
    exact h g hg

omit [DecidableEq P] in
theorem Ok.setFile (h : Ok N s l) (hopens : ∀ i, ff.opens i ↔ (s.ftable f).opens i)
    (hclosed : ff.ref = 0 → ff.type = .none) :
    Ok N { s with ftable := update s.ftable f ff } l := by
  refine ⟨h.graph, fun j => ?_, h.alloc, h.safe, fun g hg => ?_⟩
  · have hheld := held_file s f ff j
    simp only [hopens j] at hheld
    have hj := h.ref j
    change s.ref j = _
    omega
  · exact closed_update h.closed hclosed g hg

omit [DecidableEq P] in
theorem Ok.closeFile (h : Ok N s l) (htype : (s.ftable f).type ≠ .none) (hff : ff.type = .none) :
    Ok N { s with ftable := update s.ftable f ff } ((s.ftable f).ip :: l) := by
  refine ⟨h.graph, fun j => ?_, h.alloc, h.safe, fun g hg => ?_⟩
  · have hheld := held_file s f ff j
    have hj := h.ref j
    rw [if_neg (show ¬ ff.opens j from fun hf => hf.1 hff)] at hheld
    have hopens : (s.ftable f).opens j ↔ (s.ftable f).ip = j := and_iff_right htype
    simp only [hopens] at hheld
    rw [count_cons_nat]
    change s.ref j = _
    omega
  · exact closed_update h.closed (fun _ => hff) g hg

/-- What a call that does not touch the tree keeps. -/
structure Keeps (N : Nat) (s s' : Fs P) (l : List Nat) : Prop where
  ok : Ok N s' l
  cwd : s'.cwd = s.cwd
  linked : ∀ j, LinkedDir s.node j → LinkedDir s'.node j

section

omit [DecidableEq P]

theorem Ok.wp_fileclose (h : Ok N s l) (hE : E "fileclose") (f : Fin NFILE) :
    Wp E (fileclose f) (fun _ s' => Keeps N s s' l) s := by
  unfold Wp fileclose
  by_cases h1 : (s.ftable f).ref < 1
  · simp only [if_pos h1]
    exact hE
  simp only [if_neg h1]
  by_cases h2 : (s.ftable f).ref - 1 > 0
  · simp only [if_pos h2]
    refine ⟨h.setFile (fun i => Iff.rfl) fun h0 => ?_, rfl, fun _ hj => hj⟩
    change (s.ftable f).ref - 1 = 0 at h0
    omega
  simp only [if_neg h2]
  by_cases htype : (s.ftable f).type = .none
  · simp only [if_pos htype]
    refine ⟨h.setFile (fun i => ?_) fun _ => rfl, rfl, fun _ hj => hj⟩
    exact iff_of_false (fun hf => hf.1 rfl) fun hf => hf.1 htype
  · simp only [if_neg htype]
    exact ⟨(h.closeFile htype rfl).drop, Fs.drop_cwd .., fun j hj => Fs.drop_linkedDir _ _ hj⟩

theorem Ok.wp_filedup (h : Ok N s l) (hE : E "filedup") (f : Fin NFILE) :
    Wp E (filedup f) (fun _ s' => Keeps N s s' l) s := by
  unfold Wp filedup
  by_cases h1 : (s.ftable f).ref < 1
  · simp only [if_pos h1]
    exact hE
  · simp only [if_neg h1]
    exact ⟨h.setFile (fun i => Iff.rfl) (fun h0 => nomatch h0), rfl, fun _ hj => hj⟩

theorem Keeps.trans {t : Fs P} (h : Keeps N s t l) {l' : List Nat} (h' : Keeps N t s' l') : Keeps N s s' l' :=
  ⟨h'.ok, h'.cwd.trans h.cwd, fun j hj => h'.linked j (h.linked j hj)⟩

theorem Ok.keeps (h : Ok N s []) (hh : Holds s s' []) : Keeps N s s' [] :=
  ⟨h.holds hh fun _ hi => absurd hi not_mem_nil, hh.cwd, fun _ hj => hh.node ▸ hj⟩

theorem Ok.setTree (h : Ok N s []) {node' : Nat → Option Node} (hf : Follows N s.node node' none)
    (halloc : ∀ i n, s.node i = some n → ∃ n', node' i = some n')
    (hsafe : ∀ i n', node' i = some n' → n'.nlink = 0 → ∃ n, s.node i = some n ∧ n.nlink = 0) :
    Keeps N s { s with node := node' } [] := by
  refine ⟨⟨hf.graph, h.ref, fun i hi => ?_, fun i n' hn' h0 => ?_, h.closed⟩, rfl,
    fun j hj => hf.linked j hj nofun⟩
  · obtain ⟨n, hn⟩ := h.alloc i hi
    exact halloc i n hn
  · obtain ⟨n, hn, hn0⟩ := hsafe i n' hn' h0
    exact h.safe i n hn hn0

end

omit [Fintype P] [DecidableEq P] in
theorem Fs.put_put_forth {i : Nat} (hn : s.node i = some n) : ∃ n', ((s.put a x).put b y).node i = some n' := by
  by_cases hib : i = b
  · exact ⟨y, by rw [hib, Fs.put_node_self]⟩
  rw [Fs.put_node_ne _ _ hib]
  by_cases hia : i = a
  · exact ⟨x, by rw [hia, Fs.put_node_self]⟩
  · exact ⟨n, by rw [Fs.put_node_ne _ _ hia, hn]⟩

omit [Fintype P] [DecidableEq P] in
theorem Fs.put_put_back {i : Nat} (hn : ((s.put a x).put b y).node i = some n) :
    i = b ∧ n = y ∨ i = a ∧ n = x ∨ s.node i = some n := by
  by_cases hib : i = b
  · subst hib
    rw [Fs.put_node_self] at hn
    exact .inl ⟨rfl, (some.inj hn).symm⟩
  rw [Fs.put_node_ne _ _ hib] at hn
  by_cases hia : i = a
  · subst hia
    rw [Fs.put_node_self] at hn
    exact .inr (.inl ⟨rfl, (some.inj hn).symm⟩)
  · rw [Fs.put_node_ne _ _ hia] at hn
    exact .inr (.inr hn)

/-! ## Opening -/

theorem Ok.opened (h : Ok N s []) {ip : Nat} (hn : s.node ip = some n) {fd : Fin NOFILE}
    {m : Mode} (hf : (s.ftable f).ref = 0) (hh : Holds (s.openAs p f fd n ip m) s' [ip]) : Keeps N s s' [] := by
  have hgraph : Graph N s'.node ∧ (∀ i n', s'.node i = some n' → ∃ n₀, s.node i = some n₀ ∧
    n'.nlink = n₀.nlink) ∧
      (∀ i n₀, s.node i = some n₀ → ∃ n', s'.node i = some n') ∧ ∀ j, LinkedDir s.node j →
        LinkedDir s'.node j := by
    have hnode : s'.node = if m.trunc = true ∧ n.kind = .file then
        update s.node ip (some { n with data := [] }) else s.node := hh.node
    rw [hnode]
    have hsame : Graph.Same n { n with data := [] } := ⟨rfl, rfl, rfl, rfl⟩
    split
    · refine ⟨h.graph.replace hn hsame, fun i n' hn' => ?_,
        fun i n₀ hn₀ => Graph.replace_forth hn₀, fun j hj => ?_⟩
      · obtain ⟨n₀, hn₀, hs⟩ := Graph.replace_back hn hsame hn'
        exact ⟨n₀, hn₀, hs.nlink⟩
      · rw [Graph.replace_linkedDir hn hsame]
        exact hj
    · exact ⟨h.graph, fun i n' hn' => ⟨n', hn', rfl⟩, fun i n₀ hn₀ => ⟨n₀, hn₀⟩, fun _ hj => hj⟩
  obtain ⟨hg, hback, hforth, hlinked⟩ := hgraph
  obtain ⟨ff, hff⟩ : ∃ ff : File, ff = ({ s.ftable f with ref := 1 } : File).opened n ip m := ⟨_, rfl⟩
  have hftable : s'.ftable = update s.ftable f ff := hff ▸ hh.ftable
  have hcwd : s'.cwd = s.cwd := hh.cwd
  have hheld : ∀ j, held s' j = held s j + if ip = j then 1 else 0 := by
    intro j
    have hft := held_file s f ff j
    have hnone : ¬ (s.ftable f).opens j := fun ho => ho.1 (h.closed f hf)
    have hopens : ff.opens j ↔ ip = j := by
      rw [hff]
      refine and_iff_right ?_
      change (if n.kind = .device then FdType.device else FdType.inode) ≠ _
      split <;> decide
    simp only [if_neg hnone, hopens] at hft
    have hsame : held s' j = held { s with ftable := update s.ftable f ff } j := by
      unfold held
      rw [hcwd, hftable]
    omega
  refine ⟨⟨hg, fun j => ?_, fun j hj => ?_, fun j n' hn' h0 => ?_, fun g hgr => ?_⟩, hh.cwd, hlinked⟩
  · rw [hh.ref j, hheld j, count_nil, count_cons_nat, count_nil]
    have hj := h.ref j
    rw [count_nil] at hj
    change s.ref j + _ = _
    omega
  · by_cases hji : ip = j
    · subst hji
      exact hforth ip n hn
    have hj' := hh.ref j
    rw [count_cons_nat, if_neg hji, count_nil] at hj'
    obtain ⟨n₀, hn₀⟩ := h.alloc j (by change s'.ref j = s.ref j + (0 + 0) at hj'; omega)
    exact hforth j n₀ hn₀
  · obtain ⟨n₀, hn₀, hlink⟩ := hback j n' hn'
    obtain ⟨hpos, hv⟩ := h.safe j n₀ hn₀ (hlink ▸ h0)
    refine ⟨?_, hh.valid j hpos hv⟩
    rw [hh.ref j]
    exact Nat.lt_of_lt_of_le hpos (Nat.le_add_right ..)
  · rw [hftable] at hgr ⊢
    refine closed_update h.closed (fun h0 => ?_) g hgr
    rw [hff] at h0
    cases h0

/-! ## Changes of the tree -/

section

variable (h : Ok N s []) (hN : N ≤ 2 ^ 16)

include h hN

variable {d ip : Nat} {dp : Node}

omit [DecidableEq P] in
theorem Ok.made (hd : s.node d = some dp) (hk : dp.kind = .dir) (hd0 : dp.nlink ≠ 0)
    (hfree : s.node ip = none) (hpos : 0 < ip) (hlt : ip < N) {kind : Kind}
    (hroom : kind = .dir → dp.nlink ≠ 0x7fff) (name : List Byte) (major minor : BitVec 16) :
    Keeps N s (s.make ip d dp name kind major minor) [] := by
  refine h.setTree (h.graph.make hN hd hk hd0 hfree hpos hlt hroom name major minor)
    (fun i n hn => Fs.put_put_forth hn) fun i n' hn' h0 => ?_
  rcases Fs.put_put_back hn' with ⟨rfl, rfl⟩ | ⟨-, rfl⟩ | hold
  · -- its link count has grown, if at all
    refine absurd h0 (toNat_ne_zero.2 ?_)
    have hpos' := toNat_ne_zero.1 hd0
    change 0 < (if kind = .dir then dp.nlink + 1 else dp.nlink).toNat
    split
    · rw [toNat_add_one (h.graph.small i dp hd)]
      omega
    · exact hpos'
  · exact absurd h0 (show (1 : BitVec 16) ≠ 0 by decide)
  · exact ⟨n', hold, h0⟩

omit [DecidableEq P] in
theorem Ok.relinked {n : Node} (hd : s.node d = some dp) (hk : dp.kind = .dir) (hd0 : dp.nlink ≠ 0)
    (hn : s.node ip = some n) (hfile : n.kind ≠ .dir) (hroom : n.nlink ≠ 0x7fff) (name : List Byte) :
    Keeps N s ((s.put ip { n with nlink := n.nlink + 1 }).put d
      { dp with ents := addEntry (newEntry name ip) dp.ents }) [] := by
  refine h.setTree (h.graph.link hN hd hk hd0 hn hfile hroom name) (fun i m hm => Fs.put_put_forth hm)
    fun i n' hn' h0 => ?_
  rcases Fs.put_put_back hn' with ⟨rfl, rfl⟩ | ⟨rfl, rfl⟩ | hold
  · exact ⟨dp, hd, h0⟩
  · refine absurd h0 (toNat_ne_zero.2 ?_)
    rw [toNat_add_one (h.graph.small i n hn)]
    omega
  · exact ⟨n', hold, h0⟩

end

end Xv6.Tree
