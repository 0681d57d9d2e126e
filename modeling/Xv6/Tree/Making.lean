import Xv6.Tree.Held

set_option autoImplicit false

/-! # Making and finding inodes

What `dirlink`, `ialloc` and `create` do, in the same terms: the tree that they leave, and the
references that the call has. The entries of a directory are here a list; the functions on the list
are those of `Xv6.Files.Directory` on the bytes. -/

namespace Xv6.Tree

open Files Function List Structures

variable {P : Type} {E : String → Prop} {s s₁ s' : Fs P} {i : Nat} {l : List Nat}

/-! ## Entries as bytes -/

variable {ents : List Dirent} {inum j d ninodes ip cwd : Nat} {name path : List Byte} {dp : Node}
  {kind : Kind} {major minor : BitVec 16} {G : Nat → Prop} {parent : Bool}

section

variable (hmax : (file ents).length ≤ MAXFILE * BSIZE)
include hmax

theorem dirlookupFrom_lookupFrom
    (name : List Byte) (fuel k : Nat) (hfuel : ents.length ≤ k + fuel) :
    dirlookupFrom (file ents) name fuel (DIRENT * k) =
      .ok ((lookupFrom name k (ents.drop k)).map fun r => (r.1, DIRENT * r.2)) := by
  induction fuel generalizing k with
  | zero =>
    rw [drop_of_length_le (by omega)]
    rfl
  | succ fuel ih =>
    rw [dirlookupFrom]
    by_cases hk : k < ents.length
    · have he : ents[k]? = some ents[k] := getElem?_eq_getElem hk
      rw [if_pos (lt_file_iff.2 hk), readEntry_file hmax _ he, drop_eq_getElem_cons hk, lookupFrom]
      simp only [bind, Except.bind, inumOf_bytes, nameOf_bytes, fits, Bool.and_eq_true, decide_eq_true_eq]
      have hnext := ih (k + 1) (by omega)
      by_cases hfree : ents[k].inum = 0
      · rw [if_pos hfree, if_neg fun h => h.1 hfree]
        exact hnext
      rw [if_neg hfree]
      by_cases hname : namecmp name ents[k].name = 0
      · rw [if_pos hname, if_pos ⟨hfree, hname⟩]
        rfl
      · rw [if_neg hname, if_neg fun h => hname h.2]
        exact hnext
    · rw [if_neg (fun h => hk (lt_file_iff.1 h)), drop_of_length_le (by omega)]
      rfl

theorem lookup_file (name : List Byte) :
    dirlookup (file ents) name = .ok ((lookup name ents).map fun r => (r.1, DIRENT * r.2)) := by
  have hfuel : ents.length ≤ 0 + (file ents).length := by
    rw [file_length]
    simp only [DIRENT]
    omega
  exact dirlookupFrom_lookupFrom hmax name _ 0 hfuel

theorem freeEntryFrom_findIdx (fuel k : Nat)
    (hk : k ≤ ents.length) (hfuel : ents.length ≤ k + fuel) :
    freeEntryFrom (file ents) fuel (DIRENT * k) = .ok (DIRENT * (k + (ents.drop k).findIdx (·.inum = 0))) := by
  induction fuel generalizing k with
  | zero =>
    rw [drop_of_length_le (by omega)]
    rfl
  | succ fuel ih =>
    rw [freeEntryFrom]
    by_cases hlt : k < ents.length
    · have he : ents[k]? = some ents[k] := getElem?_eq_getElem hlt
      rw [if_pos (lt_file_iff.2 hlt), readEntry_file hmax _ he, drop_eq_getElem_cons hlt, findIdx_cons]
      simp only [bind, Except.bind, inumOf_bytes]
      by_cases hfree : ents[k].inum = 0
      · rw [if_pos hfree, decide_eq_true hfree]
        rfl
      rw [if_neg hfree, decide_eq_false hfree]
      refine (ih (k + 1) hlt (by omega)).trans ?_
      rw [cond_false, Nat.add_assoc, Nat.add_comm 1]
    · rw [if_neg (fun h => hlt (lt_file_iff.1 h)), drop_of_length_le (by omega)]
      rfl

end

theorem addEntry_getElem (e : Dirent) (ents : List Dirent) (i : Nat) :
    (addEntry e ents)[i]? = if i = ents.findIdx (·.inum = 0) then some e else ents[i]? := by
  induction ents generalizing i with
  | nil =>
    cases i with
    | zero => rfl
    | succ i => rfl
  | cons e' es ih =>
    rw [addEntry, findIdx_cons]
    by_cases h0 : e'.inum = 0
    · rw [if_pos h0, decide_eq_true h0]
      cases i with
      | zero => rfl
      | succ i => rfl
    rw [if_neg h0, decide_eq_false h0]
    cases i with
    | zero => rfl
    | succ i =>
      rw [getElem?_cons_succ, getElem?_cons_succ, ih i]
      simp only [cond_false, Nat.add_right_cancel_iff]

theorem addEntry_file (hbelow : (file ents).length < MAXFILE * BSIZE)
    (hinum : inum < 2 ^ 16) (hl : lookup name ents = none) :
    Files.dirlink (file ents) name inum = .ok (file (addEntry (newEntry name inum) ents), 0) := by
  have hfuel : ents.length ≤ 0 + (file ents).length := by
    rw [file_length]
    simp only [DIRENT]
    omega
  have hfree := freeEntryFrom_findIdx hbelow.le (file ents).length 0 (Nat.zero_le _) hfuel
  rw [Nat.mul_zero, Nat.zero_add, drop_zero] at hfree
  obtain ⟨ents', hwrite, hget, -⟩ := writeEntry_file hbelow findIdx_le_length (newEntry name inum) "dirlink"
  have hents : ents' = addEntry (newEntry name inum) ents := by
    refine ext_getElem? fun i => ?_
    rw [hget i, addEntry_getElem]
  unfold Files.dirlink
  rw [lookup_file hbelow.le, hl]
  simp only [Option.map_none, bind, Except.bind]
  rw [hfree]
  simp only
  rw [← newEntry_bytes name hinum, hwrite, hents]

/-! ## Nodes -/

def Fs.put (s : Fs P) (i : Nat) (n : Node) : Fs P := { s with node := update s.node i (some n) }

theorem Fs.put_node_self (s : Fs P) (i : Nat) (n : Node) : (s.put i n).node i = some n := update_self ..

theorem Fs.put_node_ne (s : Fs P) {i : Nat} (n : Node) (h : j ≠ i) : (s.put i n).node j = s.node j :=
  update_of_ne h ..

theorem Fs.put_put (s : Fs P) (i : Nat) (n n' : Node) : (s.put i n).put i n' = s.put i n' := by
  unfold Fs.put
  rw [update_idem]

theorem Fs.put_comm (s : Fs P) {i : Nat} (n n' : Node) (h : i ≠ j) :
    (s.put i n).put j n' = (s.put j n').put i n := by
  unfold Fs.put
  rw [update_comm h]

theorem Fs.Dense.of_put {n : Node} (hd : (s.put i n).Dense)
    (hents : ∀ m, s.node i = some m → m.ents.length ≤ n.ents.length) : s.Dense := by
  intro j m hm k hk
  by_cases hji : j = i
  · subst hji
    exact hd j n (Fs.put_node_self ..) k (hk.trans_le (hents m hm))
  · exact hd j m (by rw [Fs.put_node_ne _ _ hji, hm]) k hk

variable {Q : Unit → Fs P → Prop}

theorem Holds.wp_setNode (h : Holds s s₁ l) {n : Node}
    (hents : ∀ m, s.node i = some m → m.ents.length ≤ n.ents.length)
    (hQ : ∀ s', Holds (s.put i n) s' l → s'.valid = s₁.valid → Q () s') : Wp E (setNode i n) Q s₁ :=
  hQ (s₁.put i n) ⟨by unfold Fs.put; rw [h.node], h.cwd, h.ofile, h.ftable, h.ref, h.valid,
    fun hd => h.blocks (hd.of_put hents)⟩ rfl

theorem Holds.wp_setNode_same (h : Holds s s₁ l) {n m : Node} (hm : s.node i = some m) (hents : m.ents = n.ents)
    (hQ : ∀ s', Holds (s.put i n) s' l → s'.valid = s₁.valid → Q () s') : Wp E (setNode i n) Q s₁ :=
  h.wp_setNode (fun m' hm' => by cases hm.symm.trans hm'; rw [hents]) hQ

theorem addEntry_length (e : Dirent) (ents : List Dirent) : ents.length ≤ (addEntry e ents).length ∧
    ents.findIdx (·.inum = 0) < (addEntry e ents).length := by
  refine ⟨?_, ?_⟩
  · induction ents with
    | nil => exact Nat.zero_le _
    | cons e' es ih =>
      rw [addEntry]
      split
      · exact le_refl _
      · exact Nat.succ_le_succ ih
  · have hget : (addEntry e ents)[ents.findIdx (·.inum = 0)]? = some e := by rw [addEntry_getElem, if_pos rfl]
    exact (List.getElem?_eq_some_iff.1 hget).1

theorem Holds.wp_dirlink (h : Holds s s₁ l) (hd : s.node d = some dp)
    (hs : lookup name dp.ents ≠ none → Safe s l) {Q : Int → Fs P → Prop} (hE : E "dirlink")
    (hold : lookup name dp.ents ≠ none → ∀ s', Holds s s' l → Q (-1) s')
    (hnew : lookup name dp.ents = none → ∀ s',
      Holds (s.put d { dp with ents := addEntry (newEntry name inum) dp.ents }) s' l →
        s'.valid = s₁.valid → Q 0 s') :
    Wp E (dirlink d name inum) Q s₁ := by
  refine .bind (h.wp_fields hd (.bind (h.wp_access hd (scanned_le ..) fun s₁ h hv => ?_)))
  cases hl : lookup name dp.ents with
  | some r =>
    obtain ⟨j, k⟩ := r
    have hfound : lookup name dp.ents ≠ none := by
      rw [hl]
      exact nofun
    refine .bind (h.wp_iget fun s₂ h₂ => .bind (h₂.wp_iput (hs hfound) (List.Subset.refl l) fun s₃ h₃ => ?_))
    exact hold hfound s₃ h₃
  | none =>
    simp only
    split
    · exact hE
    · obtain ⟨hle, hlt⟩ := addEntry_length (newEntry name inum) dp.ents
      refine .bind (h.wp_setNode (fun m hm => by cases hd.symm.trans hm; exact hle) fun s₂ h₂ hv₂ => .bind ?_)
      refine h₂.wp_access (Fs.put_node_self ..) hlt fun s₃ h₃ hv₃ => hnew hl s₃ h₃ ?_
      rw [hv₃, hv₂, hv]

theorem Holds.wp_ialloc (h : Holds s s₁ l) {Q : Nat → Fs P → Prop} (hE : E "ialloc: no inodes")
    (hQ : ∀ i s', 0 < i → i < ninodes → s.node i = none → Holds (s.put i { kind }) s' (i :: l) → Q i s') :
    Wp E (ialloc ninodes kind) Q s₁ := by
  unfold Wp ialloc
  cases hfind : (List.range ninodes).find? fun i => 0 < i && (s₁.node i).isNone with
  | none => exact hE
  | some i =>
    have hi := find?_some hfind
    have hlt := List.mem_range.1 (mem_of_find?_eq_some hfind)
    simp only [Bool.and_eq_true, decide_eq_true_eq, Option.isNone_iff_eq_none] at hi
    have hwp : Wp E (do setNode i { kind }; iget i; pure i : Call P Nat) Q s₁ := by
      have hnone : s.node i = none := by rw [← h.node]; exact hi.2
      refine .bind (h.wp_setNode (fun m hm => nomatch hnone.symm.trans hm) fun s₂ h₂ _ => .bind ?_)
      exact h₂.wp_iget fun s₃ h₃ => hQ i s₃ hi.1 hlt hnone h₃
    exact hwp

/-! ## create -/

/-- The inode that `create` makes. -/
def newNode (ip d : Nat) (kind : Kind) (major minor : BitVec 16) : Node :=
  { kind, major, minor, nlink := 1, ents := if kind = .dir then [newEntry dot ip, newEntry dotdot d] else [] }

/-- The directory that it is put into. -/
def newParent (dp : Node) (name : List Byte) (ip : Nat) (kind : Kind) : Node :=
  { dp with
    nlink := if kind = .dir then dp.nlink + 1 else dp.nlink
    ents := addEntry (newEntry name ip) dp.ents }

/-- The state with the new inode and its entry. -/
def Fs.make (s : Fs P) (ip d : Nat) (dp : Node) (name : List Byte) (kind : Kind)
    (major minor : BitVec 16) : Fs P :=
  (s.put ip (newNode ip d kind major minor)).put d (newParent dp name ip kind)

theorem lookup_dotdot (ip : Nat) : lookup dotdot [newEntry dot ip] = none := by
  have hcmp : namecmp dotdot (strncpy dot DIRSIZ) ≠ 0 := by decide
  unfold lookup lookupFrom lookupFrom fits
  rw [if_neg]
  simp only [newEntry, Bool.and_eq_true]
  exact fun h => hcmp (of_decide_eq_true h.2)

theorem Holds.wp_fill (h : Holds s s₁ l) (hE : E "dirlink")
    (hip : s.node ip = some { kind }) (hd : s.node d = some dp) (hne : d ≠ ip) (hpos : 0 < ip)
    (hlt : ip < 2 ^ 16)
    (hQ : ∀ s', Holds ((s.put ip (newNode ip d kind major minor)).put d
      { dp with nlink := if kind = .dir then dp.nlink + 1 else dp.nlink }) s' l →
        s'.valid ip = true → Q () s') :
    Wp E (fill ip d kind major minor) Q s₁ := by
  refine .bind (h.wp_ilock (fun hnone => nomatch hnone.symm.trans hip) fun n s₂ hn h₂ hv₂ => ?_)
  cases hip.symm.trans hn
  refine .bind (h₂.wp_setNode_same hip rfl fun s₃ h₃ hv₃ => ?_)
  have hd₃ : (s.put ip { kind, major, minor, nlink := 1 }).node d = some dp := by
    rw [Fs.put_node_ne _ _ hne, hd]
  split
  · next hk =>
    subst hk
    refine .bind (h₃.wp_fields hd₃ (.bind (h₃.wp_setNode_same hd₃ rfl fun s₄ h₄ hv₄ => .bind ?_)))
    rw [Fs.put_comm _ _ _ (Ne.symm hne)] at h₄
    have hdot : lookup dot ([] : List Dirent) = none := rfl
    -- nothing is freed: `dirlink` finds no entry of the name
    refine h₄.wp_dirlink (Fs.put_node_self ..) (fun h => absurd hdot h) hE (fun h => absurd hdot h)
      fun _ s₅ h₅ hv₅ => .bind ?_
    rw [Fs.put_put] at h₅
    refine h₅.wp_dirlink (Fs.put_node_self ..) (fun h => absurd (lookup_dotdot ip) h) hE
      (fun h => absurd (lookup_dotdot ip) h) fun _ s₆ h₆ hv₆ => ?_
    rw [Fs.put_put] at h₆
    have hents : addEntry (newEntry dotdot d) [newEntry dot ip] = [newEntry dot ip, newEntry dotdot d] := by
      rw [addEntry, if_neg, addEntry]
      change ip % 2 ^ 16 ≠ 0
      omega
    simp only [addEntry.eq_1, hents] at h₆
    refine hQ s₆ ?_ ?_
    · rw [if_pos rfl, Fs.put_comm _ _ _ (Ne.symm hne)]
      exact h₆
    · rw [hv₆, hv₅, hv₄, hv₃]
      exact hv₂
  · next hk =>
    refine hQ s₃ ?_ (by rw [hv₃]; exact hv₂)
    have hput : (s.put ip (newNode ip d kind major minor)).put d
        { dp with nlink := if kind = .dir then dp.nlink + 1 else dp.nlink } =
        s.put ip { kind, major, minor, nlink := 1 } := by
      unfold newNode
      rw [if_neg hk, if_neg hk]
      unfold Fs.put
      congr 1
      rw [update_eq_self_iff]
      exact hd₃.symm
    rw [hput]
    exact h₃

/-- Where a path may lead when `ilock: no type` is not among the errors: a closed set with the two
    places where paths start. -/
def Walks (E : String → Prop) (s : Fs P) (cwd : Nat) (G : Nat → Prop) : Prop :=
  E "ilock: no type" ∨ Closed s G ∧ G ROOTINO ∧ G cwd

theorem Walks.wp_namex (hw : Walks E s cwd G) (h : Holds s s₁ l) (hs : Safe s l)
    (parent : Bool) (path : List Byte) {Q : Option (Nat × List Byte) → Fs P → Prop}
    (hQ : ∀ s', Holds s s' (found (resolve s.node cwd parent path) ++ l) →
      Q (resolve s.node cwd parent path) s') :
    Wp E (namex cwd parent path) Q s₁ :=
  h.wp_namex hs (List.Subset.refl l) (hw.imp_right And.left) (hw.imp_right fun h => h.2.1)
    (hw.imp_right fun h => h.2.2) parent path hQ

theorem Walks.resolved (hw : Walks E s cwd G)
    (hr : resolve s.node cwd parent path = some (d, name)) (hnone : s.node d = none) :
    E "ilock: no type" := by
  refine hw.elim id fun ⟨hG, hroot, hcwd⟩ => ?_
  obtain ⟨n, hn, -⟩ := hG d (resolveFrom_good hG (start_good hroot hcwd path) hr)
  cases hnone.symm.trans hn

theorem Walks.entry (hw : Walks E s cwd G)
    {k : Nat} {name' : List Byte} (hr : resolve s.node cwd parent path = some (d, name))
    (hd : s.node d = some dp) (hk : dp.kind = .dir) (hl : lookup name' dp.ents = some (ip, k))
    (hnone : s.node ip = none) : E "ilock: no type" := by
  refine hw.elim id fun ⟨hG, hroot, hcwd⟩ => ?_
  obtain ⟨n, hn, hents⟩ := hG d (resolveFrom_good hG (start_good hroot hcwd path) hr)
  cases hd.symm.trans hn
  obtain ⟨e, he, rfl, h0, -⟩ := lookup_mem hl
  obtain ⟨n', hn', -⟩ := hG _ (hents hk e (mem_of_getElem? he) h0)
  cases hnone.symm.trans hn'

/-- **`create` finds an inode, or makes one and its entry.** -/
theorem wp_create (hs : Safe s []) (hw : Walks E s cwd G)
    (hdir : E "dirlink") (hino : E "ialloc: no inodes") (hN : ninodes ≤ 2 ^ 16)
    {Q : Option Nat → Fs P → Prop}
    (hnone : (∀ d name dp, resolve s.node cwd true path = some (d, name) → s.node d = some dp →
      lookup name dp.ents ≠ none) → ∀ s', Holds s s' [] → Q none s')
    (hold : ∀ d name dp ip k n s', resolve s.node cwd true path = some (d, name) → s.node d = some dp →
      lookup name dp.ents = some (ip, k) → s.node ip = some n → kind = .file → n.kind ≠ .dir →
      Holds s s' [ip] → s'.valid ip = true → Q (some ip) s')
    (hnew : ∀ d name dp ip s', resolve s.node cwd true path = some (d, name) → s.node d = some dp →
      dp.kind = .dir → lookup name dp.ents = none → 0 < ip → ip < ninodes → s.node ip = none →
      Holds (s.make ip d dp name kind major minor) s' [d, ip] → s'.valid ip = true →
      Wp E (do iput d; pure (some ip)) Q s') :
    Wp E (create ninodes cwd path kind major minor) Q s := by
  refine .bind (hw.wp_namex (.refl s) hs true path fun s₁ h₁ => ?_)
  cases hr : resolve s.node cwd true path with
  | none =>
    rw [hr] at h₁
    exact hnone (fun d name dp h => nomatch hr.symm.trans h) s₁ h₁
  | some r =>
    obtain ⟨d, name⟩ := r
    rw [hr] at h₁
    obtain ⟨dp, hd, hk⟩ := resolveFrom_parent hr
    refine .bind (h₁.wp_ilock (hw.resolved hr) fun dp' s₂ hd' h₂ _ => ?_)
    cases hd.symm.trans hd'
    refine .bind (h₂.wp_access hd (scanned_le ..) fun s₂ h₂ _ => ?_)
    cases hl : lookup name dp.ents with
    | some r' =>
      obtain ⟨ip, k⟩ := r'
      refine .bind (h₂.wp_iget fun s₃ h₃ => .bind ?_)
      refine (h₃.perm (.swap d ip [])).wp_iput hs (nil_subset _) fun s₄ h₄ => .bind ?_
      refine h₄.wp_ilock (hw.entry hr hd hk hl) fun n s₅ hn h₅ hv => ?_
      split
      · next hfile =>
        refine hold d name dp ip k n s₅ hr hd hl hn hfile.1 ?_ h₅ hv
        rcases hfile.2 with h | h <;> rw [h] <;> decide
      refine .bind (h₅.wp_iput hs (nil_subset _) fun s₆ h₆ => hnone ?_ s₆ h₆)
      intro d' name' dp' hr' hd'
      cases hr.symm.trans hr'
      cases hd.symm.trans hd'
      rw [hl]
      exact nofun
    | none =>
      refine .bind (h₂.wp_ialloc hino fun ip s₃ hpos hlt hfree h₃ => .bind ?_)
      have hne : d ≠ ip := by
        rintro rfl
        cases hfree.symm.trans hd
      have hd₃ : (s.put ip { kind }).node d = some dp := by rw [Fs.put_node_ne _ _ hne, hd]
      refine h₃.wp_fill hdir (Fs.put_node_self ..) hd₃ hne hpos (by omega) fun s₄ h₄ hv₄ => .bind ?_
      rw [Fs.put_put] at h₄
      refine h₄.wp_dirlink (Fs.put_node_self ..) (fun h => absurd hl h) hdir (fun h => absurd hl h)
        fun _ s₅ h₅ hv₅ => ?_
      rw [Fs.put_put] at h₅
      refine hnew d name dp ip s₅ hr hd hk hl hpos hlt hfree (h₅.perm (.swap d ip [])) ?_
      rw [hv₅]
      exact hv₄

end Xv6.Tree
