import Xv6.Structures.Links
import Xv6.Tree.Calls

set_option autoImplicit false

/-! # Names and link counts

The names of an inode are the entries of directories for it, apart from `.` and `..`. `Graph` is
what the inodes on the disk keep between the calls: link counts are the numbers of names, a
directory has at most one name and is reached from the root by it, and a directory without a name is
empty. It is kept when a name is added (`Graph.adds`), when one is removed (`Graph.removes`), and
when an inode is allocated or freed. -/

namespace Xv6.Tree

open Files Function List Option Structures

variable {N : Nat} {node node' : Nat → Option Node} {i j ip d : Nat} {n m : Node}

/-- The inodes for which a directory has entries behind `.` and `..`. -/
def kids (n : Node) : List Nat :=
  if n.kind = .dir then ((n.ents.drop 2).map Dirent.inum).filter (· ≠ 0) else []

def children (node : Nat → Option Node) (d : Nat) : List Nat := (node d).elim [] kids

def isDir (node : Nat → Option Node) (i : Nat) : Bool := (node i).any fun n => n.kind = .dir

/-- The number of names of an inode. -/
def names (N : Nat) (node : Nat → Option Node) (i : Nat) : Nat := indegree N (children node) i

/-- The number of directories that a directory contains. -/
def subdirs (node : Nat → Option Node) (d : Nat) : Nat := (children node d).countP (isDir node)

/-- The root has a link without a name. -/
def rootLink (i : Nat) : Nat := if i = ROOTINO then 1 else 0

/-- A directory that has not been removed. -/
def LinkedDir (node : Nat → Option Node) (i : Nat) : Prop := ∃ n, node i = some n ∧ n.kind = .dir ∧ n.nlink ≠ 0

/-- Reached from the root directory through directories. -/
abbrev Reachable (node : Nat → Option Node) (i : Nat) : Prop := Reach ROOTINO (LinkedDir node) (children node) i

/-- The inodes on the disk between two calls. -/
structure Graph (N : Nat) (node : Nat → Option Node) : Prop where
  range : ∀ i n, node i = some n → 0 < i ∧ i < N
  root : isDir node ROOTINO = true
  child : ∀ d i, i ∈ children node d → ∃ n, node i = some n
  nlink : ∀ i n, node i = some n → n.nlink.toNat = names N node i + rootLink i + subdirs node i
  small : ∀ i n, node i = some n → n.nlink.toNat < 2 ^ 15
  once : ∀ i, isDir node i = true → names N node i + rootLink i ≤ 1
  empty : ∀ i n, node i = some n → n.nlink = 0 → kids n = []
  dots : ∀ i n, node i = some n → n.kind = .dir → ∃ e, n.ents.take 2 = [newEntry dot i, e] ∧ e.inum ≠ 0 ∧
    e.name = strncpy dotdot DIRSIZ ∧ (n.nlink ≠ 0 → i = ROOTINO ∧ e.inum = ROOTINO ∨ i ∈ children node e.inum)
  reach : ∀ i, LinkedDir node i → Reachable node i

/-! ## Reading the nodes -/

theorem children_of (hn : node i = some n) : children node i = kids n := by rw [children, hn]; rfl

theorem isDir_of (hn : node i = some n) : isDir node i = decide (n.kind = .dir) := by rw [isDir, hn]; rfl

theorem isDir_iff : isDir node i = true ↔ ∃ n, node i = some n ∧ n.kind = .dir := by
  unfold isDir
  cases hn : node i with
  | none => exact iff_of_false nofun fun ⟨n, h, _⟩ => nomatch h
  | some n =>
    exact ⟨fun h => ⟨n, rfl, of_decide_eq_true h⟩,
      fun ⟨m, h, hk⟩ => by cases h; exact decide_eq_true hk⟩

theorem subdirs_of_file (hn : node i = some n) (hk : n.kind ≠ .dir) : subdirs node i = 0 := by
  rw [subdirs, children_of hn, kids, if_neg hk]
  rfl

theorem exists_of_child (h : j ∈ children node d) : ∃ n, node d = some n ∧ n.kind = .dir ∧ j ∈ kids n := by
  unfold children at h
  cases hn : node d with
  | none =>
    rw [hn] at h
    exact absurd h not_mem_nil
  | some n =>
    rw [hn] at h
    refine ⟨n, rfl, ?_, h⟩
    by_contra hk
    change j ∈ kids n at h
    rw [kids, if_neg hk] at h
    exact not_mem_nil h

theorem toNat_ne_zero {x : BitVec 16} : x ≠ 0 ↔ 0 < x.toNat := by
  rw [ne_eq, ← BitVec.toNat_inj]
  exact Nat.pos_iff_ne_zero.symm

namespace Graph

theorem linkedDir_of_child (hg : Graph N node) (h : j ∈ children node d) : LinkedDir node d := by
  obtain ⟨n, hn, hk, hj⟩ := exists_of_child h
  refine ⟨n, hn, hk, fun h0 => ?_⟩
  rw [hg.empty d n hn h0] at hj
  exact not_mem_nil hj

theorem child_lt (hg : Graph N node) (h : j ∈ children node d) : d < N := by
  obtain ⟨n, hn, -⟩ := exists_of_child h
  exact (hg.range d n hn).2

theorem root_linked (hg : Graph N node) : LinkedDir node ROOTINO := by
  obtain ⟨r, hr, hkr⟩ := isDir_iff.1 hg.root
  refine ⟨r, hr, hkr, toNat_ne_zero.2 ?_⟩
  rw [hg.nlink _ r hr, rootLink, if_pos rfl]
  omega

theorem nlink_pos (hg : Graph N node) (h : j ∈ children node d) (hn : node j = some n) : 0 < n.nlink.toNat := by
  have hpos : 0 < names N node j := indegree_pos_of_mem (hg.child_lt h) h
  rw [hg.nlink j n hn]
  omega

end Graph

/-! ## Adding and removing a name -/

/-- In `node'` the directory `d` has one entry more, for `ip`. -/
structure Adds (node node' : Nat → Option Node) (ip d : Nat) : Prop where
  alloc : ∀ j, (node' j).isSome = (node j).isSome
  kind : ∀ j m m', node j = some m → node' j = some m' → m'.kind = m.kind
  dots : ∀ j m m', node j = some m → node' j = some m' → m'.ents.take 2 = m.ents.take 2
  nlink : ∀ j m m', node j = some m → node' j = some m' → m'.nlink.toNat =
    m.nlink.toNat + (if j = ip then 1 else 0) + if j = d ∧ isDir node ip = true then 1 else 0
  links : ∃ l, children node' = update (children node) d l ∧ l.Perm (ip :: children node d)

namespace Adds

section

variable (ha : Adds node node' ip d)
include ha

theorem back {m' : Node} (h : node' j = some m') : ∃ m, node j = some m := by
  rw [← isSome_iff_exists, ← ha.alloc, h]
  rfl

theorem forth (h : node j = some m) : ∃ m', node' j = some m' := by
  rw [← isSome_iff_exists, ha.alloc, h]
  rfl

theorem linkedDir (hj : LinkedDir node j) : LinkedDir node' j := by
  obtain ⟨m, hm, hk, h0⟩ := hj
  obtain ⟨m', hm'⟩ := ha.forth hm
  refine ⟨m', hm', by rw [ha.kind j m m' hm hm', hk], ?_⟩
  rw [toNat_ne_zero] at h0 ⊢
  rw [ha.nlink j m m' hm hm']
  omega

theorem isDir_eq : isDir node' = isDir node := by
  funext j
  cases hn : node j with
  | none =>
    have hnone : node' j = none := by
      rw [← not_isSome_iff_eq_none, ha.alloc, hn]
      exact nofun
    rw [isDir, isDir, hn, hnone]
  | some m =>
    obtain ⟨m', hm'⟩ := ha.forth hn
    rw [isDir_of hn, isDir_of hm', ha.kind j m m' hn hm']

theorem names_eq (hd : d < N) (i : Nat) : names N node' i = names N node i + if i = ip then 1 else 0 := by
  obtain ⟨l, hl, hperm⟩ := ha.links
  rw [names, hl]
  exact indegree_add hd hperm i

theorem mem_iff : i ∈ children node' j ↔ i ∈ children node j ∨ i = ip ∧ j = d := by
  obtain ⟨l, hl, hperm⟩ := ha.links
  rw [hl]
  by_cases hjd : j = d
  · subst hjd
    rw [update_self, hperm.mem_iff, mem_cons]
    simp only [and_true]
    exact or_comm
  · rw [update_of_ne hjd]
    simp only [hjd, and_false, or_false]

theorem subdirs_eq (j : Nat) :
    subdirs node' j = subdirs node j + if j = d ∧ isDir node ip = true then 1 else 0 := by
  obtain ⟨l, hl, hperm⟩ := ha.links
  rw [subdirs, subdirs, ha.isDir_eq, hl]
  by_cases hjd : j = d
  · subst hjd
    rw [update_self, hperm.countP_eq, countP_cons]
    simp only [true_and]
  · rw [update_of_ne hjd]
    simp only [hjd, false_and, if_false, Nat.add_zero]

end

end Adds

namespace Graph

/-- **A name is added**: for a file in any directory that has not been removed, for a directory its
    only one. -/
theorem adds (hg : Graph N node) (ha : Adds node node' ip d) (hip : node ip = some n) (hd : LinkedDir node d)
    (hsmall : ∀ j m', node' j = some m' → m'.nlink.toNat < 2 ^ 15)
    (hdir : n.kind = .dir → n.nlink = 0 ∧ ∀ e, n.ents.take 2 = [newEntry dot ip, e] → e.inum = d) :
    Graph N node' := by
  obtain ⟨dp, hdp, hkd, hd0⟩ := hd
  have hlt := (hg.range d dp hdp).2
  have hnames := ha.names_eq hlt
  -- only the link count of `ip` leaves 0
  have hback : ∀ j m m', node j = some m → node' j = some m' → j ≠ ip → m'.nlink ≠ 0 → m.nlink ≠ 0 := by
    intro j m m' hm hm' hjp h0
    by_cases hjd : j = d
    · subst hjd
      exact some.inj (hdp.symm.trans hm) ▸ hd0
    rw [toNat_ne_zero] at h0 ⊢
    rw [ha.nlink j m m' hm hm', if_neg hjp, if_neg fun h => hjd h.1] at h0
    exact h0
  have hreach : ∀ j, LinkedDir node j → Reachable node' j := by
    intro j hj
    exact (hg.reach j hj).mono (ha.linkedDir hj) (ha.linkedDir hg.root_linked)
      (fun d' i hi _ _ => ha.mem_iff.2 (.inl hi)) fun d' hd' _ => ha.linkedDir hd'
  refine ⟨fun j m' hm' => ?_, by rw [ha.isDir_eq]; exact hg.root, fun d' j hj => ?_, fun j m' hm' => ?_, hsmall,
    fun j hj => ?_, fun j m' hm' h0 => ?_, fun j m' hm' hk => ?_, fun j hj => ?_⟩
  · obtain ⟨m, hm⟩ := ha.back hm'
    exact hg.range j m hm
  · rcases ha.mem_iff.1 hj with h | ⟨rfl, rfl⟩
    · obtain ⟨m, hm⟩ := hg.child d' j h
      exact ha.forth hm
    · exact ha.forth hip
  · obtain ⟨m, hm⟩ := ha.back hm'
    rw [ha.nlink j m m' hm hm', hg.nlink j m hm, hnames, ha.subdirs_eq]
    omega
  · rw [ha.isDir_eq] at hj
    rw [hnames]
    have hold := hg.once j hj
    by_cases hjp : j = ip
    · subst hjp
      obtain ⟨m, hm, hk⟩ := isDir_iff.1 hj
      cases hip.symm.trans hm
      have h0 := hg.nlink j n hip
      rw [(hdir hk).1] at h0
      change 0 = _ at h0
      rw [if_pos rfl]
      omega
    · rw [if_neg hjp]
      omega
  · obtain ⟨m, hm⟩ := ha.back hm'
    have h0' : m'.nlink.toNat = 0 := by rw [h0]; rfl
    rw [ha.nlink j m m' hm hm'] at h0'
    have hjp : j ≠ ip := fun h => by rw [if_pos h] at h0'; omega
    have hm0 : m.nlink = 0 := by
      rw [← BitVec.toNat_inj]
      change m.nlink.toNat = 0
      omega
    have hjd : j ≠ d := by
      rintro rfl
      exact hd0 (some.inj (hdp.symm.trans hm) ▸ hm0)
    have hkids := hg.empty j m hm hm0
    rw [← children_of hm']
    rw [← children_of hm] at hkids
    obtain ⟨l, hl, -⟩ := ha.links
    rw [hl, update_of_ne hjd]
    exact hkids
  · obtain ⟨m, hm⟩ := ha.back hm'
    rw [ha.kind j m m' hm hm'] at hk
    obtain ⟨e, htake, he0, hname, hup⟩ := hg.dots j m hm hk
    refine ⟨e, by rw [ha.dots j m m' hm hm', htake], he0, hname, fun h0 => ?_⟩
    by_cases hjp : j = ip
    · subst hjp
      cases hip.symm.trans hm
      right
      rw [(hdir hk).2 e htake]
      exact ha.mem_iff.2 (.inr ⟨rfl, rfl⟩)
    · exact (hup (hback j m m' hm hm' hjp h0)).imp_right fun h => ha.mem_iff.2 (.inl h)
  · by_cases hjp : j = ip
    · subst hjp
      exact .link (hreach d ⟨dp, hdp, hkd, hd0⟩) (ha.mem_iff.2 (.inr ⟨rfl, rfl⟩)) hj
    obtain ⟨m', hm', hk, h0⟩ := hj
    obtain ⟨m, hm⟩ := ha.back hm'
    exact hreach j ⟨m, hm, by rw [← ha.kind j m m' hm hm', hk], hback j m m' hm hm' hjp h0⟩

theorem named (hg : Graph N node) (h : LinkedDir node j) : 1 ≤ names N node j + rootLink j := by
  cases hg.reach j h with
  | root =>
    rw [rootLink, if_pos rfl]
    omega
  | link _ hmem _ =>
    have : 0 < names N node j := indegree_pos_of_mem (hg.child_lt hmem) hmem
    omega

section

variable (hg : Graph N node') (ha : Adds node node' ip d)

include hg ha

theorem removes_lt : d < N := hg.child_lt (ha.mem_iff.2 (.inr ⟨rfl, rfl⟩))

theorem removes_nlink (hm : node j = some m) :
    m.nlink.toNat = names N node j + rootLink j + subdirs node j := by
  obtain ⟨m', hm'⟩ := ha.forth hm
  have h := hg.nlink j m' hm'
  rw [ha.nlink j m m' hm hm', ha.names_eq (hg.removes_lt ha), ha.subdirs_eq] at h
  omega

theorem removes_linkedDir (hj : LinkedDir node' j) (hne : j ≠ ip) : LinkedDir node j := by
  have hnamed := hg.named hj
  obtain ⟨m', hm', hk, h0⟩ := hj
  obtain ⟨m, hm⟩ := ha.back hm'
  refine ⟨m, hm, by rw [← ha.kind j m m' hm hm', hk], ?_⟩
  rw [ha.names_eq (hg.removes_lt ha), if_neg hne] at hnamed
  rw [toNat_ne_zero, hg.removes_nlink ha hm]
  omega

end

/-- **A name is removed**: that of a file, or that of an empty directory. -/
theorem removes (hg : Graph N node') (ha : Adds node node' ip d)
    (hdir : isDir node ip = true → children node' ip = []) :
    Graph N node := by
  have hnames := ha.names_eq (hg.removes_lt ha)
  have hnlink : ∀ j m, node j = some m → m.nlink.toNat = names N node j + rootLink j + subdirs node j :=
    fun j m hm => hg.removes_nlink ha hm
  have hsub : ∀ {i j}, i ∈ children node j → i ∈ children node' j := fun h => ha.mem_iff.2 (.inl h)
  -- the removed inode, if it is a directory, has no link left
  have hgone : ¬ LinkedDir node ip := by
    rintro ⟨m, hm, hk, h0⟩
    have hisdir : isDir node ip = true := isDir_iff.2 ⟨m, hm, hk⟩
    have honce := hg.once ip (by rw [ha.isDir_eq]; exact hisdir)
    rw [hnames, if_pos rfl] at honce
    have hnone : subdirs node ip = 0 := by
      have := ha.subdirs_eq ip
      rw [subdirs, hdir hisdir, countP_nil] at this
      omega
    rw [toNat_ne_zero, hnlink ip m hm] at h0
    omega
  have hstay : ∀ j, LinkedDir node' j → j ≠ ip → LinkedDir node j := fun j => hg.removes_linkedDir ha
  refine ⟨fun j m hm => ?_, by rw [← ha.isDir_eq]; exact hg.root, fun d' j hj => ?_, hnlink, fun j m hm => ?_,
    fun j hj => ?_, fun j m hm h0 => ?_, fun j m hm hk => ?_, fun j hj => ?_⟩
  · obtain ⟨m', hm'⟩ := ha.forth hm
    exact hg.range j m' hm'
  · obtain ⟨m', hm'⟩ := hg.child d' j (hsub hj)
    exact ha.back hm'
  · obtain ⟨m', hm'⟩ := ha.forth hm
    have hle := hg.small j m' hm'
    rw [ha.nlink j m m' hm hm'] at hle
    omega
  · have h := hg.once j (by rw [ha.isDir_eq]; exact hj)
    rw [hnames] at h
    omega
  · -- an entry would make it a directory with a name
    rw [← children_of hm]
    refine List.eq_nil_iff_forall_not_mem.2 fun x hx => ?_
    obtain ⟨m₁, hm₁, hk, -⟩ := exists_of_child hx
    have hjp : j = ip := by
      by_contra hjp
      obtain ⟨m₂, hm₂, -, h0'⟩ := hstay j (hg.linkedDir_of_child (hsub hx)) hjp
      exact h0' (some.inj (hm.symm.trans hm₂) ▸ h0)
    subst hjp
    have hnil := hdir (isDir_iff.2 ⟨m₁, hm₁, hk⟩)
    exact not_mem_nil (hnil ▸ hsub hx)
  · obtain ⟨m', hm'⟩ := ha.forth hm
    obtain ⟨e, htake, he0, hname, hup⟩ := hg.dots j m' hm' (by rw [ha.kind j m m' hm hm', hk])
    refine ⟨e, by rw [← ha.dots j m m' hm hm', htake], he0, hname, fun h0 => ?_⟩
    have hj : LinkedDir node j := ⟨m, hm, hk, h0⟩
    obtain ⟨m₂, hm₂, -, h0'⟩ := ha.linkedDir hj
    cases hm'.symm.trans hm₂
    refine (hup h0').imp_right fun hmem => (ha.mem_iff.1 hmem).elim id fun ⟨hjp, _⟩ => ?_
    exact absurd (hjp ▸ hj) hgone
  · refine (hg.reach j (ha.linkedDir hj)).mono hj ?_ (fun d' i hi _ hi' => ?_) fun d' hd' hne => hstay d' hd' ?_
    · refine hstay _ hg.root_linked fun hroot => ?_
      have honce := hg.once ROOTINO hg.root
      rw [hnames, if_pos hroot, rootLink, if_pos rfl] at honce
      omega
    · refine (ha.mem_iff.1 hi).elim id fun ⟨hip, _⟩ => ?_
      exact absurd (hip ▸ hi') hgone
    · rintro rfl
      obtain ⟨m₁, hm₁, hk, -⟩ := hd'
      exact hne (hdir (by rw [← ha.isDir_eq]; exact isDir_iff.2 ⟨m₁, hm₁, hk⟩))

/-! ## Inodes without names -/

/-- The inode `ip` is not linked in `node` and not in `node'`, and there is no other difference. -/
structure Differs (node node' : Nat → Option Node) (ip : Nat) : Prop where
  same : ∀ j, j ≠ ip → node' j = node j
  kids : children node ip = []
  kids' : children node' ip = []
  unlinked : ∀ n, node ip = some n → n.nlink = 0
  unlinked' : ∀ n, node' ip = some n → n.nlink = 0
  alone : ∀ d, ip ∉ children node d

section

variable (hd : Differs node node' ip)
include hd

theorem Differs.children_eq : children node' = children node := by
  funext j
  by_cases hj : j = ip
  · rw [hj, hd.kids, hd.kids']
  · rw [children, children, hd.same j hj]

theorem Differs.isDir_eq (hj : j ≠ ip) : isDir node' j = isDir node j := by
  rw [isDir, isDir, hd.same j hj]

theorem Differs.subdirs_eq (j : Nat) : subdirs node' j = subdirs node j := by
  rw [subdirs, subdirs, hd.children_eq]
  refine countP_congr fun x hx => ?_
  rw [hd.isDir_eq]
  rintro rfl
  exact hd.alone j hx

theorem Differs.linkedDir_iff : LinkedDir node' = LinkedDir node := by
  funext j
  by_cases hj : j = ip
  · subst hj
    exact propext (iff_of_false (fun ⟨n, hn, _, h0⟩ => h0 (hd.unlinked' n hn)) fun ⟨n, hn, _,
      h0⟩ => h0 (hd.unlinked n hn))
  · unfold LinkedDir
    rw [hd.same j hj]

theorem Differs.names_zero : names N node ip = 0 := by
  by_contra h
  obtain ⟨d, -, hmem⟩ := exists_of_indegree_pos (Nat.pos_of_ne_zero h)
  exact hd.alone d hmem

end

theorem differs (hg : Graph N node) (hd : Differs node node' ip)
    (hrange : ∀ n, node' ip = some n → 0 < ip ∧ ip < N)
    (hdots : ∀ n, node' ip = some n → n.kind = .dir → ∃ e, n.ents.take 2 = [newEntry dot ip, e] ∧ e.inum ≠ 0 ∧
      e.name = strncpy dotdot DIRSIZ) : Graph N node' := by
  have hne : ip ≠ ROOTINO := by
    rintro rfl
    obtain ⟨n, hn, -, h0⟩ := hg.root_linked
    exact h0 (hd.unlinked n hn)
  have hnames : names N node' = names N node := by
    unfold names
    rw [hd.children_eq]
  have hzero : names N node ip + rootLink ip = 0 := by
    rw [hd.names_zero, rootLink, if_neg hne]
  refine ⟨fun j n hn => ?_, by rw [hd.isDir_eq hne.symm]; exact hg.root, fun d j hj => ?_, fun j n hn => ?_,
    fun j n hn => ?_, fun j hj => ?_, fun j n hn h0 => ?_, fun j n hn hk => ?_, fun j hj => ?_⟩
  · by_cases hj : j = ip
    · subst hj
      exact hrange n hn
    · exact hg.range j n (hd.same j hj ▸ hn)
  · rw [hd.children_eq] at hj
    have hjp : j ≠ ip := by
      rintro rfl
      exact hd.alone d hj
    rw [hd.same j hjp]
    exact hg.child d j hj
  · rw [hnames, hd.subdirs_eq]
    by_cases hj : j = ip
    · subst hj
      rw [hd.unlinked' n hn, hzero, subdirs, hd.kids]
      rfl
    · exact hg.nlink j n (hd.same j hj ▸ hn)
  · by_cases hj : j = ip
    · subst hj
      rw [hd.unlinked' n hn]
      decide
    · exact hg.small j n (hd.same j hj ▸ hn)
  · rw [hnames]
    by_cases hjp : j = ip
    · subst hjp
      omega
    · exact hg.once j (by rw [← hd.isDir_eq hjp]; exact hj)
  · by_cases hj : j = ip
    · subst hj
      rw [← children_of hn, hd.kids']
    · exact hg.empty j n (hd.same j hj ▸ hn) h0
  · rw [hd.children_eq]
    by_cases hj : j = ip
    · subst hj
      obtain ⟨e, he⟩ := hdots n hn hk
      exact ⟨e, he.1, he.2.1, he.2.2, fun h0 => absurd (hd.unlinked' n hn) h0⟩
    · exact hg.dots j n (hd.same j hj ▸ hn) hk
  · rw [Reachable, hd.linkedDir_iff, hd.children_eq]
    rw [hd.linkedDir_iff] at hj
    exact hg.reach j hj

theorem alloc (hg : Graph N node) (hfree : node ip = none) (hpos : 0 < ip) (hlt : ip < N) (h0 : n.nlink = 0)
    (hkids : kids n = [])
    (hdots : n.kind = .dir → ∃ e, n.ents.take 2 = [newEntry dot ip, e] ∧ e.inum ≠ 0 ∧
      e.name = strncpy dotdot DIRSIZ) : Graph N (update node ip (some n)) := by
  have hself : update node ip (some n) ip = some n := update_self ..
  refine hg.differs ⟨fun j hj => update_of_ne hj .., ?_, ?_, ?_, ?_, ?_⟩ (fun _ _ => ⟨hpos, hlt⟩) ?_
  · rw [children, hfree]
    rfl
  · rw [children_of hself, hkids]
  · exact fun m hm => nomatch hfree.symm.trans hm
  · exact fun m hm => some.inj (hself.symm.trans hm) ▸ h0
  · intro d hd
    obtain ⟨m, hm⟩ := hg.child d ip hd
    cases hfree.symm.trans hm
  · exact fun m hm => some.inj (hself.symm.trans hm) ▸ hdots

theorem free (hg : Graph N node) (hn : node ip = some n) (h0 : n.nlink = 0) :
    Graph N (update node ip none) := by
  have hself : update node ip none ip = none := update_self ..
  refine hg.differs ⟨fun j hj => update_of_ne hj .., ?_, ?_, ?_, ?_, ?_⟩ ?_ ?_
  · rw [children_of hn, hg.empty ip n hn h0]
  · rw [children, hself]
    rfl
  · exact fun m hm => some.inj (hn.symm.trans hm) ▸ h0
  · exact fun m hm => nomatch hself.symm.trans hm
  · intro d hd
    have := hg.nlink_pos hd hn
    rw [h0] at this
    exact absurd this (by decide)
  · exact fun m hm => nomatch hself.symm.trans hm
  · exact fun m hm => nomatch hself.symm.trans hm

/-- The node with other entries or another content, but the same names. -/
structure Same (n n' : Node) : Prop where
  kind : n'.kind = n.kind
  nlink : n'.nlink = n.nlink
  kids : kids n' = kids n
  dots : n'.ents.take 2 = n.ents.take 2

theorem Same.refl (n : Node) : Same n n := ⟨rfl, rfl, rfl, rfl⟩

section

variable {n' : Node}

theorem replace_back (hn : node ip = some n) (hs : Same n n') (hm : update node ip (some n') j = some m) :
    ∃ m₀, node j = some m₀ ∧ Same m₀ m := by
  by_cases hj : j = ip
  · subst hj
    rw [update_self] at hm
    cases hm
    exact ⟨n, hn, hs⟩
  · rw [update_of_ne hj] at hm
    exact ⟨m, hm, .refl m⟩

theorem replace_forth (hm : node j = some m) : ∃ m', update node ip (some n') j = some m' := by
  by_cases hj : j = ip
  · exact ⟨n', by rw [hj, update_self]⟩
  · exact ⟨m, by rw [update_of_ne hj]; exact hm⟩

theorem replace_linkedDir (hn : node ip = some n) (hs : Same n n') :
    LinkedDir (update node ip (some n')) = LinkedDir node := by
  funext j
  unfold LinkedDir
  by_cases hj : j = ip
  · subst hj
    rw [update_self, hn]
    simp only [some.injEq, exists_eq_left', hs.kind, hs.nlink]
  · rw [update_of_ne hj]

theorem replace (hg : Graph N node) (hn : node ip = some n) (hs : Same n n') :
    Graph N (update node ip (some n')) := by
  have hch : children (update node ip (some n')) = children node := by
    funext j
    by_cases hj : j = ip
    · subst hj
      rw [children_of hn, children_of (update_self ..), hs.kids]
    · rw [children, children, update_of_ne hj]
  have hisDir : isDir (update node ip (some n')) = isDir node := by
    funext j
    by_cases hj : j = ip
    · subst hj
      rw [isDir_of hn, isDir_of (update_self ..), hs.kind]
    · rw [isDir, isDir, update_of_ne hj]
  refine ⟨fun j m hm => ?_, by rw [hisDir]; exact hg.root, fun d j hj => ?_, fun j m hm => ?_, fun j m hm => ?_,
    fun j hj => ?_, fun j m hm h0 => ?_, fun j m hm hk => ?_, fun j hj => ?_⟩
  · obtain ⟨m₀, hm₀, -⟩ := replace_back hn hs hm
    exact hg.range j m₀ hm₀
  · rw [hch] at hj
    obtain ⟨m, hm⟩ := hg.child d j hj
    exact replace_forth hm
  · obtain ⟨m₀, hm₀, hsm⟩ := replace_back hn hs hm
    rw [names, subdirs, hch, hisDir, hsm.nlink]
    exact hg.nlink j m₀ hm₀
  · obtain ⟨m₀, hm₀, hsm⟩ := replace_back hn hs hm
    rw [hsm.nlink]
    exact hg.small j m₀ hm₀
  · rw [names, hch]
    exact hg.once j (hisDir ▸ hj)
  · obtain ⟨m₀, hm₀, hsm⟩ := replace_back hn hs hm
    rw [hsm.kids]
    exact hg.empty j m₀ hm₀ (hsm.nlink ▸ h0)
  · obtain ⟨m₀, hm₀, hsm⟩ := replace_back hn hs hm
    rw [hsm.dots, hsm.nlink, hch]
    exact hg.dots j m₀ hm₀ (hsm.kind ▸ hk)
  · rw [Reachable, replace_linkedDir hn hs, hch]
    rw [replace_linkedDir hn hs] at hj
    exact hg.reach j hj

end

end Graph

end Xv6.Tree
