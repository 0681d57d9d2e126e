import Xv6.Structures.Runs
import Xv6.Tree.Linked

set_option autoImplicit false

/-! # Every call keeps the links

The calls of `Xv6.Tree.Calls` from a state in which links and references are right. Two things are
asked of a call: that the directory for a new name has not been removed (`Lands`), and that the link
count to be raised is not the largest that the field holds (`Room`). They are asked before the call
and of calls that fail too. -/

namespace Xv6.Tree

open Files Function List Option Structures

variable {P : Type} [Fintype P] [DecidableEq P] {E : String → Prop} {N : Nat} {s s' : Fs P}
    {i : Nat} {l : List Nat}
  {p : P} {cwd : Nat} {G : Nat → Prop}

/-! ## Conditions -/

/-- What is asked of the inode at the end of a path. -/
def meets (node : Nat → Option Node) (r : Option (Nat × List Byte)) (q : Node → Bool) : Bool :=
  r.all fun r => (node r.1).all q

variable {d : Nat} {dp : Node} {name path : List Byte}

theorem meets_of {node : Nat → Option Node} {r : Option (Nat × List Byte)} {q : Node → Bool}
    (h : meets node r q = true) (hr : r = some (d, name))
    (hd : node d = some dp) : q dp = true := by
  subst hr
  unfold meets at h
  rw [all_some, hd, all_some] at h
  exact h

/-- The link count that the call raises, if it succeeds, is below the largest. -/
def Room (s : Fs P) (cwd : Nat) : Req P → Bool
  | .mkdir path => meets s.node (resolve s.node cwd true path) fun dp => dp.nlink ≠ 0x7fff
  | .link old _ => meets s.node (resolve s.node cwd false old) fun n => n.nlink ≠ 0x7fff
  | _ => true

/-- The directory into which the call may put a name. -/
def target : Req P → Option (List Byte)
  | .open_ path m => if m.create then some path else none
  | .mkdir path => some path
  | .mknod path _ _ => some path
  | .link _ new => some new
  | _ => none

/-- It has not been removed. The call may be one that fails, such as `mkdir(".")`. -/
def Lands (s : Fs P) (cwd : Nat) (req : Req P) : Bool :=
  (target req).all fun path => meets s.node (resolve s.node cwd true path) fun dp => dp.nlink ≠ 0

/-- `unlink` is given no name of the current directory of a process, also where it would fail: `.`,
    or a directory that is not empty. -/
def Away (s : Fs P) (cwd : Nat) : Req P → Bool
  | .unlink path =>
    (resolve s.node cwd true path).all fun r => (s.node r.1).all fun dp =>
      (lookup r.2 dp.ents).all fun e => decide (∀ q, s.cwd q ≠ some e.1)
  | _ => true

omit [Fintype P] [DecidableEq P] in
theorem Lands.parent {req : Req P} (h : Lands s cwd req = true) (ht : target req = some path)
    (hr : resolve s.node cwd true path = some (d, name))
    (hd : s.node d = some dp) : dp.nlink ≠ 0 := by
  unfold Lands at h
  rw [ht, all_some] at h
  exact of_decide_eq_true (meets_of h hr hd)

/-- The panics that the calls may end in. -/
structure Panics (E : String → Prop) : Prop where
  dirlink : E "dirlink"
  ialloc : E "ialloc: no inodes"
  fileclose : E "fileclose"
  filedup : E "filedup"

/-- Every current directory has a link. -/
def Home (s : Fs P) : Prop := ∀ q i, s.cwd q = some i → LinkedDir s.node i

/-- What every call keeps, the second part unless it removes a current directory. -/
structure Done (N : Nat) (s s' : Fs P) (away : Prop) : Prop where
  ok : Ok N s' []
  home : Home s → away → Home s'

omit [DecidableEq P] in
theorem Keeps.done (h : Keeps N s s' []) (away : Prop) : Done N s s' away :=
  ⟨h.ok, fun hhome _ q i hq => h.linked i (hhome q i (h.cwd ▸ hq))⟩

omit [DecidableEq P] in
theorem Keeps.andThen {t : Fs P} (h : Keeps N s t []) (h' : Done N t s' True) (away : Prop) :
    Done N s s' away :=
  ⟨h'.ok, fun hhome _ => h'.home (fun q i hq => h.linked i (hhome q i (h.cwd ▸ hq))) trivial⟩

/-! ## Names are made -/

section

variable (h : Ok N s []) (hw : Walks E s cwd G)

include h hw

variable {path : List Byte}

theorem Ok.wp_sysOpen (hN : N ≤ 2 ^ 16) (hE : Panics E) {m : Mode}
    (hl : Lands s cwd (.open_ path m : Req P) = true) :
    Wp E (sysOpen N p cwd path m) (fun _ s' => Keeps N s s' []) s := by
  refine Tree.wp_sysOpen (h.toSafe []) hw hE.dirlink hE.ialloc hN ?_ ?_ ?_
  · intro _ s₁ h₁
    exact h.keeps h₁
  · intro ip n f fd s₁ hn hf _ h₁ _
    exact h.opened hn hf h₁
  intro d name dp ip s₁ hc hr hd hk _ hpos hlt hfree h₁ _
  have hd0 := Lands.parent hl (if_pos hc) hr hd
  have hroom : Kind.file = .dir → dp.nlink ≠ 0x7fff := nofun
  have hmade := h.made hN hd hk hd0 hfree hpos hlt hroom name 0 0
  have hne : ip ≠ d := by
    rintro rfl
    cases hfree.symm.trans hd
  have hip : (s.make ip d dp name .file 0 0).node ip = some (newNode ip d .file 0 0) := by
    rw [Fs.make, Fs.put_node_ne _ _ hne, Fs.put_node_self]
  refine .bind (h₁.wp_iput (hmade.ok.toSafe []) (nil_subset _) fun s₂ h₂ => ?_)
  exact h₂.wp_openNode (hmade.ok.toSafe []) hip (fun _ s₃ h₃ => hmade.trans (hmade.ok.keeps h₃))
    fun f fd s₃ hf _ h₃ _ => hmade.trans (hmade.ok.opened hip hf h₃)

omit [DecidableEq P] in
theorem Ok.wp_sysMake (hN : N ≤ 2 ^ 16) (hE : Panics E) {kind : Kind} (hkind : kind ≠ .file)
    {major minor : BitVec 16}
    (hl : meets s.node (resolve s.node cwd true path) (fun dp => dp.nlink ≠ 0) = true)
    (hroom : kind = .dir → meets s.node (resolve s.node cwd true path) (fun dp => dp.nlink ≠ 0x7fff) = true) :
    Wp E (sysMake N cwd path kind major minor) (fun _ s' => Keeps N s s' []) s := by
  refine Tree.wp_sysMake (h.toSafe []) hw hE.dirlink hE.ialloc hN hkind (fun s₁ h₁ => h.keeps h₁) ?_
  intro d name dp ip s₁ hr hd hk _ hpos hlt hfree h₁ _
  have hmade := h.made hN hd hk (of_decide_eq_true (meets_of hl hr hd)) hfree hpos hlt
    (fun hkd => of_decide_eq_true (meets_of (hroom hkd) hr hd)) name major minor
  refine .bind (h₁.wp_iput (hmade.ok.toSafe []) (nil_subset _) fun s₂ h₂ => .bind ?_)
  exact h₂.wp_iput (hmade.ok.toSafe []) (nil_subset _) fun s₃ h₃ => hmade.trans (hmade.ok.keeps h₃)

omit [DecidableEq P] in
theorem Ok.wp_sysLink (hN : N ≤ 2 ^ 16) (hE : Panics E) {old new : List Byte}
    (hl : Lands s cwd (.link old new : Req P) = true) (hroom : Room s cwd (.link old new : Req P) = true) :
    Wp E (sysLink cwd old new) (fun _ s' => Keeps N s s' []) s := by
  refine Tree.wp_sysLink (h.toSafe []) hw hE.dirlink (fun s₁ h₁ => h.keeps h₁) ?_
  intro ip nm n d name dp s₁ hro hn hfile hr hd hk _ h₁
  have hmade := h.relinked hN hd hk (Lands.parent hl rfl hr hd) hn hfile
    (of_decide_eq_true (meets_of hroom hro hn)) name
  refine .bind (h₁.wp_iput (hmade.ok.toSafe []) (nil_subset _) fun s₂ h₂ => .bind ?_)
  exact h₂.wp_iput (hmade.ok.toSafe []) (nil_subset _) fun s₃ h₃ => hmade.trans (hmade.ok.keeps h₃)

/-! ## A name is removed -/

omit [DecidableEq P] hw in
theorem Ok.child {d ip k : Nat} {dp : Node} {name : List Byte} (hN : N ≤ 2 ^ 16) (hd : s.node d = some dp)
    (hk : dp.kind = .dir) (h₀ : namecmp name dot ≠ 0) (h₁ : namecmp name dotdot ≠ 0)
    (hl : lookup name dp.ents = some (ip, k)) : ip ∈ children s.node d := by
  rw [children_of hd, (kids_clear (h.graph.hasDots hN hd hk) h₀ h₁ hl).1.mem_iff]
  exact mem_cons_self

omit [DecidableEq P] in
theorem Ok.wp_sysUnlink (hN : N ≤ 2 ^ 16) :
    Wp E (sysUnlink cwd path) (fun _ s' => Done N s s' (Away s cwd (.unlink path : Req P) = true)) s := by
  refine Tree.wp_sysUnlink (h.toSafe []) hw ?_ (fun s₁ h₁ => (h.keeps h₁).done _) ?_
  · -- a child has a link, and its count is not negative
    intro d name dp ip k n _ hd hk h₀ h₁ hl hn hlt
    have hpos := h.graph.nlink_pos (h.child hN hd hk h₀ h₁ hl) hn
    have hsmall := h.graph.small ip n hn
    rw [BitVec.toInt_eq_toNat_of_lt (by omega)] at hlt
    omega
  intro d name dp ip k n s₁ hr hd hk h₀ h₁ hl hn _ hempty hh₁ hv₁
  have hmem := h.child hN hd hk h₀ h₁ hl
  have hf := h.graph.unlink hN hd hk h₀ h₁ hl hn hempty
  have hne : d ≠ ip := by
    rintro rfl
    cases hn.symm.trans hd
    rw [children_of hd, kids_of_empty hempty] at hmem
    exact not_mem_nil hmem
  -- the directory keeps a link
  have hd0 : (if n.kind = .dir then dp.nlink - 1 else dp.nlink) ≠ 0 := by
    obtain ⟨dp', hdp', -, h0⟩ := hf.linked d (h.graph.linkedDir_of_child hmem) fun hc => hne (some.inj hc).symm
    rw [update_of_ne hne, update_self] at hdp'
    cases hdp'
    exact h0
  have hsafe : Safe (s.put d { dp with
      ents := dp.ents.set k Dirent.zero
      nlink := if n.kind = .dir then dp.nlink - 1 else dp.nlink }) [] := by
    refine ⟨fun j m hm hm0 _ => ?_, h.closed⟩
    by_cases hjd : j = d
    · subst hjd
      rw [Fs.put_node_self] at hm
      cases hm
      exact absurd hm0 hd0
    · rw [Fs.put_node_ne _ _ hjd] at hm
      exact h.safe j m hm hm0
  have hip : (s.put d { dp with
      ents := dp.ents.set k Dirent.zero
      nlink := if n.kind = .dir then dp.nlink - 1 else dp.nlink }).node ip = some n := by
    rw [Fs.put_node_ne _ _ (Ne.symm hne), hn]
  refine .bind (hh₁.wp_iput_valid hsafe (nil_subset _) fun s₂ h₂ hv₂ => .bind (h₂.wp_fields hip (.bind ?_)))
  refine h₂.wp_setNode_same hip rfl fun s₃ h₃ hv₃ => .bind ?_
  -- the last reference to the inode is the call's, if there is no other
  have hok₃ : Ok N s₃ [ip] := by
    have href : ∀ j, s₃.ref j = s.ref j + [ip].count j := h₃.ref
    refine ⟨by rw [h₃.node]; exact hf.graph, fun j => ?_, fun j hj => ?_, fun j m hm hm0 => ?_, ?_⟩
    · have hj := h.ref j
      have hsame : held s₃ j = held s j := held_congr h₃.cwd h₃.ftable j
      rw [count_nil] at hj
      rw [href, hsame, hj, Nat.add_zero]
    · rw [h₃.node]
      by_cases hji : j = ip
      · subst hji
        exact Fs.put_put_forth hn
      rw [href, List.count_eq_zero.2 fun hmem => hji (mem_singleton.1 hmem)] at hj
      obtain ⟨m, hm⟩ := h.alloc j hj
      exact Fs.put_put_forth hm
    · rw [h₃.node] at hm
      rcases Fs.put_put_back hm with ⟨rfl, rfl⟩ | ⟨rfl, rfl⟩ | hold
      · refine ⟨?_, by rw [hv₃, hv₂]; exact hv₁⟩
        rw [href, count_singleton_self]
        omega
      · exact absurd hm0 hd0
      · obtain ⟨hpos, hv⟩ := h.safe j m hold hm0
        refine ⟨?_, h₃.valid j hpos hv⟩
        rw [href]
        omega
    · rw [h₃.ftable]
      exact h.closed
  change Done N s (s₃.drop ip) _
  refine ⟨hok₃.drop, fun hhome haway q j hq => ?_⟩
  have hq' : s.cwd q = some j := by
    rw [Fs.drop_cwd, h₃.cwd] at hq
    exact hq
  have hji : j ≠ ip := by
    rintro rfl
    simp only [Away, hr, all_some, hd, hl, decide_eq_true_eq] at haway
    exact haway q hq'
  refine Fs.drop_linkedDir _ _ ?_
  rw [h₃.node]
  exact hf.linked j (hhome q j hq') fun hc => hji (some.inj hc).symm

end

/-! ## Current directories -/

/-- An inode with a link. -/
def Linked (node : Nat → Option Node) (i : Nat) : Prop := ∃ n, node i = some n ∧ n.nlink ≠ 0

omit [Fintype P] [DecidableEq P] in
theorem Graph.closed (hg : Graph N s.node) (hN : N ≤ 2 ^ 16) : Closed s (Linked s.node) := by
  rintro i ⟨n, hn, h0⟩
  refine ⟨n, hn, fun hk e he hne => ?_⟩
  obtain ⟨e₁, htake, -, -, hup⟩ := hg.dots i n hn hk
  obtain ⟨rest, hents⟩ := take_two htake
  have hi := hg.range i n hn
  rw [hents, mem_cons, mem_cons] at he
  rcases he with rfl | rfl | he
  · have hinum : (newEntry dot i).inum = i := Nat.mod_eq_of_lt (by omega)
    rw [hinum]
    exact ⟨n, hn, h0⟩
  · rcases hup h0 with ⟨-, hroot⟩ | hmem
    · obtain ⟨r, hr, -, hr0⟩ := hg.root_linked
      rw [hroot]
      exact ⟨r, hr, hr0⟩
    · obtain ⟨m, hm, -, hm0⟩ := hg.linkedDir_of_child hmem
      exact ⟨m, hm, hm0⟩
  have hmem : e.inum ∈ children s.node i := by
    rw [children_of hn, kids, if_pos hk, hents]
    exact mem_filter.2 ⟨mem_map_of_mem he, decide_eq_true hne⟩
  obtain ⟨m, hm⟩ := hg.child i _ hmem
  exact ⟨m, hm, toNat_ne_zero.2 (hg.nlink_pos hmem hm)⟩

omit [DecidableEq P] in
theorem Ok.walks (h : Ok N s []) (hN : N ≤ 2 ^ 16) (hhome : Home s) (hcwd : s.cwd p = some cwd) :
    Closed s (Linked s.node) ∧ Linked s.node ROOTINO ∧ Linked s.node cwd := by
  obtain ⟨r, hr, -, hr0⟩ := h.graph.root_linked
  obtain ⟨n, hn, -, hn0⟩ := hhome p cwd hcwd
  exact ⟨h.graph.closed hN, ⟨r, hr, hr0⟩, ⟨n, hn, hn0⟩⟩

theorem Ok.wp_sysChdir (h : Ok N s []) (hw : Walks E s cwd G) (hN : N ≤ 2 ^ 16) (hcwd : s.cwd p = some cwd)
    (away : Prop) : Wp E (sysChdir p cwd path) (fun _ s' => Done N s s' away) s := by
  refine Tree.wp_sysChdir (h.toSafe []) hw (fun s₁ h₁ => (h.keeps h₁).done _) ?_
  intro ip nm n s₁ hr hn hk h₁ _
  have hok₁ : Ok N s₁ [ip] := h.holds h₁ fun j hj => ⟨n, by rw [mem_singleton.1 hj]; exact hn⟩
  have hcwd₁ : s₁.cwd p = some cwd := by rw [h₁.cwd, hcwd]
  obtain ⟨t, ht, htcwd, hfinal, hlinked⟩ := hok₁.swap hcwd₁ (some ip)
  change Done N s { s₁.drop cwd with cwd := update (s₁.drop cwd).cwd p (some ip) } away
  rw [Fs.drop_cwd, hfinal]
  refine ⟨ht.enter (by rw [htcwd, update_self]), fun hhome _ q j hq => hlinked j ?_⟩
  rw [h₁.node]
  change update t.cwd p (some ip) q = some j at hq
  by_cases hqp : q = p
  · -- the new directory is at the end of a path
    subst hqp
    rw [update_self] at hq
    cases hq
    obtain ⟨hclosed, hroot, hstart⟩ := h.walks hN hhome hcwd
    obtain ⟨m, hm, h0⟩ := resolveFrom_good hclosed (start_good hroot hstart path) hr
    cases hn.symm.trans hm
    exact ⟨n, hn, hk, h0⟩
  · rw [update_of_ne hqp, htcwd, update_of_ne hqp, h₁.cwd] at hq
    exact hhome q j hq

/-! ## Descriptors -/

omit [DecidableEq P] in
theorem Ok.setDescriptors (h : Ok N s l) (ofile : P → Fin NOFILE → Option (Fin NFILE)) :
    Keeps N s { s with ofile := ofile } l := ⟨⟨h.graph, h.ref, h.alloc, h.safe, h.closed⟩, rfl, fun _ hj => hj⟩

theorem Ok.wp_sysClose (h : Ok N s []) (hE : Panics E) (fd : Fin NOFILE) :
    Wp E (sysClose p fd) (fun _ s' => Keeps N s s' []) s := by
  unfold Wp sysClose
  cases s.ofile p fd with
  | none => exact h.keeps (.refl s)
  | some f =>
    show Wp E (setFd p fd none >>= _) (fun _ s' => Keeps N s s' []) s
    have hset := h.setDescriptors (update s.ofile p (update (s.ofile p) fd none))
    refine .bind (show Wp E (fileclose f >>= fun _ => pure 0) _ _ from .bind ?_)
    exact (hset.ok.wp_fileclose hE.fileclose f).mono fun _ s' h' => hset.trans h'

theorem Ok.wp_sysDup (h : Ok N s []) (hE : Panics E) (fd : Fin NOFILE) :
    Wp E (sysDup p fd) (fun _ s' => Keeps N s s' []) s := by
  unfold Wp sysDup
  cases s.ofile p fd with
  | none => exact h.keeps (.refl s)
  | some f =>
    show Wp E (fdalloc p f >>= _) (fun _ s' => Keeps N s s' []) s
    refine .bind ((Holds.refl s).wp_fdalloc (fun _ => h.keeps (.refl s)) fun fd' s₁ _ h₁ _ => .bind ?_)
    have hset := h.setDescriptors (update s.ofile p (update (s.ofile p) fd' (some f)))
    have h₁' := hset.trans (hset.ok.keeps h₁)
    exact (h₁'.ok.wp_filedup hE.filedup f).mono fun _ s' h' => h₁'.trans h'

/-! ## exit and fork -/

theorem Ok.wp_exitFiles (h : Ok N s []) (hE : Panics E) (hcwd : s.cwd p = some cwd) (fds : List (Fin NOFILE)) :
    Wp E (exitFiles p cwd fds) (fun _ s' => Done N s s' True) s := by
  induction fds generalizing s with
  | nil =>
    obtain ⟨t, ht, htcwd, hfinal, hlinked⟩ := h.swap hcwd none
    change Done N s { s.drop cwd with cwd := update (s.drop cwd).cwd p none } True
    have hsame : update t.cwd p none = t.cwd := by rw [htcwd, update_idem]
    rw [Fs.drop_cwd, hfinal, hsame]
    refine ⟨ht, fun hhome _ q j hq => hlinked j ?_⟩
    have hqp : q ≠ p := by
      rintro rfl
      rw [htcwd, update_self] at hq
      cases hq
    rw [htcwd, update_of_ne hqp] at hq
    exact hhome q j hq
  | cons fd fds ih =>
    unfold Wp exitFiles
    cases s.ofile p fd with
    | none => exact ih h hcwd
    | some f =>
      show Wp E (fileclose f >>= _) (fun _ s' => Done N s s' True) s
      refine .bind ((h.wp_fileclose hE.fileclose f).mono fun _ s₁ h₁ => .bind ?_)
      have hset := h₁.trans
        (h₁.ok.setDescriptors (update s₁.ofile p (update (s₁.ofile p) fd none)))
      exact (ih hset.ok (by rw [hset.cwd, hcwd])).mono fun _ s' h' => hset.andThen h' True

omit [DecidableEq P] in
theorem Ok.idup (h : Ok N s l) (hcwd : s.cwd p = some i) :
    Ok N { s with ref := update s.ref i (s.ref i + 1) } (i :: l) := by
  have href : ∀ j, update s.ref i (s.ref i + 1) j = s.ref j + if i = j then 1 else 0 := by
    intro j
    rw [update_ref]
    by_cases hji : j = i
    · rw [if_pos hji, if_pos hji.symm, hji]
    · rw [if_neg hji, if_neg (Ne.symm hji), Nat.add_zero]
  refine ⟨h.graph, fun j => ?_, fun j hj => ?_, fun j n hn h0 => ?_, h.closed⟩
  · change update s.ref i (s.ref i + 1) j = held s j + _
    rw [href, h.ref j, count_cons_nat]
    omega
  · by_cases hji : i = j
    · subst hji
      refine h.alloc i ?_
      have := held_pos_cwd hcwd
      rw [h.ref i]
      omega
    change 0 < update s.ref i (s.ref i + 1) j at hj
    rw [href, if_neg hji] at hj
    exact h.alloc j hj
  obtain ⟨hpos, hv⟩ := h.safe j n hn h0
  refine ⟨?_, hv⟩
  change 0 < update s.ref i (s.ref i + 1) j
  rw [href]
  omega

theorem Ok.wp_forkFiles (h : Ok N s []) (hE : Panics E) {np : P} (hcwd : s.cwd p = some cwd)
    (hnp : s.cwd np = none)
    (fds : List (Fin NOFILE)) : Wp E (forkFiles p np cwd fds) (fun _ s' => Done N s s' True) s := by
  induction fds generalizing s with
  | nil =>
    refine ⟨(h.idup hcwd).enter hnp, fun hhome _ q j hq => ?_⟩
    change update s.cwd np (some cwd) q = some j at hq
    by_cases hqn : q = np
    · subst hqn
      rw [update_self] at hq
      cases hq
      exact hhome p cwd hcwd
    · rw [update_of_ne hqn] at hq
      exact hhome q j hq
  | cons fd fds ih =>
    unfold Wp forkFiles
    cases s.ofile p fd with
    | none => exact ih h hcwd hnp
    | some f =>
      show Wp E (filedup f >>= _) (fun _ s' => Done N s s' True) s
      refine .bind ((h.wp_filedup hE.filedup f).mono fun _ s₁ h₁ => .bind ?_)
      have hset := h₁.trans
        (h₁.ok.setDescriptors (update s₁.ofile np (update (s₁.ofile np) fd (some f))))
      exact (ih hset.ok (by rw [hset.cwd, hcwd]) (by rw [hset.cwd, hnp])).mono fun _ s' h' =>
        hset.andThen h' True

/-- **Every call keeps links and references right.** -/
theorem Ok.wp_request (h : Ok N s []) (hN : N ≤ 2 ^ 16) (hE : Panics E) (hw : Walks E s cwd G)
    (hcwd : s.cwd p = some cwd) (req : Req P) (hfork : ∀ np, req = .fork np → s.cwd np = none)
    (hroom : Room s cwd req = true) (hl : Lands s cwd req = true) :
    Wp E (request N p cwd req) (fun _ s' => Done N s s' (Away s cwd req = true)) s := by
  cases req with
  | open_ path m => exact (h.wp_sysOpen hw hN hE hl).mono fun _ _ h' => h'.done _
  | mkdir path => exact (h.wp_sysMake hw hN hE (by decide) hl fun _ => hroom).mono fun _ _ h' => h'.done _
  | mknod path major minor =>
    have hwp : Wp E (sysMake N cwd path .device major minor) (fun _ s' => Keeps N s s' []) s :=
      h.wp_sysMake hw hN hE (by decide) hl fun hk => nomatch hk
    exact hwp.mono fun _ _ h' => h'.done _
  | link old new => exact (h.wp_sysLink hw hN hE hl hroom).mono fun _ _ h' => h'.done _
  | unlink path => exact h.wp_sysUnlink hw hN
  | chdir path => exact h.wp_sysChdir hw hN hcwd _
  | close fd => exact (h.wp_sysClose hE fd).mono fun _ _ h' => h'.done _
  | dup fd => exact (h.wp_sysDup hE fd).mono fun _ _ h' => h'.done _
  | exit =>
    refine .bind ((h.wp_exitFiles hE hcwd _).mono fun _ s' h' => ?_)
    exact ⟨h'.ok, fun hhome _ => h'.home hhome trivial⟩
  | fork np =>
    refine .bind ((h.wp_forkFiles hE hcwd (hfork np rfl) _).mono fun _ s' h' => ?_)
    exact ⟨h'.ok, fun hhome _ => h'.home hhome trivial⟩

end Xv6.Tree
