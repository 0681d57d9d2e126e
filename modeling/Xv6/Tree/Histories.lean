import Xv6.Tree.Steps

set_option autoImplicit false

/-! # Runs of calls

The system starts with the tree that `mkfs` has written and the first process in its root, and the
processes make calls one after the other. A run ends where a call panics.

Removing the current directory of a process leaves it a directory without a name, whose `..` is not
counted and which still takes new names. So three things hold only of runs that avoid it in one way
or another: the panic of `ilock` can be reached through `..`, and a name that is made in the removed
directory is lost with it, with a link count that stays. -/

namespace Xv6.Tree

open Files Function List Option Structures

variable {P : Type} [Fintype P] [DecidableEq P] {N : Nat} {s s' : Fs P}

/-! ## The image -/

/-- The root directory as `mkfs` starts it. -/
def emptyImage : Nat → Option Node := fun i =>
  if i = ROOTINO then
    some { kind := .dir, nlink := 1, ents := [newEntry dot ROOTINO, newEntry dotdot ROOTINO] }
  else none

/-- A file, by its name and its content, gets the next inode and an entry behind the others. -/
def addFile (node : Nat → Option Node) (ip : Nat) (f : List Byte × List Byte) : Nat → Option Node :=
  match node ROOTINO with
  | none => node
  | some dp =>
    update (update node ip (some { newNode ip ROOTINO .file 0 0 with data := f.2 })) ROOTINO
      (some (newParent dp f.1 ip .file))

def addFiles : List (List Byte × List Byte) → Nat → (Nat → Option Node) → Nat → Option Node
  | [], _, node => node
  | f :: fs, ip, node => addFiles fs (ip + 1) (addFile node ip f)

/-- The size of the root directory is rounded up to the next block: the entries there are free. -/
def padRoot (node : Nat → Option Node) : Nat → Option Node :=
  match node ROOTINO with
  | none => node
  | some dp =>
    let n := dp.ents.length
    update node ROOTINO
      (some { dp with ents := dp.ents ++ List.replicate ((n / 64 + 1) * 64 - n) Dirent.zero })

def image (files : List (List Byte × List Byte)) : Nat → Option Node :=
  padRoot (addFiles files 2 emptyImage)

/-- The system when the first process has its current directory. -/
def boot (init : P) (files : List (List Byte × List Byte)) : Fs P where
  node := image files
  -- `mkfs` has written the entries before the padding, and the contents of the files
  blocks := fun i k => if i = ROOTINO then perBlock * k < files.length + 2
    else (image files i).any fun n => BSIZE * k < n.data.length
  ref := fun i => if i = ROOTINO then 1 else 0
  valid := fun _ => false
  cwd := fun p => if p = init then some ROOTINO else none
  ofile := fun _ _ => none
  ftable := fun _ => {}

theorem emptyImage_graph (hN : 2 ≤ N) : Graph N emptyImage := by
  have hchildren : ∀ d, children emptyImage d = [] := by
    intro d
    unfold children emptyImage
    split <;> rfl
  have hnames : ∀ i, names N emptyImage i = 0 := by
    intro i
    by_contra h
    obtain ⟨d, -, hmem⟩ := exists_of_indegree_pos (Nat.pos_of_ne_zero h)
    rw [hchildren] at hmem
    exact not_mem_nil hmem
  have hroot : ∀ i n, emptyImage i = some n → i = ROOTINO ∧
      n = {
        kind := .dir, nlink := 1, ents := [newEntry dot ROOTINO, newEntry dotdot ROOTINO] } := by
    intro i n hn
    unfold emptyImage at hn
    split at hn
    · next hi => exact ⟨hi, (Option.some.inj hn).symm⟩
    · cases hn
  refine ⟨fun i n hn => ?_, rfl, fun d i hi => ?_, fun i n hn => ?_, fun i n hn => ?_,
    fun i _ => ?_, fun i n hn h0 => ?_,
    fun i n hn _ => ?_, fun i hi => ?_⟩
  · obtain ⟨rfl, -⟩ := hroot i n hn
    exact ⟨by decide, by unfold ROOTINO; omega⟩
  · rw [hchildren] at hi
    exact absurd hi not_mem_nil
  · obtain ⟨rfl, rfl⟩ := hroot i n hn
    rw [hnames, subdirs, hchildren]
    rfl
  · obtain ⟨rfl, rfl⟩ := hroot i n hn
    decide
  · rw [hnames, rootLink]
    split <;> omega
  · obtain ⟨rfl, rfl⟩ := hroot i n hn
    exact absurd h0 (by decide)
  · obtain ⟨rfl, rfl⟩ := hroot i n hn
    exact ⟨newEntry dotdot ROOTINO, rfl, by decide, rfl, fun _ => .inl ⟨rfl, rfl⟩⟩
  · obtain ⟨n, hn, -, -⟩ := hi
    obtain ⟨rfl, -⟩ := hroot i n hn
    exact .root

variable {ip cwd : Nat} {node : Nat → Option Node} {files : List (List Byte × List Byte)}
    {a : P × Req P}
  {req : Req P} {p init : P} {tr : List (P × Req P)}

theorem addFile_graph (hN : N ≤ 2 ^ 16) (hg : Graph N node) (hpos : 0 < ip)
    (hlt : ip < N) (hfree : node ip = none) (f : List Byte × List Byte) :
    Graph N (addFile node ip f) := by
  obtain ⟨dp, hd, hk, hd0⟩ := hg.root_linked
  have hne : ip ≠ ROOTINO := by
    rintro rfl
    cases hfree.symm.trans hd
  have hroom : Kind.file = .dir → dp.nlink ≠ 0x7fff := nofun
  have hmade := (hg.make hN hd hk hd0 hfree hpos hlt hroom f.1 0 0).graph
  have hip : update (update node ip (some (newNode ip ROOTINO .file 0 0))) ROOTINO
      (some (newParent dp f.1 ip .file)) ip = some (newNode ip ROOTINO .file 0 0) := by
    rw [update_of_ne hne, update_self]
  have hsame : Graph.Same (newNode ip ROOTINO .file 0 0) { newNode ip ROOTINO .file 0 0 with data := f.2 } :=
    ⟨rfl, rfl, rfl, rfl⟩
  have hdata := hmade.replace hip hsame
  rw [update_comm hne.symm, update_idem] at hdata
  unfold addFile
  rw [hd]
  exact hdata

theorem addFile_free {j : Nat} {f : List Byte × List Byte} (hne : j ≠ ip)
    (hroot : j ≠ ROOTINO) : addFile node ip f j = node j := by
  unfold addFile
  cases node ROOTINO with
  | none => rfl
  | some dp => exact (update_of_ne hroot ..).trans (update_of_ne hne ..)

theorem addFiles_graph (hN : N ≤ 2 ^ 16) (files : List (List Byte × List Byte))
    (hg : Graph N node) (hip : 1 < ip) (hlen : ip + files.length ≤ N)
    (hfree : ∀ j, ip ≤ j → node j = none) :
    Graph N (addFiles files ip node) := by
  induction files generalizing node ip with
  | nil => exact hg
  | cons f fs ih =>
    rw [length_cons] at hlen
    refine ih (addFile_graph hN hg (by omega) (by omega) (hfree ip (Nat.le_refl _)) f) (by omega)
      (by omega) ?_
    intro j hj
    rw [addFile_free (by omega) (by unfold ROOTINO; omega)]
    exact hfree j (by omega)

theorem padRoot_graph (hN : N ≤ 2 ^ 16) (hg : Graph N node) : Graph N (padRoot node) := by
  obtain ⟨dp, hd, hk, -⟩ := hg.root_linked
  unfold padRoot
  rw [hd]
  obtain ⟨-, e₀, e₁, rest, hents, -⟩ := hg.hasDots hN hd hk
  refine hg.replace hd ⟨rfl, rfl, ?_, by rw [hents]; rfl⟩
  unfold kids
  simp only [hents, cons_append, drop_succ_cons, drop_zero, map_append, filter_append,
    map_replicate]
  rw [filter_replicate_of_neg (by decide), append_nil]

theorem image_graph (hN : N ≤ 2 ^ 16) (hlen : files.length + 2 ≤ N) : Graph N (image files) := by
  refine padRoot_graph hN (addFiles_graph hN files (emptyImage_graph (by omega)) (by omega)
    (by omega) ?_)
  intro j hj
  unfold emptyImage
  rw [if_neg]
  unfold ROOTINO
  omega

/-- Every inode of the image has one link. -/
def OneLink (node : Nat → Option Node) : Prop := ∀ i n, node i = some n → n.nlink = 1

theorem OneLink.update (h : OneLink node) {n : Node} (hn : n.nlink = 1) :
    OneLink (update node ip (some n)) := by
  intro i m hm
  by_cases hi : i = ip
  · subst hi
    rw [update_self] at hm
    exact Option.some.inj hm ▸ hn
  · rw [update_of_ne hi] at hm
    exact h i m hm

theorem OneLink.addFiles (h : OneLink node) (files : List (List Byte × List Byte)) :
    OneLink (addFiles files ip node) := by
  induction files generalizing node ip with
  | nil => exact h
  | cons f fs ih =>
    refine ih ?_
    unfold addFile
    cases hd : node ROOTINO with
    | none => exact h
    | some dp => exact (h.update rfl).update (h ROOTINO dp hd)

theorem image_oneLink (files : List (List Byte × List Byte)) : OneLink (image files) := by
  have hempty : OneLink emptyImage := by
    intro i n hn
    obtain ⟨-, ⟨⟩⟩ := Option.ite_none_right_eq_some.1 hn
    rfl
  have hfiles : OneLink (addFiles files 2 emptyImage) := hempty.addFiles files
  unfold image padRoot
  cases hd : addFiles files 2 emptyImage ROOTINO with
  | none => exact hfiles
  | some dp => exact hfiles.update (hfiles ROOTINO dp hd)

theorem boot_ok (hN : N ≤ 2 ^ 16) (init : P) (hlen : files.length + 2 ≤ N) :
    Ok N (boot init files) [] := by
  have hg : Graph N (image files) := image_graph hN hlen
  refine ⟨hg, fun i => ?_, fun i hi => ?_, fun i n hn h0 => ?_, fun _ _ => rfl⟩
  · have hcwd : ∀ p, (boot init files).cwd p = some i ↔ p = init ∧ i = ROOTINO := by
      intro p
      change (if p = init then some ROOTINO else none) = some i ↔ _
      by_cases hp : p = init
      · rw [if_pos hp, Option.some.injEq]
        exact ⟨fun h => ⟨hp, h.symm⟩, fun h => h.2.symm⟩
      · rw [if_neg hp]
        exact iff_of_false nofun fun h => hp h.1
    have hopen : ∀ f, ¬ ((boot init files).ftable f).opens i := fun f ho => ho.1 rfl
    unfold held
    simp only [hcwd, if_neg (hopen _), Finset.sum_const_zero, Nat.add_zero, count_nil]
    change (if i = ROOTINO then 1 else 0) = _
    by_cases hi : i = ROOTINO
    · simp only [hi, and_true, if_true, Finset.sum_ite_eq', Finset.mem_univ]
    · simp only [hi, and_false, if_false, Finset.sum_const_zero]
  · change 0 < (if i = ROOTINO then 1 else 0) at hi
    split at hi
    · next hroot =>
      obtain ⟨n, hn, -⟩ := hg.root_linked
      exact ⟨n, hroot ▸ hn⟩
    · exact absurd hi (by decide)
  · rw [image_oneLink files i n hn] at h0
    exact absurd h0 (by decide)

/-! ## Steps -/

/-- A new process has no current directory and no open file. -/
def fresh (s : Fs P) : Req P → Bool
  | .fork np => s.cwd np = none && decide (∀ fd, s.ofile np fd = none)
  | _ => true

/-- The process makes the call, if it is there and the call does not panic. -/
def step (N : Nat) (s : Fs P) (a : P × Req P) : Option (Fs P) :=
  match s.cwd a.1 with
  | none => none
  | some cwd =>
    if fresh s a.2 then
      match request N a.1 cwd a.2 s with
      | .ok (_, s') => some s'
      | .error _ => none
    else none

/-- The condition on a call, in the state in which it is made. -/
def obeys (rule : Fs P → Nat → Req P → Bool) (s : Fs P) (a : P × Req P) (_ : Unit) : Prop :=
  (s.cwd a.1).all (fun cwd => rule s cwd a.2) = true

/-- All calls of a run meet the condition. -/
def Obeys (N : Nat) (rule : Fs P → Nat → Req P → Bool) (s : Fs P) (tr : List (P × Req P)) : Prop :=
  Along (step N) (fun _ _ _ => ()) (obeys rule) s () tr

instance (rule : Fs P → Nat → Req P → Bool) (s : Fs P) (a : P × Req P) (u : Unit) :
    Decidable (obeys rule s a u) :=
  inferInstanceAs (Decidable (_ = true))

instance (N : Nat) (rule : Fs P → Nat → Req P → Bool) (s : Fs P) (tr : List (P × Req P)) :
    Decidable (Obeys N rule s tr) := inferInstanceAs (Decidable (Along ..))

omit [Fintype P] in
theorem step_eq (h : step N s a = some s') :
    ∃ cwd r, s.cwd a.1 = some cwd ∧ fresh s a.2 = true ∧ request N a.1 cwd a.2 s = .ok (r, s') := by
  unfold step at h
  split at h
  · cases h
  next cwd hcwd =>
  obtain ⟨hfresh, h⟩ := Option.ite_none_right_eq_some.1 h
  split at h
  · next r s₁ hreq =>
    cases h
    exact ⟨cwd, r, hcwd, hfresh, hreq⟩
  · cases h

omit [Fintype P] [DecidableEq P] in
theorem fresh_fork (h : fresh s req = true) (np : P) (hreq : req = .fork np) : s.cwd np = none := by
  subst hreq
  simp only [fresh, Bool.and_eq_true, decide_eq_true_eq] at h
  exact h.1

/-! ## Names -/

/-- The calls are given no names in removed directories, and no link count at the end of its field
    to raise. -/
def Proper (s : Fs P) (cwd : Nat) (req : Req P) : Bool := Room s cwd req && Lands s cwd req

omit [Fintype P] [DecidableEq P] in
theorem obeys_iff {rule : Fs P → Nat → Req P → Bool} {u : Unit} (hcwd : s.cwd a.1 = some cwd) :
    obeys rule s a u ↔ rule s cwd a.2 = true := by
  unfold obeys
  rw [hcwd, all_some]

theorem Ok.request_done {E : String → Prop} {G : Nat → Prop} (h : Ok N s []) (hN : N ≤ 2 ^ 16)
    (hE : Panics E)
    (hw : Walks E s cwd G) (hcwd : s.cwd p = some cwd) (hfresh : fresh s req = true)
    (hproper : Proper s cwd req = true) :
    Wp E (request N p cwd req) (fun _ s' => Done N s s' (Away s cwd req = true)) s := by
  unfold Proper at hproper
  rw [Bool.and_eq_true] at hproper
  exact h.wp_request hN hE hw hcwd req (fresh_fork hfresh) hproper.1 hproper.2

theorem run_ok (hN : N ≤ 2 ^ 16) (hlen : files.length + 2 ≤ N)
    (hobeys : Obeys N Proper (boot init files) tr)
    (hrun : runs (step N) (boot init files) tr = some s) : Ok N s [] := by
  refine hobeys.invariant (fun s _ => Ok N s []) hrun (boot_ok hN init hlen) ?_
  intro s a s' u hstep hcond h
  obtain ⟨cwd, r, hcwd, hfresh, hreq⟩ := step_eq hstep
  have hE : Panics fun _ => True := ⟨trivial, trivial, trivial, trivial⟩
  have hw : Walks (fun _ => True) s cwd fun _ => True := .inl trivial
  exact ((h.request_done hN hE hw hcwd hfresh ((obeys_iff hcwd).1 hcond)).of_ok hreq).ok

omit [DecidableEq P] in
theorem Ok.allocated_iff (h : Ok N s []) (i : Nat) :
    (∃ n, s.node i = some n) ↔ i = ROOTINO ∨ 0 < names N s.node i ∨ 0 < held s i := by
  constructor
  · rintro ⟨n, hn⟩
    by_cases h0 : n.nlink = 0
    · have hpos := (h.safe i n hn h0).1
      rw [h.ref i, count_nil, Nat.add_zero] at hpos
      exact .inr (.inr hpos)
    have hlink := h.graph.nlink i n hn
    by_cases hdir : LinkedDir s.node i
    · have hnamed := h.graph.named hdir
      unfold rootLink at hnamed
      split at hnamed
      · next hroot => exact .inl hroot
      · exact .inr (.inl hnamed)
    -- a file has no other links than its names
    have hk : n.kind ≠ .dir := fun hk => hdir ⟨n, hn, hk, h0⟩
    have hroot : i ≠ ROOTINO := by
      rintro rfl
      exact hdir h.graph.root_linked
    have hsub := subdirs_of_file hn hk
    have hpos := toNat_ne_zero.1 h0
    rw [hlink, hsub, rootLink, if_neg hroot] at hpos
    exact .inr (.inl hpos)
  · rintro (rfl | hpos | hpos)
    · obtain ⟨n, hn, -⟩ := h.graph.root_linked
      exact ⟨n, hn⟩
    · obtain ⟨d, -, hmem⟩ := exists_of_indegree_pos hpos
      exact h.graph.child d i hmem
    · refine h.alloc i ?_
      rw [h.ref i]
      omega

/-- **Link counts.** After every run whose calls make no name in a removed directory and raise no
    link count of 32767: the count of a file is the number of its names, that of a linked directory
    one more than the number of its directories; no call panics for a link count; and an inode is
    allocated just as long as it has a name or a reference. -/
theorem link_counts (hN : N ≤ 2 ^ 16) {init : P} {files : List (List Byte × List Byte)}
    (hlen : files.length + 2 ≤ N)
    {tr : List (P × Req P)} (hobeys : Obeys N Proper (boot init files) tr)
    (hrun : runs (step N) (boot init files) tr = some s) :
    (∀ i n, s.node i = some n → n.kind ≠ .dir → n.nlink.toInt = names N s.node i) ∧
    (∀ i n, s.node i = some n → n.kind = .dir → n.nlink ≠ 0 →
      n.nlink.toInt = 1 + subdirs s.node i) ∧
    (∀ p cwd req, s.cwd p = some cwd → fresh s req = true → Proper s cwd req = true →
      request N p cwd req s ≠ .error "unlink: nlink < 1") ∧
    (∀ i, s.ref i = held s i) ∧
    ∀ i, (∃ n, s.node i = some n) ↔ i = ROOTINO ∨ 0 < names N s.node i ∨ 0 < held s i := by
  have h := run_ok hN hlen hobeys hrun
  have hint : ∀ i n, s.node i = some n → n.nlink.toInt = n.nlink.toNat := by
    intro i n hn
    have hsmall := h.graph.small i n hn
    exact BitVec.toInt_eq_toNat_of_lt (by omega)
  refine ⟨fun i n hn hk => ?_, fun i n hn hk h0 => ?_,
    fun p cwd req hcwd hfresh hproper hpanic => ?_, fun i => ?_,
    h.allocated_iff⟩
  · have hroot : i ≠ ROOTINO := by
      rintro rfl
      obtain ⟨m, hm, hkm, -⟩ := h.graph.root_linked
      exact hk (Option.some.inj (hn.symm.trans hm) ▸ hkm)
    have hsub := subdirs_of_file hn hk
    rw [hint i n hn, h.graph.nlink i n hn, hsub, rootLink, if_neg hroot]
    rfl
  · have hnamed := h.graph.named ⟨n, hn, hk, h0⟩
    have honce := h.graph.once i (isDir_iff.2 ⟨n, hn, hk⟩)
    rw [hint i n hn, h.graph.nlink i n hn]
    omega
  · have hE : Panics (· ≠ "unlink: nlink < 1") := ⟨by decide, by decide, by decide, by decide⟩
    have hw : Walks (· ≠ "unlink: nlink < 1") s cwd fun _ => True := .inl (by decide)
    exact (h.request_done hN hE hw hcwd hfresh hproper).of_error hpanic rfl
  · rw [h.ref i, count_nil, Nat.add_zero]

/-- A file gets a second name and loses the first, and a directory is made and is removed again. -/
def twoNames : List (Fin 2 × Req (Fin 2)) :=
  [(0, .open_ [102] { create := true }), (0, .link [102] [103]), (0, .mkdir [97]),
    (0, .unlink [102]), (0, .fork 1),
    (1, .unlink [97]), (1, .exit)]

theorem link_counts_twoNames : ∃ s, runs (step 8) (boot 0 []) twoNames = some s ∧
    ∀ i, s.ref i = held s i := by
  have hrun : (runs (step 8) (boot 0 []) twoNames).any (fun _ => true) = true := by decide +kernel
  obtain ⟨s, hs, -⟩ := (Option.any_eq_true ..).1 hrun
  have hobeys : Obeys 8 Proper (boot 0 []) twoNames := by decide +kernel
  exact ⟨s, hs, (link_counts (by decide) (by decide) hobeys hs).2.2.2.1⟩

/-- A process makes a file in its current directory, which has been removed, and leaves. -/
def lostFile : List (Unit × Req Unit) :=
  [((), .mkdir [97]), ((), .chdir [97]), ((), .unlink [47, 97]),
    ((), .open_ [102] { create := true }),
    ((), .close 0), ((), .chdir [47])]

/-- The file has a link, and no name. -/
theorem lostFile_link : ∃ s n, runs (step 8) (boot () []) lostFile = some s ∧ s.node 3 = some n ∧
    n.kind = .file ∧
    n.nlink.toInt = 1 ∧ names 8 s.node 3 = 0 ∧ held s 3 = 0 := by
  have hrun : (runs (step 8) (boot () []) lostFile).any (fun s =>
      (s.node 3).any (fun n => n.kind = .file && n.nlink.toInt = 1) &&
        (names 8 s.node 3 = 0 && held s 3 = 0)) = true := by decide +kernel
  obtain ⟨s, hs, hq⟩ := (Option.any_eq_true ..).1 hrun
  simp only [Bool.and_eq_true, decide_eq_true_eq] at hq
  obtain ⟨n, hn, hq'⟩ := (Option.any_eq_true ..).1 hq.1
  simp only [Bool.and_eq_true, decide_eq_true_eq] at hq'
  exact ⟨s, n, hs, hn, hq'.1, hq'.2, hq.2.1, hq.2.2⟩

/-- **No inode is lost.** After every such run an allocated inode has an entry in a directory that
    is reached from the root, or is open or a current directory. -/
theorem allocated_reachable (hN : N ≤ 2 ^ 16) {init : P} {files : List (List Byte × List Byte)}
    (hlen : files.length + 2 ≤ N) {tr : List (P × Req P)}
    (hobeys : Obeys N Proper (boot init files) tr)
    (hrun : runs (step N) (boot init files) tr = some s) {i : Nat} {n : Node}
    (hn : s.node i = some n) :
    (∃ d dp e, Reachable s.node d ∧ s.node d = some dp ∧ e ∈ dp.ents ∧ e.inum = i) ∨
      0 < held s i := by
  have h := run_ok hN hlen hobeys hrun
  rcases (h.allocated_iff i).1 ⟨n, hn⟩ with rfl | hpos | hpos
  · obtain ⟨dp, hd, hk, -⟩ := h.graph.root_linked
    obtain ⟨e, htake, -⟩ := h.graph.dots _ dp hd hk
    obtain ⟨rest, hents⟩ := take_two htake
    exact .inl ⟨ROOTINO, dp, newEntry dot ROOTINO, .root, hd,
      by rw [hents]; exact mem_cons_self, rfl⟩
  · obtain ⟨d, -, hmem⟩ := exists_of_indegree_pos hpos
    obtain ⟨dp, hd, hk, hkid⟩ := exists_of_child hmem
    rw [kids, if_pos hk, List.mem_filter, List.mem_map] at hkid
    obtain ⟨⟨e, he, hinum⟩, -⟩ := hkid
    exact .inl ⟨d, dp, e, h.graph.reach d (h.graph.linkedDir_of_child hmem), hd,
      mem_of_mem_drop he, hinum⟩
  · exact .inr hpos

theorem allocated_reachable_twoNames :
    ∃ s n, runs (step 8) (boot 0 []) twoNames = some s ∧ s.node 2 = some n ∧
    ((∃ d dp e, Reachable s.node d ∧ s.node d = some dp ∧ e ∈ dp.ents ∧ e.inum = 2) ∨
      0 < held s 2) := by
  have hrun : (runs (step 8) (boot 0 []) twoNames).any (fun s => (s.node 2).isSome) = true := by
    decide +kernel
  obtain ⟨s, hs, hq⟩ := (Option.any_eq_true ..).1 hrun
  obtain ⟨n, hn⟩ := isSome_iff_exists.1 hq
  have hobeys : Obeys 8 Proper (boot 0 []) twoNames := by decide +kernel
  exact ⟨s, n, hs, hn, allocated_reachable (by decide) (by decide) hobeys hs hn⟩

/-- The file is allocated for nothing. -/
theorem lostFile_unreachable : ∃ s, runs (step 8) (boot () []) lostFile = some s ∧
    (s.node 3).isSome = true ∧
    ¬ ((∃ d dp e, Reachable s.node d ∧ s.node d = some dp ∧ e ∈ dp.ents ∧ e.inum = 3) ∨
      0 < held s 3) := by
  have hrun : (runs (step 8) (boot () []) lostFile).any (fun s =>
      (s.node 3).isSome && (children s.node ROOTINO = [] &&
        ((s.node ROOTINO).all (fun dp => dp.ents.all fun e => e.inum ≠ 3) && held s 3 = 0))) =
          true := by
    decide +kernel
  obtain ⟨s, hs, hq⟩ := (Option.any_eq_true ..).1 hrun
  simp only [Bool.and_eq_true, decide_eq_true_eq] at hq
  obtain ⟨hsome, hchildren, hents, hheld⟩ := hq
  refine ⟨s, hs, hsome, ?_⟩
  rintro (⟨d, dp, e, hreach, hd, he, hinum⟩ | hpos)
  · -- the root has no directory, so it is the only one that is reached
    have hroot : ∀ d, Reachable s.node d → d = ROOTINO := by
      intro d h
      induction h with
      | root => rfl
      | link _ hmem _ ih =>
        rw [ih, hchildren] at hmem
        exact absurd hmem not_mem_nil
    obtain rfl := hroot d hreach
    rw [hd, Option.all_some, List.all_eq_true] at hents
    exact of_decide_eq_true (hents e he) hinum
  · omega

/-! ## Entries -/

/-- The calls are given no current directory to remove, and no link count at the end of its field to
    raise. -/
def Staying (s : Fs P) (cwd : Nat) (req : Req P) : Bool := Room s cwd req && Away s cwd req

omit [DecidableEq P] in
theorem Ok.lands (h : Ok N s []) (hN : N ≤ 2 ^ 16) (hhome : Home s) (hcwd : s.cwd p = some cwd)
    (req : Req P) : Lands s cwd req = true := by
  obtain ⟨hclosed, hroot, hstart⟩ := h.walks hN hhome hcwd
  unfold Lands
  cases target req with
  | none => rfl
  | some path =>
    rw [all_some, meets]
    cases hr : resolve s.node cwd true path with
    | none => rfl
    | some r =>
      obtain ⟨d, name⟩ := r
      obtain ⟨n, hn, h0⟩ := resolveFrom_good hclosed (start_good hroot hstart path) hr
      rw [all_some, hn, all_some]
      exact decide_eq_true h0

theorem run_home (hN : N ≤ 2 ^ 16) (hlen : files.length + 2 ≤ N)
    (hobeys : Obeys N Staying (boot init files) tr)
    (hrun : runs (step N) (boot init files) tr = some s) : Ok N s [] ∧ Home s := by
  refine hobeys.invariant (fun s _ => Ok N s [] ∧ Home s) hrun ⟨boot_ok hN init hlen, ?_⟩ ?_
  · intro q i hq
    obtain ⟨-, ⟨⟩⟩ := Option.ite_none_right_eq_some.1 hq
    exact (boot_ok hN init hlen).graph.root_linked
  intro s a s' u hstep hcond ⟨h, hhome⟩
  obtain ⟨cwd, r, hcwd, hfresh, hreq⟩ := step_eq hstep
  have hstay := (obeys_iff hcwd).1 hcond
  unfold Staying at hstay
  rw [Bool.and_eq_true] at hstay
  have hE : Panics fun _ => True := ⟨trivial, trivial, trivial, trivial⟩
  have hw : Walks (fun _ => True) s cwd fun _ => True := .inl trivial
  have hdone := (h.wp_request hN hE hw hcwd a.2 (fresh_fork hfresh) hstay.1
    (h.lands hN hhome hcwd a.2)).of_ok hreq
  exact ⟨hdone.ok, hdone.home hhome hstay.2⟩

/-- **Entries name allocated inodes.** After every run whose calls remove no directory that is a
    current directory, and raise no link count of 32767: an entry in use of a directory that is
    linked or a current directory is for an allocated inode, and no call panics because it locks a
    free inode. -/
theorem entries_allocated (hN : N ≤ 2 ^ 16) {init : P} {files : List (List Byte × List Byte)}
    (hlen : files.length + 2 ≤ N) {tr : List (P × Req P)}
    (hobeys : Obeys N Staying (boot init files) tr)
    (hrun : runs (step N) (boot init files) tr = some s) :
    (∀ d dp e, s.node d = some dp → dp.kind = .dir → (dp.nlink ≠ 0 ∨ ∃ q, s.cwd q = some d) →
      e ∈ dp.ents →
      e.inum ≠ 0 → ∃ n, s.node e.inum = some n) ∧
    ∀ p cwd req, s.cwd p = some cwd → fresh s req = true → Staying s cwd req = true →
      request N p cwd req s ≠ .error "ilock: no type" := by
  obtain ⟨h, hhome⟩ := run_home hN hlen hobeys hrun
  refine ⟨fun d dp e hd hk hlive he h0 => ?_, fun p cwd req hcwd hfresh hstay hpanic => ?_⟩
  · have hlinked : dp.nlink ≠ 0 := by
      rcases hlive with hlinked | ⟨q, hq⟩
      · exact hlinked
      · obtain ⟨m, hm, -, hm0⟩ := hhome q d hq
        exact Option.some.inj (hd.symm.trans hm) ▸ hm0
    obtain ⟨m, hm, hents⟩ := h.graph.closed hN d ⟨dp, hd, hlinked⟩
    cases hd.symm.trans hm
    obtain ⟨n, hn, -⟩ := hents hk e he h0
    exact ⟨n, hn⟩
  unfold Staying at hstay
  rw [Bool.and_eq_true] at hstay
  have hE : Panics (· ≠ "ilock: no type") := ⟨by decide, by decide, by decide, by decide⟩
  have hw : Walks (· ≠ "ilock: no type") s cwd (Linked s.node) := .inr (h.walks hN hhome hcwd)
  exact (h.wp_request hN hE hw hcwd req (fresh_fork hfresh) hstay.1
    (h.lands hN hhome hcwd req)).of_error hpanic rfl

theorem entries_allocated_twoNames : ∃ s, runs (step 8) (boot 0 []) twoNames = some s ∧
    request 8 0 ROOTINO (.chdir [46, 46]) s ≠ .error "ilock: no type" := by
  have hrun : (runs (step 8) (boot 0 []) twoNames).any (fun s =>
      s.cwd 0 = some ROOTINO && (fresh s (.chdir [46, 46]) && Staying s ROOTINO
        (.chdir [46, 46]))) = true := by
    decide +kernel
  obtain ⟨s, hs, hq⟩ := (Option.any_eq_true ..).1 hrun
  simp only [Bool.and_eq_true, decide_eq_true_eq] at hq
  have hobeys : Obeys 8 Staying (boot 0 []) twoNames := by decide +kernel
  exact ⟨s, hs, (entries_allocated (by decide) (by decide) hobeys hs).2 0 ROOTINO
    (.chdir [46, 46]) hq.1 hq.2.1 hq.2.2⟩

/-- The current directory of the second process is removed, and then the directory above it. -/
def goneAbove : List (Fin 2 × Req (Fin 2)) :=
  [(0, .mkdir [97]), (0, .mkdir [97, 47, 98]), (0, .fork 1), (1, .chdir [97, 47, 98]),
    (0, .unlink [97, 47, 98]),
    (0, .unlink [97])]

/-- Its `..` is then for a free inode, and following it is a panic. -/
theorem goneAbove_panics : ∃ s, runs (step 8) (boot 0 []) goneAbove = some s ∧ s.cwd 1 = some 3 ∧
    (∃ dp e, s.node 3 = some dp ∧ e ∈ dp.ents ∧ e.inum = 2) ∧ s.node 2 = none ∧
    request 8 1 3 (.chdir [46, 46]) s = .error "ilock: no type" := by
  have hrun : (runs (step 8) (boot 0 []) goneAbove).any (fun s : Fs (Fin 2) =>
      s.cwd 1 = some 3 && ((s.node 3).any (fun dp => dp.ents.any fun e => e.inum = 2) &&
        ((s.node 2).isNone && match request 8 1 3 (.chdir [46, 46]) s with
          | .ok _ => false
          | .error e => e = "ilock: no type"))) = true := by decide +kernel
  obtain ⟨s, hs, hq⟩ := (Option.any_eq_true ..).1 hrun
  simp only [Bool.and_eq_true, decide_eq_true_eq, isNone_iff_eq_none] at hq
  obtain ⟨hcwd, hup, hfree, hpanic⟩ := hq
  obtain ⟨dp, hd, hany⟩ := (Option.any_eq_true ..).1 hup
  obtain ⟨e, he, hinum⟩ := any_eq_true.1 hany
  refine ⟨s, hs, hcwd, ⟨dp, e, hd, he, of_decide_eq_true hinum⟩, hfree, ?_⟩
  split at hpanic
  · cases hpanic
  · next e' he' => rw [he', of_decide_eq_true hpanic]

end Xv6.Tree
