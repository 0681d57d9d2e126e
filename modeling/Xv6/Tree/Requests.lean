import Xv6.Tree.Making

set_option autoImplicit false

/-! # The calls one by one

For each of the calls: where it returns -1 the state is as before, and otherwise which change it
makes to the tree before it gives its references back. -/

namespace Xv6.Tree

open Files Function List Structures

variable {P : Type} {E : String → Prop} {s s₁ s' : Fs P} {i ip : Nat} {l : List Nat} {cwd ninodes : Nat}
  {G : Nat → Prop} {n : Node}

/-! ## Links of one inode -/

theorem Fs.put_self (hn : s.node i = some n) : s.put i n = s := by
  unfold Fs.put
  rw [← hn, update_eq_self]

theorem resolveFrom_put (hn : s.node i = some n) (x : BitVec 16) (parent : Bool) (ip : Nat)
    (els : List (List Byte)) :
    resolveFrom (s.put i { n with nlink := x }).node parent ip els = resolveFrom s.node parent ip els := by
  induction els generalizing ip with
  | nil => rfl
  | cons name rest ih =>
    rw [resolveFrom, resolveFrom]
    by_cases hip : ip = i
    · subst hip
      rw [Fs.put_node_self, hn]
      simp only [ih]
    · rw [Fs.put_node_ne _ _ hip]
      simp only [ih]

theorem Walks.put (hw : Walks E s cwd G) (hn : s.node i = some n) (x : BitVec 16) :
    Walks E (s.put i { n with nlink := x }) cwd G := by
  refine hw.imp_right fun ⟨hG, hroot, hcwd⟩ => ⟨fun j hj => ?_, hroot, hcwd⟩
  obtain ⟨m, hm, hents⟩ := hG j hj
  by_cases hji : j = i
  · subst hji
    cases hn.symm.trans hm
    exact ⟨_, Fs.put_node_self .., hents⟩
  · exact ⟨m, by rw [Fs.put_node_ne _ _ hji]; exact hm, hents⟩

theorem Safe.put (hs : Safe s []) (n : Node) : Safe (s.put i n) [i] := by
  refine ⟨fun j m hm h0 hj => ?_, hs.closed⟩
  have hji : j ≠ i := fun h => hj (h ▸ mem_singleton_self j)
  rw [Fs.put_node_ne _ _ hji] at hm
  exact hs.refs j m hm h0 not_mem_nil

/-! ## open -/

/-- A device that `sys_open` does not take. -/
def Node.refused (n : Node) : Prop := n.kind = .device ∧ (n.major.toInt < 0 ∨ n.major.toInt ≥ NDEV)

variable [DecidableEq P]

/-- The state in which the file `f` is open on the inode. -/
def Fs.openAs (s : Fs P) (p : P) (f : Fin NFILE) (fd : Fin NOFILE) (n : Node) (ip : Nat) (m : Mode) : Fs P :=
  { s with
    node := if m.trunc ∧ n.kind = .file then update s.node ip (some { n with data := [] }) else s.node
    blocks := if m.trunc ∧ n.kind = .file then freeBlocks s.blocks ip else s.blocks
    ofile := update s.ofile p (update (s.ofile p) fd (some f))
    ftable := update s.ftable f ({ s.ftable f with ref := 1 }.opened n ip m) }

theorem Fs.Dense.of_openAs {p : P} {f : Fin NFILE} {fd : Fin NOFILE} {m : Mode}
    (hd : (s.openAs p f fd n ip m).Dense) (hn : s.node ip = some n) : s.Dense := by
  intro j x hx k hk
  have hj := hd j
  simp only [Fs.openAs] at hj
  by_cases htrunc : m.trunc = true ∧ n.kind = .file
  · simp only [if_pos htrunc, freeBlocks] at hj
    by_cases hji : j = ip
    · subst hji
      cases hn.symm.trans hx
      rw [update_self, update_self] at hj
      exact absurd (hj _ rfl k hk) Bool.false_ne_true
    · rw [update_of_ne hji, update_of_ne hji] at hj
      exact hj x hx k hk
  · simp only [if_neg htrunc] at hj
    exact hj x hx k hk

omit [DecidableEq P] in
theorem Holds.wp_filealloc (h : Holds s s₁ l) {Q : Option (Fin NFILE) → Fs P → Prop}
    (hnone : (∀ f, (s.ftable f).ref ≠ 0) → Q none s₁)
    (hsome : ∀ f s', (s.ftable f).ref = 0 →
      Holds { s with ftable := update s.ftable f { s.ftable f with ref := 1 } } s' l →
      s'.valid = s₁.valid → Q (some f) s') : Wp E filealloc Q s₁ := by
  unfold Wp filealloc
  rw [h.ftable]
  cases hfind : (List.finRange NFILE).find? fun f => (s.ftable f).ref = 0 with
  | none =>
    refine hnone fun f => ?_
    have := find?_eq_none.1 hfind f (mem_finRange f)
    rwa [decide_eq_true_eq] at this
  | some f =>
    have hf := find?_some hfind
    rw [decide_eq_true_eq] at hf
    exact hsome f _ hf ⟨h.node, h.cwd, h.ofile, rfl, h.ref, h.valid, h.blocks⟩ rfl

variable {f : Fin NFILE} {p : P} {Q : Int → Fs P → Prop} {m : Mode} {path : List Byte}

theorem Holds.wp_fdalloc (h : Holds s s₁ l) {Q : Option (Fin NOFILE) → Fs P → Prop}
    (hnone : (∀ fd, s.ofile p fd ≠ none) → Q none s₁)
    (hsome : ∀ fd s', s.ofile p fd = none →
      Holds { s with ofile := update s.ofile p (update (s.ofile p) fd (some f)) } s' l →
      s'.valid = s₁.valid → Q (some fd) s') : Wp E (fdalloc p f) Q s₁ := by
  unfold Wp fdalloc
  rw [h.ofile]
  cases hfind : (List.finRange NOFILE).find? fun fd => s.ofile p fd = none with
  | none =>
    refine hnone fun fd => ?_
    have := find?_eq_none.1 hfind fd (mem_finRange fd)
    rwa [decide_eq_true_eq] at this
  | some fd =>
    have hfd := find?_some hfind
    rw [decide_eq_true_eq] at hfd
    exact hsome fd _ hfd ⟨h.node, h.cwd, rfl, h.ftable, h.ref, h.valid, h.blocks⟩ rfl

omit [DecidableEq P] in
theorem Holds.wp_fileclose (hs : Safe s []) (hf : (s.ftable f).ref = 0)
    (h : Holds { s with ftable := update s.ftable f { s.ftable f with ref := 1 } } s₁ l)
    {Q : Unit → Fs P → Prop} (hQ : ∀ s', Holds s s' l → Q () s') : Wp E (fileclose f) Q s₁ := by
  have hff : s₁.ftable f = { s.ftable f with ref := 1 } := by
    rw [h.ftable]
    exact update_self ..
  unfold Wp fileclose
  simp only [hff, hs.closed f hf, Nat.lt_irrefl, Nat.sub_self, if_false, if_true]
  refine hQ _ ⟨h.node, h.cwd, h.ofile, ?_, h.ref, h.valid, h.blocks⟩
  rw [h.ftable]
  rw [update_idem, update_eq_self_iff]
  have htype := hs.closed f hf
  generalize s.ftable f = ff at hf htype
  cases ff
  cases hf
  cases htype
  rfl

theorem Holds.wp_openNode (h : Holds s s₁ [ip]) (hs : Safe s []) (hn : s.node ip = some n)
    (hfail : n.refused ∨ (∀ f, (s.ftable f).ref ≠ 0) ∨ (∀ fd, s.ofile p fd ≠ none) →
      ∀ s', Holds s s' [] → Q (-1) s')
    (hok : ∀ (f : Fin NFILE) (fd : Fin NOFILE) s', (s.ftable f).ref = 0 → s.ofile p fd = none →
      Holds (s.openAs p f fd n ip m) s' [ip] → s'.valid = s₁.valid → Q fd s') :
    Wp E (openNode p ip m) Q s₁ := by
  refine .bind (h.wp_fields hn ?_)
  split
  · next hrefused =>
    exact .bind (h.wp_iput hs (nil_subset _) fun s' h' => hfail (.inl hrefused) s' h')
  refine .bind (h.wp_filealloc (fun hnone => ?_) fun f s₂ hf h₂ hv₂ => ?_)
  · exact .bind (h.wp_iput hs (nil_subset _) fun s' h' => hfail (.inr (.inl hnone)) s' h')
  refine .bind (h₂.wp_fdalloc (fun hnone => ?_) fun fd s₃ hfd h₃ hv₃ => .bind ?_)
  · refine .bind (h₂.wp_fileclose hs hf fun s₃ h₃ => .bind ?_)
    exact h₃.wp_iput hs (nil_subset _) fun s' h' => hfail (.inr (.inr hnone)) s' h'
  -- the two tables as `sys_open` leaves them
  have hft : update s₃.ftable f ((s₃.ftable f).opened n ip m) =
      update s.ftable f ({ s.ftable f with ref := 1 }.opened n ip m) := by
    rw [h₃.ftable]
    change update (update s.ftable f _) f ((update s.ftable f _ f).opened n ip m) = _
    rw [update_idem, update_self]
  change Wp E (ite _ _ _) Q _
  split
  · next htrunc =>
    refine .bind (hok f fd _ hf hfd ⟨?_, h₃.cwd, h₃.ofile, hft, h₃.ref, h₃.valid, fun hd => ?_⟩ (hv₃.trans hv₂))
    · change update s₃.node ip _ = if _ then _ else _
      rw [if_pos htrunc, h₃.node]
    change freeBlocks s₃.blocks ip = if _ then _ else _
    rw [if_pos htrunc, h₃.blocks (hd.of_openAs hn)]
  next htrunc =>
  refine hok f fd _ hf hfd ⟨?_, h₃.cwd, h₃.ofile, hft, h₃.ref, h₃.valid, fun hd => ?_⟩ (hv₃.trans hv₂)
  · change s₃.node = if _ then _ else _
    rw [if_neg htrunc, h₃.node]
  change s₃.blocks = if _ then _ else _
  rw [if_neg htrunc, h₃.blocks (hd.of_openAs hn)]

theorem wp_sysOpen (hs : Safe s []) (hw : Walks E s cwd G) (hdir : E "dirlink") (hino : E "ialloc: no inodes")
    (hN : ninodes ≤ 2 ^ 16)
    (hfail : (m.create = true → ∀ d name dp, resolve s.node cwd true path = some (d, name) →
      s.node d = some dp →
      lookup name dp.ents ≠ none) → ∀ s', Holds s s' [] → Q (-1) s')
    (hok : ∀ ip n (f : Fin NFILE) (fd : Fin NOFILE) s', s.node ip = some n → (s.ftable f).ref = 0 →
      s.ofile p fd = none → Holds (s.openAs p f fd n ip m) s' [ip] → s'.valid ip = true → Q fd s')
    (hnew : ∀ d name dp ip s', m.create = true → resolve s.node cwd true path = some (d, name) →
      s.node d = some dp →
      dp.kind = .dir → lookup name dp.ents = none → 0 < ip → ip < ninodes → s.node ip = none →
      Holds (s.make ip d dp name .file 0 0) s' [d, ip] → s'.valid ip = true →
      Wp E (do iput d; openNode p ip m) Q s') :
    Wp E (sysOpen ninodes p cwd path m) Q s := by
  unfold sysOpen
  split
  · next hc =>
    refine .bind (wp_create hs hw hdir hino hN ?_ ?_ ?_)
    · intro hno s₁ h₁
      exact hfail (fun _ => hno) s₁ h₁
    · intro d name dp ip k n s₁ hr hd hl hn _ _ h₁ hv
      refine h₁.wp_openNode hs hn (fun _ s' h' =>
        hfail (fun _ d' name' dp' hr' hd' => ?_) s' h') fun f fd s' hf hfd h' hv' =>
        hok ip n f fd s' hn hf hfd h' (by rw [hv']; exact hv)
      cases hr.symm.trans hr'
      cases hd.symm.trans hd'
      rw [hl]
      exact nofun
    · intro d name dp ip s₁ hr hd hk hl hpos hlt hfree h₁ hv
      exact hnew d name dp ip s₁ hc hr hd hk hl hpos hlt hfree h₁ hv
  next hc =>
  refine .bind (hw.wp_namex (.refl s) hs false path fun s₁ h₁ => ?_)
  cases hr : resolve s.node cwd false path with
  | none =>
    rw [hr] at h₁
    exact hfail (fun h => absurd h hc) s₁ h₁
  | some r =>
    obtain ⟨ip, nm⟩ := r
    rw [hr] at h₁
    refine .bind (h₁.wp_ilock (hw.resolved hr) fun n s₂ hn h₂ hv => ?_)
    split
    · exact .bind (h₂.wp_iput hs (nil_subset _) fun s' h' => hfail (fun h => absurd h hc) s' h')
    · exact h₂.wp_openNode hs hn (fun _ s' h' => hfail
        (fun h => absurd h hc) s' h') fun f fd s' hf hfd h' hv' =>
        hok ip n f fd s' hn hf hfd h' (by rw [hv']; exact hv)

/-! ## mkdir, mknod -/

omit [DecidableEq P] in
theorem wp_sysMake (hs : Safe s []) (hw : Walks E s cwd G) (hdir : E "dirlink") (hino : E "ialloc: no inodes")
    (hN : ninodes ≤ 2 ^ 16) {kind : Kind} {major minor : BitVec 16} (hkind : kind ≠ .file)
    (hfail : ∀ s', Holds s s' [] → Q (-1) s')
    (hnew : ∀ d name dp ip s', resolve s.node cwd true path = some (d, name) → s.node d = some dp →
      dp.kind = .dir → lookup name dp.ents = none → 0 < ip → ip < ninodes → s.node ip = none →
      Holds (s.make ip d dp name kind major minor) s' [d, ip] → s'.valid ip = true →
      Wp E (do iput d; iput ip; pure 0) Q s') :
    Wp E (sysMake ninodes cwd path kind major minor) Q s := by
  refine .bind (wp_create hs hw hdir hino hN ?_ ?_ ?_)
  · intro _ s₁ h₁
    exact hfail s₁ h₁
  · intro d name dp ip k n s₁ _ _ _ _ hk
    exact absurd hk hkind
  · intro d name dp ip s₁ hr hd hk hl hpos hlt hfree h₁ hv
    exact hnew d name dp ip s₁ hr hd hk hl hpos hlt hfree h₁ hv

/-! ## link -/

omit [DecidableEq P] in
theorem Holds.wp_unlinkBack (hn : s.node ip = some n) (hs : Safe s [])
    (h : Holds (s.put ip { n with nlink := n.nlink + 1 }) s₁ [ip])
    (hQ : ∀ s', Holds s s' [] → Q (-1) s') : Wp E (unlinkBack ip) Q s₁ := by
  have hput : (s.put ip { n with nlink := n.nlink + 1 }).node ip = some { n with nlink := n.nlink + 1 } :=
    Fs.put_node_self ..
  refine .bind (h.wp_ilock (fun hnone => nomatch hnone.symm.trans hput) fun n' s₂ hn' h₂ _ => ?_)
  cases hput.symm.trans hn'
  refine .bind (h₂.wp_setNode_same hput rfl fun s₃ h₃ _ => .bind ?_)
  have hback : n.nlink + 1 - 1 = n.nlink := by bv_omega
  simp only [hback, Fs.put_put, Fs.put_self hn] at h₃
  exact h₃.wp_iput hs (nil_subset _) fun s' h' => hQ s' h'

omit [DecidableEq P] in
theorem wp_sysLink (hs : Safe s []) (hw : Walks E s cwd G) (hdir : E "dirlink") {old new : List Byte}
    (hfail : ∀ s', Holds s s' [] → Q (-1) s')
    (hok : ∀ ip nm n d name dp s', resolve s.node cwd false old = some (ip, nm) → s.node ip = some n →
      n.kind ≠ .dir → resolve s.node cwd true new = some (d, name) → s.node d = some dp → dp.kind = .dir →
      lookup name dp.ents = none →
      Holds ((s.put ip { n with nlink := n.nlink + 1 }).put d
        { dp with ents := addEntry (newEntry name ip) dp.ents }) s' [d, ip] →
      Wp E (do iput d; iput ip; pure 0) Q s') :
    Wp E (sysLink cwd old new) Q s := by
  refine .bind (hw.wp_namex (.refl s) hs false old fun s₁ h₁ => ?_)
  cases hr : resolve s.node cwd false old with
  | none =>
    rw [hr] at h₁
    exact hfail s₁ h₁
  | some r =>
    obtain ⟨ip, nm⟩ := r
    rw [hr] at h₁
    refine .bind (h₁.wp_ilock (hw.resolved hr) fun n s₂ hn h₂ _ => ?_)
    split
    · exact .bind (h₂.wp_iput hs (nil_subset _) fun s' h' => hfail s' h')
    next hk =>
    refine .bind (h₂.wp_setNode_same hn rfl fun s₃ h₃ _ => ?_)
    have hs₃ : Safe (s.put ip { n with nlink := n.nlink + 1 }) [ip] := hs.put _
    have hw₃ := hw.put hn (n.nlink + 1)
    refine .bind (hw₃.wp_namex h₃ hs₃ true new fun s₄ h₄ => ?_)
    have hpath : resolve (s.put ip { n with nlink := n.nlink + 1 }).node cwd true new =
        resolve s.node cwd true new := resolveFrom_put hn _ _ _ _
    cases hr' : resolve s.node cwd true new with
    | none =>
      rw [hpath, hr'] at h₄
      rw [hpath, hr']
      exact Holds.wp_unlinkBack hn hs h₄ hfail
    | some r' =>
      obtain ⟨d, name⟩ := r'
      rw [hpath, hr'] at h₄
      rw [hpath, hr']
      obtain ⟨dp, hd, hkd⟩ := resolveFrom_parent hr'
      have hne : d ≠ ip := by
        rintro rfl
        exact hk (Option.some.inj (hn.symm.trans hd) ▸ hkd)
      have hd₃ : (s.put ip { n with nlink := n.nlink + 1 }).node d = some dp := by
        rw [Fs.put_node_ne _ _ hne, hd]
      refine .bind (h₄.wp_ilock (fun hnone => nomatch hnone.symm.trans hd₃) fun dp' s₅ hd' h₅ _ => .bind ?_)
      refine h₅.wp_dirlink hd₃ (fun _ => hs₃.mono (subset_cons_self d [ip])) hdir ?_ ?_
      · intro _ s₆ h₆
        rw [if_pos (by decide)]
        exact .bind (h₆.wp_iput hs₃ (List.Subset.refl _) fun s₇ h₇ => Holds.wp_unlinkBack hn hs h₇ hfail)
      intro hl s₆ h₆ _
      rw [if_neg (by decide)]
      exact hok ip nm n d name dp s₆ hr hn hk hr' hd hkd hl h₆

/-! ## unlink -/

theorem emptyScan_le (n : Node) : emptyScan n ≤ n.ents.length := by
  unfold emptyScan
  split
  · exact Nat.min_le_left ..
  · exact Nat.zero_le _

omit [DecidableEq P] in
theorem wp_sysUnlink (hs : Safe s []) (hw : Walks E s cwd G)
    (hlt : ∀ d name dp ip k n, resolve s.node cwd true path = some (d, name) → s.node d = some dp →
      dp.kind = .dir → namecmp name dot ≠ 0 → namecmp name dotdot ≠ 0 → lookup name dp.ents = some (ip, k) →
      s.node ip = some n → n.nlink.toInt < 1 → E "unlink: nlink < 1")
    (hfail : ∀ s', Holds s s' [] → Q (-1) s')
    (hok : ∀ d name dp ip k n s', resolve s.node cwd true path = some (d, name) → s.node d = some dp →
      dp.kind = .dir → namecmp name dot ≠ 0 → namecmp name dotdot ≠ 0 → lookup name dp.ents = some (ip, k) →
      s.node ip = some n → ¬ n.nlink.toInt < 1 → (n.kind = .dir → isdirempty n.ents = true) →
      Holds (s.put d { dp with
        ents := dp.ents.set k Dirent.zero
        nlink := if n.kind = .dir then dp.nlink - 1 else dp.nlink }) s' [d, ip] → s'.valid ip = true →
      Wp E (do
        iput d
        let n ← fields ip
        setNode ip { n with nlink := n.nlink - 1 }
        iput ip
        pure 0) Q s') :
    Wp E (sysUnlink cwd path) Q s := by
  refine .bind (hw.wp_namex (.refl s) hs true path fun s₁ h₁ => ?_)
  cases hr : resolve s.node cwd true path with
  | none =>
    rw [hr] at h₁
    exact hfail s₁ h₁
  | some r =>
    obtain ⟨d, name⟩ := r
    rw [hr] at h₁
    obtain ⟨dp, hd, hkd⟩ := resolveFrom_parent hr
    refine .bind (h₁.wp_ilock (hw.resolved hr) fun dp' s₂ hd' h₂ _ => ?_)
    cases hd.symm.trans hd'
    split
    · exact .bind (h₂.wp_iput hs (nil_subset _) fun s' h' => hfail s' h')
    next hdots =>
    rw [not_or] at hdots
    refine .bind (h₂.wp_access hd (scanned_le ..) fun s₂ h₂ _ => ?_)
    cases hl : lookup name dp.ents with
    | none => exact .bind (h₂.wp_iput hs (nil_subset _) fun s' h' => hfail s' h')
    | some r' =>
      obtain ⟨ip, k⟩ := r'
      refine .bind (h₂.wp_iget fun s₃ h₃ => .bind ?_)
      refine h₃.wp_ilock (hw.entry hr hd hkd hl) fun n s₄ hn h₄ hv₄ => ?_
      split
      · next hpanic => exact hlt d name dp ip k n hr hd hkd hdots.1 hdots.2 hl hn hpanic
      next hpos =>
      refine .bind (h₄.wp_access hn (emptyScan_le n) fun s₄ h₄ hv => ?_)
      rw [← hv] at hv₄
      split
      · refine .bind (h₄.wp_iput hs (nil_subset _) fun s₅ h₅ => .bind ?_)
        exact h₅.wp_iput hs (nil_subset _) fun s' h' => hfail s' h'
      next hempty =>
      have hset : ∀ m, s.node d = some m → m.ents.length ≤ (dp.ents.set k Dirent.zero).length := fun m hm => by
        cases hd.symm.trans hm
        rw [length_set]
      refine .bind (h₄.wp_fields hd (.bind (h₄.wp_setNode hset fun s₅ h₅ hv₅ => ?_)))
      refine hok d name dp ip k n s₅ hr hd hkd hdots.1 hdots.2 hl hn hpos ?_ (h₅.perm (.swap d ip [])) ?_
      · intro hk
        exact Bool.not_eq_false _ ▸ fun h => hempty ⟨hk, h⟩
      · rw [hv₅]
        exact hv₄

/-! ## chdir -/

theorem wp_sysChdir (hs : Safe s []) (hw : Walks E s cwd G)
    (hfail : ∀ s', Holds s s' [] → Q (-1) s')
    (hok : ∀ ip nm n s', resolve s.node cwd false path = some (ip, nm) → s.node ip = some n → n.kind = .dir →
      Holds s s' [ip] → s'.valid ip = true → Wp E (do iput cwd; setCwd p (some ip); pure 0) Q s') :
    Wp E (sysChdir p cwd path) Q s := by
  refine .bind (hw.wp_namex (.refl s) hs false path fun s₁ h₁ => ?_)
  cases hr : resolve s.node cwd false path with
  | none =>
    rw [hr] at h₁
    exact hfail s₁ h₁
  | some r =>
    obtain ⟨ip, nm⟩ := r
    rw [hr] at h₁
    refine .bind (h₁.wp_ilock (hw.resolved hr) fun n s₂ hn h₂ hv => ?_)
    split
    · exact .bind (h₂.wp_iput hs (nil_subset _) fun s' h' => hfail s' h')
    · next hk => exact hok ip nm n s₂ hr hn (not_not.1 hk) h₂ hv

end Xv6.Tree
