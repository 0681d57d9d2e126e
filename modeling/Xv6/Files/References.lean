import Xv6.Files.Descriptors
import Xv6.Structures.Links

set_option autoImplicit false

/-! # References of open files

For a process whose threads are not in two of these calls at once, the references of a file are the
descriptors that name it and those that calls under way have taken or not yet given back. Two
entries are not backed by a reference for a moment, also with one thread a process: the one that
`dup` writes before `filedup`, and the one that `exit` clears after `fileclose`. In the second
moment another process can take the file for an `open` of its own; the results are about runs in
which no other thread steps in between. -/

namespace Xv6.Descriptors

open Finset Function List Option Structures State

variable {P : Type}

namespace Pc

/-- The references that a call under way has, outside of the tables. -/
def uses : Pc P → List File
  | .fdalloc (.dup _) _ _ | .fdstore (.dup _) _ _ => []
  | .fdalloc .open_ f _ | .fdstore .open_ f _ => [f]
  | .fdalloc (.pipe0 wf) f _ | .fdstore (.pipe0 wf) f _ => [f, wf]
  | .fdalloc (.pipe1 _ _) f _ | .fdstore (.pipe1 _ _) f _ => [f]
  | .closeFile f | .pipeFile1 f | .pipeClear1 f _ _ | .pipeUndo _ f _ | .forkStore _ _ f => [f]
  | .closeTwo rf wf | .pipeKalloc rf wf => [rf, wf]
  | _ => []

/-- The entries that are there and have no reference. -/
def debts : Pc P → List File
  | .filedup _ _ f | .exitClear _ f => [f]
  | _ => []

def claim (pc : Pc P) (f : File) : Int := (pc.uses.count f : Int) - pc.debts.count f

def child : Pc P → Option P
  | .forkTest np _ | .forkRead np _ | .forkDup np _ _ | .forkStore np _ _ => some np
  | _ => none

def exits : Pc P → Bool
  | .exitTest _ | .exitRead _ | .exitClose _ _ | .exitClear _ _ => true
  | _ => false

/-- The files that the call still works with. -/
def files : Pc P → List File
  | .fdalloc (.pipe0 wf) f _ | .fdstore (.pipe0 wf) f _ => [f, wf]
  | .fdalloc (.pipe1 rf _) f _ | .fdstore (.pipe1 rf _) f _ => [rf, f]
  | .fdalloc _ f _ | .fdstore _ f _ | .filedup _ _ f | .using_ _ f | .closeClear _ f | .closeFile f
  | .pipeFile1 f | .forkDup _ _ f | .forkStore _ _ f | .exitClose _ f => [f]
  | .closeTwo rf wf | .pipeKalloc rf wf | .pipeOut rf wf _ _ | .pipeClear0 rf wf _ _ | .pipeClear1 rf wf _
  | .pipeUndo rf wf _ => [rf, wf]
  | _ => []

end Pc

/-- What `fdalloc` has to leave as it is. -/
def For.Facts (ofile : P × Fd → Option File) (p : P) (f : File) : For → Prop
  | .dup fd => ofile (p, fd) = some f
  | .pipe1 rf fd0 => ofile (p, fd0) = some rf
  | _ => True

/-- What a call under way knows of the table of its process, and of the child's. -/
def Pc.Facts (ofile : P × Fd → Option File) (p : P) : Pc P → Prop
  | .fdalloc k f _ => k.Facts ofile p f
  | .fdstore k f i => k.Facts ofile p f ∧ ofile (p, i) = none
  | .filedup fd i f => ofile (p, fd) = some f ∧ ofile (p, i) = some f ∧ fd ≠ i
  | .using_ fd f | .closeClear fd f => ofile (p, fd) = some f
  | .pipeOut rf wf fd0 fd1 | .pipeClear0 rf wf fd0 fd1 =>
    ofile (p, fd0) = some rf ∧ ofile (p, fd1) = some wf ∧ fd0 ≠ fd1
  | .pipeClear1 _ wf fd1 => ofile (p, fd1) = some wf
  | .pipeUndo rf _ fd0 => ofile (p, fd0) = some rf
  | .forkTest np i => ∀ j : Fd, i ≤ j.val → ofile (np, j) = none
  | .forkRead np i => ofile (p, i) ≠ none ∧ ∀ j : Fd, i.val ≤ j.val → ofile (np, j) = none
  | .forkDup np i f => ofile (p, i) = some f ∧ ∀ j : Fd, i.val ≤ j.val → ofile (np, j) = none
  | .forkStore np i _ => ∀ j : Fd, i.val ≤ j.val → ofile (np, j) = none
  | .exitTest i => ∀ j : Fd, j.val < i → ofile (p, j) = none
  | .exitRead i => ofile (p, i) ≠ none ∧ ∀ j : Fd, j.val < i.val → ofile (p, j) = none
  | .exitClose i f | .exitClear i f => ofile (p, i) = some f ∧ ∀ j : Fd, j.val < i.val → ofile (p, j) = none
  | _ => True

variable {ofile : P × Fd → Option File} {p q : P} {pc : Pc P} {fd fd' i : Fd} {o : Option File} {f : File}
  {k : Fin NTHREAD}

theorem Pc.Facts.congr {ofile' : P × Fd → Option File} (h : pc.Facts ofile p)
    (hp : ∀ fd, ofile' (p, fd) = ofile (p, fd))
    (hc : ∀ np fd, pc.child = some np → ofile' (np, fd) = ofile (np, fd)) : pc.Facts ofile' p := by
  cases pc with
  | fdalloc k | fdstore k => cases k <;> grind [Pc.Facts, For.Facts]
  | _ => grind [Pc.Facts, Pc.child]

/-- A file that a call works with is one that it has a reference of, or in the table. -/
theorem Pc.Facts.files (h : pc.Facts ofile p) (hf : f ∈ pc.files) :
    f ∈ pc.uses ∨ ∃ fd, ofile (p, fd) = some f := by
  cases pc with
  | fdalloc k | fdstore k => cases k <;> grind [Pc.Facts, For.Facts, Pc.files, Pc.uses]
  | _ => grind [Pc.Facts, Pc.files, Pc.uses]

/-! ## Counts -/

/-- Whether an entry names the file. -/
def ind (f : File) (o : Option File) : Int := if o = some f then 1 else 0

theorem ind_nonneg (f : File) (o : Option File) : 0 ≤ ind f o := by
  unfold ind
  split <;> decide

/-! ## The invariant -/

variable [DecidableEq P]

def Act.thread : Act P → Thread P
  | .call t _ | .run t _ => t

/-- A thread starts a call while no other thread of its process is in one, and no other thread steps
    between the write of an entry and the change of its reference in `dup` and `exit`. -/
def calm (s : State P) (a : Act P) (u : Unit) : Prop :=
  alone s a u ∧ ∀ t, t ≠ a.thread → (s.pc t).debts = []

variable [Fintype P]

instance calm.decidable (s : State P) (a : Act P) (u : Unit) : Decidable (calm s a u) :=
  inferInstanceAs (Decidable (_ ∧ _))

structure Inv (s : State P) : Prop where
  balance : ∀ f, (s.ref f : Int) = ∑ x, ind f (s.ofile x) + ∑ t, (s.pc t).claim f
  one : ∀ p k k', s.pc (p, k) ≠ .idle → s.pc (p, k') ≠ .idle → k = k'
  facts : ∀ t, (s.pc t).Facts s.ofile t.1
  live : ∀ t, s.pc t ≠ .idle → s.status t.1 = .live
  child : ∀ t np, (s.pc t).child = some np → s.status np = .embryo
  lone : ∀ t t' np, (s.pc t).child = some np → (s.pc t').child = some np → t = t'
  unused : ∀ p fd, s.status p = .unused → s.ofile (p, fd) = none

variable {s s' : State P} {t : Thread P} {old : Pc P} {x : P × Fd}

/-- What may become of a process in a step of `t` to `pc`: the child of a `fork` that begins or
    ends, and the process of an `exit` that ends. -/
def Turns (s s' : State P) (t : Thread P) (pc : Pc P) (p : P) : Prop :=
  s'.status p = s.status p ∨ s.status p = .unused ∧ s'.status p = .embryo ∧ pc.child = some p ∨
    (s.pc t).child = some p ∧ s'.status p = .live ∧ pc = .idle ∨
    p = t.1 ∧ s'.status p = .unused ∧ pc = .idle ∧ ∀ fd, s'.ofile (p, fd) = none

theorem Inv.moves (hi : Inv s) (hpc : s'.pc = update s.pc t pc) (hlive : s.status t.1 = .live)
    (hone : ∀ k, s.pc (t.1, k) ≠ .idle → k = t.2)
    (hofile : ∀ p fd, p ≠ q → s'.ofile (p, fd) = s.ofile (p, fd)) (hq : q = t.1 ∨ (s.pc t).child = some q)
    (hstatus : ∀ p, Turns s s' t pc p)
    (hchild : ∀ np, pc.child = some np →
      ((s.pc t).child = some np ∨ s.status np = .unused) ∧ s'.status np = .embryo)
    (hbal : ∀ f, (s'.ref f : Int) + ∑ x, ind f (s.ofile x) + (s.pc t).claim f =
      s.ref f + ∑ x, ind f (s'.ofile x) + pc.claim f)
    (hfacts : pc.Facts s'.ofile t.1) : Inv s' := by
  obtain ⟨p₀, k₀⟩ := t
  have hself : ∀ t', s'.pc t' = if t' = (p₀, k₀) then pc else s.pc t' := fun t' => by rw [hpc, update_apply]
  have hidle : (Pc.idle : Pc P).child = none := rfl
  obtain ⟨hbalance, hone', hfact, hlive', hch, hlone, hun⟩ := hi
  simp only [Turns] at hstatus
  refine ⟨fun f => ?_, ?_, ?_, ?_, ?_, ?_, ?_⟩
  · have hsum := sum_table (fun pc : Pc P => pc.claim f) s.pc (p₀, k₀) pc
    have hb := hbal f
    have hold := hbalance f
    simp only [hpc]
    omega
  · grind
  · rintro ⟨p, k⟩
    by_cases ht : (p, k) = (p₀, k₀)
    · grind
    rw [hself, if_neg ht]
    by_cases hp : s.pc (p, k) = .idle
    · rw [hp]
      trivial
    · refine (hfact (p, k)).congr (fun fd => ?_) fun np fd hnp => ?_ <;> grind
  · grind
  · grind
  · grind
  · grind

section

variable (hi : Inv s) (hpc : s.pc t = old) (hbusy : old ≠ .idle)
  (hchild : ∀ np, pc.child = some np → old.child = some np)

include hi hpc hbusy hchild

/-- A step in a call, in which no process begins or ends. -/
theorem Inv.go (hpc' : s'.pc = update s.pc t pc) (hstatus : s'.status = s.status)
    (hofile : ∀ p fd, p ≠ q → s'.ofile (p, fd) = s.ofile (p, fd)) (hq : q = t.1 ∨ old.child = some q)
    (hbal : ∀ f, (s'.ref f : Int) + ∑ x, ind f (s.ofile x) + old.claim f =
      s.ref f + ∑ x, ind f (s'.ofile x) + pc.claim f)
    (hfacts : pc.Facts s'.ofile t.1) : Inv s' := by
  subst hpc
  refine hi.moves hpc' (hi.live t hbusy) (fun k hk => hi.one t.1 k t.2 hk hbusy) hofile hq
    (fun p => .inl (by rw [hstatus])) (fun np hnp => ?_) hbal hfacts
  rw [hstatus]
  exact ⟨.inl (hchild np hnp), hi.child t np (hchild np hnp)⟩

theorem Inv.quiet (hclaim : ∀ f, pc.claim f = old.claim f) (hfacts : pc.Facts s.ofile t.1) :
    Inv (s.at_ t pc) := by
  refine hi.go hpc hbusy hchild rfl rfl (fun _ _ _ => rfl) (.inl rfl) (fun f => ?_) hfacts
  rw [hclaim f]
  rfl

theorem Inv.store (hq : q = t.1 ∨ old.child = some q)
    (hclaim : ∀ f, pc.claim f + ind f o = old.claim f + ind f (s.ofile (q, fd)))
    (hfacts : pc.Facts (update s.ofile (q, fd) o) t.1) : Inv ((s.store q fd o).at_ t pc) := by
  refine hi.go hpc hbusy hchild rfl rfl (fun p fd' hp => update_of_ne (fun h => hp (Prod.mk.inj h).1) ..) hq
    (fun f => ?_) hfacts
  have hsum := sum_table (ind f) s.ofile (q, fd) o
  have hc := hclaim f
  change (s.ref f : Int) + _ + _ = s.ref f + ∑ x, ind f (update s.ofile (q, fd) o x) + _
  omega

theorem Inv.setRef {n : Nat} (hclaim : ∀ g, pc.claim g = old.claim g + if f = g then (n : Int) - s.ref f else 0)
    (hfacts : pc.Facts s.ofile t.1) : Inv ((s.setRef f n).at_ t pc) := by
  refine hi.go hpc hbusy hchild rfl rfl (fun _ _ _ => rfl) (.inl rfl) (fun g => ?_) hfacts
  change ((update s.ref f n g : Nat) : Int) + ∑ x, ind g (s.ofile x) + _ = s.ref g + ∑ x, ind g (s.ofile x) + _
  have hc := hclaim g
  by_cases hg : g = f
  · subst hg
    rw [if_pos rfl] at hc
    rw [update_self]
    omega
  · rw [if_neg (Ne.symm hg)] at hc
    rw [update_of_ne hg]
    omega

theorem Inv.filealloc (hf : s.filealloc = some f)
    (hclaim : ∀ g, pc.claim g = old.claim g + if f = g then 1 else 0)
    (hfacts : pc.Facts s.ofile t.1) : Inv ((s.setRef f 1).at_ t pc) := by
  have hzero : s.ref f = 0 := by simpa using find?_some hf
  refine hi.setRef hpc hbusy hchild (fun g => ?_) hfacts
  rw [hclaim g, hzero]
  rfl

variable (pc) in
theorem Inv.filedup (hpos : 0 < s.ref f)
    (hclaim : ∀ g, pc.claim g = old.claim g + if f = g then 1 else 0)
    (hfacts : pc.Facts s.ofile t.1) : ∃ s', s.filedup t f pc = .ok s' ∧ Inv s' := by
  refine ⟨_, if_neg (by omega), hi.setRef hpc hbusy hchild (fun g => ?_) hfacts⟩
  rw [hclaim g]
  split <;> omega

variable (pc) in
theorem Inv.fileclose (hpos : 0 < s.ref f)
    (hclaim : ∀ g, old.claim g = pc.claim g + if f = g then 1 else 0)
    (hfacts : pc.Facts s.ofile t.1) : ∃ s', s.fileclose t f pc = .ok s' ∧ Inv s' := by
  refine ⟨_, if_neg (by omega), hi.setRef hpc hbusy hchild (fun g => ?_) hfacts⟩
  rw [hclaim g]
  split <;> omega

theorem Inv.put (hq : q = t.1 ∨ old.child = some q) (hfree : s.ofile (q, fd) = none)
    (hclaim : ∀ g, old.claim g = pc.claim g + if f = g then 1 else 0)
    (hfacts : pc.Facts (update s.ofile (q, fd) (some f)) t.1) : Inv ((s.store q fd (some f)).at_ t pc) := by
  refine hi.store hpc hbusy hchild hq (fun g => ?_) hfacts
  rw [hfree, hclaim g]
  simp [ind, add_comm]

theorem Inv.clear (hentry : s.ofile (t.1, fd) = some f)
    (hclaim : ∀ g, pc.claim g = old.claim g + if f = g then 1 else 0)
    (hfacts : pc.Facts (update s.ofile (t.1, fd) none) t.1) : Inv ((s.store t.1 fd none).at_ t pc) := by
  refine hi.store hpc hbusy hchild (.inl rfl) (fun g => ?_) hfacts
  rw [hentry, hclaim g]
  simp [ind]

end

/-! ## A file that is used has a reference -/

section

omit [DecidableEq P]

/-- If no other thread owes a reference, there are as many as there are entries. -/
theorem Inv.ref_ge (hi : Inv s) (hcalm : ∀ t', t' ≠ t → (s.pc t').debts = []) (f : File) :
    ∑ x, ind f (s.ofile x) + (s.pc t).claim f ≤ s.ref f := by
  classical
  have hrest : 0 ≤ ∑ t' ∈ Finset.univ.erase t, (s.pc t').claim f := Finset.sum_nonneg fun t' ht' => by
    simp [Pc.claim, hcalm t' (ne_of_mem_erase ht')]
  have hsum := add_sum_erase Finset.univ (fun t' => (s.pc t').claim f) (mem_univ t)
  have hb := hi.balance f
  omega

theorem entries_pos (h : s.ofile x = some f) : 1 ≤ ∑ x, ind f (s.ofile x) := by
  have hle := Finset.single_le_sum (f := fun x => ind f (s.ofile x)) (fun x _ => ind_nonneg f _) (mem_univ x)
  simpa [h, ind] using hle

theorem Inv.ref_pos (hi : Inv s) (hcalm : ∀ t', t' ≠ t → (s.pc t').debts = []) (hnone : (s.pc t).debts = [])
    (h : f ∈ (s.pc t).uses ∨ ∃ x, s.ofile x = some f) : 0 < s.ref f := by
  have hge := hi.ref_ge hcalm f
  have hnonneg : 0 ≤ ∑ x, ind f (s.ofile x) := Finset.sum_nonneg fun x _ => ind_nonneg f _
  simp only [Pc.claim, hnone, count_nil] at hge
  rcases h with h | ⟨x, hx⟩
  · have := count_pos_iff.2 h
    omega
  · have := entries_pos hx
    omega

end

/-- `filedup` in `dup` finds the reference of the entry that is copied. -/
theorem Inv.ref_pos_dup (hi : Inv s) (hcalm : ∀ t', t' ≠ t → (s.pc t').debts = [])
    (hpc : s.pc t = .filedup fd i f) :
    0 < s.ref f := by
  have hge := hi.ref_ge hcalm f
  have hfacts := hi.facts t
  rw [hpc] at hge hfacts
  obtain ⟨hfd, hi', hne⟩ := hfacts
  have hle := sum_le_sum_of_subset_of_nonneg (f := fun x => ind f (s.ofile x))
    (subset_univ {(t.1, fd), (t.1, i)}) fun x _ _ => ind_nonneg f _
  rw [Finset.sum_pair (fun h => hne (Prod.mk.inj h).2), hfd, hi'] at hle
  simp [ind, Pc.claim, Pc.uses, Pc.debts] at hle hge
  omega

/-! ## Steps -/

omit [DecidableEq P] [Fintype P] in
theorem claim_gain {pc' : Pc P} (h : (pc.uses ++ pc'.debts).Perm (f :: (pc'.uses ++ pc.debts)))
    (g : File) : pc.claim g = pc'.claim g + if f = g then 1 else 0 := by
  have hcount := h.count_eq g
  rw [count_cons, count_append, count_append] at hcount
  simp only [beq_iff_eq] at hcount
  unfold Pc.claim
  split at hcount <;> simp only [*, if_true, if_false] <;> omega

omit [Fintype P] in
theorem update_entry_ne (h : fd' ≠ fd) : update ofile (p, fd) o (p, fd') = ofile (p, fd') :=
  update_of_ne (fun heq => h (Prod.mk.inj heq).2) ..

/-- At the end of `fork` the child lives, and at the end of `exit` the process is gone. -/
theorem Inv.ends (hi : Inv s) {st : Status} (hpc : s.pc t = old) (hbusy : old ≠ .idle)
    (hclaim : ∀ f, old.claim f = 0)
    (hst : st = .live ∧ old.child = some q ∨ st = .unused ∧ q = t.1 ∧ ∀ fd, s.ofile (q, fd) = none) :
    Inv { s.at_ t .idle with status := update s.status q st } := by
  subst hpc
  refine hi.moves (q := t.1) rfl (hi.live t hbusy) (fun k hk => hi.one t.1 k t.2 hk hbusy)
    (fun _ _ _ => rfl) (.inl rfl)
    (fun p => ?_) nofun (fun f => ?_) trivial
  · by_cases hp : p = q
    · subst hp
      rcases hst with ⟨rfl, hc⟩ | ⟨rfl, rfl, hnone⟩
      · exact .inr (.inr (.inl ⟨hc, update_self .., rfl⟩))
      · exact .inr (.inr (.inr ⟨rfl, update_self .., rfl, hnone⟩))
    · exact .inl (update_of_ne hp ..)
  · rw [hclaim f]
    rfl

section

variable (hi : Inv s) (hcalm : ∀ t', t' ≠ t → (s.pc t').debts = [])

include hi

theorem Inv.fdalloc {k : For} {i : Nat} (hpc : s.pc t = .fdalloc k f i) (ok : Bool) :
    ∃ s', s.run t ok = some (.ok s') ∧ Inv s' := by
  have hfacts := hi.facts t
  rw [hpc] at hfacts
  simp only [State.run, hpc]
  split
  · split
    · next hfree => exact ⟨_, rfl, hi.quiet hpc nofun nofun (fun _ => by cases k <;> rfl) ⟨hfacts, hfree⟩⟩
    · exact ⟨_, rfl, hi.quiet hpc nofun nofun (fun _ => by cases k <;> rfl) hfacts⟩
  refine ⟨_, rfl, hi.quiet hpc nofun ?_ (fun _ => by cases k <;> rfl) ?_⟩
  · cases k <;> exact nofun
  · cases k with
    | pipe1 rf fd0 => exact hfacts
    | _ => trivial

theorem Inv.fdstore {k : For} (hpc : s.pc t = .fdstore k f i) (ok : Bool) :
    ∃ s', s.run t ok = some (.ok s') ∧ Inv s' := by
  obtain ⟨hk, hfree⟩ : (Pc.fdstore k f i).Facts s.ofile t.1 := hpc ▸ hi.facts t
  simp only [State.run, hpc]
  refine ⟨_, rfl, hi.put hpc nofun ?_ (.inl rfl) hfree ?_ ?_⟩
  · cases k <;> exact nofun
  · cases k <;> exact claim_gain (.refl _)
  -- the entry that is written was free, and so is not one that the call knows
  · cases k with
    | dup fd | pipe1 rf fd =>
      have hne : fd ≠ i := by
        rintro rfl
        cases hfree.symm.trans hk
      exact ⟨(update_entry_ne hne).trans hk, update_self .., hne⟩
    | open_ => trivial
    | pipe0 wf => exact update_self ..

include hcalm

theorem Inv.forkStep {np : P} (hc : (s.pc t).child = some np) (ok : Bool) :
    ∃ s', s.run t ok = some (.ok s') ∧ Inv s' := by
  have hfacts := hi.facts t
  unfold State.run
  cases hpc : s.pc t with rw [hpc] at hfacts hc
  | forkTest np' i =>
    cases hc
    dsimp only
    split_ifs with hlt hnone
    · exact ⟨_, rfl, hi.quiet hpc nofun (fun _ h => h) (fun _ => rfl) fun j hj => hfacts j (by omega)⟩
    · exact ⟨_, rfl, hi.quiet hpc nofun (fun _ h => h) (fun _ => rfl) ⟨hnone, hfacts⟩⟩
    · exact ⟨_, rfl, hi.ends hpc nofun (fun _ => rfl) (.inl ⟨rfl, rfl⟩)⟩
  | forkRead np' i =>
    obtain ⟨f, hf⟩ := ne_none_iff_exists'.1 hfacts.1
    simp only [hf]
    exact ⟨_, rfl, hi.quiet hpc nofun (fun _ h => h) (fun _ => rfl) ⟨hf, hfacts.2⟩⟩
  | forkDup np' i f =>
    have hpos := hi.ref_pos hcalm (by rw [hpc]; rfl) (.inr ⟨_, hfacts.1⟩)
    obtain ⟨s', hs', hi'⟩ := hi.filedup (.forkStore np' i f) hpc nofun (fun _ h => h) hpos
      (claim_gain (.refl _)) hfacts.2
    exact ⟨s', congrArg some hs', hi'⟩
  | forkStore np' i f =>
    cases hc
    refine ⟨_, rfl, hi.put hpc nofun (fun _ h => h) (.inr rfl) (hfacts i (Nat.le_refl _)) (claim_gain (.refl _))
      fun j hj => ?_⟩
    have hne : j ≠ i := by
      rintro rfl
      omega
    exact (update_entry_ne hne).trans (hfacts j (by omega))
  | _ => cases hc

theorem Inv.exitStep (hx : (s.pc t).exits = true) (ok : Bool) : ∃ s', s.run t ok = some (.ok s') ∧ Inv s' := by
  have hfacts := hi.facts t
  unfold State.run
  cases hpc : s.pc t with rw [hpc] at hfacts hx
  | exitTest i =>
    dsimp only
    split_ifs with hlt hnone
    · refine ⟨_, rfl, hi.quiet hpc nofun nofun (fun _ => rfl) fun j hj => ?_⟩
      rcases Nat.lt_succ_iff_lt_or_eq.1 hj with hj | hj
      · exact hfacts j hj
      · exact (Fin.ext hj : j = ⟨i, hlt⟩) ▸ hnone
    · exact ⟨_, rfl, hi.quiet hpc nofun nofun (fun _ => rfl) ⟨hnone, hfacts⟩⟩
    · exact ⟨_, rfl, hi.ends hpc nofun (fun _ => rfl) (.inr ⟨rfl, rfl, fun fd => hfacts fd (by omega)⟩)⟩
  | exitRead i =>
    obtain ⟨f, hf⟩ := ne_none_iff_exists'.1 hfacts.1
    simp only [hf]
    exact ⟨_, rfl, hi.quiet hpc nofun nofun (fun _ => rfl) ⟨hf, hfacts.2⟩⟩
  | exitClose i f =>
    have hpos := hi.ref_pos hcalm (by rw [hpc]; rfl) (.inr ⟨_, hfacts.1⟩)
    obtain ⟨s', hs', hi'⟩ := hi.fileclose (.exitClear i f) hpc nofun nofun hpos (claim_gain (.refl _)) hfacts
    exact ⟨s', congrArg some hs', hi'⟩
  | exitClear i f =>
    refine ⟨_, rfl, hi.clear hpc nofun nofun hfacts.1 (claim_gain (.refl _)) fun j hj => ?_⟩
    by_cases hne : j = i
    · rw [hne, update_self]
    · have := Fin.val_ne_of_ne hne
      exact (update_entry_ne hne).trans (hfacts.2 j (by omega))
  | _ => cases hx

/-- **A thread in a call can take its next step, without a panic.** -/
theorem Inv.run (hbusy : s.pc t ≠ .idle) (ok : Bool) : ∃ s', s.run t ok = some (.ok s') ∧ Inv s' := by
  have hfacts := hi.facts t
  have hused : ∀ {f}, (s.pc t).debts = [] → f ∈ (s.pc t).uses →
    0 < s.ref f := fun hd hf => hi.ref_pos hcalm hd (.inl hf)
  cases hpc : s.pc t with
  | idle => exact absurd hpc hbusy
  | fdalloc k f i => exact hi.fdalloc hpc ok
  | fdstore k f i => exact hi.fdstore hpc ok
  | forkTest np i | forkRead np i | forkDup np i f | forkStore np i f =>
    exact hi.forkStep hcalm (by rw [hpc]; rfl) ok
  | exitTest i | exitRead i | exitClose i f | exitClear i f => exact hi.exitStep hcalm (by rw [hpc]; rfl) ok
  | argfd c fd =>
    simp only [State.run, hpc]
    split
    · exact ⟨_, rfl, hi.quiet hpc nofun nofun (fun _ => rfl) trivial⟩
    · next f hf =>
      cases c with
      | dup | close | use => exact ⟨_, rfl, hi.quiet hpc nofun nofun (fun _ => rfl) hf⟩
  | filedup fd i f =>
    obtain ⟨s', hs', hi'⟩ := hi.filedup .idle hpc nofun nofun (hi.ref_pos_dup hcalm hpc) (claim_gain (.refl _))
      trivial
    simp only [State.run, hpc, hs']
    exact ⟨s', rfl, hi'⟩
  | using_ fd f =>
    simp only [State.run, hpc]
    exact ⟨_, rfl, hi.quiet hpc nofun nofun (fun _ => rfl) trivial⟩
  | closeClear fd f | pipeUndo rf wf fd0 =>
    rw [hpc] at hfacts
    simp only [State.run, hpc]
    exact ⟨_, rfl, hi.clear hpc nofun nofun hfacts (claim_gain (.refl _)) trivial⟩
  | closeFile f =>
    rw [hpc] at hused
    obtain ⟨s', hs', hi'⟩ := hi.fileclose .idle hpc nofun nofun (hused rfl mem_cons_self) (claim_gain (.refl _))
      trivial
    simp only [State.run, hpc, hs']
    exact ⟨s', rfl, hi'⟩
  | closeTwo rf wf =>
    rw [hpc] at hused
    obtain ⟨s', hs', hi'⟩ := hi.fileclose (.closeFile wf) hpc nofun nofun (hused rfl mem_cons_self)
      (claim_gain (.refl _)) trivial
    simp only [State.run, hpc, hs']
    exact ⟨s', rfl, hi'⟩
  | openFile | pipeFile0 | pipeFile1 rf =>
    simp only [State.run, hpc]
    split
    · exact ⟨_, rfl, hi.quiet hpc nofun nofun (fun _ => rfl) trivial⟩
    · next f hf =>
      refine ⟨_, rfl, hi.filealloc hpc nofun nofun hf (claim_gain ?_) trivial⟩
      first
      | exact .refl _
      | exact .swap ..
  | pipeKalloc rf wf =>
    simp only [State.run, hpc]
    cases ok with
    | true | false => exact ⟨_, rfl, hi.quiet hpc nofun nofun (fun _ => rfl) trivial⟩
  | pipeOut rf wf fd0 fd1 =>
    rw [hpc] at hfacts
    simp only [State.run, hpc]
    cases ok with
    | true => exact ⟨_, rfl, hi.quiet hpc nofun nofun (fun _ => rfl) trivial⟩
    | false => exact ⟨_, rfl, hi.quiet hpc nofun nofun (fun _ => rfl) hfacts⟩
  | pipeClear0 rf wf fd0 fd1 =>
    rw [hpc] at hfacts
    obtain ⟨h0, h1, hne⟩ := hfacts
    simp only [State.run, hpc]
    exact ⟨_, rfl, hi.clear hpc nofun nofun h0 (claim_gain (.refl _))
      ((update_entry_ne (Ne.symm hne)).trans h1)⟩
  | pipeClear1 rf wf fd1 =>
    rw [hpc] at hfacts
    simp only [State.run, hpc]
    exact ⟨_, rfl, hi.clear hpc nofun nofun hfacts (claim_gain (by exact .swap ..)) trivial⟩

end

/-! ## The start of a call -/

theorem Inv.starts (hi : Inv s) (hpc : s'.pc = update s.pc t pc) (hofile : s'.ofile = s.ofile)
    (href : s'.ref = s.ref)
    (halone : ∀ k, s.pc (t.1, k) = .idle) (hlive : s.status t.1 = .live) (hclaim : ∀ f, pc.claim f = 0)
    (hfacts : pc.Facts s.ofile t.1) (hchild : ∀ np, pc.child = some np → s.status np = .unused)
    (hstatus : ∀ p, s'.status p = if pc.child = some p then .embryo else s.status p) : Inv s' := by
  have hidle : s.pc t = .idle := halone t.2
  refine hi.moves (q := t.1) hpc hlive (fun k hk => absurd (halone k) hk)
    (fun _ _ _ => by rw [hofile]) (.inl rfl)
    (fun p => ?_) (fun np hnp => ?_) (fun f => ?_) (hofile ▸ hfacts)
  · unfold Turns
    grind
  · exact ⟨.inr (hchild np hnp), by rw [hstatus, if_pos hnp]⟩
  · rw [hidle, hclaim f, hofile, href]
    rfl

theorem Inv.call (hi : Inv s) {c : Call P} (halone : ∀ k, s.pc (t.1, k) = .idle)
    {r : Except String (State P)} (h : s.next (.call t c) = some r) : ∃ s', r = .ok s' ∧ Inv s' := by
  obtain ⟨⟨-, hlive⟩, h⟩ := ite_none_right_eq_some.1 h
  have hplain : ∀ {pc : Pc P}, (∀ f, pc.claim f = 0) → pc.child = none → pc.Facts s.ofile t.1 →
    Inv (s.at_ t pc) :=
    fun hclaim hchild hfacts => hi.starts rfl rfl rfl halone hlive hclaim hfacts (by simp [hchild])
      (by simp [hchild, at_])
  have hargfd : ∀ c fd, Inv (s.argfd t c fd) := by
    intro c fd
    unfold argfd
    split
    · exact hplain (fun _ => rfl) rfl trivial
    · exact hi
  cases c with
  | dup fd | close fd | use fd =>
    cases h
    exact ⟨_, rfl, hargfd _ fd⟩
  | open_ | pipe =>
    cases h
    exact ⟨_, rfl, hplain (fun _ => rfl) rfl trivial⟩
  | exit =>
    cases h
    exact ⟨_, rfl, hplain (fun _ => rfl) rfl fun _ hj => absurd hj (Nat.not_lt_zero _)⟩
  | fork np =>
    obtain ⟨hun, ⟨⟩⟩ := ite_none_right_eq_some.1 h
    exact ⟨_, rfl, hi.starts rfl rfl rfl halone hlive (fun _ => rfl) (fun j _ => hi.unused np j hun)
      (by simpa [Pc.child] using hun) fun p => by simp [Pc.child, update_apply, eq_comm]⟩

/-- No step panics, and the next state is one with the invariant. -/
theorem Inv.next (hi : Inv s) {a : Act P} (ha : calm s a ()) {r : Except String (State P)}
    (h : s.next a = some r) :
    ∃ s', r = .ok s' ∧ Inv s' := by
  cases a with
  | call t c => exact hi.call ha.1 h
  | run t ok =>
    by_cases hbusy : s.pc t = .idle
    · simp only [State.next, State.run, hbusy] at h
      cases h
    · obtain ⟨s', hs', hi'⟩ := hi.run ha.2 hbusy ok
      exact ⟨s', some.inj (h.symm.trans hs'), hi'⟩

theorem Inv.step (hi : Inv s) {a : Act P} (ha : calm s a ()) (h : s.step a = some s') : Inv s' := by
  unfold State.step at h
  split at h
  · next s₁ hnext =>
    obtain ⟨s₂, hs₂, hi'⟩ := hi.next ha hnext
    cases h
    cases hs₂
    exact hi'
  · cases h

/-! ## Runs -/

/-- No file is open; some processes are there. -/
def State.start (there : P → Bool) : State P where
  ofile := fun _ => none
  ref := fun _ => 0
  status := fun p => if there p then .live else .unused
  pc := fun _ => .idle

omit [DecidableEq P] in
theorem Inv.start (there : P → Bool) : Inv (State.start there) where
  balance := by
    intro f
    change (0 : Int) = ∑ _ : P × Fd, (0 : Int) + ∑ _ : Thread P, (0 : Int)
    simp
  one := fun _ _ _ h => absurd rfl h
  facts := fun _ => trivial
  live := fun _ h => absurd rfl h
  child := nofun
  lone := nofun
  unused := fun _ _ _ => rfl

end Xv6.Descriptors
