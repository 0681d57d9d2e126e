import Xv6.Threads.Exec

set_option autoImplicit false

/-! # When killthreads returns, the caller is alone

`killthreads` marks and scans the thread table without a lock, while its siblings may create threads
in slots it has already passed. It is sound because a thread can only create threads in slots above
its own (`Table.Ok.order`), so a creator that is still to come carries the scan past everything it
creates (`Acts.swept`). From this: a process becomes `ZOMBIE` only when all its threads are gone,
and `freeproc` only frees processes of which no thread can run any more.

But `freeproc` keeps `p->user_trap_frame_backup` when it has given that page back. When `allocproc`
takes the slot again and there is no memory, `freeproc` gives the page back a second time, and by
then it can be the trapframe page of another process. -/

namespace Xv6

open Function Machine

/-- Thread `t` can still run: it waits for a cpu or for a wake-up, or a cpu executes it and not only
    until its next instruction panics. -/
def CanRun (s : KState) (t : ThreadRef) : Prop :=
  ((s.mem.thread t).state = .runnable ∨ (s.mem.thread t).state = .sleeping ∨
    (s.mem.thread t).state = .running) ∨ ∃ c, On s c t

/-- The slot that an action frees and the process there as `freeproc` finds it: in `wait` and
    `fork`, and in an `allocproc` that runs out of memory. -/
def Act.frees (m : Mem) : Act → Option (PIdx × Proc)
  | .freeproc j => some (j, m.procs j)
  | .allocproc j g =>
    if g.tf = 0 then some (j, m.procs j)
    else if g.pagetable = false then some (j, { m.procs j with trapframepointer := g.tf })
    else if g.backup = 0 then
      some (j, { m.procs j with trapframepointer := g.tf, userTrapFrameBackup := 0, backupPage := 0 })
    else none
  | _ => none

/-- The thread to which `killthreads` is about to return on cpu `c`. -/
def killthreadsDone (s : KState) (c : CpuId) : Option ThreadRef :=
  match s.top c with
  | some (.killthreads me .done) => some me
  | _ => none

/-- The process that the next step of cpu `c` frees. -/
def freesNext (s : KState) (c : CpuId) (e : Env) : Option (PIdx × Proc) :=
  match (s.top c).map (code (s.view c e)) with
  | some (.act a _) => a.frees s.mem
  | _ => none

/-- The pages that `freeproc` hands to `kfree` besides those of the page table. -/
def Proc.released (p : Proc) : List Nat :=
  [p.trapframepointer, p.userTrapFrameBackup.toNat].filter (· ≠ 0)

/-- The pages that a process has from `allocproc`. -/
def Proc.owned (p : Proc) : List Nat := [p.trapframepointer, p.backupPage.toNat]

/-- `kalloc` gives `allocproc` no page that another process has. -/
def Pages.Fresh (g : Pages) (m : Mem) (j : PIdx) : Prop :=
  ∀ q, q ≠ j → ∀ a ∈ [g.tf, g.backup.toNat], a ≠ 0 → a ∉ (m.procs q).owned

instance (g : Pages) (m : Mem) (j : PIdx) : Decidable (g.Fresh m j) := by
  unfold Pages.Fresh
  infer_instance

/-- The step does not give a process a page that another one has. -/
def allocatesFresh (s : KState) (c : CpuId) (e : Env) : Bool :=
  match (s.top c).map (code (s.view c e)) with
  | some (.act (.allocproc j g) _) | some (.spawn (.allocproc j g) _ _ _) => g.Fresh s.mem j
  | _ => true

/-- The trapframe page of a process is no other's. -/
def Mem.Apart (m : Mem) : Prop :=
  ∀ p q, p ≠ q → (m.procs p).trapframepointer ≠ 0 → (m.procs p).trapframepointer ∉ (m.procs q).owned

namespace Mem.Apart

variable {m m' : Mem} {a : Act} {g : Pages} {j : PIdx}

theorem less (h : m.Apart) (hp : ∀ q,
    ((m'.procs q).trapframepointer = 0 ∨ (m'.procs q).trapframepointer = (m.procs q).trapframepointer) ∧
      ((m'.procs q).backupPage = 0 ∨ (m'.procs q).backupPage = (m.procs q).backupPage)) : m'.Apart := by
  intro p q hne h0
  have hpq := h p q hne
  grind [Proc.owned]

theorem allocproc (h : m.Apart) (hf : g.Fresh m j) : (Xv6.allocproc m j g).Apart := by
  have hother : ∀ q, q ≠ j → (Xv6.allocproc m j g).procs q = m.procs q := fun q => procs_allocproc_other m g
  have hself : ((Xv6.allocproc m j g).procs j).trapframepointer = 0 ∧
        ((Xv6.allocproc m j g).procs j).backupPage = 0 ∨
      ((Xv6.allocproc m j g).procs j).trapframepointer = g.tf ∧
        ((Xv6.allocproc m j g).procs j).backupPage = g.backup := by
    simp only [Xv6.allocproc]
    split_ifs <;> simp [Xv6.freeproc]
  intro p q hne h0
  have hpq := h p q hne
  have hfp := hf p
  have hfq := hf q
  grind [Proc.owned]

theorem act (h : m.Apart) (hf : ∀ j g, a = .allocproc j g → g.Fresh m j) : (a.apply m).Apart := by
  cases a with
  | allocproc j g => exact h.allocproc (hf j g rfl)
  | proc p a =>
    refine h.less fun q => ?_
    have hk := a.apply_kept (m.procs p)
    simp only [Act.apply, procs_modProc]
    split
    · next hq =>
      subst hq
      exact ⟨.inr hk.trapframepointer, .inr hk.backupPage⟩
    · exact ⟨.inr rfl, .inr rfl⟩
  | _ =>
    refine h.less fun q => ?_
    simp only [Act.apply, Mem.modThread, procs_modProc]
    grind [Proc.modThread, Xv6.freeproc, forkCopyProc]

theorem step {s s' : KState} {c : CpuId} {e : Env} (h : s.mem.Apart) (hf : allocatesFresh s c e = true)
    (hstep : Step kernel s c e s') : s'.mem.Apart := by
  cases hstep with
  | @trap f a t _ _ _ ht =>
    obtain ⟨cause, regs, rfl, rfl⟩ := trapEntry_some ht
    exact h.act (a := .proc _ _) nofun
  | act hr hk | spawn hr hk =>
    refine h.act fun j g ha => ?_
    subst ha
    simpa [allocatesFresh, hr.top, show code _ _ = _ from hk] using hf
  | @dispatch f k a t below hr hk =>
    have heff : Effect s.mem f _ := effect_of_code hk
    obtain ⟨p, i, -, -, -, rfl, -⟩ := heff
    exact h.act (a := .setState _ _) nofun
  | _ => exact h

end Mem.Apart

theorem Mem.Apart.boot (g : Pages) (um : UserMem) : (Xv6.boot g um).mem.Apart := by
  have hfirst : bootMem.Apart := fun _ _ _ h => absurd rfl h
  have hfresh : g.Fresh bootMem 0 := fun q _ a _ h0 ha => h0 (by simpa [Proc.owned, bootMem] using ha)
  refine (hfirst.allocproc hfresh).less fun q => ?_
  simp only [Xv6.boot, userinit, Mem.modThread, procs_modProc]
  grind [Proc.modThread]

theorem Act.frees_slot {m : Mem} {a : Act} {x : PIdx × Proc} (h : a.frees m = some x) :
    a = .freeproc x.1 ∨ ∃ g, a = .allocproc x.1 g := by
  cases a <;> grind [Act.frees]

/-- A page that `freeproc` hands to `kfree` is the slot's own, or `allocproc` has just got it. -/
theorem Act.frees_pages {m : Mem} {a : Act} {j : PIdx} {p : Proc} (h : a.frees m = some (j, p))
    (hown : p.strayBackup = false) {x : Nat} (hx : x ∈ p.released) :
    x ≠ 0 ∧ (x ∈ (m.procs j).owned ∨ ∃ g, a = .allocproc j g ∧ x = g.tf) := by
  cases a <;> grind [Act.frees, Proc.strayBackup, Proc.released, Proc.owned]

section

variable {s s' : KState} {c : CpuId} {e : Env} {f k : Frame} {below : List Frame} {a : Act}
  {t me : ThreadRef} {j : PIdx} {p : Proc}

theorem ThreadState.dead_iff {st : ThreadState} : st.dead = true ↔ st = .unused ∨ st = .zombie := by
  cases st <;> simp [ThreadState.dead]

namespace Core

theorem killthreads_done (h : Core s) (hd : killthreadsDone s c = some me) {i : TIdx}
    (hi : i ≠ me.i) : (s.mem.thread ⟨me.p, i⟩).state.dead = true := by
  obtain ⟨below, hr⟩ : ∃ below, s.Runs c (.killthreads me .done) below := by
    unfold killthreadsDone at hd
    split at hd
    · next htop =>
      cases hd
      exact State.runs_of_top htop
    · cases hd
  have hswept : Swept s me NTHREAD := h.top_asserts hr.active (h.mine hr.active) rfl
  rcases hswept with hs | ⟨k, hk, -⟩
  · exact hs i i.isLt hi
  · exact absurd hk (Nat.not_le.2 k.isLt)

theorem zombie_dead (h : Core s) (hz : (s.mem.procs t.p).state = .zombie) :
    (s.mem.thread t).state.dead = true := by
  by_contra hd
  cases (h.table.alive t (Bool.eq_false_iff.2 hd)).symm.trans hz

/-- A thread of a process that is a zombie, free or being set up does not run while the lock of the
    process is held elsewhere. -/
theorem cannot_run (h : Core s) (hlock : s.lock (.proc t.p) = some c)
    (hj : s.mem.table.proc t.p ≠ .used ∨ Child s t.p) (hown : ¬ On s c t) : ¬ CanRun s t := by
  have hstate : (s.mem.table.slot t).state.dead = true ∨ (s.mem.table.slot t).state = .used := by
    rcases hj with hj | hj
    · left
      by_contra hd
      exact hj (h.table.alive t (Bool.eq_false_iff.2 hd))
    rcases hj.embryo.state with hst | hst
    · exact .inr hst
    · exact .inl (by rw [hst]; rfl)
  obtain ⟨hr, hs, hrun⟩ : (s.mem.table.slot t).state ≠ .runnable ∧ (s.mem.table.slot t).state ≠ .sleeping ∧
      (s.mem.table.slot t).state ≠ .running := by grind [ThreadState.dead]
  rintro ((hst | hst | hst) | ⟨c', hon⟩)
  · exact hr hst
  · exact hs hst
  · exact hrun hst
  · -- a thread on a cpu that is not running any more holds the lock
    cases (h.window hon hrun).symm.trans hlock
    exact hown hon

theorem frees_cannot_run (h : Core s) (hr : s.Runs c f below)
    (hk : code (s.view c e) f = .act a k) (ha : a.frees s.mem = some (t.p, p)) : ¬ CanRun s t := by
  have heff : Effect s.mem f _ := effect_of_code hk
  have hmine := h.mine hr.active
  have hslot := Act.frees_slot ha
  -- the cpu that frees runs a thread of another process and has the lock of this one
  obtain ⟨me, hme, hrun, hlock, hj⟩ : ∃ me, s.cur c = some me ∧ (s.mem.table.slot me).state = .running ∧
      s.lock (.proc t.p) = some c ∧ (s.mem.table.proc t.p ≠ .used ∨ Child s t.p) := by
    rcases heff with hquiet | hal
    · cases hquiet <;> simp at hslot
    cases hal with
    | allocFail me j g hg =>
      obtain rfl : j = t.p := by simpa using hslot
      have hj : s.mem.table.proc t.p = .unused := h.held c _ _ hr.active
      exact ⟨me, hmine, h.top_state hr.active hmine rfl, h.lock hr.active (by simp), .inl (by rw [hj]; nofun)⟩
    | uncopy me j =>
      obtain rfl : j = t.p := by simpa using hslot
      exact ⟨me, hmine, h.top_state hr.active hmine rfl, h.lock hr.active (by simp),
        .inr (h.top_asserts hr.active hmine rfl _ rfl)⟩
    | reap me addr j pid =>
      obtain rfl : j = t.p := by simpa using hslot
      have hj : s.mem.table.proc t.p = .zombie := h.held c _ _ hr.active
      exact ⟨me, hmine, h.top_state hr.active hmine rfl, h.lock hr.active (by simp), .inl (by rw [hj]; nofun)⟩
    | _ => simp at hslot
  refine h.cannot_run hlock hj fun hon => ?_
  cases hon.cur.symm.trans hme
  obtain ⟨hused, hchild⟩ := h.running_used hrun
  rcases hj with hj | hj
  · exact hj hused
  · exact hchild _ hj rfl

/-- Nor is the trapframe page of another thread given back, if each process has pages of its own and
    the slot has not kept the pointer to a page that it gave back before. -/
theorem frees_trapframe (h : Core s) (hapart : s.mem.Apart) (hf : allocatesFresh s c e = true)
    (hr : s.Runs c f below) (hk : code (s.view c e) f = .act a k) (ha : a.frees s.mem = some (j, p))
    (hown : p.strayBackup = false) (ht : CanRun s t) : (s.mem.procs t.p).trapframepointer ∉ p.released := by
  intro hx
  have hne : t.p ≠ j := by
    rintro rfl
    exact h.frees_cannot_run hr hk ha ht
  obtain ⟨h0, hin | ⟨g, rfl, htf⟩⟩ := Act.frees_pages ha hown hx
  · exact hapart t.p j hne h0 hin
  · have hfresh : g.Fresh s.mem j := by simpa [allocatesFresh, hr.top, hk] using hf
    exact hfresh t.p hne g.tf (by simp) (htf ▸ h0) (by simp [Proc.owned, htf])

end Core

end

theorem freesNext_some {s : KState} {c : CpuId} {e : Env} {x : PIdx × Proc} (h : freesNext s c e = some x) :
    ∃ f below a k, s.Runs c f below ∧ code (s.view c e) f = .act a k ∧ a.frees s.mem = some x := by
  unfold freesNext at h
  split at h
  · next a k hmap =>
    obtain ⟨f, htop, hk⟩ := Option.map_eq_some_iff.1 hmap
    obtain ⟨below, hr⟩ := State.runs_of_top htop
    exact ⟨f, below, a, k, hr, hk, h⟩
  · cases h

/-- **When `killthreads` returns, every other slot of the process is `t_UNUSED` or `TZOMBIE`**; a
    process that is `ZOMBIE` has no thread left, and a process is given back only when no thread of
    it can run any more. The trapframe page of another thread that can run is not given back with
    it, if `kalloc` gives out no page twice and `p->user_trap_frame_backup` is the page of the
    process. -/
theorem killthreads_alone {g : Pages} (hg : g.ok = true) (um : UserMem) {tr : List (CpuId × Env)}
    (h : ReapsZombies (boot g um) tr) (_hids : (run kernel (boot g um) tr).mem.nexttid ≤ 2 ^ 31) :
    let s := run kernel (boot g um) tr
    (∀ c me, killthreadsDone s c = some me → ∀ i, i ≠ me.i →
      (s.mem.thread ⟨me.p, i⟩).state = .unused ∨ (s.mem.thread ⟨me.p, i⟩).state = .zombie) ∧
    (∀ t : ThreadRef, (s.mem.procs t.p).state = .zombie →
      (s.mem.thread t).state = .unused ∨ (s.mem.thread t).state = .zombie) ∧
    ∀ c e j p, freesNext s c e = some (j, p) → (∀ i, ¬ CanRun s ⟨j, i⟩) ∧
      (Along kernel (fun s c e => allocatesFresh s c e = true) (boot g um) (tr ++ [(c, e)]) →
        p.strayBackup = false → ∀ t, CanRun s t → (s.mem.procs t.p).trapframepointer ∉ p.released) := by
  have hcore := run_core hg um h
  refine ⟨fun c me hdone i hi => ?_, fun t hz => ?_, fun c e j p hfrees => ?_⟩
  · exact ThreadState.dead_iff.1 (hcore.killthreads_done hdone hi)
  · exact ThreadState.dead_iff.1 (hcore.zombie_dead hz)
  obtain ⟨f, below, a, k, hr, hk, ha⟩ := freesNext_some hfrees
  refine ⟨fun i => hcore.frees_cannot_run (t := ⟨j, i⟩) hr hk ha, fun hfresh hown t ht => ?_⟩
  obtain ⟨hrun, hstep⟩ := Along.append.1 hfresh
  have hapart := hrun.invariant (fun s => s.mem.Apart) (.boot g um) fun _ _ _ hf h => h.step hf exec_step
  exact hcore.frees_trapframe hapart hstep.1 hr hk ha hown ht

/-- A thread is in `exec` and has marked its sibling, which then exits. -/
def execAlone : List (CpuId × Env) :=
  List.flatten [steps 0 14, ecall 0 26 100 200 :: steps 0 20, steps 1 15, ecall 0 7 0 0 :: steps 0 14,
    ecall 1 25 5 0 :: steps 1 215, steps 0 9]

/-- There is no memory for the child of a `fork`, which is given back. -/
def forkFails : List (CpuId × Env) :=
  steps 0 14 ++ ecall 0 1 0 0 ::
    List.replicate 11 (0, { pages := ⟨0x3000, true, 0x4000⟩, flag := true })

theorem killthreads_alone_sibling :
    let s := run kernel (boot firstPages fun _ => none) execAlone
    let s' := run kernel (boot firstPages fun _ => none) forkFails
    (∀ i : TIdx, i ≠ 0 → (s.mem.thread ⟨0, i⟩).state = .unused ∨ (s.mem.thread ⟨0, i⟩).state = .zombie) ∧
      (s.mem.thread ⟨0, 1⟩).state = .zombie ∧
      ∃ p, freesNext s' 0 {} = some (1, p) ∧ p.released = [0x3000, 0x4000] ∧
        (s'.mem.procs 0).trapframepointer ∉ p.released := by
  have hreaps : ReapsZombies (boot firstPages fun _ => none) execAlone := by decide +kernel
  have hreaps' : ReapsZombies (boot firstPages fun _ => none) forkFails := by decide +kernel
  have hfresh : Along kernel (fun s c e => allocatesFresh s c e = true) (boot firstPages fun _ => none)
      (forkFails ++ steps 0 1) := by decide +kernel
  obtain ⟨hdone, -⟩ := killthreads_alone rfl (fun _ => none) hreaps (by decide +kernel)
  obtain ⟨-, -, hfrees⟩ := killthreads_alone rfl (fun _ => none) hreaps' (by decide +kernel)
  refine ⟨hdone 0 ⟨0, 0⟩ (by decide +kernel), by decide +kernel, _, rfl, rfl, ?_⟩
  exact (hfrees 0 {} 1 _ rfl).2 hfresh rfl ⟨0, 0⟩ (.inl (.inr (.inr (by decide +kernel))))

/-- A `fork` that gets the given pages. -/
def forks (g : Pages) (n : Nat) : List (CpuId × Env) := ecall 0 1 0 0 :: List.replicate n (0, { pages := g })

/-- Two children of the first process exit and are waited for, and it calls `fork` again. The new
    process has the first slot and the page that was given back last. In the second slot the next
    `fork` finds no memory. -/
def reuse : List (CpuId × Env) :=
  List.flatten [steps 0 14, forks ⟨0x3000, true, 0x4000⟩ 31, forks ⟨0x5000, true, 0x6000⟩ 34, steps 1 25,
    ecall 1 2 0 0 :: steps 1 312, ecall 1 2 0 0 :: steps 1 297,
    ecall 0 3 0 0 :: steps 0 26, ecall 0 3 0 0 :: steps 0 29,
    forks ⟨0x6000, true, 0x7000⟩ 31, forks {} 12]

/-- The process in the first slot can run, and its trapframe page is about to be given back. -/
theorem freeproc_releases_trapframe :
    let s := run kernel (boot firstPages fun _ => none) reuse
    Along kernel (fun s c e => reapsZombie s c = true ∧
      allocatesFresh s c e = true) (boot firstPages fun _ => none)
        (reuse ++ steps 0 1) ∧
      CanRun s ⟨1, 0⟩ ∧ ∃ p, freesNext s 0 {} = some (2, p) ∧
        (s.mem.procs 1).trapframepointer ∈ p.released := by
  have halong : Along kernel (fun s c e => reapsZombie s c = true ∧ allocatesFresh s c e = true)
      (boot firstPages fun _ => none) (reuse ++ steps 0 1) := by decide +kernel
  have hend : (fun s : KState => (s.mem.thread ⟨1, 0⟩).state = .runnable ∧ ((freesNext s 0 {}).any fun x =>
      x.1 = 2 ∧ (s.mem.procs 1).trapframepointer ∈ x.2.released))
      (run kernel (boot firstPages fun _ => none) reuse) := by decide +kernel
  obtain ⟨⟨j, p⟩, hnext, hp⟩ := (Option.any_eq_true _ _).1 hend.2
  obtain ⟨rfl, hin⟩ := of_decide_eq_true hp
  exact ⟨halong, .inl (.inl hend.1), p, hnext, hin⟩

end Xv6
