import Xv6.Threads.Exec

set_option autoImplicit false

/-! # The trapframe of every slot

`allocproc` points each slot of the thread table at its part of the trapframe page, and
`usertrapret` hands `TRAPFRAME + i * sizeof(struct trapframe)` to user mode for thread `i`: the two
must name the same bytes. Nothing but `free_thread` changes the pointer of a slot, and nothing
restores it while the process lives. So the correspondence lasts exactly until the first
`kthread_join` that frees a slot (`trapframes_match_iff`); the next `kthread_create` that takes the
slot dereferences the null pointer. -/

namespace Xv6

open Function Machine

/-- The trapframes of a process that is in use are where `allocproc` has put them, and the page
    table maps their page. -/
def Proc.Framed (p : Proc) : Prop :=
  p.state ≠ .unused → p.trapframepointer ≠ 0 ∧ p.pagetable = some ⟨p.trapframepointer⟩ ∧
    ∀ i : TIdx, (p.threadTbl i).trapframe = p.trapframepointer + sizeofTrapframe * i

def Mem.Framed (m : Mem) : Prop := ∀ j, (m.procs j).Framed

section

variable {m : Mem} {p : Proc} {j : PIdx} {t : ThreadRef}

/-! ## What keeps the pointers -/

theorem Proc.Framed.congr {q : Proc} (h : p.Framed) (hstate : q.state = .unused ∨ p.state ≠ .unused)
    (htf : q.trapframepointer = p.trapframepointer)
    (hpt : q.pagetable = p.pagetable ∨ q.pagetable = some ⟨p.trapframepointer⟩)
    (htbl : ∀ i, (q.threadTbl i).trapframe = (p.threadTbl i).trapframe) : q.Framed := by
  intro hq
  rcases hstate with hstate | hstate
  · exact absurd hstate hq
  obtain ⟨h0, hmap, hslots⟩ := h hstate
  refine ⟨htf ▸ h0, ?_, fun i => by rw [htbl, htf, hslots]⟩
  rcases hpt with hpt | hpt <;> rw [hpt, htf]
  exact hmap

theorem Mem.Framed.modProc {f : Proc → Proc} (h : m.Framed) (hf : (f (m.procs j)).Framed) :
    (m.modProc j f).Framed := by
  intro q
  rw [procs_modProc]
  split
  · exact hf
  · exact h q

theorem Mem.Framed.kept {f : Proc → Proc} (h : m.Framed) (hf : ∀ x, (f x).Kept x) : (m.modProc j f).Framed := by
  have hk := hf (m.procs j)
  refine h.modProc ((h j).congr ?_ hk.trapframepointer hk.pagetable fun i => by rw [hk.threadTbl])
  by_cases hu : (m.procs j).state = .unused
  · exact .inl (hk.state.trans hu)
  · exact .inr hu

theorem Mem.Framed.modThread {f : Thread → Thread} (h : m.Framed)
    (hf : ∀ x, (f x).trapframe = x.trapframe) : (m.modThread t f).Framed := by
  refine h.modProc ((h t.p).congr ?_ rfl (.inl rfl) fun i => ?_)
  · by_cases hu : (m.procs t.p).state = .unused
    · exact .inl hu
    · exact .inr hu
  simp only [Proc.modThread, update_apply]
  split
  · next hi => rw [hf, hi]
  · rfl

theorem Mem.Framed.nexttid (h : m.Framed) (n : Int) : { m with nexttid := n }.Framed := h

theorem Mem.Framed.allocproc {g : Pages} (h : m.Framed) : (Xv6.allocproc m j g).Framed := by
  intro q
  by_cases hq : q = j
  · subst hq
    unfold Xv6.allocproc
    dsimp only
    split
    · exact fun hne => absurd (by rw [procs_modProc, if_pos rfl]; rfl) hne
    next htf =>
    split
    · exact fun hne => absurd (by rw [procs_modProc, if_pos rfl]; rfl) hne
    split
    · exact fun hne => absurd (by rw [procs_modProc, if_pos rfl]; rfl) hne
    intro _
    simp only [procs_modProc, if_true]
    exact ⟨htf, trivial, fun i => trivial⟩
  · rw [procs_allocproc_other m g hq]
    exact h q

/-- The actions that keep the trapframes: all but `free_thread`, if `exit` and `fork` act on
    processes that are in use. -/
def Act.KeepsFrames (m : Mem) : Act → Prop
  | .freeThread _ => False
  | .exitProc t _ => (m.procs t.p).state ≠ .unused
  | .forkRunnable np => (m.procs np).state ≠ .unused
  | _ => True

theorem Mem.Framed.act {a : Act} (h : m.Framed) (ha : a.KeepsFrames m) : (a.apply m).Framed := by
  cases a with
  | proc p a => exact h.kept a.apply_kept
  | allocproc p g => exact h.allocproc
  | freeproc p => exact h.modProc fun hne => absurd rfl hne
  | freeThread t => exact ha.elim
  | createThread t fn stack =>
    refine Mem.Framed.nexttid (Mem.Framed.modThread (h.kept ?_) fun _ => by rfl) _
    exact fun _ => ⟨rfl, rfl, rfl, .inl rfl, rfl⟩
  | createFault t => exact Mem.Framed.nexttid (h.modThread fun _ => by rfl) _
  | bsem | setSepc => exact h
  | _ =>
    refine fun q => (h q).congr ?_ ?_ (.inl ?_) fun i => ?_
    rotate_left 3
    · change (Mem.thread _ ⟨q, i⟩).trapframe = (m.thread ⟨q, i⟩).trapframe
      simp only [Act.apply, thread_modThread, thread_modProc]
      grind [Mem.thread, wakeThread, wakeupThread, forkCopyProc]
    all_goals
      simp only [Act.apply, Mem.modThread, procs_modProc]
      grind [Act.KeepsFrames, Proc.modThread, forkCopyProc]

end

/-! ## Runs -/

/-- The step is not a `free_thread` in `kthread_join`. -/
def reapsNone (s : KState) (c : CpuId) : Bool :=
  match s.top c with
  | some (.kthreadJoin _ _ _ (.free _)) => false
  | _ => true

/-- In a process that is `USED`, the trapframe pointer of slot `i` and the user address handed to
    user mode for thread `i` name the same bytes. -/
def TrapframesMatch (m : Mem) : Prop :=
  ∀ j, (m.procs j).state = .used → ∀ i : TIdx, ((m.procs j).threadTbl i).trapframe =
      (m.procs j).trapframepointer + sizeofTrapframe * i ∧
    ∃ pt, (m.procs j).pagetable = some pt ∧
      pt.walkTrapframe (TRAPFRAME + sizeofTrapframe * i) = some ((m.procs j).threadTbl i).trapframe

/-- No cpu is about to dereference a null trapframe in `kthread_create`. -/
def CreatesSafely (s : KState) : Prop :=
  ∀ c me fn stack below, s.Runs c (.kthreadCreate me fn stack .find) below →
    ∀ k, firstUnused (s.mem.procs me.p) = some k → (s.mem.thread ⟨me.p, k⟩).trapframe ≠ 0

section

variable {s s' : KState} {c : CpuId} {e : Env} {tr : List (CpuId × Env)}

theorem reapsNone_reapsZombie (hn : reapsNone s c = true) : reapsZombie s c = true := by
  unfold reapsNone at hn
  unfold reapsZombie
  split
  · next htop => simp [htop] at hn
  · rfl

theorem Mem.Framed.step (h : s.mem.Framed) (hcore : Core s) (hn : reapsNone s c = true)
    (hstep : Step kernel s c e s') : s'.mem.Framed := by
  cases hstep with
  | @trap f a t _ _ _ ht =>
    obtain ⟨cause, regs, rfl, rfl⟩ := trapEntry_some ht
    exact h.act (a := .proc _ _) trivial
  | @act f k a below hr hk =>
    have heff : Effect s.mem f _ := effect_of_code hk
    have hmine := hcore.mine hr.active
    suffices ha : a.KeepsFrames s.mem from h.act ha
    rcases heff with hquiet | hal
    · cases a with
      | freeThread | exitProc | forkRunnable => cases hquiet
      | _ => trivial
    cases hal with
    | exit me status =>
      have hrun := hcore.top_state hr.active hmine rfl
      exact fun hu => nomatch (hcore.running_used hrun).1.symm.trans hu
    | forkRunnable me j pid =>
      have hchild := hcore.top_asserts hr.active hmine rfl j rfl
      exact fun hu => nomatch hchild.embryo.proc.symm.trans hu
    | join me tid status k => simp [reapsNone, hr.top] at hn
    | _ => trivial
  | @spawn f g k a t below hr hk =>
    have heff : Effect s.mem f _ := effect_of_code hk
    cases heff with
    | create => exact h.act (a := .createThread _ _ _) trivial
    | alloc => exact h.act (a := .allocproc _ _) trivial
  | @dispatch f k a t below hr hk =>
    have heff : Effect s.mem f _ := effect_of_code hk
    obtain ⟨p, i, -, -, -, rfl, -⟩ := heff
    exact h.act (a := .setState _ _) trivial
  | _ => exact h

theorem boot_framed (g : Pages) (um : UserMem) : (boot g um).mem.Framed := by
  have hboot : bootMem.Framed := fun _ hne => absurd rfl hne
  have halloc : (Xv6.allocproc bootMem 0 g).Framed := hboot.allocproc
  refine Mem.Framed.modThread (Mem.Framed.kept halloc ?_) fun _ => rfl
  exact fun _ => ⟨rfl, rfl, rfl, .inl rfl, rfl⟩

theorem Mem.Framed.match (h : s.mem.Framed) : TrapframesMatch s.mem := by
  intro j hj i
  obtain ⟨-, hpt, hslots⟩ := h j (by rw [hj]; nofun)
  refine ⟨hslots i, _, hpt, ?_⟩
  have hi := i.isLt
  have hpage : sizeofTrapframe * i < PGSIZE := by
    show 288 * i.val < 4096
    simp only [NTHREAD] at hi
    omega
  rw [hslots i, Pagetable.walkTrapframe, if_pos ⟨Nat.le_add_right _ _, by omega⟩, Nat.add_sub_cancel_left]

theorem Mem.Framed.creates (h : s.mem.Framed) (hcore : Core s) : CreatesSafely s := by
  intro c me fn stack below hr k hk
  have hrun := hcore.top_state hr.active (hcore.mine hr.active) rfl
  have hused := (hcore.running_used (t := me) hrun).1
  obtain ⟨h0, -, hslots⟩ := h me.p fun hu => nomatch hused.symm.trans hu
  have hslot : (s.mem.thread ⟨me.p, k⟩).trapframe = _ := hslots k
  rw [hslot]
  omega

theorem Mem.Framed.lost (h : s.mem.Framed) (hcore : Core s) (hn : reapsNone s c = false) :
    ¬ TrapframesMatch (exec kernel s c e).mem := by
  obtain ⟨me, id, status, k, htop⟩ :
      ∃ me id status k, s.top c = some (.kthreadJoin me id status (.free k)) := by
    unfold reapsNone at hn
    split at hn
    · next htop => exact ⟨_, _, _, _, htop⟩
    · cases hn
  obtain ⟨below, hr⟩ := State.runs_of_top htop
  rw [hcore.exec_held hr (by simp)]
  have hrun := hcore.top_state hr.active (hcore.mine hr.active) rfl
  have hused := (hcore.running_used (t := me) hrun).1
  obtain ⟨h0, -, -⟩ := h me.p fun hu => nomatch hused.symm.trans hu
  intro hmatch
  have hstate : ((s.mem.modThread ⟨me.p, k⟩ freeThread).procs me.p).state =
      (s.mem.procs me.p).state := by simp [Mem.modThread, Proc.modThread]
  have hslot := (hmatch me.p (hstate.trans hused) k).1
  have hfreed : 0 = (s.mem.procs me.p).trapframepointer + sizeofTrapframe * k := by
    simpa [execInstr, kernel, code, kthreadJoinCode, Act.apply, Mem.modThread, Proc.modThread,
      freeThread] using hslot
  omega

/-- **The trapframes are in place, and `kthread_create` finds one, throughout a run exactly if no
    `kthread_join` of the run has got as far as freeing a slot.** -/
theorem trapframes_match_iff {g : Pages} (hg : g.ok = true) (um : UserMem)
    (tr : List (CpuId × Env)) :
    Along kernel (fun s c _ => reapsNone s c = true) (boot g um) tr ↔
      Throughout kernel (fun s => TrapframesMatch s.mem ∧ CreatesSafely s) (boot g um) tr := by
  refine along_iff_throughout (fun s => Core s ∧ s.mem.Framed)
    ⟨boot_core hg um, boot_framed g um⟩ ?_ ?_ ?_
  · rintro s c e hn ⟨hcore, hframed⟩
    exact ⟨(hcore.step (reapsNone_reapsZombie hn) exec_step).core, hframed.step hcore hn exec_step⟩
  · rintro s ⟨hcore, hframed⟩
    exact ⟨hframed.match, hframed.creates hcore⟩
  · rintro s c e hn ⟨hcore, hframed⟩ ⟨hmatch, -⟩
    exact hframed.lost hcore (Bool.eq_false_of_not_eq_true hn) hmatch

end

/-- The thread of the first process creates another one, which exits and is joined. -/
def createJoin : List (CpuId × Env) :=
  steps 0 14 ++ ecall 0 26 100 200 :: steps 0 20 ++ steps 1 15 ++ ecall 1 25 5 0 :: steps 1 215 ++
    ecall 0 28 2 0 :: steps 0 26

/-- The slot has lost its trapframe, and the next `kthread_create` dereferences a null pointer. -/
theorem trapframe_lost :
    ¬ TrapframesMatch (run kernel (boot firstPages fun _ => none) createJoin).mem ∧
      (run kernel (boot firstPages fun _ => none)
        (createJoin ++ ecall 0 26 100 200 :: steps 0 7)).halted 0 = some "kerneltrap" := by
  refine ⟨fun h => ?_, by decide +kernel⟩
  have hslot := (h 0 (by decide +kernel) 1).1
  exact absurd hslot (by decide +kernel)

/-- The first process creates a thread. -/
theorem trapframes_match_create :
    Throughout kernel (fun s => TrapframesMatch s.mem ∧ CreatesSafely s)
      (boot firstPages fun _ => none) (steps 0 14 ++ ecall 0 26 100 200 :: steps 0 20) :=
  (trapframes_match_iff rfl _ _).1 (by decide +kernel)

end Xv6
