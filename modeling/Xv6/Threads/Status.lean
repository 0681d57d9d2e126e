import Xv6.Threads.Exec

set_option autoImplicit false

/-! # The exit status of a thread

`kthread_exit` takes a status, and `kthread_join` copies `t->xstate` to its caller. But
`kthread_exit` does not store its argument: the only assignments to `t->xstate` are those of `exit`,
which ends the process, and of `free_thread`, which clears it. In a process that is in use the field
is `0` in every slot (`Mem.StatusClear`), so that is what every join delivers. -/

namespace Xv6

open Function Machine Option

/-! ## Reading back what copyout has written -/

variable {bs : List (BitVec 8)} {um : UserMem} {va : Nat}

theorem copyout_below {a : Nat} (h : a < va) : (copyout um va bs).1 a = um a := by
  induction bs generalizing um va with
  | nil => rfl
  | cons b bs ih =>
    rw [copyout]
    split
    · rfl
    · rw [ih (by omega), update_of_ne (by omega)]

theorem copyin_copyout (h : (copyout um va bs).2 = true) :
    copyin (copyout um va bs).1 va bs.length = some bs := by
  induction bs generalizing um va with
  | nil => rfl
  | cons b bs ih =>
    rw [copyout] at h ⊢
    split at h
    · cases h
    have hread : (copyout (update um va (some b)) (va + 1) bs).1 va = some b := by
      rw [copyout_below (Nat.lt_succ_self va), update_self]
    simp only [List.length_cons, copyin, hread, ih h, map_some]

theorem intBytes_join (v : BitVec 32) :
    v.extractLsb' 24 8 ++ v.extractLsb' 16 8 ++ v.extractLsb' 8 8 ++ v.extractLsb' 0 8 = v := by
  ext i hi
  simp
  grind

theorem readInt_copyout {v : BitVec 32} (h : (copyout um va (intBytes v)).2 = true) :
    readInt (copyout um va (intBytes v)).1 va = some v := by
  have hread : copyin (copyout um va (intBytes v)).1 va 4 = some (intBytes v) := copyin_copyout h
  rw [readInt, hread]
  exact congrArg some (intBytes_join v)

/-! ## The status fields -/

/-- In a process that has not ended, no slot has a status. -/
def Mem.StatusClear (m : Mem) : Prop :=
  ∀ t : ThreadRef, (m.procs t.p).state ≠ .zombie → (m.thread t).xstate = 0

section

variable {s s' : KState} {c : CpuId} {e : Env}

theorem Acts.zombie_proc {j : PIdx} (ha : Acts s c s') (h : s.mem.table.proc j = .zombie)
    (hne : s'.mem.table.proc j ≠ .zombie) : s'.mem.table.proc j = .unused := by
  cases ha with
  | stay h' => exact absurd (by rw [h', h]) hne
  | leave _ _ _ _ _ h' | start _ _ _ _ h' | wake _ _ _ _ h' | forkRun _ _ _ h'
  | create _ _ _ _ _ _ _ _ h' | createFault _ _ _ _ _ _ _ _ h' | reap _ _ _ h' =>
    exact absurd (by rw [h']; exact h) hne
  | exit t _ _ _ _ h' =>
    refine absurd ?_ hne
    rw [h']
    by_cases hj : j = t.p
    · simp [hj]
    · simp [hj, h]
  | alloc j' tf _ hj' _ h' =>
    have hj : j ≠ j' := fun he => nomatch (he ▸ h).symm.trans hj'
    exact absurd (by rw [h']; simp [hj, h]) hne
  | allocFail j' _ hj' h' =>
    have hj : j ≠ j' := fun he => nomatch (he ▸ h).symm.trans hj'
    exact absurd (by rw [h']; simp [hj, h]) hne
  | free j' _ _ _ h' =>
    by_cases hj : j = j'
    · rw [h']
      simp [hj]
    · exact absurd (by rw [h']; simp [hj, h]) hne

theorem Mem.StatusClear.step (h : s.mem.StatusClear) (hadv : Advances s c s') (hstep : Step kernel s c e s') :
    s'.mem.StatusClear := by
  intro t hz
  rcases hstep.mem with hmem | ⟨a, hmem⟩
  · rw [hmem] at hz ⊢
    exact h t hz
  by_cases hold : (s.mem.procs t.p).state = .zombie
  · -- the process is given back
    have hu := hadv.proceeds.acts.zombie_proc (j := t.p) hold hz
    have hu' : ((a.apply s.mem).procs t.p).state = .unused := by
      rw [← show s'.mem = a.apply s.mem from hmem]
      exact hu
    rw [hmem]
    exact Act.xstate_of_unused s.mem a t.p (by rw [hold]; nofun) hu' t.i
  have hclear := h t hold
  have htouch : Touch a t (s.mem.thread t) (s'.mem.thread t) := by
    rw [hmem]
    exact Act.touch s.mem a t
  cases htouch with
  | same _ _ hx | setUp _ hx => exact hx.trans hclear
  | mark _ h' | sleep _ _ h' | clear _ h' =>
    rw [h']
    exact hclear
  | exit status ha h' =>
    -- `exit` sets the status, and the process is a zombie
    refine absurd ?_ hz
    rw [hmem, ha]
    simp [kernel, Act.apply]
  | freed _ hx => exact hx

end

theorem boot_statusClear (g : Pages) (um : UserMem) : (boot g um).mem.StatusClear := by
  intro t _
  have halloc : ((allocproc bootMem 0 g).thread t).xstate = 0 := by
    cases touch_allocproc (a := .freeproc 0) bootMem 0 g t with
    | same _ _ hx | setUp _ hx | freed _ hx => exact hx
    | mark ha | exit _ ha | sleep _ ha | clear ha => cases ha
  have humem : ∀ f : Proc → Proc, (∀ x, (f x).threadTbl = x.threadTbl) →
      (((allocproc bootMem 0 g).modProc 0 f).thread t).xstate = 0 := by
    intro f hf
    rw [thread_modProc_same _ hf]
    exact halloc
  show ((Mem.modThread (Mem.modProc _ 0 _) ⟨0, 0⟩ _).thread t).xstate = 0
  rw [thread_modThread]
  split
  · next ht =>
    subst ht
    exact humem _ fun _ => rfl
  · exact humem _ fun _ => rfl

theorem run_statusClear {g : Pages} (hg : g.ok = true) (um : UserMem) {tr : List (CpuId × Env)}
    (h : ReapsZombies (boot g um) tr) : (run kernel (boot g um) tr).mem.StatusClear := by
  refine (h.invariant (fun s => Core s ∧ s.mem.StatusClear)
    ⟨boot_core hg um, boot_statusClear g um⟩ ?_).2
  rintro s c e hreap ⟨hcore, hclear⟩
  have hadv := hcore.step (e := e) hreap exec_step
  exact ⟨hadv.core, hclear.step hadv exec_step⟩

/-! ## Exit and join -/

/-- The thread that cpu `c` is about to make `TZOMBIE` in `kthread_exit`, and the status it was
    called with. -/
def exiting (s : KState) (c : CpuId) : Option (ThreadRef × BitVec 32) :=
  match s.top c with
  | some (.kthreadExit me status (.zombie _)) => some (me, status)
  | _ => none

/-- Cpu `c` is about to copy a status out in `kthread_join`: the slot it comes from, the id that was
    joined and the address it goes to. -/
def copying (s : KState) (c : CpuId) : Option (ThreadRef × Int × Nat) :=
  match s.top c with
  | some (.kthreadJoin me id addr (.copy k)) => some (⟨me.p, k⟩, id, addr)
  | _ => none

/-- A run in which thread `t` calls `kthread_exit(v)`, with other threads left in its process, and
    later another thread joins it with the mapped address `addr`. -/
structure ExitJoin (g : Pages) (um : UserMem) (tr tr' : List (CpuId × Env)) (c c' : CpuId)
    (t : ThreadRef) (v : BitVec 32) (addr : Nat) : Prop where
  ok : g.ok = true
  reaps : ReapsZombies (boot g um) (tr ++ tr')
  exits : exiting (run kernel (boot g um) tr) c = some (t, v)
  joins : copying (run kernel (boot g um) (tr ++ tr')) c' =
    some (t, ((run kernel (boot g um) tr).mem.thread t).tid, addr)
  addr_ne : addr ≠ 0
  mapped : joinCopies ((run kernel (boot g um) (tr ++ tr')).mem.procs t.p) addr t.i = true

/-- **The status that a join delivers is the one its target exited with exactly if that is `0`.** -/
theorem join_status_iff {g : Pages} {um : UserMem} {tr tr' : List (CpuId × Env)} {c c' : CpuId}
    {t : ThreadRef} {v : BitVec 32} {addr : Nat} (h : ExitJoin g um tr tr' c c' t v addr) (e : Env) :
    readInt ((exec kernel (run kernel (boot g um) (tr ++ tr')) c' e).mem.procs t.p).umem addr =
      some v ↔ v = 0 := by
  have hcore := run_core h.ok um h.reaps
  have hclear := run_statusClear h.ok um h.reaps
  have hjoins := h.joins
  have hmapped := h.mapped
  generalize run kernel (boot g um) (tr ++ tr') = s at *
  obtain ⟨me, id, k, htop, rfl⟩ : ∃ me id k,
      s.top c' = some (.kthreadJoin me id addr (.copy k)) ∧ t = ⟨me.p, k⟩ := by
    unfold copying at hjoins
    split at hjoins
    · next me id addr' k htop =>
      obtain ⟨ht, hrest⟩ := Prod.mk.inj (some.inj hjoins)
      obtain ⟨-, rfl⟩ := Prod.mk.inj hrest
      exact ⟨me, id, k, htop, ht.symm⟩
    · cases hjoins
  obtain ⟨below, hr⟩ := State.runs_of_top htop
  -- the caller runs, so its process has not ended and the field is clear
  have hused := (hcore.running_used (hcore.top_state hr.active (hcore.mine hr.active) rfl)).1
  have hx : ((s.mem.procs me.p).threadTbl k).xstate = 0 :=
    hclear ⟨me.p, k⟩ fun hz => nomatch hused.symm.trans hz
  have hcopy : (copyout (s.mem.procs me.p).umem addr (intBytes 0)).2 = true := by
    simpa [joinCopies, h.addr_ne, hx] using hmapped
  have hread : readInt ((exec kernel s c' e).mem.procs me.p).umem addr = some 0 := by
    rw [hcore.exec_held hr (by simp)]
    have hcode : code (s.view c' e) (.kthreadJoin me id addr (.copy k)) =
        .act (.proc me.p (.copyoutInt addr 0))
          (if joinCopies (s.mem.procs me.p) addr k then .kthreadJoin me id addr (.free k)
            else .kthreadJoin me id addr .failP) := by
      rw [← hx]
      exact if_neg h.addr_ne
    rw [hcode]
    simp only [execInstr, State.go, kernel, Act.apply, procs_modProc, if_true, ProcAct.apply]
    exact readInt_copyout hcopy
  rw [hread]
  constructor
  · intro hv
    exact (some.inj hv).symm
  · rintro rfl
    rfl

/-- User memory with one mapped page, filled with ones. -/
def onePage : UserMem := fun a => if a < PGSIZE then some 1 else none

/-- The thread of the first process creates a second one, which calls `kthread_exit(5)`: the run up
    to its end. -/
def exitFive : List (CpuId × Env) :=
  steps 0 14 ++ ecall 0 26 100 200 :: steps 0 20 ++ steps 1 15 ++ ecall 1 25 5 0 :: steps 1 203

/-- The first thread joins it, with the address 8 for the status. -/
def joinFive : List (CpuId × Env) := steps 1 12 ++ ecall 0 28 2 8 :: steps 0 9

/-- The status that arrives is 0, and the join reports success. -/
theorem status_lost :
    let s := run kernel (boot firstPages onePage) (exitFive ++ joinFive ++ steps 0 17)
    exiting (run kernel (boot firstPages onePage) exitFive) 1 = some (⟨0, 1⟩, 5) ∧
      copying (run kernel (boot firstPages onePage) (exitFive ++ joinFive)) 0 =
        some (⟨0, 1⟩, 2, 8) ∧
      readInt (s.mem.procs 0).umem 8 = some 0 ∧ (s.mem.procs 0).frames 0 .a0 = 0 ∧
      s.active 0 = [] := by
  decide +kernel

theorem join_status_five :
    readInt ((exec kernel (run kernel (boot firstPages onePage) (exitFive ++ joinFive)) 0
      {}).mem.procs (ThreadRef.p ⟨0, 1⟩)).umem 8 ≠ some 5 := by
  have hjoin : ExitJoin firstPages onePage exitFive joinFive 1 0 ⟨0, 1⟩ 5 8 :=
    ⟨rfl, by decide +kernel, by decide +kernel, by decide +kernel, by decide, by decide +kernel⟩
  intro hread
  exact absurd ((join_status_iff hjoin {}).1 hread) (by decide)

end Xv6
