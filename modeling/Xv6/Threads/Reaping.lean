import Xv6.Threads.Joining

set_option autoImplicit false

/-! # What kthread_join frees

From its last test on, `kthread_join` holds `p->lock`, so that the slot it has found stays as it is
until `free_thread` (`Sees`). If the slot holds the id when it is tested, that is the slot of a
thread with the id that has terminated. The search does not see to that: if no slot holds the id, it
leaves its cursor on the last slot, and the loop ends at once. -/

namespace Xv6

open Machine Option KthreadJoinPc Xv6.Frame

/-- The slot that `kthread_join` has decided on. -/
def KthreadJoinPc.decided : KthreadJoinPc → Option TIdx
  | .copy k | .free k => some k
  | _ => none

/-- The points of `kthread_join` behind `free_thread`. -/
def KthreadJoinPc.reaped : KthreadJoinPc → Bool
  | .releaseW | .releaseLast | .done => true
  | _ => false

/-- If the step is the test of `kthread_join`, the slot holds the id, and not as one that has been
    freed. -/
def joinFinds (s : KState) (c : CpuId) : Bool :=
  match s.top c with
  | some (.kthreadJoin me id _ (.test k)) =>
    (s.mem.thread ⟨me.p, k⟩).tid = id && (s.mem.thread ⟨me.p, k⟩).state != .unused
  | _ => true

/-- The slot that `kthread_join` has decided on is that of a thread with the id that has
    terminated. -/
def Sees (s : KState) : Prop :=
  ∀ c me id status pc rest k, s.active c = .kthreadJoin me id status pc :: rest → pc.decided = some k →
    (s.mem.table.slot ⟨me.p, k⟩).tid = id ∧ (s.mem.table.slot ⟨me.p, k⟩).state = .zombie

section

variable {s s' : KState} {c c0 : CpuId} {e : Env} {me : ThreadRef} {id : Int} {status : Nat}
    {pc : KthreadJoinPc}
  {k : TIdx} {f : Frame} {rest : List Frame}

theorem KthreadJoinPc.decided_held (h : pc.decided = some k) :
    .proc me.p ∈ Frame.held (.kthreadJoin me id status pc) := by
  cases pc with
  | copy | free => simp
  | _ => cases h

theorem Sees.reaps (hs : Sees s) : reapsZombie s c = true := by
  unfold reapsZombie
  split
  · next me id status k htop =>
    obtain ⟨rest, hr⟩ := State.runs_of_top htop
    exact decide_eq_true (hs c me id status (.free k) rest k hr.active rfl).2
  · rfl

theorem Core.zombie_kept {t : ThreadRef} (h : Core s) (hadv : Advances s c s')
    (hlock : s.lock (.proc t.p) ≠ some c)
    (hused : s.mem.table.proc t.p = .used) (hown : ¬ Owns s c t.p) (hz : (s.mem.table.slot t).state = .zombie) :
    s'.mem.table.slot t = s.mem.table.slot t := by
  cases hadv.proceeds.acts.slot h t with
  | same h' => exact h'
  | leave _ _ hrun => cases hz.symm.trans hrun
  | start _ hl | wake hl | free hl => exact absurd hl hlock
  | born hj => exact absurd hj hown
  | alloc hp => cases hused.symm.trans hp
  | create _ _ _ _ hk | createFault _ _ _ _ hk => cases hz.symm.trans hk.unused

theorem kthreadJoin_next {v : KView} (hs : Follows f (.kthreadJoin me id status pc))
    (hk : (code v f).next = some (.kthreadJoin me id status pc)) (hpc : pc.decided = some k) :
    (f = .kthreadJoin me id status (.test k) ∧ joinWaits (v.mem.thread ⟨me.p, k⟩) id = false) ∨
      f = .kthreadJoin me id status (.copy k) := by
  obtain ⟨hidx⟩ := hs
  cases f with
  | kthreadJoin me0 id0 status0 pc0 =>
    cases pc0 with
    | test k0 =>
      simp only [code, kthreadJoinCode] at hk
      split at hk
      · cases hk
        cases hpc
      next hw =>
      cases hk
      cases hpc
      exact .inl ⟨rfl, Bool.eq_false_iff.2 hw⟩
    | copy k0 =>
      simp only [code, kthreadJoinCode] at hk
      split at hk
      · cases hk
        cases hpc
        exact .inr rfl
      split at hk
      · cases hk
        cases hpc
        exact .inr rfl
      · cases hk
        cases hpc
    | start =>
      simp only [code, kthreadJoinCode] at hk
      split at hk <;> cases hk <;> cases hpc
    | acquireW | acquireP | search | releaseP | slept | reacquire | free | releaseW | releaseLast | failP | failW =>
      cases hk
      cases hpc
    | _ => cases hk
  | _ => cases hidx

theorem kthreadJoin_resume {x : Fn} {k0 : Frame} {r : Int} (h : k0.awaits x)
    (hk : resumeFrame k0 r = .kthreadJoin me id status pc) : pc.decided = none := by
  cases k0 with
  | kthreadJoin me0 id0 status0 pc0 =>
    obtain ⟨rfl, rfl, rfl, rfl⟩ := kthreadJoin.inj hk
    cases pc0 with
    | copy | free => cases x <;> exact absurd h (fun h => h)
    | _ => rfl
  | usertrap me0 pc0 | exit me0 status0 pc0 | exec me0 pc0 => cases pc0 <;> cases hk
  | _ => cases hk

theorem kthreadJoin_thread (hstep : Step kernel s c e s')
    (hact : s.active c = .kthreadJoin me id status pc :: rest)
    (hpc : ∀ k, pc ≠ .free k) (t : ThreadRef) : s'.mem.thread t = s.mem.thread t := by
  cases pc with
  | free k => exact absurd rfl (hpc k)
  | copy k =>
    rcases hstep.executes hact with rfl | ⟨msg, rfl⟩ | ⟨g, -, -, rfl⟩ | ⟨-, rfl⟩
    · rfl
    · rfl
    · rfl
    change (execInstr kernel s c rest (kthreadJoinCode (s.view c e) me id status (.copy k))).mem.thread t = _
    simp only [kthreadJoinCode]
    split
    · rfl
    · exact thread_modProc_same s.mem (fun _ => by rfl) t
  | start =>
    rw [hstep.mem_silent hact]
    change (kthreadJoinCode (s.view c e) me id status .start).silent = true
    simp only [kthreadJoinCode]
    split <;> rfl
  | test k =>
    rw [hstep.mem_silent hact]
    change (kthreadJoinCode (s.view c e) me id status (.test k)).silent = true
    simp only [kthreadJoinCode]
    split <;> rfl
  | _ => rw [hstep.mem_silent hact rfl]

theorem Sees.other (hs : Sees s) (h : Core s) (hadv : Advances s c s') (hne : c0 ≠ c)
    (hact : s.active c0 = .kthreadJoin me id status pc :: rest) (hpc : pc.decided = some k) :
    (s'.mem.table.slot ⟨me.p, k⟩).tid = id ∧ (s'.mem.table.slot ⟨me.p, k⟩).state = .zombie := by
  obtain ⟨htid, hz⟩ := hs c0 me id status pc rest k hact hpc
  have hlock : s.lock (.proc me.p) = some c0 := h.lock hact (decided_held hpc)
  have hon : On s c0 me := .ofTop hact (h.mine hact) rfl
  have hrun : (s.mem.table.slot me).state = .running := by
    have hok := h.state c0 me hon
    rw [hact] at hok
    exact hok
  obtain ⟨hused, hnot⟩ := h.running_used hrun
  have hkept : s'.mem.table.slot ⟨me.p, k⟩ = s.mem.table.slot ⟨me.p, k⟩ :=
    h.zombie_kept hadv (fun hl => hne (some.inj (hlock.symm.trans hl))) hused
      (fun howns => hnot me.p (h.owned howns) rfl) hz
  rw [hkept]
  exact ⟨htid, hz⟩

/-- **The slot that `kthread_join` has decided on stays that of a terminated thread with the
    id.** -/
theorem Sees.step (hs : Sees s) (h : Core s) (hadv : Advances s c s') (hstep : Step kernel s c e s')
    (hfind : joinFinds s c = true) : Sees s' := by
  intro c0 me id status pc rest k hact hpc
  by_cases hc : c0 = c
  · subst hc
    have hon : On s' c0 me := .ofTop hact (hadv.core.mine hact) rfl
    have hv : Valid s' me (.kthreadJoin me id status pc :: rest) := hact ▸ .on c0 hon
    rcases h.stack_origin hadv hstep hv with ⟨hv0, hoff⟩ | ⟨hnew, -⟩ | ⟨-, hst⟩
    · -- the thread is not on the cpu of the step
      generalize hst0 : kthreadJoin me id status pc :: rest = st0 at hv0
      cases hv0 with
      | on c' hon' =>
        have hne : c' ≠ c0 := by
          rintro rfl
          exact hoff hon'
        exact hs.other h hadv hne hst0.symm hpc
      | parked =>
        obtain ⟨f, below, hctx, hsaved⟩ := h.saved me
        cases hst0.trans hctx
        cases hsaved
    · cases (List.cons.inj hnew).1
    generalize hst0 : kthreadJoin me id status pc :: rest = st0 at hst
    cases hst with
    | same =>
      -- the cpu does not get on
      have hmem : s'.mem.thread ⟨me.p, k⟩ = s.mem.thread ⟨me.p, k⟩ := by
        by_cases hfree : pc = .free k
        · subst hfree
          rcases hstep.executes hst0.symm with rfl | ⟨msg, rfl⟩ | ⟨g, -, -, rfl⟩ | ⟨-, rfl⟩
          · rfl
          · rfl
          · rfl
          · have hnext : (execInstr kernel s c0 rest (.act (.freeThread ⟨me.p, k⟩)
                (.kthreadJoin me id status .releaseW))).active c0 =
                  .kthreadJoin me id status .releaseW :: rest :=
              Function.update_self ..
            cases (List.cons.inj (hnext.symm.trans hact)).1
        refine kthreadJoin_thread hstep hst0.symm (fun k' hk' => hfree ?_) _
        subst hk'
        exact congrArg free (some.inj hpc)
      obtain ⟨htid, hz⟩ := hs c0 me id status pc rest k hst0.symm hpc
      exact ⟨(congrArg Thread.tid hmem).trans htid, (congrArg Thread.state hmem).trans hz⟩
    | trap ha hcur ht =>
      obtain ⟨cause, regs, rfl, rfl⟩ := trapEntry_some ht
      cases hst0
    | irq hr hi hq =>
      obtain ⟨cause, -, rfl⟩ := map_eq_some_iff.1 hq
      cases hst0
    | next hr hk =>
      cases hst0
      have hok := (h.locked.cpu c0).instrOk (i := e) kernel_disciplined hr rfl
      rcases kthreadJoin_next (hok.next hk).follows hk hpc with ⟨rfl, hw⟩ | rfl
      · -- the test: the slot holds the id, and `kthread_join` does not wait
        have hmem := kthreadJoin_thread hstep hr.active (by simp) ⟨me.p, k⟩
        obtain ⟨htid, -⟩ : (s.mem.thread ⟨me.p, k⟩).tid = id ∧ (s.mem.thread ⟨me.p, k⟩).state ≠ .unused := by
          simpa [joinFinds, hr.top] using hfind
        have hz : (s.mem.thread ⟨me.p, k⟩).state = .zombie := by
          have hw' : joinWaits (s.mem.thread ⟨me.p, k⟩) id = false := hw
          simpa [joinWaits, htid] using hw'
        exact ⟨(congrArg Thread.tid hmem).trans htid, (congrArg Thread.state hmem).trans hz⟩
      have hmem := kthreadJoin_thread hstep hr.active (by simp) ⟨me.p, k⟩
      obtain ⟨htid, hz⟩ := hs c0 me id status (.copy k) _ k hr.active rfl
      exact ⟨(congrArg Thread.tid hmem).trans htid, (congrArg Thread.state hmem).trans hz⟩
    | call hr hk =>
      cases hst0
      obtain ⟨-, -, -, hentry, -⟩ := (h.locked.cpu c0).instrOk kernel_disciplined hr hk
      cases pc with
      | copy | free => cases hentry
      | _ => cases hpc
    | @ret f k0 r rest0 hr hk =>
      obtain ⟨hres, -⟩ := List.cons.inj hst0
      have ha := ret_awaits hk (h.stack hr.active).wf.1
      cases hpc.symm.trans (kthreadJoin_resume ha hres.symm)
    | iret hr hk =>
      obtain ⟨hisr, -⟩ := (h.locked.cpu c0).instrOk kernel_disciplined hr hk
      subst hst0
      have hzero : (kthreadJoin me id status pc).held = 0 := ((h.stack hr.active).wf.2.1 hisr).2
      have hproc : .proc me.p ∈ (kthreadJoin me id status pc).held := decided_held hpc
      rw [hzero] at hproc
      cases hproc
    | userret => cases hst0
  · exact hs.other h hadv hc ((hadv.proceeds.other c0 hc).active ▸ hact) hpc

/-! ## Control -/

theorem kthreadJoin_reaped {v : KView} {pc' : KthreadJoinPc}
    (hk : (code v (.kthreadJoin me id status pc)).next = some (.kthreadJoin me id status pc')) :
    pc'.reaped = true ↔ pc.reaped = true ∨ ∃ k, pc = .free k := by
  cases pc with
  | start | test | copy =>
    simp only [code, kthreadJoinCode] at hk
    repeat' split at hk
    all_goals
      cases hk
      simp [reaped]
  | acquireW | acquireP | search | releaseP | slept | reacquire | failP | failW =>
    cases hk
    simp [reaped]
  | free k =>
    cases hk
    exact iff_of_true rfl (.inr ⟨k, rfl⟩)
  | releaseW | releaseLast =>
    cases hk
    exact iff_of_true rfl (.inl rfl)
  | sleep | done | failed => cases hk

theorem kthreadJoin_ret {v : KView} {r : Int} (hk : code v (.kthreadJoin me id status pc) = .ret r) :
    r = if pc.reaped = true then 0 else -1 := by
  cases pc with
  | done | failed =>
    obtain rfl := Instr.ret.inj hk
    rfl
  | start | test | copy =>
    simp only [code, kthreadJoinCode] at hk
    repeat' split at hk
    all_goals cases hk
  | _ => cases hk

theorem kthreadJoin_copies {v : KView} {k : TIdx}
    (hk : (code v (.kthreadJoin me id status pc)).next = some (.kthreadJoin me id status (.free k))) :
    joinCopies (v.mem.procs me.p) status k = true := by
  cases pc with
  | copy k0 =>
    simp only [code, kthreadJoinCode] at hk
    split at hk
    · next hs => simp [joinCopies, hs]
    split at hk
    · next hc =>
      obtain ⟨-, -, -, hpc⟩ := kthreadJoin.inj (some.inj hk)
      obtain rfl := free.inj hpc
      exact hc
    · cases (kthreadJoin.inj (some.inj hk)).2.2.2
  | start | test =>
    simp only [code, kthreadJoinCode] at hk
    repeat' split at hk
    all_goals cases (kthreadJoin.inj (some.inj hk)).2.2.2
  | sleep | done | failed => cases hk
  | _ => cases (kthreadJoin.inj (some.inj hk)).2.2.2

theorem kthreadJoin_free (hstep : Step kernel s c e s')
    (hact : s.active c = .kthreadJoin me id status (.free k) :: rest) :
    (∀ t, s'.mem.thread t = s.mem.thread t) ∨
      s'.mem.thread ⟨me.p, k⟩ = freeThread (s.mem.thread ⟨me.p, k⟩) ∧
        ∀ t, t ≠ ⟨me.p, k⟩ → s'.mem.thread t = s.mem.thread t := by
  have hfree : ∀ t, (s.mem.modThread ⟨me.p, k⟩ freeThread).thread t =
      if t = ⟨me.p, k⟩ then freeThread (s.mem.thread ⟨me.p, k⟩) else s.mem.thread t := fun t =>
        thread_modThread ..
  rcases hstep.executes hact with rfl | ⟨msg, rfl⟩ | ⟨g, -, -, rfl⟩ | ⟨-, rfl⟩
  · exact .inl fun _ => rfl
  · exact .inl fun _ => rfl
  · exact .inl fun _ => rfl
  · exact .inr ⟨(hfree _).trans (if_pos rfl), fun t ht => (hfree t).trans (if_neg ht)⟩

end

theorem boot_sees (g : Pages) (um : UserMem) : Sees (boot g um) := by
  intro c me id status pc rest k hact
  cases hact

/-- **`kthread_join` frees the thread that it is asked for**, in every run in which the slot that it
    tests holds the id and is not free: a step of `kthread_join` changes no thread, or it is the
    `free_thread` of another thread of the process, with the id, that has terminated. It returns 0
    if it has made that step, which it does after a `copyout` that succeeds, or none; and -1 if it
    has not. -/
theorem join_frees_terminated {g : Pages} (hg : g.ok = true) (um : UserMem) {tr : List (CpuId × Env)}
    (h : Along kernel (fun s c _ => joinFinds s c = true) (boot g um) tr) (c : CpuId) (e : Env) (me : ThreadRef)
    (id : Int) (status : Nat) (pc : KthreadJoinPc) (rest : List Frame)
    (hact : (run kernel (boot g um) tr).active c = .kthreadJoin me id status pc :: rest) :
    let s := run kernel (boot g um) tr
    let s' := exec kernel s c e
    ((∀ t, s'.mem.thread t = s.mem.thread t) ∨
      ∃ k, pc = .free k ∧ (⟨me.p, k⟩ : ThreadRef) ≠ me ∧ (s.mem.thread ⟨me.p, k⟩).tid = id ∧
        (s.mem.thread ⟨me.p, k⟩).state = .zombie ∧
        s'.mem.thread ⟨me.p, k⟩ = freeThread (s.mem.thread ⟨me.p, k⟩) ∧
        ∀ t, t ≠ ⟨me.p, k⟩ → s'.mem.thread t = s.mem.thread t) ∧
    (∀ v r, code v (.kthreadJoin me id status pc) = .ret r → r = if pc.reaped = true then 0 else -1) ∧
    (∀ v pc', (code v (.kthreadJoin me id status pc)).next = some (.kthreadJoin me id status pc') →
      (pc'.reaped = true ↔ pc.reaped = true ∨ ∃ k, pc = .free k) ∧
      ∀ k, pc' = .free k → joinCopies (v.mem.procs me.p) status k = true) := by
  intro s s'
  obtain ⟨hcore, hsees⟩ := h.invariant (fun s => Core s ∧ Sees s) ⟨boot_core hg um, boot_sees g um⟩
    fun s c e hfind ⟨hcore, hsees⟩ => by
      have hadv := hcore.step (c := c) (e := e) hsees.reaps exec_step
      exact ⟨hadv.core, hsees.step hcore hadv exec_step hfind⟩
  refine ⟨?_, fun v r hk => kthreadJoin_ret hk, fun v pc' hk => ⟨kthreadJoin_reaped hk, ?_⟩⟩
  · by_cases hfree : ∃ k, pc = .free k
    · obtain ⟨k, rfl⟩ := hfree
      have hstep : Step kernel s c e s' := exec_step
      rcases kthreadJoin_free hstep hact with hsame | ⟨hfreed, hrest⟩
      · exact .inl hsame
      obtain ⟨htid, hz⟩ := hsees c me id status (.free k) rest k hact rfl
      refine .inr ⟨k, rfl, fun hme => ?_, htid, hz, hfreed, hrest⟩
      -- the thread that executes `kthread_join` is running
      have hok := hcore.state c me (.ofTop hact (hcore.mine hact) rfl)
      rw [hact] at hok
      rw [hme] at hz
      cases hz.symm.trans hok
    · exact .inl (kthreadJoin_thread exec_step hact fun k hk => hfree ⟨k, hk⟩)
  · rintro k rfl
    exact kthreadJoin_copies hk

/-- The thread, the arguments and the slot of a `kthread_join` that is at its `free_thread`. -/
def freeing (s : KState) (c : CpuId) : Option (ThreadRef × Int × Nat × TIdx) :=
  match s.top c with
  | some (.kthreadJoin me id status (.free k)) => some (me, id, status, k)
  | _ => none

theorem freeing_active {s : KState} {c : CpuId} {me : ThreadRef} {id : Int} {status : Nat} {k : TIdx}
    (h : freeing s c = some (me, id, status, k)) :
    ∃ rest, s.active c = .kthreadJoin me id status (.free k) :: rest := by
  unfold freeing at h
  split at h
  · next htop =>
    obtain ⟨rfl, rfl, rfl, rfl⟩ : _ ∧ _ ∧ _ ∧ _ := by simpa only [some.injEq, Prod.mk.injEq] using h
    obtain ⟨rest, hr⟩ := State.runs_of_top htop
    exact ⟨rest, hr.active⟩
  · cases h

/-- The thread of the first process creates another one, which exits; it joins it, up to
    `free_thread`. -/
def createJoining : List (CpuId × Env) :=
  steps 0 14 ++ ecall 0 26 100 200 :: steps 0 20 ++ steps 1 15 ++ ecall 1 25 5 0 :: steps 1 215 ++
    ecall 0 28 2 0 :: steps 0 10

theorem join_frees_second :
    let s := run kernel (boot firstPages fun _ => none) createJoining
    (s.mem.thread ⟨0, 1⟩).state = .zombie ∧
      ((∀ t, (exec kernel s 0 {}).mem.thread t = s.mem.thread t) ∨
        ∃ k, KthreadJoinPc.free 1 = .free k ∧ (⟨0, k⟩ : ThreadRef) ≠ ⟨0, 0⟩ ∧ (s.mem.thread ⟨0, k⟩).tid = 2 ∧
          (s.mem.thread ⟨0, k⟩).state = .zombie ∧
          (exec kernel s 0 {}).mem.thread ⟨0, k⟩ = freeThread (s.mem.thread ⟨0, k⟩) ∧
          ∀ t, t ≠ ⟨0, k⟩ → (exec kernel s 0 {}).mem.thread t = s.mem.thread t) := by
  refine ⟨by decide +kernel, ?_⟩
  obtain ⟨rest, hact⟩ : ∃ rest, (run kernel (boot firstPages fun _ => none) createJoining).active 0 =
      .kthreadJoin ⟨0, 0⟩ 2 0 (.free 1) :: rest := freeing_active (by decide +kernel)
  exact (join_frees_terminated rfl (fun _ => none) (by decide +kernel) 0 {} ⟨0, 0⟩ 2 0 (.free 1) rest hact).1

/-- The first process joins the thread 2, which does not exist: `kthread_join` frees the last slot,
    which loses its trapframe, and comes to the point where it returns 0. -/
theorem join_frees_last :
    let s := run kernel (boot firstPages fun _ => none) (steps 0 14 ++ ecall 0 28 2 0 :: steps 0 10)
    let s' := run kernel (boot firstPages fun _ => none) (steps 0 14 ++ ecall 0 28 2 0 :: steps 0 13)
    (∀ i, (s.mem.thread ⟨0, i⟩).tid ≠ 2) ∧ s.top 0 = some (.kthreadJoin ⟨0, 0⟩ 2 0 (.free 7)) ∧
      s'.top 0 = some (.kthreadJoin ⟨0, 0⟩ 2 0 .done) ∧
      (s.mem.thread ⟨0, 7⟩).trapframe ≠ 0 ∧ (s'.mem.thread ⟨0, 7⟩).trapframe = 0 :=
  ⟨by decide +kernel, rfl, rfl, by decide +kernel, by decide +kernel⟩

end Xv6
