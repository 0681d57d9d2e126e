import Xv6.Threads.Exec

set_option autoImplicit false

/-! # Threads that killthreads has marked

`killthreads` sets `t->killed` on the other threads of a process, but on its way back to user mode a
thread looks at `p->killed` only. So a marked thread stays out of user mode as long as `p->killed`
is set as well whenever it gets to the last test of `usertrap`, and as long as none is marked that
has this test behind it: one that has given up the cpu in the `yield` after it, one in
`usertrapret`, or one that has not run yet and will start in `forkret` (`marked_no_userret`). -/

namespace Xv6

open Bool List Machine

/-- The frames from which a thread gets to user mode without another look at `p->killed`. -/
def Frame.returning : Frame → Bool
  | .forkret _ | .usertrap _ .yielded | .usertrap _ .ret | .usertrapret _ _ => true
  | _ => false

/-- The stack of thread `t`: the one a cpu executes, or else the saved one. -/
def stackOf (s : KState) (t : ThreadRef) : List Frame :=
  match (List.finRange NCPU).find? fun c => s.cur c = some t && !doomedStack (s.active c) with
  | some c => s.active c
  | none => s.ctx t

/-- If the step is the last test of `usertrap` by a marked thread, it finds `p->killed` set. -/
def testsKilled (s : KState) (c : CpuId) : Bool :=
  match s.top c with
  | some (.usertrap me (.after _)) => !(s.mem.thread me).killed || (s.mem.procs me.p).killed
  | _ => true

/-- If the step marks a thread, that thread is not on its way to user mode. -/
def marksInside (s : KState) (c : CpuId) : Bool :=
  match s.top c with
  | some (.killthreads me (.markWrite i)) => (stackOf s ⟨me.p, i⟩).all fun f => !f.returning
  | _ => true

section

variable {s s' : KState} {c : CpuId} {e : Env} {t : ThreadRef} {f k : Frame}
  {st below : List Frame}

theorem Core.stackOf_eq (h : Core s) (hv : Valid s t st) : stackOf s t = st := by
  unfold stackOf
  rcases hfind : (List.finRange NCPU).find? (fun c =>
    s.cur c = some t && !doomedStack (s.active c)) with _ | c'
  · have hoff : ∀ c, ¬ On s c t := by
      intro c hon
      have hc := List.find?_eq_none.1 hfind c (mem_finRange c)
      simp [hon.cur, hon.sane] at hc
    cases hv with
    | on c hon => exact absurd hon (hoff c)
    | parked => rfl
  have hc := find?_some hfind
  simp only [and_eq_true, decide_eq_true_eq, not_eq_true'] at hc
  cases hv with
  | on c hon =>
    obtain rfl := h.alone c' c t ⟨hc.1, hc.2⟩ hon
    rfl
  | parked _ hoff => exact absurd ⟨hc.1, hc.2⟩ (hoff c')

/-! ## The way back -/

theorem Frame.entry_returning (h : f.entry = true) : f.returning = false := by
  cases f with
  | usertrap | usertrapret | forkret => cases h
  | _ => rfl

theorem usertrap_returning {v : KView} {me : ThreadRef} {pc : UsertrapPc}
    (hk : k ∈ (usertrapCode v me pc).pushes) (hret : k.returning = true) :
    Frame.returning (.usertrap me pc) = true ∨
      ∃ timer, pc = .after timer ∧ (v.mem.procs me.p).killed = false := by
  -- the frames of the calls that `usertrap` makes, and those where it waits for them
  have hcall : ∀ {g : Frame} {pc' : UsertrapPc}, g.returning = false →
      Frame.returning (.usertrap me pc') = false → k ∉ [g, .usertrap me pc'] := by
    intro g pc' hg hpc hk
    rcases mem_cons.1 hk with rfl | hk
    · cases hg.symm.trans hret
    · obtain rfl := mem_singleton.1 hk
      cases hpc.symm.trans hret
  have hgo : ∀ {pc' : UsertrapPc}, Frame.returning (.usertrap me pc') = false →
      k ∉ [Frame.usertrap me pc'] := fun hpc hk => hcall (g := .ret 0) rfl hpc (by simp_all)
  have hdev : ∀ {timer : Bool}, k ∉ (devintr v (.usertrap me (.notified timer))).pushes := by
    intro timer hk
    unfold devintr at hk
    split at hk
    · exact hcall rfl rfl hk
    · exact hgo rfl hk
  cases pc with
  | yielded | ret => exact .inl rfl
  | after timer =>
    refine .inr ⟨timer, rfl, ?_⟩
    by_contra hkilled
    simp only [usertrapCode, if_pos (eq_true_of_not_eq_false hkilled)] at hk
    exact absurd hk (hcall rfl rfl)
  | start cause =>
    simp only [usertrapCode] at hk
    split at hk
    · cases hk
    cases cause with
    | ecall =>
      dsimp only at hk
      split at hk
      · exact absurd hk (hcall rfl rfl)
      · exact absurd hk (hgo rfl)
    | timer | device => exact absurd hk hdev
    | fault => exact absurd hk (hgo rfl)
  | call =>
    refine absurd hk (hcall ?_ rfl)
    exact Frame.entry_returning (syscallFrame_ok me _).2.2.2.1
  | skip | intrOn | returned | retval | notified => exact absurd hk (hgo rfl)
  | dead => cases hk

theorem Core.pushed_returning (h : Core s) (hr : s.Runs c f below)
    (hk : k ∈ (kernel.code (s.view c e) f).pushes) (hret : k.returning = true) :
    f.returning = true ∨ ∃ me timer, f = .usertrap me (.after timer) ∧
      (s.mem.procs me.p).killed = false := by
  have hok := (h.locked.cpu c).instrOk (i := e) kernel_disciplined hr rfl
  rcases hok.pushes hk with hfollows | hentry
  · cases hfollows with
    | same hidx =>
      cases f with
      | usertrap me pc =>
        rcases usertrap_returning hk hret with hf | ⟨timer, rfl, hkilled⟩
        · exact .inl hf
        · exact .inr ⟨me, timer, rfl, hkilled⟩
      | forkret | usertrapret => exact .inl rfl
      | _ =>
        cases k with
        | usertrap | forkret | usertrapret => cases hidx
        | _ => cases hret
    | usertrap | forkret => exact .inl rfl
    | sigprocmask | other => cases hret
  · cases (Frame.entry_returning hentry).symm.trans hret

/-! ## Marked threads -/

/-- Thread `t` has been started, has not terminated, and is not on its way to user mode. -/
structure Inside (s : KState) (t : ThreadRef) : Prop where
  live : (s.mem.table.slot t).state.dead = false
  started : (s.mem.table.slot t).state ≠ .used
  frames : ∀ st, Valid s t st → ∀ f ∈ st, f.returning = false

theorem Core.stays_live (h : Core s) (hadv : Advances s c s')
    (hlive : (s.mem.table.slot t).state.dead = false) (hst : (s.mem.table.slot t).state ≠ .used)
    (hz : (s'.mem.table.slot t).state ≠ .zombie) :
    (s'.mem.table.slot t).state.dead = false ∧ (s'.mem.table.slot t).state ≠ .used := by
  have hunused : (s.mem.table.slot t).state ≠ .unused := fun hu => by
    rw [hu] at hlive
    cases hlive
  have hown := h.owned_not_started (c := c) hunused hst
  refine ⟨(h.slot_live hadv hlive hown hz).2, ?_⟩
  obtain ⟨st, h', hst'⟩ := h.slot_stays hadv hlive hown hz
  rw [h']
  rcases hst' with rfl | rfl | rfl | rfl
  · exact hst
  · nofun
  · nofun
  · nofun

theorem killed_stays (hstep : Step kernel s c e s') (hk : (s.mem.thread t).killed = true)
    (hlive : (s'.mem.table.slot t).state.dead = false)
    (hst : (s'.mem.table.slot t).state ≠ .used) : (s'.mem.thread t).killed = true := by
  rcases hstep.mem with hmem | ⟨a, hmem⟩
  · rw [hmem]
    exact hk
  have htouch : Touch a t (s.mem.thread t) (s'.mem.thread t) := by
    rw [hmem]
    exact Act.touch s.mem a t
  cases htouch with
  | same _ hkilled _ => exact hkilled.trans hk
  | mark _ h' => rw [h']
  | exit _ _ h' | sleep _ _ h' | clear _ h' =>
    rw [h']
    exact hk
  | freed hu _ =>
    rw [show (s'.mem.table.slot t).state = .unused from hu] at hlive
    cases hlive
  | setUp hu _ => exact absurd hu hst

/-- **A thread stays out of user mode** in a step that is not its last test in `usertrap`, or one in
    which it finds `p->killed` set. -/
theorem Inside.step (hm : Inside s t) (h : Core s) (hadv : Advances s c s')
    (hstep : Step kernel s c e s')
    (htest : ∀ timer, s.top c = some (.usertrap t (.after timer)) → (s.mem.procs t.p).killed = true)
    (hz : (s'.mem.thread t).state ≠ .zombie) : Inside s' t := by
  obtain ⟨hlive, hst⟩ := h.stays_live hadv hm.live hm.started hz
  refine ⟨hlive, hst, fun st hv f hf => ?_⟩
  by_contra hret
  replace hret := eq_true_of_not_eq_false hret
  have hold : ∀ {f0 : Frame} {st0 : List Frame}, Valid s t st0 → f0 ∈ st0 →
      f0.returning = true → False := fun hv0 hf0 hr0 =>
    nomatch (hm.frames _ hv0 _ hf0).symm.trans hr0
  rcases h.frame_origin hadv hstep hv hf with ⟨st0, hv0, hf0⟩ | hnew | ⟨hon, hpush⟩
  · exact hold hv0 hf0 hret
  · rcases hnew.slot with hu | hu
    · have hdead := hm.live
      rw [hu] at hdead
      cases hdead
    · exact hm.started hu
  cases hpush with
  | @code f0 k below hr hk =>
    rcases h.pushed_returning hr hk hret with hr0 | ⟨me, timer, rfl, hkilled⟩
    · exact hold (.on c hon) (hr.active ▸ mem_cons_self ..) hr0
    · cases hon.cur.symm.trans (h.mine hr.active)
      cases hkilled.symm.trans (htest timer hr.top)
  | @resume f0 k v below hr hk =>
    have hr0 : k.returning = true := by
      revert hret
      show (resumeFrame k v).returning = true → _
      unfold resumeFrame
      split <;> exact id
    exact hold (.on c hon) (hr.active ▸ mem_cons_of_mem _ (mem_cons_self ..)) hr0
  | trap hc ht =>
    obtain ⟨cause, regs, rfl, rfl⟩ := trapEntry_some ht
    cases hret
  | irq hq =>
    obtain ⟨cause, -, rfl⟩ := Option.map_eq_some_iff.1 hq
    cases hret

/-- The same for a thread that is marked, and whose last tests all find `p->killed` set. -/
theorem Inside.step_marked (hm : Inside s t) (hk : (s.mem.thread t).killed = true) (h : Core s)
    (hadv : Advances s c s') (hstep : Step kernel s c e s') (htest : testsKilled s c = true)
    (hz : (s'.mem.thread t).state ≠ .zombie) :
    Inside s' t ∧ (s'.mem.thread t).killed = true := by
  have hin : Inside s' t := by
    refine hm.step h hadv hstep (fun timer htop => ?_) hz
    simpa [testsKilled, htop, hk] using htest
  exact ⟨hin, killed_stays hstep hk hin.live hin.started⟩

theorem Core.marks_inside {me : ThreadRef} {i : TIdx} (h : Core s)
    (hr : s.Runs c (.killthreads me (.markWrite i)) below) (hmark : marksInside s c = true)
    (hlive : (s.mem.thread ⟨me.p, i⟩).state.dead = false) : Inside s ⟨me.p, i⟩ where
  live := hlive
  started := by
    have hrun := h.top_state hr.active (h.mine hr.active) rfl
    exact h.used.busy me (by rw [hrun]; nofun) (by rw [hrun]; nofun) rfl
  frames := fun st hv f hf => by
    simp only [marksInside, hr.top, h.stackOf_eq hv, all_eq_true, not_eq_true'] at hmark
    exact hmark f hf

end

/-- The condition on the steps of a run: `kthread_join` frees only threads that have terminated, a
    marked thread gets past `usertrap`'s last test only into `exit`, and no thread is marked that is
    past it. -/
def killedSeen (s : KState) (c : CpuId) : Bool :=
  reapsZombie s c && testsKilled s c && marksInside s c

/-- Cpu `c` is about to execute the assignment `trd->killed = 1` of `killthreads`, with `trd` the
    slot `t`. -/
def marks (s : KState) (c : CpuId) (t : ThreadRef) : Bool :=
  match s.top c with
  | some (.killthreads me (.markWrite i)) => t = ⟨me.p, i⟩
  | _ => false

theorem marks_spec {s : KState} {c : CpuId} {t : ThreadRef} (h : marks s c t = true) :
    ∃ me i below, s.Runs c (.killthreads me (.markWrite i)) below ∧ t = ⟨me.p, i⟩ := by
  unfold marks at h
  split at h
  · next me i htop =>
    obtain ⟨below, hr⟩ := State.runs_of_top htop
    exact ⟨me, i, below, hr, of_decide_eq_true h⟩
  · cases h

/-- Cpu `c` is about to jump to `userret` on behalf of thread `t`. -/
def jumpsToUser (s : KState) (c : CpuId) (t : ThreadRef) : Bool :=
  match s.top c with
  | some (.usertrapret me .ret) => me = t
  | _ => false

theorem Inside.not_jumpsToUser {s : KState} {c : CpuId} {t : ThreadRef} (hm : Inside s t)
    (h : Core s) : jumpsToUser s c t = false := by
  by_contra hj
  unfold jumpsToUser at hj
  split at hj
  · next me htop =>
    obtain ⟨below, hr⟩ := State.runs_of_top htop
    obtain rfl : me = t := by simpa using hj
    have hon : On s c me := .ofTop hr.active (h.mine hr.active) rfl
    have hf := hm.frames _ (.on c hon) (.usertrapret me .ret) (hr.active ▸ mem_cons_self ..)
    cases hf
  · exact hj rfl

/-- **Once `killthreads` has set `t->killed`, thread `t` does not return to user mode before it is
    `TZOMBIE`**, in every run whose steps meet the condition. -/
theorem marked_no_userret {g : Pages} (hg : g.ok = true) (um : UserMem)
    {tr tr' : List (CpuId × Env)} {c : CpuId} {e : Env} {t : ThreadRef}
    (h : Along kernel (fun s c _ => killedSeen s c = true) (boot g um) (tr ++ (c, e) :: tr'))
    (hmarks : marks (run kernel (boot g um) tr) c t = true)
    (hlive : ((run kernel (boot g um) tr).mem.thread t).state.dead = false)
    (hset : ((exec kernel (run kernel (boot g um) tr) c e).mem.thread t).killed = true)
    (hz : Throughout kernel (fun s => (s.mem.thread t).state ≠ .zombie)
      (exec kernel (run kernel (boot g um) tr) c e) tr') (c' : CpuId) :
    jumpsToUser (run kernel (boot g um) (tr ++ (c, e) :: tr')) c' t = false := by
  have hcond : ∀ {s : KState} {c : CpuId}, killedSeen s c = true →
      reapsZombie s c = true ∧ testsKilled s c = true ∧ marksInside s c = true := by
    intro s c hs
    simp only [killedSeen, and_eq_true] at hs
    exact ⟨hs.1.1, hs.1.2, hs.2⟩
  rw [run_append, run_cons]
  obtain ⟨hbefore, hmark, hafter⟩ := Along.append.1 h
  have hcore := run_core hg um (hbefore.mono fun _ _ _ hs => (hcond hs).1)
  generalize run kernel (boot g um) tr = s at *
  obtain ⟨hreap, -, hinside⟩ := hcond hmark
  obtain ⟨me, i, below, hr, rfl⟩ := marks_spec hmarks
  -- the step that marks the thread
  have hadv := hcore.step (e := e) hreap exec_step
  have hin : Inside (exec kernel s c e) ⟨me.p, i⟩ := by
    refine (hcore.marks_inside hr hinside hlive).step hcore hadv exec_step ?_ hz.head
    intro timer htop
    cases hr.top.symm.trans htop
  -- the steps after it
  have hall := hafter.invariant_of
    (fun s => Core s ∧ Inside s ⟨me.p, i⟩ ∧ (s.mem.thread ⟨me.p, i⟩).killed = true) hz
    ⟨hadv.core, hin, hset⟩ ?_
  · exact hall.2.1.not_jumpsToUser hall.1
  rintro s c e hs hz ⟨hcore, hin, hk⟩
  obtain ⟨hreap, htest, -⟩ := hcond hs
  have hadv := hcore.step (e := e) hreap exec_step
  exact ⟨hadv.core, hin.step_marked hk hcore hadv exec_step htest hz⟩

/-- The first process has two threads, the first calls `exec` and is about to mark the second, which
    executes user code on the second cpu. -/
def execMarks : List (CpuId × Env) :=
  steps 0 14 ++ ecall 0 26 100 200 :: steps 0 20 ++ steps 1 15 ++ ecall 0 7 0 0 :: steps 0 8

/-- The marked thread makes a system call and returns from it. -/
theorem marked_returns :
    let s := run kernel (boot firstPages fun _ => none) execMarks
    let s' := exec kernel s 0 {}
    marks s 0 ⟨0, 1⟩ = true ∧ (s.mem.thread ⟨0, 1⟩).state = .running ∧
      (s'.mem.thread ⟨0, 1⟩).killed = true ∧
      Throughout kernel (fun s => (s.mem.thread ⟨0, 1⟩).state ≠ .zombie) s'
        (ecall 1 11 0 0 :: steps 1 17) ∧
      jumpsToUser (run kernel s' (ecall 1 11 0 0 :: steps 1 17)) 1 ⟨0, 1⟩ = true := by
  decide +kernel

/-- On its way into the kernel it meets the condition. -/
theorem marked_no_userret_call : jumpsToUser (run kernel (boot firstPages fun _ => none)
      (execMarks ++ (0, {}) :: ecall 1 11 0 0 :: steps 1 6)) 1 ⟨0, 1⟩ = false :=
  marked_no_userret rfl _ (by decide +kernel) (by decide +kernel) (by decide +kernel)
    (by decide +kernel) (by decide +kernel) 1

end Xv6
