import Xv6.Threads.Resting
import Xv6.Threads.Sched
import Xv6.Threads.Wakeups
import Xv6.Threads.Trapframes

set_option autoImplicit false

/-! # Waiting in kthread_join

A thread that sleeps in `kthread_join` waits for the thread that had the id it was given when it
last looked. That thread wakes it up in `kthread_exit`, with `wait_lock` held from the wake-up until
it is `TZOMBIE`, so that no joiner can slip in between (`Joined`). Two things break this: the loop
of `kthread_join` tests for `TZOMBIE` only, so a joiner that finds the slot freed already, with its
stale id, goes to sleep on it; and a thread that takes the branch of `killthreads` for marked
threads becomes `TZOMBIE` without `wait_lock`. -/

namespace Xv6

open Machine Option

/-- If the step is the test of `kthread_join`, the slot is not a freed one that still has the id. -/
def joinsUsed (s : KState) (c : CpuId) : Bool :=
  match s.top c with
  | some (.kthreadJoin me id _ (.test k)) =>
    !((s.mem.thread ⟨me.p, k⟩).tid = id && (s.mem.thread ⟨me.p, k⟩).state = .unused)
  | _ => true

section

variable {s s' : KState} {c : CpuId} {e : Env} {t u : ThreadRef} {f k : Frame}
  {st below : List Frame} {id : Option Int}

/-! ## Committed threads -/

variable {chan : Chan} {me : ThreadRef} {status : BitVec 32} {v : KView} {r tid : Int}

theorem sleep_waits {lk : Lock} {pc : SleepPc} (h : locking.Wf (.sleep me chan lk pc :: below)) :
    ∃ k rest, below = k :: rest ∧ k.awaits (.sleep chan lk) := by
  cases below with
  | nil => cases h
  | cons k rest =>
    obtain hadj | hadj : Fn.sleep chan lk = .kerneltrap ∨ k.awaits (.sleep chan lk) := h.1
    · cases hadj
    · exact ⟨k, rest, rfl, hadj⟩

theorem commits_join {state : ThreadState} (hwf : locking.Wf st)
    (h : commits state st = some (.thread u, id)) :
    ∃ me tid status pc, .kthreadJoin me tid status pc ∈ st ∧ u.p = me.p ∧ id = some tid := by
  -- the caller of `sleep`
  have hsleep : ∀ {me : ThreadRef} {lk : Lock} {pc : SleepPc} {rest : List Frame},
      locking.Wf (.sleep me (.thread u) lk pc :: rest) →
      ∃ me tid status pc, .kthreadJoin me tid status pc ∈ rest ∧ u.p = me.p ∧
        joinId rest = some tid := by
    intro me lk pc rest hwf
    obtain ⟨k, rest, rfl, hk⟩ := sleep_waits hwf
    rcases awaits_sleep hk with ⟨me', tid, status, i, rfl, hch, -⟩ | ⟨_, _, -, hch⟩ |
      ⟨_, _, -, hch, -⟩ | ⟨_, _, _, -, hch⟩
    · obtain rfl := Chan.thread.inj hch
      exact ⟨me', tid, status, _, List.mem_cons_self .., rfl, rfl⟩
    · cases hch
    · cases hch
    · exact nomatch hch
  unfold commits at h
  split at h
  · split at h
    · cases h
      obtain ⟨me, tid, status, pc, hmem, hp, hid⟩ := hsleep hwf.tail
      exact ⟨me, tid, status, pc, by simp [hmem], hp, hid⟩
    · cases h
  · split at h
    · cases h
      obtain ⟨me, tid, status, pc, hmem, hp, hid⟩ := hsleep hwf
      exact ⟨me, tid, status, pc, by simp [hmem], hp, hid⟩
    · cases h
  · obtain ⟨hch, rfl⟩ := Prod.mk.inj (some.inj h)
    obtain rfl := Chan.thread.inj hch
    exact ⟨_, _, _, _, List.mem_cons_self .., rfl, rfl⟩
  · obtain ⟨hch, rfl⟩ := Prod.mk.inj (some.inj h)
    obtain rfl := Chan.thread.inj hch
    exact ⟨_, _, _, _, List.mem_cons_self .., rfl, rfl⟩
  · cases h
  · cases h

theorem Core.commits_proc (h : Core s) (hc : Commits s t (.thread u) id) : u.p = t.p := by
  obtain ⟨st, hv, hc⟩ := hc
  obtain ⟨me, tid, status, pc, hmem, hp, -⟩ := commits_join (hv.wf h) hc
  cases hv.mine h hmem
  exact hp

theorem Core.commits_live (h : Core s) (hc : Commits s t chan id) :
    (s.mem.table.slot t).state.dead = false := by
  obtain ⟨st, hv, hc⟩ := hc
  cases hv with
  | on c hon =>
    have hok := h.state c t hon
    cases hact : s.active c with
    | nil =>
      rw [hact] at hc
      cases hc
    | cons f rest =>
      rw [hact] at hc hok
      cases f with
      | sched me lk pc => rw [commits_sched hc]; rfl
      | sleep me ch lk pc =>
        cases pc with
        | acquire | release | set | sched => rw [show _ = _ from hok]; rfl
        | _ => cases hc
      | kthreadJoin me tid status pc | bsemDown me d pc => rw [show _ = _ from hok]; rfl
      | _ => cases hc
  | parked hp _ => rcases hp.1 with hst | hst <;> rw [hst] <;> rfl

/-! ## The threads that are waited for -/

/-- The points of `kthread_exit` between its wake-up and its end. -/
def KthreadExitPc.announced : KthreadExitPc → Bool
  | .acquireP _ | .zombie _ => true
  | _ => false

/-- A thread that is waited for has the id that is waited for and has not terminated; and nobody
    waits for a thread that has announced its end. -/
structure Joined (s : KState) : Prop where
  target : ∀ t u id, Commits s t (.thread u) id →
    id = some (s.mem.table.slot u).tid ∧ (s.mem.table.slot u).state.dead = false
  announced : ∀ c me status pc rest, s.active c = .kthreadExit me status pc :: rest →
    pc.announced = true → ∀ t id, ¬ Commits s t (.thread me) id

variable {pc : KthreadExitPc}

theorem kthreadExit_next (hs : Follows f (.kthreadExit me status pc))
    (hk : (code v f).next = some (.kthreadExit me status pc)) (hpc : pc.announced = true) :
    ∃ pc0, f = .kthreadExit me status pc0 ∧ pc0.announced = true := by
  obtain ⟨hidx⟩ := hs
  cases f with
  | kthreadExit me0 status0 pc0 =>
    cases pc0 with
    | acquireP q | zombie q =>
      cases hk
      exact ⟨_, rfl, rfl⟩
    | start | decide =>
      simp only [code, kthreadExitCode] at hk
      split at hk <;> cases hk
      cases hpc
    | scan | release | releaseW =>
      cases hk
      cases hpc
    | _ => cases hk
  | _ => cases hidx

theorem kthreadExit_resume {x : Fn}
    (h : k.awaits x) (hk : resumeFrame k r = .kthreadExit me status pc)
    (hpc : pc.announced = true) : x = .wakeup (.thread me) ∧ .wait ∈ k.kept := by
  cases k with
  | kthreadExit me0 status0 pc0 =>
    obtain ⟨rfl, rfl, rfl⟩ := Frame.kthreadExit.inj hk
    cases pc0 with
    | acquireP q =>
      cases x with
      | wakeup chan =>
        obtain rfl : chan = .thread me0 := h
        exact ⟨rfl, by simp⟩
      | _ => exact absurd h id
    | zombie q => cases x <;> exact absurd h id
    | _ => cases hpc
  | usertrap me0 pc0 | exit me0 status0 pc0 | exec me0 pc0 => cases pc0 <;> cases hk
  | _ => cases hk

theorem wakeup_ret (hf : f.fn = .wakeup chan)
    (hk : code v f = .ret r) : f = .wakeup chan .done := by
  cases f with
  | wakeup ch pc =>
    obtain rfl := Fn.wakeup.inj hf
    cases pc with
    | done => rfl
    | _ => cases hk
  | _ => cases hf

theorem KthreadExitPc.announced_wait
    (hpc : pc.announced = true) : .wait ∈ Frame.held (.kthreadExit me status pc) := by
  cases pc with
  | acquireP | zombie => simp
  | _ => cases hpc

section

variable (hj : Joined s) (h : Core s)
include hj h

theorem Joined.announced_step (hw : Woken s) (hadv : Advances s c s')
    (hstep : Step kernel s c e s') {c0 : CpuId}
    {rest : List Frame}
    (hact : s'.active c0 = .kthreadExit me status pc :: rest) (hpc : pc.announced = true) :
    ¬ Commits s' t (.thread me) id := by
  intro hc'
  have hon : On s' c0 me := .ofTop hact (hadv.core.mine hact) rfl
  have hv : Valid s' me (.kthreadExit me status pc :: rest) := hact ▸ .on c0 hon
  -- a cpu that executes this frame holds `wait_lock`, so that no other sends a thread to sleep
  have hback : ∀ {c' : CpuId} {pc0 : KthreadExitPc} {rest0 : List Frame},
      s.active c' = .kthreadExit me status pc0 :: rest0 → pc0.announced = true → False := by
    intro c' pc0 rest0 hact0 hpc0
    refine hj.announced c' me status pc0 rest0 hact0 hpc0 t id ?_
    rcases h.commits_origin hadv hstep hc' with hc | ⟨-, f, below, hr, henter⟩
    · exact hc
    have hown := h.lock hr.active (henter.guarded rfl)
    cases (h.lock hact0 (KthreadExitPc.announced_wait hpc0)).symm.trans hown
    cases hact0.symm.trans hr.active
    cases henter
  rcases h.stack_origin hadv hstep hv with ⟨hv0, -⟩ | ⟨hnew, -⟩ | ⟨-, hst⟩
  · -- the thread is not on the cpu of the step
    generalize hst0 : Frame.kthreadExit me status pc :: rest = st0 at hv0
    cases hv0 with
    | on c' hon' => exact hback hst0.symm hpc
    | parked =>
      obtain ⟨f, below, hctx, hsaved⟩ := h.saved me
      cases hst0.trans hctx
      cases hsaved
  · cases (List.cons.inj hnew).1
  generalize hst0 : Frame.kthreadExit me status pc :: rest = st0 at hst
  cases hst with
  | same => exact hback hst0.symm hpc
  | trap ha hcur ht =>
    obtain ⟨cause, regs, rfl, rfl⟩ := trapEntry_some ht
    cases hst0
  | irq hr hi hq =>
    obtain ⟨cause, -, rfl⟩ := map_eq_some_iff.1 hq
    cases hst0
  | next hr hk =>
    cases hst0
    have hok := (h.locked.cpu c).instrOk (i := e) kernel_disciplined hr rfl
    obtain ⟨pc0, rfl, hpc0⟩ := kthreadExit_next (hok.next hk).follows hk hpc
    exact hback hr.active hpc0
  | call hr hk =>
    cases hst0
    obtain ⟨-, -, -, hentry, -⟩ := (h.locked.cpu c).instrOk kernel_disciplined hr hk
    cases pc with
    | acquireP | zombie => cases hentry
    | _ => cases hpc
  | @ret f k r rest0 hr hk =>
    obtain ⟨hres, -⟩ := List.cons.inj hst0
    have ha := ret_awaits hk (h.stack hr.active).wf.1
    obtain ⟨hfn, hkept⟩ := kthreadExit_resume ha hres.symm hpc
    obtain rfl := wakeup_ret hfn hk
    have hlock : s.lock .wait = some c := by
      rw [(h.locked.cpu c).lock, hr.active, Discipline.total_cons]
      exact Multiset.mem_add.2 (.inr (Multiset.mem_add.2 (.inl hkept)))
    refine hw c _ _ _ .wait hr.active rfl hlock t id t.p.isLt ?_
    rcases h.commits_origin hadv hstep hc' with hc | ⟨-, f, below, hr', henter⟩
    · exact hc
    · cases hr.active.symm.trans hr'.active
      cases henter
  | iret hr hk =>
    obtain ⟨hisr, -⟩ := (h.locked.cpu c).instrOk kernel_disciplined hr hk
    subst hst0
    have hzero : (Frame.kthreadExit me status pc).held = 0 := ((h.stack hr.active).wf.2.1 hisr).2
    have hwait : .wait ∈ (Frame.kthreadExit me status pc).held :=
      KthreadExitPc.announced_wait hpc
    rw [hzero] at hwait
    cases hwait
  | userret => cases hst0

theorem Joined.stays
    (hall : AllFrames (fun f => f.killedBranch = false) s) (hstep : Step kernel s c e s')
    (hc : Commits s t (.thread u) id) (hne : (s.mem.thread u).state ≠ .zombie) :
    (s'.mem.thread u).state ≠ .zombie := by
  intro hz
  obtain ⟨f, below, hr, rfl | ⟨status, q, rfl⟩ | ⟨status, rfl⟩⟩ := dies hstep hne hz
  · cases (hall.top hr).1
  · exact hj.announced c u status _ below hr.active rfl t id hc
  -- `exit` has seen to it that the waiting thread is gone
  have hme := h.mine hr.active
  have hon : On s c u := .ofTop hr.active hme rfl
  have hp := h.commits_proc hc
  have hswept : Swept s u NTHREAD := h.top_asserts hr.active hme rfl rfl
  have hrest : ∀ i, i ≠ u.i → (s.mem.table.slot ⟨u.p, i⟩).state.dead = true := by
    rcases hswept with hs | ⟨k, hk, -⟩
    · exact fun i hi => hs i i.isLt hi
    · exact absurd hk (Nat.not_le.2 k.isLt)
  by_cases hi : t.i = u.i
  · obtain rfl : t = u := by cases t; cases u; simp_all
    obtain ⟨st, hv, hc⟩ := hc
    rw [h.valid_unique hv (.on c hon), hr.active] at hc
    cases hc
  have hd := hrest t.i hi
  rw [show (⟨u.p, t.i⟩ : ThreadRef) = t from by rw [hp]] at hd
  cases hd.symm.trans (h.commits_live hc)

theorem Joined.target_stays
    (hall : AllFrames (fun f => f.killedBranch = false) s) (hadv : Advances s c s')
    (hstep : Step kernel s c e s') (hc : Commits s t (.thread u) id) :
    (s'.mem.table.slot u).tid = (s.mem.table.slot u).tid ∧
      (s'.mem.table.slot u).state.dead = false := by
  obtain ⟨-, hlive⟩ := hj.target t u id hc
  have hne : (s.mem.table.slot u).state ≠ .zombie := fun hz => by
    rw [hz] at hlive
    cases hlive
  -- its process is not one that is being set up: the waiting thread is in it
  have howns : ¬ Owns s c u.p := by
    rw [h.commits_proc hc]
    obtain ⟨st, hv, -⟩ := hc
    exact h.owned_not_started (hv.started h).1 (hv.started h).2
  exact h.slot_live hadv hlive howns (hj.stays h hall hstep hc hne)

/-- **The threads that are waited for stay**: every step that meets the conditions keeps it so. -/
theorem Joined.step (hw : Woken s)
    (hall : AllFrames (fun f => f.killedBranch = false) s) (hadv : Advances s c s')
    (hstep : Step kernel s c e s') (hused : joinsUsed s c = true) : Joined s' where
  target := by
    intro t u id hc'
    rcases h.commits_origin hadv hstep hc' with hc | ⟨-, f, below, hr, henter⟩
    · obtain ⟨htid, hlive⟩ := hj.target_stays h hall hadv hstep hc
      rw [htid]
      exact ⟨(hj.target t u id hc).1, hlive⟩
    -- the test of `kthread_join` has just found the thread
    cases henter with
    | join me id status k hwaits =>
      have hmem : s'.mem = s.mem := by
        refine hstep.mem_silent hr.active ?_
        show (kthreadJoinCode (s.view c e) me id status (.test k)).silent = true
        simp only [kthreadJoinCode]
        split <;> rfl
      obtain ⟨htid, hz⟩ : (s.mem.thread ⟨me.p, k⟩).tid = id ∧
          (s.mem.thread ⟨me.p, k⟩).state ≠ .zombie := by
        simpa [joinWaits] using hwaits
      have hu : (s.mem.thread ⟨me.p, k⟩).state ≠ .unused := by
        simpa [joinsUsed, hr.top, htid] using hused
      rw [hmem]
      refine ⟨congrArg some htid.symm, ?_⟩
      show (s.mem.thread ⟨me.p, k⟩).state.dead = false
      cases hst : (s.mem.thread ⟨me.p, k⟩).state with
      | zombie => exact absurd hst hz
      | unused => exact absurd hst hu
      | _ => rfl
  announced := fun c0 me status pc rest hact hpc t id =>
    hj.announced_step h hw hadv hstep hact hpc

end

/-! ## Every run -/

/-- The slot and the id that thread `t` waits for, if it has gone to sleep in `kthread_join`. -/
def joinOf (s : KState) (t : ThreadRef) : Option (TIdx × Int) :=
  match s.ctx t with
  | .sched _ _ _ :: .sleep _ _ _ .switched :: .kthreadJoin _ id _ (.slept k) :: _ => some (k, id)
  | _ => none

theorem joinOf_ctx {k : TIdx} (h : joinOf s t = some (k, tid)) :
    ∃ me lk pc me' ch lk' me'' status rest, s.ctx t = .sched me lk pc :: .sleep me' ch lk' .switched ::
      .kthreadJoin me'' tid status (.slept k) :: rest := by
  unfold joinOf at h
  split at h
  · next hctx =>
    cases h
    exact ⟨_, _, _, _, _, _, _, _, _, hctx⟩
  · cases h

theorem Core.commits_joinOf {k : TIdx} (h : Core s) (hsl : Sleepers s)
    (hst : (s.mem.thread t).state = .sleeping) (hlock : s.lock (.proc t.p) = none)
    (hj : joinOf s t = some (k, tid)) : Commits s t (.thread ⟨t.p, k⟩) (some tid) := by
  obtain ⟨id, st, hv, -⟩ := hsl t hst
  have hoff : ∀ c, ¬ On s c t := fun c hon => by
    have hrun : (s.mem.table.slot t).state ≠ .running := fun hr => nomatch hr.symm.trans hst
    cases hlock.symm.trans (h.window hon hrun)
  have hv' : Valid s t (s.ctx t) := .parked ⟨.inr hst, hv.framed h⟩ hoff
  refine ⟨_, hv', ?_⟩
  obtain ⟨me, lk, pc, me', ch, lk', me'', status, rest, hctx⟩ := joinOf_ctx hj
  have hwf := hv'.wf h
  have hmine := hv'.mine h (f := .kthreadJoin me'' tid status (.slept k)) (by simp [hctx])
  cases hmine
  rw [hctx] at hwf ⊢
  obtain ⟨x, rest', hx, hawaits⟩ := sleep_waits hwf.tail
  cases hx
  obtain ⟨rfl, -⟩ : ch = .thread ⟨t.p, k⟩ ∧ lk' = .wait := hawaits
  rw [show (s.mem.table.slot t).state = .sleeping from hst]
  rfl

end

theorem boot_joined {g : Pages} (hg : g.ok = true) (um : UserMem) : Joined (boot g um) where
  target := fun _ _ _ hc => absurd hc (boot_commits hg um)
  announced := fun _ _ _ _ _ hact => nomatch hact

/-- **A thread that sleeps in `kthread_join` sleeps on a live thread with the id it waits for**, in
    every run in which `kthread_join` does not go to sleep on a freed slot, frees only `TZOMBIE`
    threads, and no thread marked as killed enters `killthreads`. -/
theorem join_sleeps_on_live {g : Pages} (hg : g.ok = true) (um : UserMem)
    {tr : List (CpuId × Env)}
    (h : Along kernel (fun s c _ => reapsZombie s c = true ∧ entersUnmarked s c = true ∧
      joinsUsed s c = true) (boot g um) tr) (t : ThreadRef) (k : TIdx) (id : Int)
    (hst : ((run kernel (boot g um) tr).mem.thread t).state = .sleeping)
    (hlock : (run kernel (boot g um) tr).lock (.proc t.p) = none)
    (hj : joinOf (run kernel (boot g um) tr) t = some (k, id)) :
    ((run kernel (boot g um) tr).mem.thread ⟨t.p, k⟩).tid = id ∧
      ((run kernel (boot g um) tr).mem.thread ⟨t.p, k⟩).state ≠ .zombie ∧
      ((run kernel (boot g um) tr).mem.thread ⟨t.p, k⟩).state ≠ .unused := by
  obtain ⟨hcore, hsl, -, -, hjoined⟩ := h.invariant
    (fun s => Core s ∧ Sleepers s ∧ Woken s ∧ AllFrames (fun f => f.killedBranch = false) s ∧
      Joined s)
    ⟨boot_core hg um, boot_sleepers hg um, boot_woken g um, boot_unmarked g um, boot_joined hg um⟩
    fun s c e ⟨hreap, hun, hused⟩ ⟨hcore, hsl, hw, hall, hjoined⟩ => by
      have hadv := hcore.step (e := e) hreap exec_step
      exact ⟨hadv.core, hsl.step hcore hadv exec_step, hw.step hcore hsl hadv exec_step,
        hall.step (unmarked_introduces hcore.locked hun) exec_step,
        hjoined.step hcore hw hall hadv exec_step hused⟩
  obtain ⟨hid, hlive⟩ := hjoined.target t _ _ (hcore.commits_joinOf hsl hst hlock hj)
  refine ⟨(some.inj hid).symm, fun hz => ?_, fun hu => ?_⟩
  · rw [show (Table.slot _ _).state = .zombie from hz] at hlive
    cases hlive
  · rw [show (Table.slot _ _).state = .unused from hu] at hlive
    cases hlive

/-- The thread that was created, exited and joined is joined once more: its slot is `t_UNUSED` and
    keeps its id, so the joiner goes to sleep on it, with both locks free and no one left to wake it
    up. -/
theorem join_strands :
    let s := run kernel (boot firstPages fun _ => none) (createJoin ++ ecall 0 28 2 0 :: steps 0 25)
    s.lock .wait = none ∧ s.lock (.proc 0) = none ∧ (s.mem.thread ⟨0, 0⟩).state = .sleeping ∧
      joinOf s ⟨0, 0⟩ = some (1, 2) ∧ (s.mem.thread ⟨0, 1⟩).state = .unused := by
  decide +kernel

/-- The first process creates a thread and joins it: it sleeps on the slot of the new thread. -/
theorem join_sleeps_on_second :
    let s := run kernel (boot firstPages fun _ => none)
      (steps 0 14 ++ ecall 0 26 100 200 :: steps 0 20 ++ ecall 0 28 2 0 :: steps 0 19)
    (s.mem.thread ⟨0, 1⟩).tid = 2 ∧ (s.mem.thread ⟨0, 1⟩).state ≠ .zombie ∧
      (s.mem.thread ⟨0, 1⟩).state ≠ .unused :=
  join_sleeps_on_live rfl _ (by decide +kernel) ⟨0, 0⟩ 1 2 (by decide +kernel) (by decide +kernel)
    (by decide +kernel)

end Xv6
