import Xv6.Threads.Exec

set_option autoImplicit false

/-! # Sleeping and waking up

A thread commits itself to sleep long before it is `t_SLEEPING`: from the test that tells it to wait
it goes through `sleep`, `p->lock` and `sched`. `commits` reads off a stack what a thread has
committed itself to sleep on. Two facts about it hold in every state of a run:

* a thread that is `t_SLEEPING` is committed to the channel in its slot (`Sleepers`);
* a thread gets committed only by the test of a function that sleeps, under the lock that guards the
  channel (`Core.commits_origin`, `Enters.guarded`). -/

namespace Xv6

open Machine Option

/-! ## Threads that will sleep -/

/-- The call of `kthread_join` that waits in `sleep`, by the id it waits for. -/
def joinId : List Frame → Option Int
  | .kthreadJoin _ id _ _ :: _ => some id
  | _ => none

/-- The points of `sleep` before the switch. -/
def SleepPc.before : SleepPc → Bool
  | .acquire | .release | .set | .sched => true
  | _ => false

/-- The channel that a thread with this stack has committed itself to sleep on, with the id it waits
    for if it does so in `kthread_join`. Once it has been through the switch, it sleeps as long as
    its state says so. -/
def commits (state : ThreadState) : List Frame → Option (Chan × Option Int)
  | .sched _ _ _ :: .sleep _ chan _ .switched :: rest =>
    if state = .sleeping then some (chan, joinId rest) else none
  | .sleep _ chan _ pc :: rest => if pc.before then some (chan, joinId rest) else none
  | .kthreadJoin me id _ (.releaseP k) :: _ | .kthreadJoin me id _ (.sleep k) :: _ =>
    some (.thread ⟨me.p, k⟩, some id)
  | .bsemDown _ d .sleep :: _ => some (.bsem d, none)
  | _ => none

/-- Thread `t` is committed to sleep on `chan`. -/
def Commits (s : KState) (t : ThreadRef) (chan : Chan) (id : Option Int) : Prop :=
  ∃ st, Valid s t st ∧ commits (s.mem.table.slot t).state st = some (chan, id)

/-- The lock under which threads commit themselves to sleep on a channel. -/
def Chan.guard : Chan → Option Lock
  | .thread _ => some .wait
  | .bsem d => some (.bsem d)
  | _ => none

/-- The tests that send a thread to sleep on a channel. -/
inductive Enters (m : Mem) : Frame → Chan → Option Int → Prop where
  | join (me : ThreadRef) (id : Int) (status : Nat) (k : TIdx)
      (h : joinWaits (m.thread ⟨me.p, k⟩) id = true) :
      Enters m (.kthreadJoin me id status (.test k)) (.thread ⟨me.p, k⟩) (some id)
  | bsem (me : ThreadRef) (d : BIdx) (hd : (m.bsems d).descriptor ≠ -1)
      (hv : (m.bsems d).value ≠ 1) : Enters m (.bsemDown me d .test) (.bsem d) none
  | wait (me : ThreadRef) (addr : Nat) : Enters m (.wait me addr .sleep) (.proc me.p) none
  | block (me : ThreadRef) (lk ch : Nat) : Enters m (.block me lk ch .loop) (.other ch) none

section

variable {s s' : KState} {c : CpuId} {e : Env} {t : ThreadRef} {f k : Frame} {st below : List Frame}
  {chan : Chan} {id : Option Int} {v : KView}

theorem Enters.guarded {m : Mem} {l : Lock} (h : Enters m f chan id) (hl : chan.guard = some l) :
    l ∈ f.held := by
  cases h with
  | join | bsem =>
    cases hl
    simp
  | wait | block => cases hl

/-! ## Where commitments come from -/

variable {me : ThreadRef} {state state' : ThreadState} {ch : Chan} {lk : Lock} {pc : SchedPc}
  {o : Option ThreadRef}

theorem kthreadJoin_commits {tid : Int} {status : Nat} {pc : KthreadJoinPc}
    (hk : (kthreadJoinCode v me tid status pc).next = some k)
    (h : commits state (k :: below) = some (chan, id)) :
    commits state (.kthreadJoin me tid status pc :: below) = some (chan, id) ∨
      Enters v.mem (.kthreadJoin me tid status pc) chan id := by
  cases pc with
  | test i =>
    simp only [kthreadJoinCode] at hk
    split at hk
    · next hw =>
      cases hk
      cases h
      exact .inr (.join me tid status i hw)
    · cases hk
      cases h
  | releaseP i =>
    cases hk
    exact .inl h
  | start | copy =>
    simp only [kthreadJoinCode] at hk
    repeat' split at hk
    all_goals
      cases hk
      cases h
  | sleep | done | failed => cases hk
  | _ =>
    cases hk
    cases h

theorem bsemDown_commits {d : BIdx} {pc : BsemDownPc} (hk : (bsemDownCode v me d pc).next = some k)
    (h : commits state (k :: below) = some (chan, id)) : Enters v.mem (.bsemDown me d pc) chan id := by
  cases pc with
  | test =>
    simp only [bsemDownCode] at hk
    split at hk
    · cases hk
      cases h
    split at hk
    · cases hk
      cases h
    split at hk
    · cases hk
    next hd hv _ _ _ =>
    cases hk
    cases h
    exact .bsem me d hd hv
  | sleep | done => cases hk
  | _ =>
    cases hk
    cases h

theorem sleep_commits {pc : SleepPc} (hk : (sleepCode me ch lk pc).next = some k)
    (h : commits state (k :: below) = some (chan, id)) :
    commits state (.sleep me ch lk pc :: below) = some (chan, id) := by
  cases pc with
  | acquire | release | set =>
    cases hk
    exact h
  | sched | done => cases hk
  | _ =>
    cases hk
    cases h

theorem sched_commits {me' : ThreadRef} {lk' : Lock} {pc' : SchedPc} (state : ThreadState) :
    commits state (.sched me lk pc :: below) = commits state (.sched me' lk' pc' :: below) := by
  cases below with
  | nil => rfl
  | cons k rest =>
    cases k with
    | sleep _ _ _ pc => cases pc <;> rfl
    | _ => rfl

theorem next_commits (hok : locking.Stays o f k) (hk : (code v f).next = some k)
    (h : commits state (k :: below) = some (chan, id)) :
    commits state (f :: below) = some (chan, id) ∨ Enters v.mem f chan id := by
  obtain hidx | _ | _ | _ | _ := hok.follows
  case same =>
    cases k with
    | kthreadJoin =>
      cases f with
      | kthreadJoin => exact kthreadJoin_commits hk h
      | _ => cases hidx
    | bsemDown =>
      cases f with
      | bsemDown => exact .inr (bsemDown_commits hk h)
      | _ => cases hidx
    | sleep =>
      cases f with
      | sleep => exact .inl (sleep_commits hk h)
      | _ => cases hidx
    | sched me lk pc =>
      cases f with
      | sched me' lk' pc' => exact .inl ((sched_commits state).trans h)
      | _ => cases hidx
    | _ => cases h
  all_goals cases h

theorem awaits_sleep (h : k.awaits (.sleep chan lk)) :
    (∃ me tid status i, k = .kthreadJoin me tid status (.slept i) ∧ chan = .thread ⟨me.p, i⟩ ∧
      lk = .wait) ∨
    (∃ me addr, k = .wait me addr .slept ∧ chan = .proc me.p) ∨
    (∃ me d, k = .bsemDown me d .slept ∧ chan = .bsem d ∧ lk = .bsem d) ∨
    ∃ me l ch, k = .block me l ch .slept ∧ chan = .other ch ∧ lk = .other l := by
  unfold Frame.awaits at h
  split at h
  all_goals first
    | exact absurd h id
    | (rename_i heq; cases heq; done)
    | skip
  · next heq =>
    cases heq
    exact .inl ⟨_, _, _, _, rfl, h⟩
  · next heq =>
    cases heq
    exact .inr (.inl ⟨_, _, rfl, h.1⟩)
  · next heq =>
    cases heq
    exact .inr (.inr (.inl ⟨_, _, rfl, h⟩))
  · next heq =>
    cases heq
    exact .inr (.inr (.inr ⟨_, _, _, rfl, h⟩))

theorem call_sleep (hs : Follows f k) (ha : k.awaits (.sleep ch lk))
    (hk : code v f = .call (.sleep me ch lk .acquire) k)
    (h : commits state (.sleep me ch lk .acquire :: k :: below) = some (chan, id)) :
    commits state (f :: below) = some (chan, id) ∨ Enters v.mem f chan id := by
  cases h
  rcases awaits_sleep ha with ⟨me', tid, status, i, rfl, rfl, -⟩ | ⟨me', addr, rfl, rfl⟩ |
    ⟨me', d, rfl, rfl, -⟩ | ⟨me', l, ch, rfl, rfl, -⟩
  · obtain ⟨hidx⟩ := hs
    cases f with
    | kthreadJoin me0 tid0 status0 pc =>
      cases pc with
      | sleep j =>
        obtain ⟨rfl, rfl, rfl, hj⟩ := Frame.kthreadJoin.inj (Instr.call.inj hk).2
        obtain rfl := KthreadJoinPc.slept.inj hj
        exact .inl rfl
      | start | test | copy =>
        simp only [code, kthreadJoinCode] at hk
        repeat' split at hk
        all_goals cases hk
      | _ => cases hk
    | _ => cases hidx
  · obtain ⟨hidx⟩ := hs
    cases f with
    | wait me0 addr0 pc =>
      cases pc with
      | sleep =>
        obtain ⟨rfl, rfl, -⟩ := Frame.wait.inj (Instr.call.inj hk).2
        exact .inr (.wait me0 addr0)
      | scan | check | copy | finish =>
        simp only [code, waitCode] at hk
        repeat' split at hk
        all_goals cases hk
      | _ => cases hk
    | _ => cases hidx
  · obtain ⟨hidx⟩ := hs
    cases f with
    | bsemDown me0 d0 pc =>
      cases pc with
      | sleep =>
        cases hk
        exact .inl rfl
      | test =>
        simp only [code, bsemDownCode] at hk
        repeat' split at hk
        all_goals cases hk
      | _ => cases hk
    | _ => cases hidx
  · obtain ⟨hidx⟩ := hs
    cases f with
    | block me0 l0 ch0 pc =>
      cases pc with
      | loop =>
        simp only [code, blockCode] at hk
        split at hk
        · obtain ⟨rfl, rfl, rfl, -⟩ := Frame.block.inj (Instr.call.inj hk).2
          exact .inr (.block me0 l0 ch0)
        · cases hk
      | _ => cases hk
    | _ => cases hidx

/-- A function that is called on the way to sleep is called by a committed thread, or by `wait` and
    the rest of the kernel. -/
theorem call_commits {g : Frame}
    (hok : locking.InstrOk kernel o f (.call g k)) (hk : code v f = .call g k)
    (h : commits state (g :: k :: below) = some (chan, id)) :
    commits state (f :: below) = some (chan, id) ∨ Enters v.mem f chan id := by
  obtain ⟨hs, -, -, hentry, hadj, hisr, -⟩ := hok
  have ha : k.awaits g.fn := hadj.resolve_left hisr
  cases g with
  | sleep me ch lk pc =>
    cases pc with
    | acquire => exact call_sleep hs.follows ha hk h
    | _ => cases hentry
  | sched me lk pc =>
    cases k with
    | sleep me' ch lk' pc' =>
      obtain ⟨hidx⟩ := hs.follows
      cases f with
      | sleep me0 ch0 lk0 pc0 =>
        cases pc0 with
        | sched =>
          cases hk
          simp only [commits] at h
          split at h
          · exact .inl h
          · cases h
        | _ => cases hk
      | _ => cases hidx
    | _ => cases h
  | kthreadJoin me tid status pc =>
    cases pc with
    | start => cases h
    | _ => cases hentry
  | bsemDown me d pc =>
    cases pc with
    | acquire => cases h
    | _ => cases hentry
  | _ => cases h

theorem resume_commits {x : Fn} {r : Int} (h : k.awaits x) :
    commits state (resumeFrame k r :: below) = none := by
  unfold Frame.awaits at h
  split at h <;> first | exact absurd h id | rfl

theorem commits_held (h : commits state (f :: below) = some (chan, id)) : f.held ≠ 0 := by
  cases f with
  | sched me lk pc => simp
  | sleep me ch lk pc | kthreadJoin me tid status pc =>
    cases pc <;> first | (simp; done) | cases h
  | bsemDown me d pc => cases pc <;> first | (simp; done) | cases h
  | _ => cases h

/-- The threads that a step finds committed or sends to sleep are those that are committed after
    it, as far as the thread of the cpu is concerned. -/
theorem Core.continues_commits (h : Core s) (hst : Continues kernel s c e st)
    (hc : commits state st = some (chan, id)) :
    commits state (s.active c) = some (chan, id) ∨
      ∃ f below, s.Runs c f below ∧ Enters s.mem f chan id := by
  cases hst with
  | same => exact .inl hc
  | trap ha hcur ht =>
    obtain ⟨cause, regs, rfl, rfl⟩ := trapEntry_some ht
    cases hc
  | irq hr hi hq =>
    obtain ⟨cause, -, rfl⟩ := map_eq_some_iff.1 hq
    cases hc
  | @next f k below hr hk =>
    have hok := (h.locked.cpu c).instrOk (i := e) kernel_disciplined hr rfl
    rw [hr.active]
    exact (next_commits (hok.next hk) hk hc).imp_right fun henter => ⟨f, below, hr, henter⟩
  | @call f g k below hr hk =>
    have hok := (h.locked.cpu c).instrOk (i := e) kernel_disciplined hr hk
    rw [hr.active]
    exact (call_commits hok hk hc).imp_right fun henter => ⟨f, below, hr, henter⟩
  | ret hr hk =>
    have ha := ret_awaits hk (h.stack hr.active).wf.1
    cases (resume_commits ha).symm.trans hc
  | iret hr hk =>
    obtain ⟨hisr, -⟩ := (h.locked.cpu c).instrOk kernel_disciplined hr hk
    cases st with
    | nil => cases hc
    | cons k rest => exact absurd ((h.stack hr.active).wf.2.1 hisr).2 (commits_held hc)
  | userret => cases hc

theorem Core.asleep_cases (h : Core s) (hadv : Advances s c s')
    (hst : (s'.mem.table.slot t).state = .sleeping) :
    s'.mem.table.slot t = s.mem.table.slot t ∨ (On s c t ∧ (s.mem.table.slot t).state = .running) := by
  cases hadv.proceeds.acts.slot h t with
  | same h' => exact .inl h'
  | leave _ hon hrun => exact .inr ⟨hon, hrun⟩
  | start _ _ _ h' | wake _ _ h' | born _ _ _ h' =>
    rw [h'] at hst
    cases hst
  | alloc _ hnew _ =>
    rcases hnew with hu | hu <;> cases hst.symm.trans hu
  | free _ _ hu => cases hst.symm.trans hu
  | create _ _ _ _ _ _ _ _ _ hr | createFault _ _ _ _ _ _ _ _ hr => cases hst.symm.trans hr

theorem Core.sleeping_stays (h : Core s) (hadv : Advances s c s') (hoff : ¬ On s c t)
    (hst : (s'.mem.table.slot t).state = .sleeping) : (s.mem.table.slot t).state = .sleeping := by
  rcases h.asleep_cases hadv hst with heq | ⟨hon, -⟩
  · rw [← heq, hst]
  · exact absurd hon hoff

theorem commits_mono (h : state' = .sleeping → state = .sleeping)
    (hc : commits state' st = some (chan, id)) : commits state st = some (chan, id) := by
  unfold commits at hc ⊢
  split at hc
  · obtain ⟨hst, hc⟩ := ite_none_right_eq_some.1 hc
    rw [if_pos (h hst)]
    exact hc
  all_goals exact hc

theorem commits_state
    (h : ¬ ∃ me lk pc below, st = .sched me lk pc :: below) : commits state st = commits state' st := by
  cases st with
  | nil => rfl
  | cons f below =>
    cases f with
    | sched me lk pc => exact absurd ⟨me, lk, pc, below, rfl⟩ h
    | kthreadJoin _ _ _ pc | bsemDown _ _ pc => cases pc <;> rfl
    | _ => rfl

theorem sched_mem (hstep : Step kernel s c e s')
    (hact : s.active c = .sched me lk pc :: below) : s'.mem = s.mem := by
  refine hstep.mem_silent hact ?_
  show (schedCode (s.view c e) me lk pc).silent = true
  cases pc with
  | check =>
    simp only [schedCode]
    repeat' split
    all_goals rfl
  | resumed | done => rfl

/-- **Threads get committed by tests.** A thread that is committed after a step was committed before
    it, or is the one that the cpu executes and its test sends it to sleep. -/
theorem Core.commits_origin (h : Core s) (hadv : Advances s c s') (hstep : Step kernel s c e s')
    (hc : Commits s' t chan id) :
    Commits s t chan id ∨
      On s c t ∧ ∃ f below, s.Runs c f below ∧ Enters s.mem f chan id := by
  obtain ⟨st, hv, hc⟩ := hc
  rcases h.stack_origin hadv hstep hv with ⟨hv0, hoff⟩ | ⟨rfl, -⟩ | ⟨hon, hst⟩
  · exact .inl ⟨st, hv0, commits_mono (h.sleeping_stays hadv hoff) hc⟩
  · cases hc
  rcases h.continues_commits hst hc with hc | henter
  · refine .inl ⟨_, .on c hon, ?_⟩
    -- the state matters only in `sched`, which does not change it
    by_cases hs : ∃ me lk pc below, s.active c = .sched me lk pc :: below
    · obtain ⟨me, lk, pc, below, hact⟩ := hs
      rwa [← sched_mem hstep hact]
    · rwa [commits_state hs]
  · exact .inr ⟨hon, henter⟩

/-! ## Threads that sleep -/

/-- The threads that are asleep are committed to what is in their slots. -/
def Sleepers (s : KState) : Prop :=
  ∀ t, (s.mem.table.slot t).state = .sleeping → ∃ id, Commits s t (s.mem.thread t).chan id

theorem Core.commits_unique {chan' : Chan} {id' : Option Int} (h : Core s)
    (hc : Commits s t chan id) (hc' : Commits s t chan' id') : chan = chan' ∧ id = id' := by
  obtain ⟨st, hv, hst⟩ := hc
  obtain ⟨st', hv', hst'⟩ := hc'
  obtain rfl := h.valid_unique hv hv'
  exact Prod.mk.inj (some.inj (hst.symm.trans hst'))

theorem valid_of_sleeping (hst : (s.mem.table.slot t).state = .sleeping)
    (htf : (s.mem.table.slot t).trapframe ≠ 0) : ∃ st, Valid s t st := by
  by_cases hon : ∃ c, On s c t
  · obtain ⟨c, hon⟩ := hon
    exact ⟨_, .on c hon⟩
  · exact ⟨_, .parked ⟨.inr hst, htf⟩ fun c hc => hon ⟨c, hc⟩⟩

theorem stateOk_sleeping (h : f.stateOk .sleeping) :
    (∃ me ch lk, f = .sleep me ch lk .sched) ∨ ∃ me lk, f = .sched me lk .check := by
  unfold Frame.stateOk at h
  split at h
  case h_2 => exact .inl ⟨_, _, _, rfl⟩
  case h_7 => exact .inr ⟨_, _, rfl⟩
  all_goals cases h

theorem sched_check : (∃ msg, code v (.sched me lk .check) = .panic msg) ∨
      ∃ b, code v (.sched me lk .check) = .giveup (.sched me lk (.resumed b)) := by
  simp only [code, schedCode]
  repeat' split
  all_goals first | exact .inl ⟨_, rfl⟩ | exact .inr ⟨_, rfl⟩

theorem Core.window_commits (h : Core s) (hon : On s c t)
    (hst : (s.mem.table.slot t).state = .sleeping)
    (hc : commits .sleeping (s.active c) = some (chan, id)) (hs : Continues kernel s c e st) :
    commits .sleeping st = some (chan, id) := by
  have hok := h.state c t hon
  rw [hst] at hok
  -- the two frames that may be on top, and what they do
  have hcode : ∀ {f : Frame} {below : List Frame}, s.Runs c f below →
      (∃ me ch lk, f = .sleep me ch lk .sched) ∨
        ∃ me lk, f = .sched me lk .check ∧ ((∃ msg, kernel.code (s.view c e) f = .panic msg) ∨
          ∃ b, kernel.code (s.view c e) f = .giveup (.sched me lk (.resumed b))) := by
    intro f below hr
    rw [hr.active] at hok
    rcases stateOk_sleeping hok with hf | ⟨me, lk, rfl⟩
    · exact .inl hf
    · exact .inr ⟨me, lk, rfl, sched_check⟩
  cases hs with
  | same => exact hc
  | trap ha =>
    rw [ha] at hok
    cases hok
  | irq hr hi hq =>
    rw [hr.active] at hc
    exact absurd (h.intr_free hr.active hi) (commits_held hc)
  | next hr hk =>
    rw [hr.active] at hc
    rcases hcode hr with ⟨me, ch, lk, rfl⟩ | ⟨me, lk, rfl, ⟨msg, hx⟩ | ⟨b, hx⟩⟩
    · cases hk
    · rw [hx] at hk
      cases hk
    · rw [hx] at hk
      cases hk
      exact (sched_commits _).trans hc
  | call hr hk =>
    rw [hr.active] at hc
    rcases hcode hr with ⟨me, ch, lk, rfl⟩ | ⟨me, lk, rfl, ⟨msg, hx⟩ | ⟨b, hx⟩⟩
    · cases hk
      exact hc
    · cases hx.symm.trans hk
    · cases hx.symm.trans hk
  | ret hr hk | iret hr hk | userret hr hk =>
    rcases hcode hr with ⟨me, ch, lk, rfl⟩ | ⟨me, lk, rfl, ⟨msg, hx⟩ | ⟨b, hx⟩⟩
    · cases hk
    · cases hx.symm.trans hk
    · cases hx.symm.trans hk

theorem falls_asleep (hstep : Step kernel s c e s') (hne : (s.mem.thread t).state ≠ .sleeping)
    (hst : (s'.mem.thread t).state = .sleeping) :
    ∃ chan lk below, s.Runs c (.sleep t chan lk .set) below ∧
      s'.active c = .sleep t chan lk .sched :: below ∧ s'.cur = s.cur ∧
      (s'.mem.thread t).chan = chan := by
  cases turns_of_step hstep hne hst rfl with
  | asleep chan lk below hr hact hcur hchan => exact ⟨chan, lk, below, hr, hact, hcur, hchan⟩

theorem Core.chan_stays (h : Core s) (hstep : Step kernel s c e s')
    (hold : (s.mem.thread t).state = .sleeping) (hst : (s'.mem.thread t).state = .sleeping) :
    (s'.mem.thread t).chan = (s.mem.thread t).chan := by
  -- the two points of `sleep` that write the channel are reached by threads that run
  have hrun : ∀ {chan : Chan} {lk : Lock} {pc : SleepPc} {below : List Frame},
      s.Runs c (.sleep t chan lk pc) below → pc = .set ∨ pc = .tidy → False := by
    intro chan lk pc below hr hpc
    have hok := h.top_state hr.active (h.mine hr.active) rfl
    rw [show (s.mem.table.slot t).state = .sleeping from hold] at hok
    rcases hpc with rfl | rfl <;> cases hok
  have hother : ∀ {a : Act}, s'.mem = a.apply s.mem → (∀ chan, a ≠ .sleepOn t chan) →
      a ≠ .clearChan t → (s'.mem.thread t).chan = (s.mem.thread t).chan := by
    intro a hmem hsleep hclear
    have htouch := Act.touch s.mem a t
    rw [← hmem] at htouch
    cases htouch with
    | same hc => exact hc
    | sleep chan ha => exact absurd ha (hsleep chan)
    | clear ha => exact absurd ha hclear
    | mark _ h => rw [h]
    | exit _ _ h =>
      rw [h] at hst
      cases hst
    | freed h | setUp h => cases hst.symm.trans h
  cases writes_of_step hstep with
  | none h => rw [h]
  | trap _ _ _ _ _ h | dispatch p i below hr _ h => exact hother h nofun nofun
  | unseen f k a below hr ha _ _ h =>
    cases ha with
    | tidy me chan lk =>
      refine hother h nofun fun he => ?_
      cases he
      exact hrun hr (.inr rfl)
    | _ => exact hother h nofun nofun
  | alters f k a below hr ha _ _ h =>
    cases ha with
    | sleep me chan lk =>
      refine hother h (fun chan' he => ?_) nofun
      cases he
      exact hrun hr (.inl rfl)
    | _ => exact hother h nofun nofun
  | spawns f g k a t0 below hr ha _ _ h => cases ha <;> exact hother h nofun nofun

theorem Core.slot_asleep (h : Core s) (hadv : Advances s c s')
    (hold : (s.mem.table.slot t).state = .sleeping)
    (hst : (s'.mem.table.slot t).state = .sleeping) :
    s'.mem.table.slot t = s.mem.table.slot t :=
  (h.asleep_cases hadv hst).resolve_right fun hrun => nomatch hold.symm.trans hrun.2

/-- **A thread that is asleep is committed to its channel**: every step keeps it so. -/
theorem Sleepers.step (hs : Sleepers s) (h : Core s) (hadv : Advances s c s')
    (hstep : Step kernel s c e s') : Sleepers s' := by
  intro t hst
  by_cases hold : (s.mem.table.slot t).state = .sleeping
  · obtain ⟨id, st, hv, hc⟩ := hs t hold
    rw [hold] at hc
    rw [h.chan_stays hstep hold hst]
    have hslot := h.slot_asleep hadv hold hst
    obtain ⟨st', hv'⟩ := valid_of_sleeping hst (by rw [hslot]; exact hv.framed h)
    refine ⟨id, st', hv', ?_⟩
    rw [hst]
    rcases h.stack_origin hadv hstep hv' with ⟨hv0, -⟩ | ⟨-, hnew⟩ | ⟨hon, hs'⟩
    · rw [h.valid_unique hv0 hv]
      exact hc
    · rcases hnew.slot with hu | hu <;> cases hold.symm.trans hu
    · rw [h.valid_unique hv (.on c hon)] at hc
      exact h.window_commits hon hold hc hs'
  obtain ⟨chan, lk, below, hr, hact, hcur, hchan⟩ := falls_asleep hstep hold hst
  have hon : On s' c t := .ofTop hact (by rw [hcur]; exact h.mine hr.active) rfl
  refine ⟨joinId below, _, .on c hon, ?_⟩
  rw [hact, hchan]
  rfl

end

/-! ## After boot -/

variable {g : Pages}

theorem boot_commits (hg : g.ok = true) (um : UserMem) {t : ThreadRef} {chan : Chan}
    {id : Option Int} : ¬ Commits (boot g um) t chan id := by
  rintro ⟨st, hv, hc⟩
  rw [boot_valid hg um hv] at hc
  cases hc

theorem boot_awake (hg : g.ok = true) (um : UserMem) (t : ThreadRef) :
    ((boot g um).mem.table.slot t).state ≠ .sleeping := by
  intro hst
  have hne : ((boot g um).mem.table.slot t).state ≠ .unused := by rw [hst]; nofun
  obtain rfl := (boot_slot hg um hne).1
  have htab : (boot g um).mem.table = _ := table_userinit hg um
  rw [htab, Table.setState_slot, if_pos rfl] at hst
  cases hst

theorem boot_sleepers (hg : g.ok = true) (um : UserMem) : Sleepers (boot g um) :=
  fun t hst => absurd hst (boot_awake hg um t)

end Xv6
