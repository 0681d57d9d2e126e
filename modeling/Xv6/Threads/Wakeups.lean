import Xv6.Threads.Sleepers

set_option autoImplicit false

/-! # Waking up

A `wakeup` that is called with the lock that guards the channel held leaves no thread behind that is
committed to sleep on the channel, in the processes that it has scanned (`WokenOn`). A committed
thread holds the guard or its `p->lock` until it has been through the switch (`Core.commits_phase`),
so that the scan either meets it asleep or not at all. -/

namespace Xv6

open Machine

section

variable {s s' : KState} {c : CpuId} {e : Env} {t : ThreadRef} {f k : Frame} {st below : List Frame}
  {chan : Chan} {id : Option Int} {v : KView}

/-! ## Waking up -/

variable {lk l : Lock} {me : ThreadRef} {state : ThreadState}

theorem commits_sched {pc : SchedPc}
    (h : commits state (.sched me lk pc :: below) = some (chan, id)) : state = .sleeping := by
  unfold commits at h
  split at h
  · split at h
    · assumption
    · cases h
  · next heq => cases (List.cons.inj heq).1
  · next heq => cases (List.cons.inj heq).1
  · next heq => cases (List.cons.inj heq).1
  · next heq => cases (List.cons.inj heq).1
  · cases h

theorem Core.saved_commits (h : Core s)
    (hc : commits state (s.ctx t) = some (chan, id)) : state = .sleeping := by
  obtain ⟨f, rest, hctx, hsaved⟩ := h.saved t
  rw [hctx] at hc
  cases f with
  | sched me lk pc => exact commits_sched hc
  | forkret | void => cases hc
  | _ => cases hsaved

/-- Lock `l` guards the channel: the tests that send a thread to sleep on it are made with `l` held,
    and `sleep` is called with `l`. -/
structure Guards (s : KState) (chan : Chan) (l : Lock) : Prop where
  ne : ∀ p, l ≠ .proc p
  enters : ∀ c f below id, s.Runs c f below → Enters s.mem f chan id → l ∈ f.held
  sleeps : ∀ c me lk pc below, s.active c = .sleep me chan lk pc :: below → lk = l
  thread : ∀ t, chan = .thread t → l = .wait
  bsem : ∀ d, chan = .bsem d → l = .bsem d

theorem Core.sleep_caller {pc : SleepPc} (h : Core s)
    (hact : s.active c = .sleep me chan lk pc :: below) :
    ∃ k rest, below = k :: rest ∧ k.awaits (.sleep chan lk) := by
  have hwf := (h.stack hact).wf
  cases below with
  | nil => cases hwf
  | cons k rest =>
    obtain hadj | hadj : Fn.sleep chan lk = .kerneltrap ∨ k.awaits (.sleep chan lk) := hwf.1
    · cases hadj
    · exact ⟨k, rest, rfl, hadj⟩

theorem Core.guards (h : Core s) (hl : chan.guard = some l) : Guards s chan l where
  ne := by
    intro p
    cases chan with
    | thread | bsem =>
      cases hl
      nofun
    | _ => cases hl
  enters := fun _ _ _ _ _ henter => henter.guarded hl
  sleeps := by
    intro c me lk pc below hact
    obtain ⟨k, rest, -, hadj⟩ := h.sleep_caller hact
    rcases awaits_sleep hadj with ⟨_, _, _, _, -, rfl, rfl⟩ | ⟨_, _, -, rfl⟩ |
      ⟨_, _, -, rfl, rfl⟩ | ⟨_, _, _, -, rfl, -⟩
    · exact Option.some.inj hl
    · cases hl
    · exact Option.some.inj hl
    · cases hl
  thread := fun t ht => by
    subst ht
    exact (Option.some.inj hl).symm
  bsem := fun d hd => by
    subst hd
    exact (Option.some.inj hl).symm

/-- Until it has been through the switch, a committed thread holds the guard of its channel or its
    `p->lock`. -/
theorem Core.commits_phase (h : Core s) (hc : Commits s t chan id) (hl : Guards s chan l) :
    (∃ c, On s c t ∧ (s.lock l = some c ∨ s.lock (.proc t.p) = some c)) ∨
      (s.mem.table.slot t).state = .sleeping ∧ ∀ c, ¬ On s c t := by
  obtain ⟨st, hv, hc⟩ := hc
  cases hv with
  | on c hon =>
    refine .inl ⟨c, hon, ?_⟩
    cases hact : s.active c with
    | nil =>
      rw [hact] at hc
      cases hc
    | cons f rest =>
      rw [hact] at hc
      have hm := h.mine hact
      rw [hon.cur] at hm
      cases f with
      | sched me lk pc =>
        obtain rfl := h.sched_lock hact hon
        exact .inr (h.lock hact (by simp))
      | sleep me ch lk pc =>
        cases hm
        cases pc with
        | acquire | release =>
          cases hc
          obtain rfl := hl.sleeps c _ _ _ _ hact
          exact .inl (h.lock hact (by simp))
        | set | sched => exact .inr (h.lock hact (by simp))
        | _ => cases hc
      | kthreadJoin me tid status pc =>
        cases pc with
        | releaseP | sleep =>
          cases hc
          obtain rfl := hl.thread _ rfl
          exact .inl (h.lock hact (by simp))
        | _ => cases hc
      | bsemDown me d pc =>
        cases pc with
        | sleep =>
          cases hc
          obtain rfl := hl.bsem _ rfl
          exact .inl (h.lock hact (by simp))
        | _ => cases hc
      | _ => cases hc
  | parked _ hoff => exact .inr ⟨h.saved_commits hc, hoff⟩

/-- The number of processes that a `wakeup` has been through. -/
def WakeupPc.progress : WakeupPc → Nat
  | .acquire j | .scan j => j.val
  | .release j => j.val + 1
  | .done => NPROC

/-- A `wakeup` on the channel that is called with the lock `l` held leaves no thread committed to
    the channel behind. -/
def WokenOn (s : KState) (chan : Chan) (l : Lock) : Prop :=
  ∀ c pc rest, s.active c = .wakeup chan pc :: rest → s.lock l = some c →
    ∀ t id, t.p.val < pc.progress → ¬ Commits s t chan id

/-- So it is for the channels with a guard. -/
def Woken (s : KState) : Prop :=
  ∀ c chan pc rest l, s.active c = .wakeup chan pc :: rest → chan.guard = some l →
    s.lock l = some c → ∀ t id, t.p.val < pc.progress → ¬ Commits s t chan id

theorem wakeup_next {pc' : WakeupPc} (hs : Follows f (.wakeup chan pc'))
    (hk : (code v f).next = some (.wakeup chan pc')) :
    ∃ pc, f = .wakeup chan pc ∧
      (pc'.progress = pc.progress ∨ ∃ j, pc = .scan j ∧ pc' = .release j) := by
  obtain ⟨hidx⟩ := hs
  cases f with
  | wakeup ch pc =>
    cases pc with
    | acquire j =>
      cases hk
      exact ⟨_, rfl, .inl rfl⟩
    | scan j =>
      cases hk
      exact ⟨_, rfl, .inr ⟨j, rfl, rfl⟩⟩
    | release j =>
      simp only [code, wakeupCode, nextIdx] at hk
      split at hk
      · next j' hj =>
        cases hk
        refine ⟨_, rfl, .inl ?_⟩
        split at hj
        · rw [← Option.some.inj hj]
          rfl
        · cases hj
      next hj =>
      cases hk
      refine ⟨_, rfl, .inl ?_⟩
      split at hj
      · cases hj
      next hlt =>
      have hj := j.isLt
      simp only [WakeupPc.progress]
      omega
    | done => cases hk
  | _ => cases hidx

/-- The scan of a process by `wakeup` leaves no thread of it committed to the channel. -/
theorem Core.scan_wakes {j : PIdx} (h : Core s) (hsl : Sleepers s)
    (hadv : Advances s c s') (hstep : Step kernel s c e s')
    (hr : s.Runs c (.wakeup chan (.scan j)) below) (hl : Guards s chan l)
    (hlock : s.lock l = some c) (hmem : s'.mem = (Act.wakeup j chan).apply s.mem) (ht : t.p = j) :
    ¬ Commits s' t chan id := by
  subst ht
  intro hc'
  -- the cpu executes `wakeup`, so it is not itself on the way to sleep
  have hoff : ∀ {id : Option Int}, Commits s t chan id → ¬ On s c t := by
    rintro id ⟨st, hv, hc⟩ hon
    rw [h.valid_unique hv (.on c hon), hr.active] at hc
    cases hc
  have hc : Commits s t chan id := by
    rcases h.commits_origin hadv hstep hc' with hc | ⟨-, f, below', hr', henter⟩
    · exact hc
    · cases hr.active.symm.trans hr'.active
      cases henter
  rcases h.commits_phase hc hl with ⟨c', hon, hlk⟩ | ⟨hst, hnone⟩
  · -- another cpu would hold one of the two locks that this one holds
    refine hoff hc ?_
    have hproc : s.lock (.proc t.p) = some c := h.lock hr.active (by simp)
    rcases hlk with hlk | hlk
    · cases hlk.symm.trans hlock
      exact hon
    · cases hlk.symm.trans hproc
      exact hon
  -- a thread that is asleep is made ready to run
  obtain ⟨id', hchan⟩ := hsl t hst
  have hch : (s.mem.thread t).chan = chan := (h.commits_unique hchan hc).1
  have hst' : (s'.mem.table.slot t).state = .runnable := by
    rw [hmem, table_wakeup]
    show (if _ then _ else _ : Slot).state = _
    rw [if_pos ⟨rfl, decide_eq_true ⟨hst, hch⟩⟩]
  obtain ⟨st, hv, hc'⟩ := hc'
  rw [hst'] at hc'
  rcases h.stack_origin hadv hstep hv with ⟨hv0, -⟩ | ⟨rfl, -⟩ | ⟨hon, -⟩
  · cases hv0 with
    | on c' hon => exact hnone c' hon
    | parked => cases h.saved_commits hc'
  · cases hc'
  · exact hoff hc hon

variable {pc : WakeupPc}

theorem resume_wakeup {x : Fn} {r : Int} (h : k.awaits x) : resumeFrame k r ≠ .wakeup chan pc := by
  unfold Frame.awaits at h
  split at h <;> first | exact absurd h id | nofun

/-- **No wake-up is lost**: every step keeps it so. -/
theorem WokenOn.step (hw : WokenOn s chan l) (hl : Guards s chan l) (h : Core s)
    (hsl : Sleepers s) (hadv : Advances s c s') (hstep : Step kernel s c e s') :
    WokenOn s' chan l := by
  intro c0 pc rest hact hlock t id hlt hc'
  by_cases hne : c0 = c
  · subst hne
    -- the guard is held by a frame below
    have hbelow : l ∈ locking.waiting rest := by
      rw [(hadv.core.locked.cpu c0).lock, hact, Discipline.total_cons] at hlock
      rcases Multiset.mem_add.1 hlock with hmem | hmem
      · cases pc with
        | acquire | done => cases hmem
        | scan j | release j =>
          exact absurd (Multiset.mem_singleton.1 hmem) (hl.ne j)
      · exact hmem
    -- it was held before the step, and the step sends no thread to sleep
    have hheld : ∀ {pc0 : WakeupPc}, s.active c0 = .wakeup chan pc0 :: rest →
        s.lock l = some c0 := by
      intro pc0 hact0
      rw [(h.locked.cpu c0).lock, hact0, Discipline.total_cons]
      exact Multiset.mem_add.2 (.inr hbelow)
    have hback : ∀ {pc0 : WakeupPc}, s.active c0 = .wakeup chan pc0 :: rest →
        t.p.val < pc0.progress → False := by
      intro pc0 hact0 hlt0
      refine hw c0 pc0 rest hact0 (hheld hact0) t id hlt0 ?_
      rcases h.commits_origin hadv hstep hc' with hc | ⟨-, f, below, hr, henter⟩
      · exact hc
      · cases hact0.symm.trans hr.active
        cases henter
    have hnext : ∀ {f k : Frame} {below : List Frame}, s.Runs c0 f below →
        (kernel.code (s.view c0 e) f).next = some k → s'.active c0 = k :: below →
        (∀ j, f = .wakeup chan (.scan j) → s'.mem = (Act.wakeup j chan).apply s.mem) → False := by
      intro f k below hr hk hact1 hmem
      cases hact1.symm.trans hact
      have hok := (h.locked.cpu c0).instrOk (i := e) kernel_disciplined hr rfl
      obtain ⟨pc0, rfl, hp | ⟨j, rfl, rfl⟩⟩ := wakeup_next (hok.next hk).follows hk
      · exact hback hr.active (hp ▸ hlt)
      by_cases hj : t.p = j
      · exact h.scan_wakes hsl hadv hstep hr hl (hheld hr.active) (hmem j rfl) hj hc'
      · refine hback hr.active (Nat.lt_of_le_of_ne (Nat.lt_succ_iff.1 hlt) ?_)
        exact fun hval => hj (Fin.ext hval)
    have hgo : ∀ {s0 : KState} {st : List Frame}, (s0.go c0 st).active c0 = .wakeup chan pc :: rest →
        st = .wakeup chan pc :: rest := by
      intro s0 st hst
      simpa using hst
    cases hstep with
    | idle | halt => exact hback hact hlt
    | trap hh ha hcur ht =>
      obtain ⟨cause, regs, rfl, rfl⟩ := trapEntry_some ht
      cases hgo hact
    | irq hr hi hq =>
      obtain ⟨cause, -, rfl⟩ := Option.map_eq_some_iff.1 hq
      cases hgo hact
    | act hr hk =>
      refine hnext hr (by rw [hk]; rfl) (Function.update_self ..) fun j hf => ?_
      subst hf
      cases hk
      rfl
    | goto hr hk | spawn hr hk | setIntr hr hk | setIntena hr hk | acquire hr hk _ | release hr hk _ _ =>
      refine hnext hr (by rw [hk]; rfl) (Function.update_self ..) fun j hf => ?_
      subst hf
      cases hk
    | call hr hk =>
      cases hgo hact
      obtain ⟨-, -, -, hentry, -⟩ := (h.locked.cpu c0).instrOk kernel_disciplined hr hk
      cases pc with
      | acquire j =>
        rw [of_decide_eq_true hentry] at hlt
        cases hlt
      | _ => cases hentry
    | ret hr hk =>
      have ha := ret_awaits hk (h.stack hr.active).wf.1
      exact resume_wakeup ha (List.cons.inj (hgo hact)).1
    | iret hr hk =>
      obtain ⟨hisr, hquiet, -⟩ := (h.locked.cpu c0).instrOk kernel_disciplined hr hk
      have hzero := (h.stack hr.active).total_below hisr hquiet
      rw [hgo hact, Discipline.total_cons, add_eq_zero] at hzero
      rw [hzero.2] at hbelow
      cases hbelow
    | giveup hr hk hcur =>
      obtain ⟨-, -, hquiet, -, hheld0⟩ := (h.locked.cpu c0).instrOk kernel_disciplined hr hk
      have hmem := h.lock_top hr.active hquiet hlock
      rw [show Frame.held _ = _ from hheld0 _ hcur] at hmem
      exact hl.ne _ (Multiset.mem_singleton.1 hmem)
    | dispatch hr hk =>
      obtain ⟨-, -, -, hquiet, -, hheld0⟩ := (h.locked.cpu c0).instrOk kernel_disciplined hr hk
      have hmem := h.lock_top hr.active hquiet hlock
      rw [show Frame.held _ = _ from hheld0] at hmem
      exact hl.ne _ (Multiset.mem_singleton.1 hmem)
    | userret => cases hgo hact
  · have hsame := hstep.other hne
    rw [hsame.active] at hact
    rw [hsame.lock] at hlock
    rcases h.commits_origin hadv hstep hc' with hc | ⟨-, f, below, hr, henter⟩
    · exact hw c0 pc rest hact hlock t id hlt hc
    · have hown := h.lock hr.active (hl.enters c f below id hr henter)
      exact hne (Option.some.inj (hlock.symm.trans hown))

theorem wakeup_goes (chan : Chan) (h : pc ≠ .done) :
    ∃ pc', (wakeupCode chan pc).next = some (.wakeup chan pc') ∧
      ∀ k, wakeupCode chan pc ≠ .giveup k := by
  cases pc with
  | acquire j => exact ⟨.scan j, rfl, by rintro _ ⟨⟩⟩
  | scan j => exact ⟨.release j, rfl, by rintro _ ⟨⟩⟩
  | release j =>
    simp only [wakeupCode]
    split
    · exact ⟨_, rfl, by rintro _ ⟨⟩⟩
    · exact ⟨_, rfl, by rintro _ ⟨⟩⟩
  | done => exact absurd rfl h

/-- A `wakeup` with the guard held goes on until nobody is committed to the channel. -/
theorem WokenOn.progress {c0 : CpuId} {rest : List Frame}
    (hw : WokenOn s chan l) (h : Core s) (hstep : Step kernel s c e s')
    (hact : s.active c0 = .wakeup chan pc :: rest) (hlock : s.lock l = some c0) :
    (∃ pc', s'.active c0 = .wakeup chan pc' :: rest) ∨ ∀ t id, ¬ Commits s t chan id := by
  by_cases hne : c0 = c
  · subst hne
    rcases hstep.instr hact (h.intr_off hlock) with rfl | ⟨msg, rfl⟩ | ⟨hr, rfl⟩
    · exact .inl ⟨pc, hact⟩
    · exact .inl ⟨pc, hact⟩
    by_cases hpc : pc = .done
    · -- the wake-up is over: nobody is left
      subst hpc
      exact .inr fun t id => hw c0 _ _ hact hlock t id t.p.isLt
    obtain ⟨pc', hk, hg⟩ := wakeup_goes chan hpc
    rcases execInstr_next (P := kernel) (s := s) (c := c0) rest hk hg with hact' | hact'
    · exact .inl ⟨pc, hact'.trans hact⟩
    · exact .inl ⟨pc', hact'⟩
  · exact .inl ⟨pc, (hstep.other hne).active.trans hact⟩

theorem Woken.step (hw : Woken s) (h : Core s) (hsl : Sleepers s) (hadv : Advances s c s')
    (hstep : Step kernel s c e s') : Woken s' := by
  intro c0 chan pc rest l hact hl
  have hon : WokenOn s chan l := fun c pc rest hact hlock => hw c chan pc rest l hact hl hlock
  exact hon.step (h.guards hl) h hsl hadv hstep c0 pc rest hact

end

theorem boot_woken (g : Pages) (um : UserMem) : Woken (boot g um) := by
  intro c chan pc rest l hact
  cases hact

end Xv6
