import Xv6.Machine.History
import Xv6.Threads.Wakeups

set_option autoImplicit false

/-! # Waiting for a condition under a lock

The pattern that pipes, the log, the buffers and the devices use: a thread takes the lock `lk` and
sleeps on the channel `ch` as long as a condition does not hold; who makes the condition true does
so with `lk` held and calls `wakeup` before giving it back. In the model these are `block` and
`notify`, for arbitrary locks and channels. The condition itself is about data that the model leaves
out, so it appears as a history of the run, of any type and brought up to date in any way that keeps
to the pattern (`keepsPattern`). -/

namespace Xv6

open Machine

/-- The cpu is in a `notify` on `ch` with `lk` held and will call `wakeup` next. -/
def readyToWake (lk ch : Nat) (s : KState) (c : CpuId) : Bool :=
  match s.top c with
  | some (.notify lk' ch' .wake) => lk' == lk && ch' == ch
  | _ => false

/-- The step keeps to the pattern for the channel `ch`, the lock `lk` and a condition that holds
    before and after the step as said: who blocks on `ch` takes `lk` and goes to sleep only if the
    condition is false, and the condition becomes true only where a `wakeup` follows. -/
def keepsPattern (lk ch : Nat) (s : KState) (c : CpuId) (e : Env) (cond cond' : Bool) : Bool :=
  (match s.top c with
    | some (.block _ lk' ch' .acquire) => ch' != ch || lk' == lk
    | some (.block _ _ ch' .loop) => ch' != ch || !e.flag || !cond
    | _ => true) && (cond || !cond' || readyToWake lk ch s c)

/-- A thread in the middle of blocking on `ch` uses the lock `lk`. -/
def Frame.blocksUnder (lk ch : Nat) : Frame → Prop
  | .block _ lk' ch' pc => pc ≠ .acquire → ch' = ch → lk' = lk
  | _ => True

/-- A `notify` that has made the condition true and not been through its wake-up. -/
def Notifying (s : KState) (lk ch : Nat) : Prop :=
  ∃ c pc rest, s.active c = .wakeup (.other ch) pc :: .notify lk ch .release :: rest

section

variable {s s' : KState} {c : CpuId} {e : Env} {t : ThreadRef} {f k : Frame} {below : List Frame}
  {lk ch : Nat} {cond cond' : Bool} {id : Option Int}

theorem block_pushes {v : KView} {me : ThreadRef} {lk' ch' : Nat} {pc : BlockPc}
    (hpc : pc = .acquire → ch' = ch → lk' = lk)
    (hf : Frame.blocksUnder lk ch (.block me lk' ch' pc)) :
    ∀ k ∈ (blockCode v me lk' ch' pc).pushes, k.blocksUnder lk ch := by
  have hlk : ch' = ch → lk' = lk := by
    by_cases h : pc = .acquire
    · exact hpc h
    · exact hf h
  have hk : ∀ pc', Frame.blocksUnder lk ch (.block me lk' ch' pc') := fun _ _ => hlk
  cases pc with
  | loop =>
    simp only [blockCode]
    split
    · simpa [Frame.blocksUnder] using hlk
    · simpa using hk .release
  | _ => simp [blockCode, hk]

theorem blocks_introduces (h : locking.Locked s) (hp : keepsPattern lk ch s c e cond cond' = true) :
    Introduces kernel (Frame.blocksUnder lk ch) s c e := by
  refine kernel_introduces h (fun f below k hr hf hs hk => ?_)
    (fun f below g k hr hf hk _ hentry _ => ?_)
    (fun _ => trivial) (fun _ _ => trivial) (fun _ _ => trivial) fun k v hk => ?_
  · cases f with
    | block me lk' ch' pc =>
      refine block_pushes (fun hpc hch => ?_) hf k hk
      subst hpc hch
      simp only [keepsPattern, hr.top, Bool.and_eq_true] at hp
      simpa using hp.1
    | _ =>
      cases hs with
      | same hidx =>
        cases k with
        | block => cases hidx
        | _ => trivial
      | _ => trivial
  · cases g with
    | block me lk' ch' pc =>
      cases pc with
      | acquire => exact fun hne => absurd rfl hne
      | _ => cases hentry
    | _ => trivial
  · unfold resumeFrame
    split <;> trivial

theorem Core.guards_other (h : Core s) (hb : AllFrames (Frame.blocksUnder lk ch) s) :
    Guards s (.other ch) (.other lk) where
  ne := nofun
  enters := by
    intro c f below id hr henter
    cases henter with
    | block me lk' ch =>
      obtain rfl : lk' = lk := (hb.top hr).1 nofun rfl
      simp
  sleeps := by
    intro c me lk' pc below hact
    obtain ⟨k, rest, rfl, hadj⟩ := h.sleep_caller hact
    rcases awaits_sleep hadj with ⟨_, _, _, _, -, hch, -⟩ | ⟨_, _, -, hch⟩ | ⟨_, _, -, hch, -⟩ |
      ⟨_, l, _, rfl, hch, rfl⟩
    · cases hch
    · cases hch
    · cases hch
    · obtain rfl := Chan.other.inj hch
      have hk := hb.active c _ (by rw [hact]; exact List.mem_cons_of_mem _ (List.mem_cons_self ..))
      rw [hk nofun rfl]
  thread := nofun
  bsem := nofun

theorem Core.notify_lock {pc : WakeupPc} {rest : List Frame} (h : Core s)
    (hact : s.active c = .wakeup (.other ch) pc :: .notify lk ch .release :: rest) :
    s.lock (.other lk) = some c := by
  rw [(h.locked.cpu c).lock, hact, Discipline.total_cons]
  refine Multiset.mem_add.2 (.inr (Multiset.mem_add.2 (.inl ?_)))
  simp [locking]

theorem Notifying.step (hn : Notifying s lk ch) (h : Core s)
    (hw : WokenOn s (.other ch) (.other lk)) (hstep : Step kernel s c e s') :
    Notifying s' lk ch ∨ ∀ t id, ¬ Commits s t (.other ch) id := by
  obtain ⟨c0, pc, rest, hact⟩ := hn
  rcases hw.progress h hstep hact (h.notify_lock hact) with ⟨pc', hact'⟩ | hnone
  · exact .inl ⟨c0, pc', _, hact'⟩
  · exact .inr hnone

theorem Core.starts_notifying (h : Core s) (hready : readyToWake lk ch s c = true) :
    Notifying (exec kernel s c e) lk ch := by
  unfold readyToWake at hready
  split at hready
  · next lk' ch' htop =>
    obtain ⟨rfl, rfl⟩ : lk' = lk ∧ ch' = ch := by simpa using hready
    obtain ⟨rest, hr⟩ := State.runs_of_top htop
    have hexec := h.exec_held (e := e) hr (by simp)
    refine ⟨c, .acquire 0, rest, ?_⟩
    rw [hexec]
    exact execInstr_call
  · cases hready

theorem Core.block_goes_on {me : ThreadRef} {lk' : Nat} (h : Core s)
    (hadv : Advances s c (exec kernel s c e)) (hr : s.Runs c (.block me lk' ch .loop) below)
    (hon : On s c t) (hflag : e.flag = false) : ¬ Commits (exec kernel s c e) t (.other ch) id := by
  have hexec := h.exec_held (e := e) hr (by simp)
  have hcode : code (s.view c e) (.block me lk' ch .loop) = .goto (.block me lk' ch .release) := by
    simp [code, blockCode, State.view, hflag]
  rw [hcode] at hexec
  have hact : (exec kernel s c e).active c = .block me lk' ch .release :: below := by
    rw [hexec]
    exact execInstr_goto
  have hon' : On (exec kernel s c e) c t := by
    refine .ofTop hact ?_ rfl
    rw [hexec]
    exact hon.cur
  rintro ⟨st, hv, hst⟩
  obtain rfl := hadv.core.valid_unique hv (.on c hon')
  rw [hact] at hst
  cases hst

/-- **Whenever the condition holds, the threads that are committed to sleep on the channel are about
    to be woken up**: every step that keeps to the pattern keeps it so. -/
theorem notified_step (h : Core s) (hw : WokenOn s (.other ch) (.other lk))
    (hadv : Advances s c (exec kernel s c e)) (hp : keepsPattern lk ch s c e cond cond' = true)
    (hn : cond = true → ∀ t id, Commits s t (.other ch) id → Notifying s lk ch) :
    cond' = true → ∀ t id, Commits (exec kernel s c e) t (.other ch) id →
      Notifying (exec kernel s c e) lk ch := by
  intro hcond' t id hc'
  cases cond with
  | false =>
    -- the condition has just become true
    simp only [keepsPattern, hcond', Bool.and_eq_true] at hp
    exact h.starts_notifying (by simpa using hp.2)
  | true =>
    rcases h.commits_origin hadv exec_step hc' with hc | ⟨hon, f, below, hr, henter⟩
    · exact ((hn rfl t id hc).step h hw exec_step).resolve_right fun hnone => hnone t id hc
    cases henter with
    | block me lk' ch =>
      have hflag : e.flag = false := by simpa [keepsPattern, hr.top] using hp
      exact absurd hc' (h.block_goes_on hadv hr hon hflag)

end

theorem boot_blocks (lk ch : Nat) (g : Pages) (um : UserMem) :
    AllFrames (Frame.blocksUnder lk ch) (boot g um) where
  active := by simp [boot, Frame.blocksUnder]
  home := by simp [boot]
  ctx := fun t => by
    simp only [boot, Function.update_apply]
    split <;> simp [Frame.blocksUnder]

/-- **No wake-up is lost.** Threads that wait on `ch` for a condition under `lk`, and threads that
    make it true under `lk` and call `wakeup`, in any run of the kernel: whenever `lk` is free and
    the condition holds, no thread is `t_SLEEPING` on `ch`. -/
theorem wakeup_not_lost {H : Type} {g : Pages} (hg : g.ok = true) (um : UserMem) (lk ch : Nat)
    (cond : H → Bool) (upd : KState → CpuId → Env → H → H) (start : H)
    {tr : List (CpuId × Env)}
    (h : AlongHistory kernel upd (fun s c e x => reapsZombie s c = true ∧
      keepsPattern lk ch s c e (cond x) (cond (upd s c e x)) = true) (boot g um) start tr)
    (hlock : (run kernel (boot g um) tr).lock (.other lk) = none)
    (hcond : cond (history kernel upd (boot g um) start tr) = true) (t : ThreadRef) :
    ¬ (((run kernel (boot g um) tr).mem.thread t).state = .sleeping ∧
      ((run kernel (boot g um) tr).mem.thread t).chan = .other ch) := by
  rintro ⟨hst, hchan⟩
  obtain ⟨hcore, -, hsl, -, hn⟩ := h.invariant (fun s x => Core s ∧
      AllFrames (Frame.blocksUnder lk ch) s ∧ Sleepers s ∧ WokenOn s (.other ch) (.other lk) ∧
      (cond x = true → ∀ t id, Commits s t (.other ch) id → Notifying s lk ch))
    ⟨boot_core hg um, boot_blocks lk ch g um, boot_sleepers hg um, fun _ _ _ hact => (nomatch hact),
      fun _ _ _ hc => absurd hc (boot_commits hg um)⟩
    fun s c e x ⟨hreap, hp⟩ ⟨hcore, hb, hsl, hw, hn⟩ => by
      have hadv := hcore.step (e := e) hreap exec_step
      exact ⟨hadv.core, hb.step (blocks_introduces hcore.locked hp) exec_step,
        hsl.step hcore hadv exec_step, hw.step (hcore.guards_other hb) hcore hsl hadv exec_step,
        notified_step hcore hw hadv hp hn⟩
  obtain ⟨id, hc⟩ := hsl t hst
  rw [hchan] at hc
  obtain ⟨c, pc, rest, hact⟩ := hn hcond t id hc
  cases hlock.symm.trans (hcore.notify_lock hact)

/-- The first process blocks on channel 2 under lock 1, and a device interrupt on the second cpu
    makes the condition true. -/
def blockAndNotify : List (CpuId × Env) :=
  steps 0 14 ++ ecall 0 5 0 0 :: steps 0 4 ++ (0, { block := some (1, 2) }) :: steps 0 1 ++
    (0, { flag := true }) :: steps 0 14 ++ steps 1 1 ++ (1, { irq := some .device }) ::
    (1, { notify := some (1, 2) }) :: steps 1 197

/-- The thread that has slept on the channel is awake once the lock is free again. -/
theorem wakeup_not_lost_device :
    ¬ (((run kernel (boot firstPages fun _ => none) blockAndNotify).mem.thread ⟨0, 0⟩).state =
        .sleeping ∧
      ((run kernel (boot firstPages fun _ => none) blockAndNotify).mem.thread ⟨0, 0⟩).chan =
        .other 2) :=
  wakeup_not_lost rfl _ 1 2 (fun b : Bool => b) (fun s c _ b => b || readyToWake 1 2 s c) false
    (by decide +kernel) (by decide +kernel) (by decide +kernel) _

end Xv6
