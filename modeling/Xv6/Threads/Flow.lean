import Xv6.Threads.Core

set_option autoImplicit false

/-! # Where frames go

What a frame finds when it is reached, as long as the thread tables stay as they are. `Frame.plain`
singles out the frames about which `Core` says nothing. Most functions have no others
(`Frame.simple`), and by the lock discipline such a function goes on at plain frames and calls plain
ones; only the eight functions with frames that are not plain have to be looked at one by one. The
result is `Core.flows`: the frames an instruction leads to may rely on what `Core` promises them. -/

namespace Xv6

open Machine Xv6.Frame

/-! ## Plain frames -/

/-- The functions all of whose points are plain. -/
def Frame.simple : Frame → Bool
  | .yield _ _ | .sleep _ _ _ _ | .sched _ _ _ | .exit _ _ _ | .killthreads _ _
  | .kthreadExit _ _ _ | .fork _ _ | .wait _ _ _ => false
  | _ => true

section Plain

variable {f k : Frame} {s : KState} {T : Table}

section

variable (h : f.plain = true)
include h

theorem Frame.plain_doomed : f.doomed = false := by
  unfold doomed
  split
  case h_2 pc => cases pc <;> cases h
  all_goals simp_all

theorem Frame.plain_state {st : ThreadState} : f.stateOk st ↔ st = .running := by
  unfold stateOk
  split <;> simp_all [KthreadExitPc.parent]

theorem Frame.plain_asserts : Asserts s f := by
  unfold Asserts
  split
  case h_3 pc => cases pc <;> simp_all [ExitPc.alone]
  case h_5 pc => cases pc <;> simp_all [ForkPc.child]
  all_goals simp_all

theorem Frame.plain_child : f.child = none := by
  unfold child
  split
  case h_1 pc => cases pc <;> simp_all [ForkPc.child]
  case h_2 => rfl

theorem Frame.plain_held : HeldAsserts T f := by
  unfold HeldAsserts
  split <;> simp_all

end

theorem Frame.simple_plain (h : f.simple = true) : f.plain = true := by
  cases f <;> first | rfl | exact absurd h (by simp [simple])

theorem Frame.simple_ctorIdx (f : Frame) : f.simple = !([2, 3, 4, 15, 16, 17, 21, 22].contains f.ctorIdx) := by
  cases f <;> rfl

theorem Follows.simple (h : Follows f k) (hf : f.simple = true) : k.simple = true := by
  cases h with
  | same h => rw [simple_ctorIdx, h, ← simple_ctorIdx, hf]
  | _ => rfl

theorem Frame.entry_plain (h : f.entry = true) : f.plain = true ∨ ∃ me lk, f = .sched me lk .check := by
  unfold entry at h
  split at h
  case h_2 me lk => exact .inr ⟨me, lk, rfl⟩
  all_goals first | exact .inl rfl | cases h

theorem Frame.awaits_sched {lk : Lock} (h : f.awaits (.sched lk)) : f.simple = false := by
  unfold awaits at h
  split at h <;> first | rfl | exact absurd h id | simp_all

end Plain

/-! ## What a frame finds -/

/-- Cpu `c` may go from the frame `f` to the frame `k`. -/
structure Goes (s : KState) (c : CpuId) (f k : Frame) : Prop where
  doomed : k.doomed = f.doomed
  state : ∀ t, On s c t → k.stateOk (s.mem.table.slot t).state
  asserts : f.doomed = false → Asserts s k
  held : HeldAsserts s.mem.table k
  child : ∀ j, k.child = some j → f.child = some j

/-- What the instruction of `f` leads to, if it leaves the thread tables as they are. -/
def Flows (s : KState) (c : CpuId) (f : Frame) : KInstr → Prop
  | .goto k | .acquire _ k | .release _ k | .setIntr _ k | .setIntena _ k => Goes s c f k
  | .act a k => a.quiet = true → Goes s c f k
  | .call g k =>
    Goes s c f g ∧ (f.doomed = false → Asserts s k) ∧ ∀ j, k.child = some j → f.child = some j
  | _ => True

theorem ExitPc.alone_state {me : ThreadRef} {status : BitVec 32} {pc : ExitPc} {st : ThreadState}
    (h : pc.alone = true) : (Frame.exit me status pc).stateOk st ↔ st = .running := by
  cases pc <;> first | exact Iff.rfl | cases h

section Own

variable {s : KState} {c : CpuId} {f k : Frame} {below : List Frame} {me : ThreadRef}

theorem On.ofTop (hact : s.active c = f :: below) (hm : s.cur c = some me)
    (hd : f.doomed = false) : On s c me :=
  ⟨hm, by rw [hact]; exact hd⟩

theorem On.top {t : ThreadRef} (hon : On s c t) (hact : s.active c = f :: below) : f.doomed = false := by
  have hsane := hon.sane
  rw [hact] at hsane
  exact hsane

namespace Core

section

variable (h : Core s) (hact : s.active c = f :: below)
include h hact

theorem top_asserts (hm : s.cur c = some me) (hd : f.doomed = false) : Asserts s f :=
  h.asserts me _ (.on c (On.ofTop hact hm hd)) f (by rw [hact]; exact List.mem_cons_self ..)

theorem top_state (hm : s.cur c = some me)
    (hd : f.doomed = false) : f.stateOk (s.mem.table.slot me).state := by
  have hst := h.state c me (On.ofTop hact hm hd)
  rw [hact] at hst
  exact hst

theorem goes (hd : k.doomed = f.doomed) (hst : ∀ st, f.stateOk st → k.stateOk st)
    (ha : f.doomed = false → Asserts s k) (hh : HeldAsserts s.mem.table k)
    (hc : ∀ j, k.child = some j → f.child = some j) : Goes s c f k where
  doomed := hd
  state := fun _ hon => hst _ (h.top_state hact hon.cur (hon.top hact))
  asserts := ha
  held := hh
  child := hc

theorem goes_plain (hd : f.doomed = false)
    (hst : ∀ st, f.stateOk st → st = .running) (hk : k.plain = true) : Goes s c f k :=
  h.goes hact ((plain_doomed hk).trans hd.symm)
    (fun st hf => (plain_state hk).2 (hst st hf))
    (fun _ => plain_asserts hk) (plain_held hk)
    fun j hj => by rw [plain_child hk] at hj; cases hj

end

theorem call_plain {g : Frame} (h : Core s) (hact : s.active c = f :: below)
    (hd : f.doomed = false) (hst : ∀ st, f.stateOk st → st = .running) (hg : g.plain = true)
    (hk : k.plain = true) : Flows s c f (.call g k) :=
  ⟨h.goes_plain hact hd hst hg, fun _ => plain_asserts hk, fun j hj => by
    rw [plain_child hk] at hj; cases hj⟩

theorem call_sched {p : PIdx} (h : Core s) (hact : s.active c = f :: below) (hd : f.doomed = false)
    (hst : ∀ st, f.stateOk st → st = .runnable ∨ st = .sleeping ∨ st = .zombie)
    (hk : f.doomed = false → Asserts s k) (hc : k.child = none) :
    Flows s c f (.call (.sched me (.proc p) .check) k) := by
  refine ⟨h.goes hact hd.symm hst (fun _ => trivial) trivial nofun, hk, ?_⟩
  intro j hj
  rw [hc] at hj
  cases hj

/-! ## Simple functions -/

variable {e : Env} {lk : Lock} {pc : ExitPc} {status : BitVec 32} {i : TIdx} {addr : Nat}

section

variable (h : Core s)
include h

theorem simple_flows (hr : s.Runs c f below) (hf : f.simple = true) : Flows s c f (code (s.view c e) f) := by
  have hplain := simple_plain hf
  have hgo : ∀ {k : Frame}, Follows f k → Goes s c f k := fun hk =>
    h.goes_plain hr.active (plain_doomed hplain) (fun _ => (plain_state hplain).1)
      (simple_plain (hk.simple hf))
  have hok : locking.InstrOk kernel (s.cur c) f (code (s.view c e) f) :=
    (h.locked.cpu c).instrOk kernel_disciplined hr rfl
  cases hx : code (s.view c e) f with
  | goto k | acquire l k | release l k | setIntr b k | setIntena b k =>
    rw [hx] at hok
    exact hgo hok.1.follows
  | act a k =>
    rw [hx] at hok
    exact fun _ => hgo hok.1.follows
  | call g k =>
    rw [hx] at hok
    obtain ⟨hs, -, -, hentry, hadj, hisr, -⟩ := hok
    have hk : k.simple = true := Follows.simple hs.follows hf
    refine h.call_plain hr.active (plain_doomed hplain)
      (fun _ => (plain_state hplain).1) ?_ (simple_plain hk)
    rcases entry_plain hentry with hg | ⟨me, lk, rfl⟩
    · exact hg
    obtain hadj | hadj : Fn.sched lk = .kerneltrap ∨ k.awaits (.sched lk) := hadj
    · cases hadj
    · rw [awaits_sched hadj] at hk
      cases hk
  | _ => trivial

/-! ## The functions with frames that are not plain -/

theorem yield_flows {pc : YieldPc} (hact : s.active c = .yield me pc :: below) :
    Flows s c (.yield me pc) (yieldCode me pc) := by
  cases pc with
  | set => exact nofun
  | sched => exact h.call_sched hact rfl (fun _ => .inl) (fun _ => trivial) rfl
  | done => trivial
  | _ => exact h.goes_plain hact rfl (fun _ => id) rfl

theorem sleep_flows {chan : Chan} {pc : SleepPc}
    (hact : s.active c = .sleep me chan lk pc :: below) :
    Flows s c (.sleep me chan lk pc) (sleepCode me chan lk pc) := by
  cases pc with
  | set => exact nofun
  | tidy => exact fun _ => h.goes_plain hact rfl (fun _ => id) rfl
  | sched =>
    exact h.call_sched hact rfl (fun _ hst => .inr (.inl hst)) (fun _ => trivial) rfl
  | done => trivial
  | _ => exact h.goes_plain hact rfl (fun _ => id) rfl

theorem sched_flows {v : KView} {pc : SchedPc} (hact : s.active c = .sched me lk pc :: below) :
    Flows s c (.sched me lk pc) (schedCode v me lk pc) := by
  cases pc with
  | check =>
    simp only [schedCode]
    repeat' split
    all_goals trivial
  | resumed intena =>
    -- past its test `sched` holds `p->lock`
    obtain rfl : lk = .proc me.p := (h.stack hact).runs _ rfl
    exact h.goes_plain hact rfl (fun _ => id) rfl
  | done => trivial

theorem exit_alone {pc' : ExitPc}
    (hact : s.active c = .exit me status pc :: below) (hpc : pc.alone = true)
    (hpc' : pc'.alone = true) : Goes s c (.exit me status pc) (.exit me status pc') := by
  have hswept : Swept s me NTHREAD := h.top_asserts hact (h.mine hact) rfl hpc
  exact h.goes hact rfl (fun st hst => (ExitPc.alone_state hpc').2 ((ExitPc.alone_state hpc).1 hst))
    (fun _ _ => hswept) trivial nofun

theorem exit_flows {v : KView} (hact : s.active c = .exit me status pc :: below) :
    Flows s c (.exit me status pc) (exitCode v me status pc) := by
  have hsweep : ∀ {pc'}, pc.alone = true →
      doomed (.exit me status pc) = false → Asserts s (.exit me status pc') :=
    fun hpc hd _ => h.top_asserts hact (h.mine hact) hd hpc
  have hnext : ∀ {j}, pc.alone = true → Goes s c (.exit me status pc) (reparentNext me status j) := by
    intro j hpc
    unfold reparentNext
    split <;> exact h.exit_alone hact hpc rfl
  cases pc with
  | start =>
    simp only [exitCode]
    split
    · trivial
    · exact h.call_plain hact rfl (fun _ => id) rfl rfl
  | killed => exact absurd ((h.stack hact).runs _ rfl) id
  | files =>
    simp only [exitCode]
    split
    · exact ⟨h.goes_plain hact rfl (fun _ => id) rfl, hsweep rfl, by simp⟩
    · exact h.exit_alone hact rfl rfl
  | acquireW | acquireP => exact h.exit_alone hact rfl rfl
  | reparent j =>
    simp only [exitCode]
    split
    · exact fun _ => h.exit_alone hact rfl rfl
    · exact hnext rfl
  | reparentWake j | wakeParent => exact ⟨h.goes_plain hact rfl (fun _ => id) rfl, hsweep rfl, by rintro _ ⟨⟩⟩
  | reparentNext j => exact hnext rfl
  | zombie => rintro ⟨⟩
  | releaseW => exact h.goes hact rfl (fun _ => id) (by rintro _ ⟨⟩) trivial (by rintro _ ⟨⟩)
  | sched =>
    exact h.call_sched hact rfl (fun _ hst => .inr (.inr hst)) (by rintro _ ⟨⟩) rfl
  | dead => trivial

theorem swept_next (hrun : (s.mem.table.slot me).state = .running) (hs : Swept s me i.val)
    (halive : otherAlive (s.mem.thread me) (s.mem.thread ⟨me.p, i⟩) = false) :
    Swept s me (i.val + 1) := by
  have hdead : i ≠ me.i → (s.mem.table.slot ⟨me.p, i⟩).state.dead = true := by
    intro hi
    by_contra hlive
    have hpos := h.table.tid_pos me (by rw [hrun]; nofun)
    have htid : (s.mem.thread ⟨me.p, i⟩).tid ≠ (s.mem.thread me).tid := fun he =>
      hi (congrArg ThreadRef.i (h.table.tid_inj _ _ he.symm hpos)).symm
    have hst : (s.mem.thread ⟨me.p, i⟩).state ≠ .zombie ∧
        (s.mem.thread ⟨me.p, i⟩).state ≠ .unused := by
      constructor <;> intro he <;> exact hlive (congrArg ThreadState.dead he)
    simp [otherAlive, htid, hst] at halive
  rcases hs with hs | ⟨k, hk, hne, hstuck⟩
  · refine .inl fun k hk hne => ?_
    by_cases hki : k = i
    · subst hki
      exact hdead hne
    · exact hs k (by have := Fin.val_ne_of_ne hki; omega) hne
  refine .inr ⟨k, ?_, hne, hstuck⟩
  have hki : k ≠ i := by
    rintro rfl
    obtain ⟨c', fn, stack, rest, hcur, hact⟩ := hstuck
    have hrun' := h.top_state hact hcur rfl
    have hd := hdead hne
    rw [show (s.mem.table.slot ⟨me.p, k⟩).state = .running from hrun'] at hd
    cases hd
  have := Fin.val_ne_of_ne hki
  omega

end

theorem swept_zero : Swept s me 0 := .inl fun _ hk => absurd hk (Nat.not_lt_zero _)

theorem swept_all {n : Nat} (hn : NTHREAD ≤ n) (hs : Swept s me n) : Swept s me NTHREAD := by
  rcases hs with hs | ⟨k, hk, -⟩
  · exact .inl fun k hk hne => hs k (by omega) hne
  · exact absurd hk (by have := k.isLt; omega)

section

variable (h : Core s)
include h

theorem killthreads_goes {pc pc' : KillthreadsPc} (hact : s.active c = .killthreads me pc :: below)
    (hpc : Frame.doomed (.killthreads me pc) = false)
    (hpc' : Frame.doomed (.killthreads me pc') = false)
    (ha : Asserts s (.killthreads me pc')) : Goes s c (.killthreads me pc) (.killthreads me pc') := by
  refine h.goes hact (hpc'.trans hpc.symm) (fun st hst => ?_) (fun _ => ha) trivial nofun
  cases pc <;> cases pc' <;> exact hst

theorem killthreads_scan {got : Bool} {v : KView} (hv : v.mem = s.mem)
    (hact : s.active c = .killthreads me (.scan i got) :: below) :
    Flows s c (.killthreads me (.scan i got)) (killthreadsCode v me (.scan i got)) := by
  have hrun : (s.mem.table.slot me).state = .running := h.top_state hact (h.mine hact) rfl
  -- the slots up to and including `i` are passed unless the scan has got one
  have hswept : (got || otherAlive (v.mem.thread me) (v.mem.thread ⟨me.p, i⟩)) = false →
      Swept s me (i.val + 1) := by
    intro hgot
    obtain ⟨rfl, halive⟩ := Bool.or_eq_false_iff.1 hgot
    rw [hv] at halive
    exact h.swept_next hrun (h.top_asserts hact (h.mine hact) rfl) halive
  simp only [killthreadsCode, Flows]
  generalize (got || otherAlive (v.mem.thread me) (v.mem.thread ⟨me.p, i⟩)) = got' at hswept ⊢
  unfold nextIdx
  split
  · next i' hi' =>
    split at hi'
    · next hlt =>
      cases hi'
      refine h.killthreads_goes hact rfl rfl ?_
      cases got' with
      | true => trivial
      | false => exact hswept rfl
    · cases hi'
  next hi' =>
  split at hi'
  · cases hi'
  next hge =>
  cases got' with
  | true => exact h.killthreads_goes hact rfl rfl trivial
  | false =>
    exact h.killthreads_goes hact rfl rfl (swept_all (Nat.not_lt.1 hge) (hswept rfl))

theorem killthreads_flows {v : KView} {pc : KillthreadsPc} (hv : v.mem = s.mem)
    (hact : s.active c = .killthreads me pc :: below) :
    Flows s c (.killthreads me pc) (killthreadsCode v me pc) := by
  cases pc with
  | start =>
    simp only [killthreadsCode]
    split <;> exact h.goes_plain hact rfl (fun _ => id) rfl
  | wake => exact h.call_plain hact rfl (fun _ => id) rfl rfl
  | acquireT => exact h.goes_plain hact rfl (fun _ => id) rfl
  | zombie => rintro ⟨⟩
  | sched =>
    -- the frame is about to panic already
    exact ⟨⟨rfl, fun _ hon => (by cases hon.top hact), by rintro ⟨⟩, trivial, by rintro _ ⟨⟩⟩,
      by rintro ⟨⟩, by rintro _ ⟨⟩⟩
  | switched => exact absurd ((h.stack hact).runs _ rfl) id
  | mark i =>
    simp only [killthreadsCode]
    split
    · exact h.goes_plain hact rfl (fun _ => id) rfl
    split
    · exact h.killthreads_goes hact rfl rfl trivial
    · exact h.killthreads_goes hact rfl rfl swept_zero
  | markWrite i =>
    simp only [killthreadsCode]
    split
    · exact fun _ => h.killthreads_goes hact rfl rfl trivial
    · exact fun _ => h.killthreads_goes hact rfl rfl swept_zero
  | scan i got => exact h.killthreads_scan hv hact
  | yield => exact ⟨h.goes_plain hact rfl (fun _ => id) rfl, fun _ => swept_zero, by rintro _ ⟨⟩⟩
  | done => trivial

theorem kthreadExit_goes {pc pc' : KthreadExitPc}
    (hact : s.active c = .kthreadExit me status pc :: below)
    (hst : ∀ st, (Frame.kthreadExit me status pc).stateOk st →
      (Frame.kthreadExit me status pc').stateOk st)
    (hpc : pc'.parent = pc.parent) :
    Goes s c (.kthreadExit me status pc) (.kthreadExit me status pc') := by
  refine h.goes hact rfl hst (fun _ q hq => ?_) trivial nofun
  exact h.top_asserts hact (h.mine hact) rfl q (hpc ▸ hq)

theorem kthreadExit_flows {v : KView} {pc : KthreadExitPc}
    (hv : v.mem = s.mem) (hact : s.active c = .kthreadExit me status pc :: below) :
    Flows s c (.kthreadExit me status pc) (kthreadExitCode v me status pc) := by
  have hown : Asserts s (.kthreadExit me status pc) := h.top_asserts hact (h.mine hact) rfl
  cases pc with
  | start =>
    simp only [kthreadExitCode]
    split
    · trivial
    next q hq =>
    have hon : On s c me := .ofTop hact (h.mine hact) rfl
    have hrun : (s.mem.table.slot me).state = .running :=
      h.top_state hact (h.mine hact) rfl
    have hparent := h.table.tparent me (by rw [hrun]; rfl) (h.framed c me hon)
    rw [hv] at hq
    refine h.goes hact rfl (fun _ => id) (fun _ q' hq' => ?_) trivial (by rintro _ ⟨⟩)
    cases hq'
    exact Option.some.inj (hq.symm.trans hparent)
  | scan q | release q num | acquireP q | releaseW q =>
    exact h.kthreadExit_goes hact (fun _ => id) rfl
  | decide q num =>
    simp only [kthreadExitCode]
    split
    · exact h.kthreadExit_goes hact (fun _ => id) rfl
    · exact h.call_plain hact rfl (fun _ => id) rfl rfl
  | wake q => exact ⟨h.goes_plain hact rfl (fun _ => id) rfl, fun _ => hown, by rintro _ ⟨⟩⟩
  | zombie q => rintro ⟨⟩
  | sched q =>
    exact h.call_sched hact rfl (fun _ hst => .inr (.inr hst)) (fun _ => hown) rfl
  | dead q | exited => trivial

theorem fork_goes {pc pc' : ForkPc} (hact : s.active c = .fork me pc :: below)
    (hpc : pc'.child = none ∨ pc'.child = pc.child)
    (hh : HeldAsserts s.mem.table (.fork me pc')) : Goes s c (.fork me pc) (.fork me pc') := by
  have hchild : ∀ j, pc'.child = some j → pc.child = some j := by
    intro j hj
    rcases hpc with hpc | hpc
    · rw [hpc] at hj
      cases hj
    · exact hpc ▸ hj
  exact h.goes hact rfl (fun _ => id)
    (fun _ j hj => h.top_asserts hact (h.mine hact) rfl j (hchild j hj)) hh hchild

theorem fork_flows {v : KView} {pc : ForkPc} (hv : v.mem = s.mem)
    (hact : s.active c = .fork me pc :: below) : Flows s c (.fork me pc) (forkCode v me pc) := by
  cases pc with
  | check j =>
    simp only [forkCode]
    split
    · next hst =>
      rw [hv] at hst
      exact h.fork_goes hact (.inl rfl) hst
    · exact h.fork_goes hact (.inl rfl) trivial
  | skip j =>
    simp only [forkCode, Flows]
    split <;> exact h.fork_goes hact (.inl rfl) trivial
  | found j =>
    simp only [forkCode]
    split
    · trivial
    · rintro ⟨⟩
  | copy j =>
    simp only [forkCode]
    split
    · exact h.fork_goes hact (.inr rfl) trivial
    · exact fun _ => h.fork_goes hact (.inr rfl) trivial
  | parent j pid => exact fun _ => h.fork_goes hact (.inr rfl) trivial
  | release j pid | acquireW j pid | releaseW j pid | acquireC j pid =>
    exact h.fork_goes hact (.inr rfl) trivial
  | uncopy j | runnable j pid => rintro ⟨⟩
  | acquire j | fail j | releaseC j pid => exact h.fork_goes hact (.inl rfl) trivial
  | failed | done pid => trivial

theorem wait_goes {pc pc' : WaitPc} (hact : s.active c = .wait me addr pc :: below)
    (hh : HeldAsserts s.mem.table (.wait me addr pc')) :
    Goes s c (.wait me addr pc) (.wait me addr pc') :=
  h.goes hact rfl (fun _ => id) (fun _ => trivial) hh nofun

theorem wait_flows {v : KView} {pc : WaitPc} (hv : v.mem = s.mem)
    (hact : s.active c = .wait me addr pc :: below) :
    Flows s c (.wait me addr pc) (waitCode v me addr pc) := by
  have hnext : ∀ {j havekids}, Goes s c (.wait me addr pc) (waitNext me addr j havekids) := by
    intro j havekids
    unfold waitNext
    split <;> exact h.wait_goes hact trivial
  cases pc with
  | scan j havekids =>
    simp only [waitCode]
    split
    · exact h.wait_goes hact trivial
    · exact hnext
  | check j =>
    simp only [waitCode]
    split
    · next hst =>
      rw [hv] at hst
      exact h.wait_goes hact hst
    · exact h.wait_goes hact trivial
  | unlock j => exact hnext
  | copy j =>
    have hz : HeldAsserts s.mem.table (.wait me addr (.copy j)) := h.held c _ _ hact
    simp only [waitCode]
    split
    · exact h.wait_goes hact hz
    intro _
    split
    · exact h.wait_goes hact hz
    · exact h.wait_goes hact trivial
  | reap j pid => rintro ⟨⟩
  | finish havekids =>
    simp only [waitCode]
    split <;> exact h.wait_goes hact trivial
  | sleep => exact h.call_plain hact rfl (fun _ => id) rfl rfl
  | acquire | lock j | releaseC j r | slept | releaseW r => exact h.wait_goes hact trivial
  | done r => trivial

/-- **The frames an instruction leads to find what they rely on**, if it leaves the thread tables as
    they are. -/
theorem flows (hr : s.Runs c f below) : Flows s c f (code (s.view c e) f) := by
  cases f with
  | yield me pc => exact h.yield_flows hr.active
  | sleep me chan lk pc => exact h.sleep_flows hr.active
  | sched me lk pc => exact h.sched_flows hr.active
  | exit me status pc => exact h.exit_flows hr.active
  | killthreads me pc => exact h.killthreads_flows rfl hr.active
  | kthreadExit me status pc => exact h.kthreadExit_flows rfl hr.active
  | fork me pc => exact h.fork_flows rfl hr.active
  | wait me addr pc => exact h.wait_flows rfl hr.active
  | _ => exact h.simple_flows hr rfl

theorem flows_of_code {x : KInstr} (hr : s.Runs c f below) (hk : code (s.view c e) f = x) : Flows s c f x := by
  rw [← hk]
  exact h.flows hr

end

end Core

/-! ## Returns and interrupts -/

section Returns

variable {T : Table} {v : KView} {r : Int} {x : Fn}

theorem ret_state (hx : code v f = .ret r) {st : ThreadState} (hst : f.stateOk st) : st = .running := by
  unfold stateOk at hst
  split at hst
  case h_7 =>
    simp only [code, schedCode] at hx
    repeat' split at hx
    all_goals cases hx
  case h_8 => exact hst
  all_goals cases hx

theorem ret_doomed (hx : code v f = .ret r) (hr : f.runs) : f.doomed = false := by
  unfold doomed
  split
  case h_1 => cases hx
  case h_2 pc =>
    cases pc with
    | check =>
      simp only [code, schedCode] at hx
      repeat' split at hx
      all_goals cases hx
    | resumed | done => cases hr
  case h_3 => rfl

theorem resume_ok (h : k.awaits x) :
    (resumeFrame k r).doomed = false ∧ (resumeFrame k r).stateOk .running ∧
      HeldAsserts T (resumeFrame k r) ∧ (resumeFrame k r).child = none := by
  unfold awaits at h
  split at h <;> first | exact absurd h id | exact ⟨rfl, rfl, trivial, rfl⟩

/-- What a frame relies on does not change when it goes on, except that `exit` is alone after
    `killthreads`. -/
theorem resume_asserts (h : k.awaits x) (hk : Asserts s k)
    (hexit : ∀ me status, k = .exit me status .killed → Swept s me NTHREAD) :
    Asserts s (resumeFrame k r) := by
  unfold resumeFrame
  split
  · trivial
  · next me status => exact fun _ => hexit me status rfl
  · trivial
  · exact hk

theorem free_ok (h : f.held = 0) :
    f.doomed = false ∧ (∀ st, f.stateOk st ↔ st = .running) ∧ HeldAsserts T f := by
  refine ⟨?_, fun st => ?_, ?_⟩
  · unfold doomed
    split <;> simp_all
  · unfold stateOk
    split <;> simp_all
  · unfold HeldAsserts
    split <;> simp_all

theorem ret_awaits (hx : code v f = .ret r) (hadj : f.above k) : k.awaits f.fn := by
  rcases hadj with hadj | hadj
  · cases f with
    | kerneltrap me pc =>
      cases pc with
      | start timer =>
        simp only [code, kerneltrapCode, devintr] at hx
        split at hx <;> cases hx
      | tick timer =>
        simp only [code, kerneltrapCode] at hx
        repeat' split at hx
        all_goals cases hx
      | done => cases hx
    | _ => cases hadj
  · exact hadj

theorem Core.ret_swept {status : BitVec 32} {rest : List Frame} (h : Core s)
    (hr : s.Runs c f (.exit me status .killed :: rest)) (hx : code v f = .ret r) :
    Swept s me NTHREAD := by
  have hst := h.stack hr.active
  have hme : s.cur c = some me := hst.mine (.exit me status .killed) (by simp)
  have hawaits := ret_awaits hx hst.wf.1
  cases f with
  | killthreads me' pc =>
    cases pc with
    | done =>
      cases (h.mine hr.active).symm.trans hme
      exact h.top_asserts hr.active hme rfl
    | start | mark =>
      simp only [code, killthreadsCode] at hx
      split at hx <;> cases hx
    | _ => cases hx
  | _ => exact absurd hawaits id

end Returns

end Own

end Xv6
