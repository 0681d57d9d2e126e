import Xv6.Machine.Frames
import Xv6.Threads.Preserve

set_option autoImplicit false

/-! # The invariant holds in every reachable state

The steps of the kernel one by one: those that leave the thread tables alone (`Core.same`), those
that change the slot of the running thread itself, and those that change other slots (`Core.mild`).
With `Core.leaves` and `Core.enters` for the two switches this gives `Core.step`, and by induction
`run_core`: in every run in which `kthread_join` frees only `TZOMBIE` threads, every state satisfies
`Core`. -/

namespace Xv6

open List Machine Option Xv6.Frame Table
open Function (update update_self update_of_ne update_apply)

section

variable {s s' : KState} {c : CpuId} {e : Env} {t : ThreadRef} {f k : Frame} {below : List Frame}

/-! ## Steps that leave the tables alone -/

theorem Core.stuck_step (h : Core s) (hstep : Step kernel s c e s') (hs : Stuck s t) : Stuck s' t := by
  obtain ⟨c', fn, stack, rest, hcur, hact⟩ := hs
  by_cases hc : c' = c
  · subst hc
    cases hstep with
    | idle | halt msg _ => exact ⟨c', fn, stack, rest, hcur, hact⟩
    | trap _ ha _ _ => cases ha.symm.trans hact
    | irq _ hi _ =>
      exact absurd (h.intr_free hact hi) (by simp)
    | goto hr hk | act hr hk | spawn hr hk | acquire hr hk | release hr hk | call hr hk | ret hr hk
    | iret hr hk | giveup hr hk | dispatch hr hk | setIntr hr hk | setIntena hr hk
    | userret hr hk =>
      cases hr.active.symm.trans hact
      cases hk
  · have hsame := hstep.other hc
    exact ⟨c', fn, stack, rest, hsame.cur.trans hcur, hsame.active.trans hact⟩

theorem Core.proceeds (h : Core s) (hstep : Step kernel s c e s') (ha : Acts s c s')
    (hctx : ∀ t, s'.ctx t = s.ctx t ∨ Started s s' t ∨ On s c t) : Proceeds s c s' where
  other := fun _ hne => hstep.other hne
  locked := h.locked.step kernel_disciplined hstep
  acts := ha
  stuck := fun _ => h.stuck_step hstep
  ctx := hctx

variable {st : List Frame} {p : PIdx} {a : Act}

section

variable (h : Core s) (hstep : Step kernel s c e s') (hcur : s'.cur c = s.cur c) (hctx : s'.ctx = s.ctx)
  (htab : s'.mem.table = s.mem.table)
include h hstep hcur hctx htab

theorem Core.same (hact : s'.active c = st) (hd : doomedStack st = doomedStack (s.active c))
    (hst : ∀ t, On s c t → stackStateOk st (s.mem.table.slot t).state)
    (hnew : ∀ g ∈ st, g ∈ s.active c ∨ (∀ t, On s c t → Asserts s g) ∧
      ∀ j, g.child = some j → ∃ f0 ∈ s.active c, f0.child = some j)
    (hheld : ∀ g rest, st = g :: rest → HeldAsserts s.mem.table g) : Advances s c s' := by
  have hp := h.proceeds hstep (.stay htab) fun t => .inl (by rw [hctx])
  refine h.moves hp (fun t _ => by rw [hctx]) ⟨hcur, ?_, ?_, ?_, fun _ _ => .inl htab, ?_, ?_⟩
  · rw [hact, hd]
    exact id
  · intro t hon _
    rw [hact, htab]
    exact hst t hon
  · intro t hon hdoom
    rw [hact, hd, hon.sane] at hdoom
    cases hdoom
  · intro g hg
    rw [hact] at hg
    rcases hnew g hg with hold | ⟨hasserts, hchild⟩
    · exact .inl hold
    · exact .inr fun t hon =>
        ⟨(hasserts t hon).same htab hp.stuck fun _ _ => by rw [hctx], fun j hj => .inl (hchild j hj)⟩
  · intro g rest hg
    rw [htab]
    exact hheld g rest (hact.symm.trans hg)

theorem Core.goto (hr : s.Runs c f below) (hg : Goes s c f k) (hact : s'.active c = k :: below) :
    Advances s c s' := by
  refine h.same hstep hcur hctx htab hact ?_ hg.state ?_ ?_
  · rw [hr.active]
    exact hg.doomed
  · intro g hmem
    rw [hr.active]
    rcases mem_cons.1 hmem with rfl | hmem
    · exact .inr ⟨fun t hon => hg.asserts (hon.top hr.active), fun j hj => ⟨f, by simp, hg.child j hj⟩⟩
    · exact .inl (mem_cons_of_mem _ hmem)
  · intro g rest hcons
    cases hcons
    exact hg.held

theorem Core.call {g : Frame} (hr : s.Runs c f below) (hf : Flows s c f (.call g k))
    (hact : s'.active c = g :: k :: below) : Advances s c s' := by
  obtain ⟨hg, hk, hchild⟩ := hf
  refine h.same hstep hcur hctx htab hact ?_ hg.state ?_ ?_
  · rw [hr.active]
    exact hg.doomed
  · intro x hmem
    rw [hr.active]
    rcases mem_cons.1 hmem with rfl | hmem
    · exact .inr ⟨fun t hon => hg.asserts (hon.top hr.active), fun j hj => ⟨f, by simp, hg.child j hj⟩⟩
    rcases mem_cons.1 hmem with rfl | hmem
    · exact .inr ⟨fun t hon => hk (hon.top hr.active), fun j hj => ⟨f, by simp, hchild j hj⟩⟩
    · exact .inl (mem_cons_of_mem _ hmem)
  · intro x rest hcons
    cases hcons
    exact hg.held

theorem Core.ret {r : Int} (hr : s.Runs c f (k :: below)) (hx : code (s.view c e) f = .ret r)
    (hact : s'.active c = resumeFrame k r :: below) : Advances s c s' := by
  have hstack := h.stack hr.active
  have hfd : f.doomed = false := ret_doomed hx (hstack.runs f (by simp))
  have hawaits := ret_awaits hx hstack.wf.1
  obtain ⟨hkd, hrun, hheld, hchild⟩ := resume_ok (T := s.mem.table) (r := r) hawaits
  refine h.same hstep hcur hctx htab hact ?_ ?_ ?_ ?_
  · rw [hr.active]
    exact hkd.trans hfd.symm
  · intro t hon
    have hst := h.top_state hr.active hon.cur hfd
    rw [ret_state hx hst]
    exact hrun
  · intro g hmem
    rw [hr.active]
    rcases mem_cons.1 hmem with rfl | hmem
    · refine .inr ⟨fun t hon => ?_, fun j hj => ?_⟩
      · refine resume_asserts hawaits (h.asserts t _ (.on c hon) k (by simp [hr.active])) ?_
        rintro me status rfl
        exact h.ret_swept hr hx
      · rw [hchild] at hj
        cases hj
    · exact .inl (mem_cons_of_mem _ (mem_cons_of_mem _ hmem))
  · intro g rest hcons
    cases hcons
    exact hheld

theorem Core.trap {cause : Cause} (hr : s.active c = [])
    (hact : s'.active c = [.usertrap t (.start cause)]) : Advances s c s' := by
  refine h.same hstep hcur hctx htab hact (by rw [hr]; rfl) (fun t' hon => ?_) ?_ ?_
  · have hst := h.state c t' hon
    rw [hr] at hst
    exact hst
  · intro g hmem
    obtain rfl := mem_singleton.1 hmem
    exact .inr ⟨fun _ _ => trivial, nofun⟩
  · intro g rest hcons
    cases hcons
    trivial

theorem Core.irq (hr : s.Runs c f below) (hi : (s.regs c).intr = true) (hk : k.plain = true)
    (hact : s'.active c = k :: f :: below) : Advances s c s' := by
  obtain ⟨hfd, hfst, -⟩ := free_ok (T := s.mem.table) (h.intr_free hr.active hi)
  refine h.same hstep hcur hctx htab hact ?_ (fun t hon => ?_) ?_ ?_
  · rw [hr.active]
    exact (plain_doomed hk).trans hfd.symm
  · have hst := h.top_state hr.active hon.cur hfd
    exact (plain_state hk).2 ((hfst _).1 hst)
  · intro g hmem
    rcases mem_cons.1 hmem with rfl | hmem
    · refine .inr ⟨fun _ _ => plain_asserts hk, fun j hj => ?_⟩
      rw [plain_child hk] at hj
      cases hj
    · exact .inl (hr.active ▸ hmem)
  · intro g rest hcons
    cases hcons
    exact plain_held hk

theorem Core.iret (hr : s.Runs c f below) (hisr : f.fn = .kerneltrap) (hact : s'.active c = below) :
    Advances s c s' := by
  have hplain : f.plain = true := by
    cases f with
    | kerneltrap => rfl
    | _ => cases hisr
  have hfree : ∀ g rest, below = g :: rest → g.held = 0 := by
    rintro g rest rfl
    exact ((h.stack hr.active).wf.2.1 hisr).2
  refine h.same hstep hcur hctx htab hact ?_ (fun t hon => ?_) ?_ ?_
  · rw [hr.active]
    refine Eq.trans ?_ (plain_doomed hplain).symm
    cases below with
    | nil => rfl
    | cons g rest => exact (free_ok (T := s.mem.table) (hfree g rest rfl)).1
  · have hrun := (plain_state hplain).1
      (h.top_state hr.active hon.cur (plain_doomed hplain))
    cases below with
    | nil => exact hrun
    | cons g rest => exact ((free_ok (T := s.mem.table) (hfree g rest rfl)).2.1 _).2 hrun
  · exact fun g hmem => .inl (hr.active ▸ mem_cons_of_mem _ hmem)
  · exact fun g rest hcons => (free_ok (hfree g rest hcons)).2.2

theorem Core.userret (hr : s.Runs c f below) (hf : f.plain = true) (hact : s'.active c = []) :
    Advances s c s' := by
  refine h.same hstep hcur hctx htab hact ?_ (fun t hon => ?_) nofun nofun
  · rw [hr.active]
    exact (plain_doomed hf).symm
  · exact (plain_state hf).1 (h.top_state hr.active hon.cur (plain_doomed hf))

end

/-! ## Steps that change a thread table -/

section

variable (h : Core s) (hstep : Step kernel s c e s') (hr : s.Runs c f below)
include h hstep hr

theorem Core.alter (ha : Acts s c s') (hact : s'.active c = k :: below) (hcur : s'.cur c = s.cur c)
    (hctx : ∀ t, s'.ctx t = s.ctx t ∨
      s'.ctx t = [.forkret t] ∧ (s.mem.table.slot t).state = .unused)
    (hfd : f.doomed = false) (hfst : ∀ st, f.stateOk st → st = .running)
    (hstate : ∀ t, On s c t → (s.mem.table.slot t).state = .running →
      (k.doomed = false → k.stateOk (s'.mem.table.slot t).state) ∧
      (k.doomed = true → (s'.mem.table.slot t).state = .zombie))
    (hk : ∀ t, On s c t → Arrives s c s' k) (hheld : HeldAsserts s'.mem.table k) : Advances s c s' := by
  have hrun : ∀ t, On s c t → (s.mem.table.slot t).state = .running := fun t hon =>
    hfst _ (h.top_state hr.active hon.cur hfd)
  have hp := h.proceeds hstep ha fun t => (hctx t).imp id fun hc => .inl ⟨hc.1, .inl hc.2⟩
  refine h.moves hp (fun t hon => ?_) ⟨hcur, fun _ => ?_, fun t hon hd => ?_, fun t hon hd => ?_,
    fun t hon => .inr (hrun t hon), fun g hg => ?_, fun g rest hg => ?_⟩
  · rcases hctx t with hc | ⟨-, hu⟩
    · exact hc
    · exact absurd hu (h.on_ne_unused hon)
  · rw [hr.active]
    exact hfd
  · rw [hact] at hd ⊢
    exact (hstate t hon (hrun t hon)).1 hd
  · rw [hact] at hd
    exact (hstate t hon (hrun t hon)).2 hd
  · rw [hact] at hg
    rcases mem_cons.1 hg with rfl | hg
    · exact .inr hk
    · exact .inl (hr.active ▸ mem_cons_of_mem _ hg)
  · rw [hact] at hg
    cases hg
    exact hheld

theorem Core.own {st : ThreadState} (hme : s.cur c = some t) (hfd : f.doomed = false)
    (hfst : ∀ st, f.stateOk st → st = .running)
    (hst : st = .runnable ∨ st = .sleeping ∨ st = .zombie)
    (htab : s'.mem.table = s.mem.table.setState t st) (hact : s'.active c = k :: below)
    (hcur : s'.cur c = s.cur c) (hctx : s'.ctx = s.ctx)
    (hk : (k.doomed = false → k.stateOk st) ∧ (k.doomed = true → st = .zombie))
    (hasserts : Asserts s' k) (hchild : k.child = none) (hheld : HeldAsserts s'.mem.table k) :
    Advances s c s' := by
  have hon : On s c t := .ofTop hr.active hme hfd
  have hrun := hfst _ (h.top_state hr.active hme hfd)
  have hslot : (s'.mem.table.slot t).state = st := by rw [htab, setState_slot, if_pos rfl]
  refine h.alter hstep hr (.leave t st hon hrun hst htab) hact hcur (fun _ => .inl (by rw [hctx]))
    hfd hfst (fun t' hon' _ => ?_) (fun _ _ => ⟨hasserts, fun j hj => ?_⟩) hheld
  · cases hon'.cur.symm.trans hme
    rw [hslot]
    exact hk
  · rw [hchild] at hj
    cases hj

theorem Core.mild (ha : Acts s c s') (hact : s'.active c = k :: below) (hcur : s'.cur c = s.cur c)
    (hctx : ∀ t, s'.ctx t = s.ctx t ∨
      s'.ctx t = [.forkret t] ∧ (s.mem.table.slot t).state = .unused)
    (hfd : f.doomed = false) (hfst : ∀ st, f.stateOk st → st = .running) (hk : k.plain = true)
    (hkeep : ∀ t, (s.mem.table.slot t).state = .running →
      s'.mem.table.slot t = s.mem.table.slot t) : Advances s c s' := by
  refine h.alter hstep hr ha hact hcur hctx hfd hfst (fun t _ hrun => ⟨fun _ => ?_, fun hd => ?_⟩)
    (fun _ _ => ⟨plain_asserts hk, fun j hj => ?_⟩) (plain_held hk)
  · rw [hkeep t hrun]
    exact (plain_state hk).2 hrun
  · rw [plain_doomed hk] at hd
    cases hd
  · rw [plain_child hk] at hj
    cases hj

end

theorem awaits_syscall (h : f.awaits .syscall) : ∃ me, f = .usertrap me .returned := by
  unfold awaits at h
  split at h <;> first | exact ⟨_, rfl⟩ | exact absurd h id | simp_all

theorem Core.syscall_under (h : Core s) (hact : s.active c = f :: below) (hf : f.fn = .syscall) :
    ∃ me, below = [.usertrap me .returned] := by
  have hwf := (h.stack hact).wf
  cases below with
  | nil =>
    have hb : f.fn = .bottom := hwf
    cases hf.symm.trans hb
  | cons x rest =>
    obtain hadj | hadj : f.fn = .kerneltrap ∨ x.awaits f.fn := hwf.1
    · cases hf.symm.trans hadj
    rw [hf] at hadj
    obtain ⟨me, rfl⟩ := awaits_syscall hadj
    cases rest with
    | nil => exact ⟨me, rfl⟩
    | cons y rest =>
      obtain hadj | hadj : Fn.bottom = .kerneltrap ∨ y.awaits .bottom := hwf.2.2.2.1
      · cases hadj
      · unfold awaits at hadj
        split at hadj <;> first | exact absurd hadj id | simp_all

theorem Core.syscall_below (h : Core s) (hr : s.Runs c f below) (hf : f.fn = .syscall)
    (hk : k.plain = true) (hact : s'.active c = k :: below) : AllPlain s' c := by
  obtain ⟨me, rfl⟩ := h.syscall_under hr.active hf
  intro g hg
  rw [hact] at hg
  rcases mem_cons.1 hg with rfl | hg
  · exact hk
  · obtain rfl := mem_singleton.1 hg
    rfl

theorem firstUnused_spec {m : Mem} {i : TIdx}
    (h : firstUnused (m.procs p) = some i) : m.table.FirstUnused ⟨p, i⟩ := by
  obtain ⟨hp, as, bs, hsplit, hbefore⟩ := find?_eq_some_iff_append.1 h
  refine ⟨of_decide_eq_true hp, fun k hk => ?_⟩
  have hsorted := pairwise_lt_finRange NTHREAD
  have hmem : k ∈ as ++ i :: bs := hsplit ▸ mem_finRange k
  rcases mem_append.1 hmem with hmem | hmem
  · have hne : ((m.procs p).threadTbl k).state ≠ .unused := by simpa using hbefore k hmem
    exact hne
  rw [hsplit] at hsorted
  rcases mem_cons.1 hmem with rfl | hmem
  · exact absurd hk (Nat.lt_irrefl _)
  · have hlt := (pairwise_append.1 hsorted).2.1
    exact absurd hk (Nat.lt_asymm (rel_of_pairwise_cons hlt hmem))

/-- The one thing asked of a step: if it is `free_thread` in `kthread_join`, the slot is
    `TZOMBIE`. -/
def reapsZombie (s : KState) (c : CpuId) : Bool :=
  match s.top c with
  | some (.kthreadJoin me _ _ (.free k)) => (s.mem.thread ⟨me.p, k⟩).state = .zombie
  | _ => true

/-- A running thread is in no process that is not in use, and in none that is being set up. -/
theorem Core.running_used (h : Core s) (hrun : (s.mem.table.slot t).state = .running) :
    s.mem.table.proc t.p = .used ∧ ∀ j, Child s j → t.p ≠ j := by
  refine ⟨h.table.alive t (by rw [hrun]; rfl), ?_⟩
  rintro j hj rfl
  have hst := hj.embryo.state (t := t)
  rw [hrun] at hst
  exact absurd hst (by decide)

theorem Core.wakes {S : TIdx → Bool} (h : Core s) (hstep : Step kernel s c e s')
    (hr : s.Runs c f below) (hlock : .proc p ∈ f.held)
    (hS : ∀ i, S i = true → (s.mem.table.slot ⟨p, i⟩).state = .sleeping)
    (htab : s'.mem.table = s.mem.table.wake p S) (hact : s'.active c = k :: below)
    (hcur : s'.cur c = s.cur c) (hctx : s'.ctx = s.ctx) (hfd : f.doomed = false)
    (hfst : ∀ st, f.stateOk st → st = .running) (hk : k.plain = true) : Advances s c s' := by
  refine h.mild hstep hr (.wake p S (h.lock hr.active hlock) hS htab) hact hcur
    (fun _ => .inl (by rw [hctx])) hfd hfst hk fun t hrun => ?_
  rw [htab]
  refine wake_other ?_
  rintro ⟨rfl, hi⟩
  cases hrun.symm.trans (hS t.i hi)

theorem Core.frees {j : PIdx} (h : Core s) (hstep : Step kernel s c e s')
    (hr : s.Runs c f below) (hlock : .proc j ∈ f.held)
    (hj : s.mem.table.proc j = .zombie ∨ Owns s c j) (hf : f.fn = .syscall)
    (htab : s'.mem.table = s.mem.table.free j) (hact : s'.active c = k :: below)
    (hcur : s'.cur c = s.cur c) (hctx : s'.ctx = s.ctx) (hfd : f.doomed = false)
    (hfst : ∀ st, f.stateOk st → st = .running) (hk : k.plain = true) : Advances s c s' := by
  have hplain := h.syscall_below hr hf hk hact
  refine h.mild hstep hr (.free j (h.lock hr.active hlock) hj hplain htab) hact hcur
    (fun _ => .inl (by rw [hctx])) hfd hfst hk fun t hrun => ?_
  obtain ⟨hused, hembryo⟩ := h.running_used hrun
  rw [htab]
  refine free_other ?_
  rintro rfl
  rcases hj with hz | ho
  · cases hused.symm.trans hz
  · exact hembryo _ (h.owned ho) rfl

/-- **The actions that change a thread table keep the invariant.** -/
theorem Core.alters (h : Core s) (hreap : reapsZombie s c = true) (hr : s.Runs c f below)
    (hal : Alters s.mem f a k)
    (hstep : Step kernel s c e (s.write c (a.apply s.mem) (k :: below))) :
    Advances s c (s.write c (a.apply s.mem) (k :: below)) := by
  have hact : (s.write c (a.apply s.mem) (k :: below)).active c = k :: below := by
    simp
  have hmine := h.mine hr.active
  cases hal with
  | yield me =>
    exact h.own hstep hr hmine rfl (fun _ => id) (.inl rfl) (table_setState _ _ _) hact rfl rfl
      ⟨fun _ => rfl, nofun⟩ trivial rfl trivial
  | sleep me chan lk =>
    exact h.own hstep hr hmine rfl (fun _ => id) (.inr (.inl rfl)) (table_sleepOn _ _ _) hact
      rfl rfl ⟨fun _ => rfl, nofun⟩ trivial rfl trivial
  | killthreads me =>
    exact h.own hstep hr hmine rfl (fun _ => id) (.inr (.inr rfl)) (table_setState _ _ _) hact
      rfl rfl ⟨nofun, fun _ => rfl⟩ trivial rfl trivial
  | kthreadExit me status q =>
    have hq : Asserts s (.kthreadExit me status (.zombie q)) := h.top_asserts hr.active hmine rfl
    exact h.own hstep hr hmine rfl (fun _ => id) (.inr (.inr rfl)) (table_setState _ _ _) hact
      rfl rfl ⟨fun _ => rfl, nofun⟩ hq rfl trivial
  | exit me status =>
    have hon : On s c me := .ofTop hr.active hmine rfl
    have hrun : (s.mem.table.slot me).state = .running := h.top_state hr.active hmine rfl
    have hrest : ∀ i, i ≠ me.i → (s.mem.table.slot ⟨me.p, i⟩).state.dead = true := by
      have hswept : Swept s me NTHREAD := h.top_asserts hr.active hmine rfl rfl
      rcases hswept with hs | ⟨k, hk, -⟩
      · exact fun i hi => hs i i.isLt hi
      · exact absurd hk (Nat.not_le.2 k.isLt)
    have htab : ((Act.exitProc me status).apply s.mem).table = s.mem.table.exit me :=
      table_exitProc _ _ _
    refine h.alter hstep hr (.exit me hon (h.lock hr.active (by simp)) hrun hrest htab)
      hact rfl (fun _ => .inl rfl) rfl (fun _ => id) (fun t hon' _ => ⟨fun _ => ?_, nofun⟩)
      (fun _ _ => ⟨nofun, nofun⟩) trivial
    obtain rfl := some.inj (hon'.cur.symm.trans hon.cur)
    show (((Act.exitProc t status).apply s.mem).table.slot t).state = .zombie
    rw [htab]
    simp [setState]
  | wakeup chan j =>
    exact h.wakes hstep hr (by simp) (fun i hi => (of_decide_eq_true hi).1)
      (table_wakeup _ _ _) hact rfl rfl rfl (fun _ => id) rfl
  | sigkill me =>
    refine h.wakes hstep hr (by simp) (fun i hi => ?_) (table_sigkill _ _) hact rfl rfl
      rfl (fun _ => id) rfl
    obtain ⟨rfl, hst⟩ := of_decide_eq_true hi
    exact hst
  | sigkillWake me k =>
    refine h.wakes hstep hr (by simp) (fun i hi => ?_) (table_wakeSlot _ _) hact rfl
      rfl rfl (fun _ => id) rfl
    obtain ⟨rfl, hst⟩ := of_decide_eq_true hi
    exact hst
  | allocFail me j g hg =>
    have hj : s.mem.table.proc j = .unused := h.held c _ _ hr.active
    refine h.mild hstep hr (.allocFail j (h.lock hr.active (by simp)) hj
      (table_allocproc_fail _ j hg)) hact rfl (fun _ => .inl rfl) rfl (fun _ => id) rfl
      fun t hrun => ?_
    show ((Act.allocproc j g).apply s.mem).table.slot t = _
    rw [table_allocproc_fail _ j hg]
    refine allocFail_other ?_
    rintro rfl
    cases (h.running_used hrun).1.symm.trans hj
  | uncopy me j =>
    have hon : On s c me := .ofTop hr.active hmine rfl
    exact h.frees hstep hr (by simp)
      (.inr ⟨me, _, hon, by rw [hr.active]; exact mem_cons_self .., rfl⟩) rfl
      (table_freeproc _ _) hact rfl rfl rfl (fun _ => id) rfl
  | forkRunnable me j pid =>
    have hon : On s c me := .ofTop hr.active hmine rfl
    have hj : Owns s c j := ⟨me, _, hon, by rw [hr.active]; exact mem_cons_self .., rfl⟩
    have hchild := h.owned hj
    have htab : ((Act.forkRunnable j).apply s.mem).table =
        s.mem.table.setState ⟨j, 0⟩ .runnable := table_forkRunnable _ j hchild.embryo.proc
    refine h.mild hstep hr (.forkRun j hj (h.syscall_below hr rfl rfl hact) htab) hact rfl
      (fun _ => .inl rfl) rfl (fun _ => id) rfl fun t hrun => ?_
    show ((Act.forkRunnable j).apply s.mem).table.slot t = _
    rw [htab]
    refine setState_other ?_
    rintro rfl
    exact (h.running_used hrun).2 j hchild rfl
  | reap me addr j pid =>
    exact h.frees hstep hr (by simp) (.inl (h.held c _ _ hr.active)) rfl
      (table_freeproc _ _) hact rfl rfl rfl (fun _ => id) rfl
  | fault me fn stack k hk htf =>
    have hon : On s c me := .ofTop hr.active hmine rfl
    have hrun : (s.mem.table.slot me).state = .running := h.top_state hr.active hmine rfl
    have hfirst := firstUnused_spec hk
    refine h.mild hstep hr (.createFault me k hon hrun hfirst htf ⟨c, fn, stack, below, hmine, hact⟩
      (h.syscall_below hr rfl rfl hact) (table_createFault _ _)) hact rfl (fun _ => .inl rfl) rfl
      (fun _ => id) rfl fun t hrun' => ?_
    show ((Act.createFault ⟨me.p, k⟩).apply s.mem).table.slot t = _
    rw [table_createFault]
    refine createFault_other ?_
    rintro rfl
    cases hrun'.symm.trans hfirst.unused
  | join me tid status k =>
    have hz : (s.mem.table.slot ⟨me.p, k⟩).state = .zombie := by
      simp only [reapsZombie, hr.top, decide_eq_true_eq] at hreap
      exact hreap
    refine h.mild hstep hr (.reap ⟨me.p, k⟩ (h.lock hr.active (by simp)) hz
      (table_freeThread _ _)) hact rfl (fun _ => .inl rfl) rfl (fun _ => id) rfl fun t hrun => ?_
    show ((Act.freeThread ⟨me.p, k⟩).apply s.mem).table.slot t = _
    rw [table_freeThread]
    refine reap_other ?_
    rintro rfl
    cases hrun.symm.trans hz

/-- **Starting a thread keeps the invariant.** -/
theorem Core.spawns {g : Frame} (h : Core s) (hr : s.Runs c f below) (hsp : Spawns s.mem f a t g k)
    (hs' : s' = { s with ctx := update s.ctx t [g] }.write c (a.apply s.mem) (k :: below))
    (hstep : Step kernel s c e s') : Advances s c s' := by
  have hact : s'.active c = k :: below := by rw [hs']; simp
  have hcur : s'.cur c = s.cur c := by rw [hs']; rfl
  have hctx : s'.ctx = update s.ctx t [g] := by rw [hs']; rfl
  have hmem : s'.mem = a.apply s.mem := by rw [hs']; rfl
  have hmine := h.mine hr.active
  -- the slot that is started was free, so its old stack was nobody's
  have hfresh : g = .forkret t → (s.mem.table.slot t).state = .unused → ∀ t', s'.ctx t' = s.ctx t' ∨
        s'.ctx t' = [.forkret t'] ∧ (s.mem.table.slot t').state = .unused := by
    rintro rfl hu t'
    rw [hctx, update_apply]
    split
    · next he => subst he; exact .inr ⟨rfl, hu⟩
    · exact .inl rfl
  cases hsp with
  | create me fn stack k hk htf =>
    have hon : On s c me := .ofTop hr.active hmine rfl
    have hrun : (s.mem.table.slot me).state = .running := h.top_state hr.active hmine rfl
    have hfirst := firstUnused_spec hk
    have htab : s'.mem.table = s.mem.table.create ⟨me.p, k⟩ := by
      rw [hmem, table_createThread]
    refine h.mild hstep hr (.create me k hon hrun hfirst htf (h.syscall_below hr rfl rfl hact)
      (by rw [hctx, update_self]) htab) hact hcur (hfresh rfl hfirst.unused) rfl
      (fun _ => id) rfl fun t hrun' => ?_
    rw [htab]
    refine create_other ?_
    rintro rfl
    cases hrun'.symm.trans hfirst.unused
  | alloc me j g hg =>
    have hj : s.mem.table.proc j = .unused := h.held c _ _ hr.active
    have htab : s'.mem.table = s.mem.table.alloc j g.tf := by rw [hmem, table_allocproc _ j hg]
    have htf : g.tf ≠ 0 := by
      simp only [Pages.ok, Bool.and_eq_true, bne_iff_ne] at hg
      exact hg.1.1
    have hchild : Child s' j := by
      refine ⟨⟨?_, ?_, fun i hi => ?_, ?_⟩, by rw [hctx, update_self]⟩ <;> rw [htab]
      · simp
      · simp
      · have hu := h.table.unused ⟨j, i⟩ hj
        simp [hi, hu]
      · simp [htf]
    refine h.alter hstep hr (.alloc j g.tf (h.lock hr.active (by simp)) hj htf htab)
      hact hcur (hfresh rfl (h.table.unused _ hj)) rfl (fun _ => id)
      (fun t _ hrun => ⟨fun _ => ?_, (by rintro ⟨⟩)⟩) (fun _ _ => ⟨fun i hi => ?_, fun i hi => .inr ?_⟩)
      trivial
    · have hp : t.p ≠ j := fun he => by cases (he ▸ (h.running_used hrun).1).symm.trans hj
      rw [htab, alloc_other hp]
      exact hrun
    · cases hi
      exact hchild
    · cases hi
      exact hj

/-! ## Switches -/

theorem idle_held {T : Table} (h : f.mine none) : HeldAsserts T f := by
  cases f with
  | fork me pc | wait me addr pc => cases h
  | _ => trivial

theorem Core.giveup (h : Core s) (hr : s.Runs c f below)
    (hk : code (s.view c e) f = .giveup k) (hc : s.cur c = some t)
    (hstep : Step kernel s c e (s.leave c t (k :: below))) :
    Advances s c (s.leave c t (k :: below)) := by
  have heff : Effect s.mem f _ := effect_of_code hk
  obtain ⟨me, lk, b, rfl, rfl, -⟩ := heff
  obtain ⟨-, -, -, -, hheld⟩ := (h.locked.cpu c).instrOk kernel_disciplined hr hk
  obtain rfl : lk = .proc t.p := Multiset.singleton_inj.1 (hheld t hc)
  have hon : On s c t := .ofTop hr.active hc rfl
  have hctx : (s.leave c t (.sched me (.proc t.p) (.resumed b) :: below)).ctx =
      update s.ctx t (.sched me (.proc t.p) (.resumed b) :: below) := rfl
  have hp := h.proceeds hstep (.stay rfl) fun t' => by
    by_cases ht : t' = t
    · exact .inr (.inr (ht ▸ hon))
    · exact .inl (update_of_ne ht _ _)
  refine h.leaves hp hon (update_self ..) rfl hctx rfl
    (fun g hg => by rw [hr.active]; exact mem_cons_of_mem _ hg) fun g rest hg => ?_
  have hhome : s.home c = g :: rest := by simpa using hg
  exact idle_held (((h.locked.cpu c).home t hc).mine g (by rw [hhome]; exact mem_cons_self ..))

theorem Core.dispatch {a : Act} (h : Core s) (hr : s.Runs c f below)
    (hk : code (s.view c e) f = .dispatch a t k)
    (hstep : Step kernel s c e (s.enter c t (k :: below) (a.apply s.mem))) :
    Advances s c (s.enter c t (k :: below) (a.apply s.mem)) := by
  have heff : Effect s.mem f _ := effect_of_code hk
  obtain ⟨p, i, rfl, rfl, rfl, rfl, hst⟩ := heff
  have hlock : s.lock (.proc p) = some c := h.lock hr.active (by simp)
  have hidle : s.cur c = none := h.mine hr.active
  have htab : ((Act.setState ⟨p, i⟩ .running).apply s.mem).table =
      s.mem.table.setState ⟨p, i⟩ .running := table_setState _ _ _
  have hp := h.proceeds hstep (.start ⟨p, i⟩ hidle hlock hst htab) fun _ => .inl rfl
  refine h.enters hp hidle hlock hst htab (update_self ..) (update_self ..) rfl ?_
  intro fn stack me rest hact
  cases hr.active.symm.trans hact

/-! ## All steps -/

section

variable (h : Core s)
include h

/-- **Every step keeps the invariant.** -/
theorem Core.step (hreap : reapsZombie s c = true) (hstep : Step kernel s c e s') : Advances s c s' := by
  cases hstep with
  | idle =>
    exact h.same (e := e) .idle rfl rfl rfl rfl rfl (h.state c)
      (fun _ hg => .inl hg) (h.held c)
  | halt msg hh =>
    exact h.same (e := e) (.halt msg hh) rfl rfl rfl rfl rfl (h.state c)
      (fun _ hg => .inl hg) (h.held c)
  | @trap t a f hh ha hc ht =>
    obtain ⟨cause, regs, rfl, rfl⟩ := trapEntry_some ht
    exact h.trap (.trap hh ha hc ht) rfl rfl (table_proc _ _ _) ha (update_self ..)
  | irq hr hi hq =>
    obtain ⟨cause, -, rfl⟩ := map_eq_some_iff.1 hq
    exact h.irq (.irq hr hi hq) rfl rfl rfl hr hi rfl (update_self ..)
  | @goto f k below hr hk =>
    have hf : Flows s c f _ := h.flows_of_code hr hk
    exact h.goto (.goto hr hk) rfl rfl rfl hr hf (update_self ..)
  | @act f k a below hr hk =>
    have hf : Flows s c f (kernel.code (s.view c e) f) := h.flows hr
    have heff : Effect s.mem f (kernel.code (s.view c e) f) := code_effect (s.view c e) f
    rw [hk] at hf heff
    rcases heff with hquiet | hal
    · exact h.goto (.act hr hk) rfl rfl (table_quiet _ hquiet.quiet) hr (hf hquiet.quiet) (update_self ..)
    · exact h.alters hreap hr hal (.act hr hk)
  | @spawn f g k a t below hr hk =>
    have heff : Effect s.mem f _ := effect_of_code hk
    exact h.spawns hr heff rfl (.spawn hr hk)
  | @acquire f k l below hr hk hl =>
    have hf : Flows s c f _ := h.flows_of_code hr hk
    exact h.goto (.acquire hr hk hl) rfl rfl rfl hr hf (update_self ..)
  | @release f k l r below hr hk hl hp =>
    have hf : Flows s c f _ := h.flows_of_code hr hk
    exact h.goto (.release hr hk hl hp) rfl rfl rfl hr hf (update_self ..)
  | @call f g k below hr hk =>
    have hf : Flows s c f _ := h.flows_of_code hr hk
    exact h.call (.call hr hk) rfl rfl rfl hr hf (update_self ..)
  | ret hr hk => exact h.ret (.ret hr hk) rfl rfl rfl hr hk (update_self ..)
  | iret hr hk =>
    obtain ⟨hisr, -⟩ := (h.locked.cpu c).instrOk kernel_disciplined hr hk
    exact h.iret (.iret hr hk) rfl rfl rfl hr hisr (update_self ..)
  | @giveup f k t below hr hk hc => exact h.giveup hr hk hc (.giveup hr hk hc)
  | @dispatch f k a t below hr hk => exact h.dispatch hr hk (.dispatch hr hk)
  | @setIntr f k b below hr hk =>
    have hf : Flows s c f _ := h.flows_of_code hr hk
    exact h.goto (.setIntr hr hk) rfl rfl rfl hr hf (update_self ..)
  | @setIntena f k b below hr hk =>
    have hf : Flows s c f _ := h.flows_of_code hr hk
    exact h.goto (.setIntena hr hk) rfl rfl rfl hr hf (update_self ..)
  | @userret f below hr hk =>
    have heff : Effect s.mem f _ := effect_of_code hk
    obtain ⟨me, rfl⟩ := heff
    exact h.userret (.userret hr hk) rfl rfl rfl hr rfl (update_self ..)

theorem Core.continues (hstep : Step kernel s c e s') (hon : On s c t)
    (hcur : s'.cur c = some t) : Continues kernel s c e (s'.active c) := by
  refine hstep.continues hcur fun f below a k hr hk => ?_
  have heff : Effect s.mem f _ := effect_of_code hk
  obtain ⟨p, i, rfl, -⟩ := heff
  have hidle : s.cur c = none := h.mine hr.active
  cases hidle.symm.trans hon.cur

/-- The stack of a thread that can run: it has waited, has just been started, or is the one that the
    cpu's step leads to. -/
theorem Core.stack_origin (hadv : Advances s c s')
    (hstep : Step kernel s c e s') (hv : Valid s' t st) :
    (Valid s t st ∧ ¬ On s c t) ∨ (st = [.forkret t] ∧ Started s s' t) ∨
      (On s c t ∧ Continues kernel s c e st) := by
  cases hadv.origin t st hv with
  | old hv0 hoff => exact .inl ⟨hv0, hoff⟩
  | fresh hst hnew => exact .inr (.inl ⟨hst, hnew⟩)
  | own hon hcur hst _ =>
    refine .inr (.inr ⟨hon, ?_⟩)
    rw [← hst]
    exact h.continues hstep hon hcur
  | left hon hcur hst _ =>
    refine .inr (.inr ⟨hon, ?_⟩)
    rw [← hst]
    exact hstep.continues_left hon.cur hcur

theorem Core.leaves_state (hstep : Step kernel s c e s') (hon : On s c t)
    (hcur : s'.cur c ≠ some t) : (s.mem.table.slot t).state = .runnable ∨
      (s.mem.table.slot t).state = .sleeping ∨ (s.mem.table.slot t).state = .zombie := by
  have heff : ∀ f, Effect s.mem f (kernel.code (s.view c e) f) := code_effect (s.view c e)
  cases hstep with
  | @giveup f k t' below hr hk hc =>
    have he := heff f
    rw [hk] at he
    obtain ⟨me, lk, b, rfl, -⟩ := he
    exact h.top_state hr.active hon.cur (hon.top hr.active)
  | @dispatch f k a t' below hr hk =>
    have he := heff f
    rw [hk] at he
    obtain ⟨p, i, rfl, -⟩ := he
    have hidle : s.cur c = none := h.mine hr.active
    cases hidle.symm.trans hon.cur
  | _ => exact absurd hon.cur hcur

/-- **A thread that can run still can after a step**, unless it terminates or is about to panic. -/
theorem Core.valid_stays (hadv : Advances s c s') (hstep : Step kernel s c e s') (hv : Valid s t st)
    (hlive : (s.mem.table.slot t).state.dead = false)
    (hz : (s'.mem.table.slot t).state ≠ .zombie)
    (hsane : On s c t → s'.cur c = some t → doomedStack (s'.active c) = false) :
    ∃ st', Valid s' t st' := by
  by_cases hon : ∃ c', On s' c' t
  · obtain ⟨c', hon⟩ := hon
    exact ⟨_, .on c' hon⟩
  have hoff : ∀ c', ¬ On s' c' t := fun c' hon' => hon ⟨c', hon'⟩
  have hown := h.owned_not_started (c := c) (hv.started h).1 (hv.started h).2
  obtain ⟨st', hslot, hst'⟩ := h.slot_stays hadv hlive hown hz
  refine ⟨_, .parked ⟨?_, by rw [hslot]; exact hv.framed h⟩ hoff⟩
  rw [hslot]
  by_cases hsame : st' = (s.mem.table.slot t).state
  · show st' = .runnable ∨ st' = .sleeping
    rw [hsame]
    cases hv with
    | parked hp => exact hp.1
    | on c' hon' =>
      -- its cpu has given it up
      by_cases hc : c' = c
      · subst hc
        have hcur : s'.cur c' ≠ some t := fun hcur => hoff c' ⟨hcur, hsane hon' hcur⟩
        rcases h.leaves_state hstep hon' hcur with hst | hst | hst
        · exact .inl hst
        · exact .inr hst
        · rw [hst] at hlive
          cases hlive
      · exact absurd ((hadv.proceeds.on hc).2 hon') (hoff c')
  rcases hst' with hst | rfl | rfl | rfl
  · exact absurd hst hsame
  · exact .inl rfl
  · exact .inr rfl
  -- the scheduler starts it
  cases turns_of_step hstep (Ne.symm hsame) (congrArg Slot.state hslot) rfl with
  | started hact hcur =>
    obtain ⟨f, rest, hctx, hsaved⟩ := h.saved t
    refine absurd (On.ofTop (hact.trans hctx) hcur ?_) (hoff c)
    exact plain_doomed (saved_plain hsaved)

/-- **Where a frame of a thread comes from**: the thread had it before, has just been started, or is
    executed by the cpu that takes the step, which pushes it. -/
theorem Core.frame_origin (hadv : Advances s c s')
    (hstep : Step kernel s c e s') (hv : Valid s' t st) (hf : f ∈ st) :
    (∃ st0, Valid s t st0 ∧ f ∈ st0) ∨ Started s s' t ∨ On s c t ∧ Pushes kernel s c e f := by
  rcases h.stack_origin hadv hstep hv with ⟨hv0, -⟩ | ⟨-, hnew⟩ | ⟨hon, hst⟩
  · exact .inl ⟨st, hv0, hf⟩
  · exact .inr (.inl hnew)
  · rcases hst.pushes hf with hold | hnew
    · exact .inl ⟨_, .on c hon, hold⟩
    · exact .inr (.inr ⟨hon, hnew⟩)

end

end

/-! ## Properties of frames -/

/-- **The frames that the kernel introduces**: later points of the function that runs, the entries
    of the functions it calls, and those that traps, interrupts and new threads start in. -/
theorem kernel_introduces {Q : Frame → Prop} {s : KState} {c : CpuId} {e : Env}
    (h : locking.Locked s)
    (hnext : ∀ f below k, s.Runs c f below → Q f → Follows f k →
      k ∈ (kernel.code (s.view c e) f).pushes → Q k)
    (hcall : ∀ f below g k, s.Runs c f below → Q f → kernel.code (s.view c e) f = .call g k →
      Follows f k → g.entry = true → k.awaits g.fn → Q g)
    (hforkret : ∀ t, Q (.forkret t)) (htrap : ∀ t cause, Q (.usertrap t (.start cause)))
    (hirq : ∀ o b, Q (.kerneltrap o (.start b))) (hresume : ∀ k v, Q k → Q (resumeFrame k v)) :
    Introduces kernel Q s c e where
  code := fun f below hr hf => by
    have hok := (h.cpu c).instrOk (i := e) kernel_disciplined hr rfl
    have heff : Effect s.mem f (kernel.code (s.view c e) f) := code_effect (s.view c e) f
    have hn := fun k => hnext f below k hr hf
    cases hx : kernel.code (s.view c e) f with
    | goto k | act a k | acquire l k | release l k | giveup k | setIntr b k | setIntena b k =>
      rw [hx] at hok hn
      simpa using hn k hok.1.follows (mem_singleton_self _)
    | dispatch a t k =>
      rw [hx] at hok hn
      simpa using hn k hok.2.1.follows (mem_singleton_self _)
    | spawn a t g k =>
      rw [hx] at hok hn heff
      have hg : Q g := by cases heff <;> exact hforkret _
      simpa using ⟨hg, hn k hok.1.follows (mem_singleton_self _)⟩
    | call g k =>
      rw [hx] at hok hn
      obtain ⟨hst, -, -, hentry, hadj, hisr, -⟩ := hok
      have hg := hcall f below g k hr hf hx hst.follows hentry (hadj.resolve_left hisr)
      have hk := hn k hst.follows (mem_cons_of_mem _ (mem_singleton_self _))
      simpa using ⟨hg, hk⟩
    | ret | iret | userret | panic => simp
  resume := hresume
  trap := fun m t a f ht => by
    obtain ⟨cause, regs, rfl, rfl⟩ := trapEntry_some ht
    exact htrap _ _
  irq := fun o g hq => by
    obtain ⟨cause, -, rfl⟩ := map_eq_some_iff.1 hq
    exact hirq _ _

/-! ## Every reachable state -/

theorem bootMem_ok : bootMem.table.Ok where
  alive := fun _ h => absurd h nofun
  unused := fun _ _ => rfl
  order := fun _ _ _ _ _ _ => rfl
  tid_nonneg := fun _ => le_refl _
  tid_lt := fun _ => Int.zero_lt_one
  tid_pos := fun _ h => absurd rfl h
  tid_inj := fun _ _ _ h => absurd h (lt_irrefl _)
  tparent := fun _ h => absurd h nofun

variable {g : Pages}

section

variable (hg : g.ok = true) (um : UserMem)
include hg um

theorem table_userinit : (userinit g um).table = (bootMem.table.alloc 0 g.tf).setState ⟨0, 0⟩ .runnable := by
  rw [← table_allocproc bootMem 0 hg]
  show (Mem.modThread (Mem.modProc _ _ _) _ _).table = _
  rw [table_modThread, table_modProc]
  · rfl
  · exact fun _ => rfl
  · exact fun _ => rfl

theorem boot_slot {t : ThreadRef} (h : ((boot g um).mem.table.slot t).state ≠ .unused) :
    t = ⟨0, 0⟩ ∧ ((boot g um).mem.table.slot t).trapframe = g.tf := by
  have htab : (boot g um).mem.table = _ := table_userinit hg um
  rw [htab, setState_slot] at h ⊢
  split at h
  · next ht =>
    subst ht
    exact ⟨rfl, by simp⟩
  next ht =>
  refine absurd ?_ h
  obtain ⟨p, i⟩ := t
  by_cases hp : p = 0
  · subst hp
    have hi : i ≠ 0 := fun hi => ht (by rw [hi])
    simp [hi, Mem.table, Mem.thread, bootMem]
  · simp [hp, Mem.table, Mem.thread, bootMem]

theorem boot_valid {t : ThreadRef} {st : List Frame}
    (hv : Valid (boot g um) t st) : st = [.forkret ⟨0, 0⟩] := by
  cases hv with
  | on c hon => cases hon.cur
  | parked hp _ =>
    have hne : ((boot g um).mem.table.slot t).state ≠ .unused := fun hu => by
      have hst := hp.1
      rw [hu] at hst
      exact absurd hst (by decide)
    rw [(boot_slot hg um hne).1]
    simp [boot]

theorem boot_core : Core (boot g um) where
  locked := boot_locked g um
  table := by
    show (userinit g um).table.Ok
    rw [table_userinit hg]
    exact (bootMem_ok.alloc rfl).setState (by simp [ThreadState.dead]) (by decide)
  used := fun t ht => by
    have hne : ((boot g um).mem.table.slot t).state ≠ .unused := by simp [ht]
    obtain rfl := (boot_slot hg um hne).1
    have htab : (boot g um).mem.table = _ := table_userinit hg um
    rw [htab, setState_slot, if_pos rfl] at ht
    cases ht
  saved := fun t => by
    simp only [boot, update_apply]
    split
    · next ht => exact ⟨_, _, rfl, rfl⟩
    · exact ⟨_, _, rfl, rfl⟩
  state := fun _ _ hon => by cases hon.cur
  alone := fun _ _ _ hon => by cases hon.cur
  framed := fun _ _ hon => by cases hon.cur
  null := fun t hlive htf => by
    have hne : ((boot g um).mem.table.slot t).state ≠ .unused := fun hu => by
      rw [hu] at hlive
      cases hlive
    rw [(boot_slot hg um hne).2] at htf
    simp [Pages.ok, htf] at hg
  asserts := fun t st hv f hf => by
    rw [boot_valid hg um hv] at hf
    obtain rfl := mem_singleton.1 hf
    trivial
  child := fun t t' st st' f f' j hv _ hf _ hj _ => by
    rw [boot_valid hg um hv] at hf
    obtain rfl := mem_singleton.1 hf
    cases hj
  held := fun c f rest hact => by
    cases show [scheduler .top] = f :: rest from hact
    trivial

end

/-- The runs in which `kthread_join` frees only threads that have terminated. -/
abbrev ReapsZombies (s : KState) (tr : List (CpuId × Env)) : Prop :=
  Along kernel (fun s c _ => reapsZombie s c = true) s tr

/-- **The invariant holds in every state of such a run.** -/
theorem run_core (hg : g.ok = true) (um : UserMem) {tr : List (CpuId × Env)}
    (h : ReapsZombies (boot g um) tr) : Core (run kernel (boot g um) tr) :=
  h.invariant Core (boot_core hg um) fun _ _ _ hreap hcore => (hcore.step hreap exec_step).core

end Xv6
