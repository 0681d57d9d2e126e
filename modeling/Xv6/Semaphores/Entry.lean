import Xv6.Threads.Wakeups

set_option autoImplicit false

/-! # The entries of the semaphore table

What a step does to one entry of `Bsems` (`BsemMove`): there are five critical sections that change
one, each in a system call that holds the entry's lock, and everything else leaves the table alone.

`bsem_alloc` looks for an entry whose value is `-1`. Neither `initsems` nor any of the critical
sections ever stores that value, and the loop is left after the entry 0; so from the state that
`initsems` leaves no semaphore is ever allocated. The properties of `bsem_down`, `bsem_up` and
`bsem_free` are about allocated semaphores all the same, so they are proved from a boot with any
table (`bootWith`). -/

namespace Xv6

open Machine

/-! ## What a step does to an entry -/

section

variable {s s' : KState} {c : CpuId} {e : Env} {d : BIdx}

theorem Act.apply_bsems (a : Act) (m : Mem) (h : ∀ d x, a ≠ .bsem d x) : (a.apply m).bsems = m.bsems := by
  cases a with
  | bsem d x => exact absurd rfl (h d x)
  | allocproc p g =>
    simp only [Act.apply, Xv6.allocproc]
    repeat' split
    all_goals rfl
  | _ => rfl

/-- The changes of the entry `d` that cpu `c` makes in a step from `s` to `s'`. -/
inductive BsemMove (s : KState) (c : CpuId) (s' : KState) (d : BIdx) : Prop where
  | same (h : s'.mem.bsems d = s.mem.bsems d)
  | alloc (below : List Frame) (hr : s.Runs c (.bsemAlloc .test) below)
      (hv : (s.mem.bsems d).value = -1)
      (h : s'.mem.bsems d = BsemAct.apply (.alloc d) (s.mem.bsems d))
  | free (below : List Frame) (hr : s.Runs c (.bsemFree d .test) below)
      (hd : (s.mem.bsems d).descriptor ≠ -1) (hv : (s.mem.bsems d).value ≠ 0)
      (h : s'.mem.bsems d = BsemAct.apply .free (s.mem.bsems d))
  | take (me : ThreadRef) (below : List Frame) (hr : s.Runs c (.bsemDown me d .test) below)
      (hd : (s.mem.bsems d).descriptor ≠ -1) (hv : (s.mem.bsems d).value = 1)
      (hact : s'.active c = .bsemDown me d .release :: below)
      (h : s'.mem.bsems d = BsemAct.apply (.take me) (s.mem.bsems d))
  | place (me : ThreadRef) (below : List Frame) (hr : s.Runs c (.bsemDown me d .test) below)
      (hd : (s.mem.bsems d).descriptor ≠ -1) (hv : (s.mem.bsems d).value ≠ 1)
      (hact : s'.active c = .bsemDown me d .sleep :: below) (hcur : s'.cur = s.cur)
      (line : Fin NUM_OF_THREADS → Option ThreadRef)
      (hline : placeThreadInLine (s.mem.bsems d).threads me = some line)
      (h : s'.mem.bsems d = { s.mem.bsems d with threads := line })
  | up (below : List Frame) (hr : s.Runs c (.bsemUp d .test) below)
      (hd : (s.mem.bsems d).descriptor ≠ -1) (hact : s'.active c = .bsemUp d .wake :: below)
      (h : s'.mem.bsems d = BsemAct.apply .up (s.mem.bsems d))

/-- **Every step changes an entry in one of the ways listed.** -/
theorem bsem_of_step (hstep : Step kernel s c e s') (d : BIdx) : BsemMove s c s' d := by
  have hkeep : ∀ {a : Act}, s'.mem = a.apply s.mem → (∀ d x, a ≠ .bsem d x) →
      BsemMove s c s' d := by
    intro a hmem ha
    refine .same ?_
    rw [hmem, a.apply_bsems s.mem ha]
  -- the entry that the critical section is about, or another one
  have hentry : ∀ {d0 : BIdx} {x : BsemAct}, s'.mem = (Act.bsem d0 x).apply s.mem →
      (d = d0 → s'.mem.bsems d = x.apply (s.mem.bsems d) → BsemMove s c s' d) →
      BsemMove s c s' d := by
    intro d0 x hmem hd
    by_cases h : d = d0
    · refine hd h ?_
      rw [hmem, h]
      exact Function.update_self ..
    refine .same ?_
    rw [hmem]
    exact Function.update_of_ne h _ _
  cases writes_of_step hstep with
  | none h => exact .same (by rw [h])
  | trap _ _ _ _ _ h | dispatch p i below hr _ h => exact hkeep h nofun
  | unseen f k a below hr ha hact hcur h =>
    cases ha with
    | bsemAlloc hv =>
      refine hentry h fun hd h' => ?_
      subst hd
      exact .alloc below hr hv h'
    | bsemFree d0 hv =>
      refine hentry h fun hd h' => ?_
      subst hd
      exact .free below hr (fun he => hv (.inl he)) (fun he => hv (.inr he)) h'
    | bsemTake me d0 hdesc hv =>
      refine hentry h fun hd h' => ?_
      subst hd
      exact .take me below hr hdesc hv hact h'
    | bsemPlace me d0 line hdesc hv hline =>
      refine hentry h fun hd h' => ?_
      subst hd
      refine .place me below hr hdesc hv hact hcur line hline ?_
      rw [h']
      simp [BsemAct.apply, hline]
    | bsemUp d0 hdesc =>
      refine hentry h fun hd h' => ?_
      subst hd
      exact .up below hr hdesc hact h'
    | _ => exact hkeep h nofun
  | alters f k a below hr ha _ _ h | spawns f g k a t below hr ha _ _ h => cases ha <;> exact hkeep h nofun

/-! ## Starting with any table -/

/-- The state with another table of semaphores. -/
def withBsems (s : KState) (b : BIdx → Bsem) : KState :=
  { s with mem := { s.mem with bsems := b } }

variable {b : BIdx → Bsem} {t : ThreadRef} {st : List Frame}

theorem On.ofBsems (h : On (withBsems s b) c t) : On s c t := ⟨h.cur, h.sane⟩

theorem Valid.ofBsems (h : Valid (withBsems s b) t st) : Valid s t st := by
  cases h with
  | on c hon => exact .on c hon.ofBsems
  | parked hp hoff => exact .parked hp fun c hon => hoff c ⟨hon.cur, hon.sane⟩

theorem Asserts.withBsems {f : Frame} (h : Asserts s f) : Asserts (withBsems s b) f := by
  unfold Asserts at h ⊢
  split at h
  · exact h
  · exact h
  · exact h
  · exact h
  · exact fun j hj => ⟨(h j hj).embryo, (h j hj).ctx⟩
  · trivial

theorem Core.withBsems (h : Core s) : Core (withBsems s b) where
  locked := ⟨fun c => (h.locked.cpu c).other ⟨rfl, rfl, rfl, rfl, rfl, fun _ => Iff.rfl⟩,
    h.locked.ctx⟩
  table := h.table
  used := h.used
  saved := h.saved
  state := fun c t hon => h.state c t hon.ofBsems
  alone := fun c c' t hon hon' => h.alone c c' t hon.ofBsems hon'.ofBsems
  framed := fun c t hon => h.framed c t hon.ofBsems
  null := h.null
  asserts := fun t st hv f hf => (h.asserts t st hv.ofBsems f hf).withBsems
  child := fun t t' st st' f f' j hv hv' =>
    h.child t t' st st' f f' j hv.ofBsems hv'.ofBsems
  held := h.held

end

/-- The state after boot, with the table `b` in the place of the one that `initsems` leaves. -/
def bootWith (b : BIdx → Bsem) (g : Pages) (um : UserMem) : KState := withBsems (boot g um) b

theorem boot_bsems (g : Pages) (um : UserMem) : (boot g um).mem.bsems = initsems := by
  have halloc := Act.apply_bsems (.allocproc 0 g) bootMem nofun
  exact halloc

theorem boot_eq (g : Pages) (um : UserMem) : boot g um = bootWith initsems g um := by
  rw [← boot_bsems g um]
  rfl

theorem bootWith_core {g : Pages} (hg : g.ok = true) (um : UserMem) (b : BIdx → Bsem) :
    Core (bootWith b g um) :=
  (boot_core hg um).withBsems

theorem bootWith_frame {g : Pages} (hg : g.ok = true) (um : UserMem) {b : BIdx → Bsem}
    {t : ThreadRef} {st : List Frame} {f : Frame} (hv : Valid (bootWith b g um) t st) (hf : f ∈ st) :
    f = .forkret ⟨0, 0⟩ := by
  rw [boot_valid hg um hv.ofBsems] at hf
  exact List.mem_singleton.1 hf

theorem bootWith_commits {g : Pages} (hg : g.ok = true) (um : UserMem) (b : BIdx → Bsem)
    {t : ThreadRef} {chan : Chan} {id : Option Int} : ¬ Commits (bootWith b g um) t chan id := by
  rintro ⟨st, hv, hc⟩
  exact boot_commits hg um ⟨st, hv.ofBsems, hc⟩

theorem bootWith_sleepers {g : Pages} (hg : g.ok = true) (um : UserMem) (b : BIdx → Bsem) :
    Sleepers (bootWith b g um) :=
  fun t hst => absurd hst (boot_awake hg um t)

section

variable (b : BIdx → Bsem) (g : Pages) (um : UserMem)
include b g um

theorem bootWith_woken : Woken (bootWith b g um) := by
  intro c chan pc rest l hact
  cases hact

theorem bootWith_locked : locking.Locked (bootWith b g um) :=
  ⟨fun c => ((boot_locked g um).cpu c).other ⟨rfl, rfl, rfl, rfl, rfl, fun _ => Iff.rfl⟩,
    (boot_locked g um).ctx⟩

theorem run_locked_with (tr : List (CpuId × Env)) :
    locking.Locked (run kernel (bootWith b g um) tr) :=
  run_invariant locking.Locked (bootWith_locked b g um) fun _ _ _ h =>
    h.step kernel_disciplined exec_step

end

/-! ## bsem_alloc -/

/-- Cpu `c` is about to test an entry in `bsem_alloc`. -/
def allocates (s : KState) (c : CpuId) : Bool :=
  match s.top c with
  | some (.bsemAlloc .test) => true
  | _ => false

/-- The value that a call of `bsem_alloc` is about to return. -/
def allocResult (s : KState) (c : CpuId) : Option Int :=
  match s.top c with
  | some (.bsemAlloc (.release r)) => some r
  | _ => none

/-- What `bsem_alloc` is for: it returns a descriptor that was not allocated and is now, with value
    1, and `-1` only if there is none. -/
def AllocSpec (b b' : BIdx → Bsem) (r : Int) : Prop :=
  (∃ d : BIdx, r = d.val ∧ (b d).descriptor = -1 ∧ (b' d).descriptor = d.val ∧ (b' d).value = 1) ∨
    r = -1 ∧ ∀ d, (b d).descriptor ≠ -1

/-- The tables on which it does that. -/
def AllocOk (b : BIdx → Bsem) : Prop :=
  ((b 0).value = -1 ∧ (b 0).descriptor = -1) ∨ (b 0).value ≠ -1 ∧ ∀ d, (b d).descriptor ≠ -1

section

variable {s s' : KState} {c : CpuId} {e : Env} {d : BIdx} {below : List Frame}

theorem allocates_runs (h : allocates s c = true) : ∃ below, s.Runs c (.bsemAlloc .test) below := by
  unfold allocates at h
  split at h
  · next htop => exact State.runs_of_top htop
  · cases h

theorem value_stays (hstep : Step kernel s c e s') (hv : (s.mem.bsems d).value ≠ -1) :
    (s'.mem.bsems d).value ≠ -1 := by
  cases bsem_of_step hstep d with
  | same h | free _ _ _ _ h | place _ _ _ _ _ _ _ _ _ h => rw [h]; exact hv
  | alloc _ _ _ h | take _ _ _ _ _ _ h | up _ _ _ _ h => rw [h]; nofun

theorem run_value (h : locking.Locked s) (hv : (s.mem.bsems d).value ≠ -1)
    (tr : List (CpuId × Env)) :
    locking.Locked (run kernel s tr) ∧ ((run kernel s tr).mem.bsems d).value ≠ -1 :=
  run_invariant (fun s => locking.Locked s ∧ (s.mem.bsems d).value ≠ -1) ⟨h, hv⟩
    fun _ _ _ h => ⟨h.1.step kernel_disciplined exec_step, value_stays exec_step h.2⟩

section

variable (h : locking.Locked s) (hr : s.Runs c (.bsemAlloc .test) below)
include h hr

theorem bsemAlloc_exec : exec kernel s c e =
      if (s.mem.bsems 0).value = -1 then
        s.write c ((Act.bsem 0 (.alloc 0)).apply s.mem) (.bsemAlloc (.release 0) :: below)
      else s.go c (.bsemAlloc (.release (-1)) :: below) := by
  rw [exec_locked h hr (by simp)]
  show execInstr kernel s c below (if (s.mem.bsems 0).value = -1 then _ else _) = _
  by_cases hv : (s.mem.bsems 0).value = -1
  · rw [if_pos hv, if_pos hv]
    rfl
  · rw [if_neg hv, if_neg hv]
    rfl

theorem bsemAlloc_result :
    allocResult (exec kernel s c e) c = some (if (s.mem.bsems 0).value = -1 then 0 else -1) := by
  rw [bsemAlloc_exec h hr]
  split <;> simp [allocResult, State.top, hr.halted]

theorem bsemAlloc_spec : AllocSpec s.mem.bsems (exec kernel s c e).mem.bsems
      (if (s.mem.bsems 0).value = -1 then 0 else -1) ↔ AllocOk s.mem.bsems := by
  rw [bsemAlloc_exec h hr]
  by_cases hv : (s.mem.bsems 0).value = -1
  · rw [if_pos hv, if_pos hv]
    constructor
    · rintro (⟨d, hd, hfree, -⟩ | ⟨h0, -⟩)
      · obtain rfl : d = 0 := Fin.ext (by simpa using hd.symm)
        exact .inl ⟨hv, hfree⟩
      · cases h0
    rintro (⟨-, hfree⟩ | ⟨hne, -⟩)
    · refine .inl ⟨0, rfl, hfree, ?_, ?_⟩ <;>
        simp [Act.apply, BsemAct.apply]
    · exact absurd hv hne
  rw [if_neg hv, if_neg hv]
  constructor
  · rintro (⟨d, hd, -⟩ | ⟨-, hall⟩)
    · exact absurd hd (by simp)
    · exact .inr ⟨hv, hall⟩
  rintro (⟨he, -⟩ | ⟨-, hall⟩)
  · exact absurd he hv
  · exact .inr ⟨rfl, hall⟩

end

end

/-- **`bsem_alloc` does what it is for exactly if the entry 0 is free and has value `-1`, or if it
    has another value and all descriptors are taken**, from any table and in every run; and a
    descriptor that it has returned is never returned again. -/
theorem bsem_alloc_iff (b : BIdx → Bsem) (g : Pages) (um : UserMem) (tr : List (CpuId × Env))
    (c : CpuId) (e : Env) (hc : allocates (run kernel (bootWith b g um) tr) c = true) :
    let s := run kernel (bootWith b g um) tr
    ∃ r, allocResult (exec kernel s c e) c = some r ∧
      (AllocSpec s.mem.bsems (exec kernel s c e).mem.bsems r ↔ AllocOk s.mem.bsems) ∧
      (r ≠ -1 → ∀ tr' c' e', allocates (run kernel (exec kernel s c e) tr') c' = true →
        allocResult (exec kernel (run kernel (exec kernel s c e) tr') c' e') c' = some (-1)) := by
  intro s
  have hlocked : locking.Locked s := run_locked_with b g um tr
  obtain ⟨below, hr⟩ := allocates_runs hc
  refine ⟨_, bsemAlloc_result hlocked hr, bsemAlloc_spec hlocked hr, fun hr0 tr' c' e' hc' => ?_⟩
  have hv : (s.mem.bsems 0).value = -1 := by
    by_contra hv
    rw [if_neg hv] at hr0
    exact hr0 rfl
  -- the entry has a value now, and will always have one
  have hnew : ((exec kernel s c e).mem.bsems 0).value ≠ -1 := by
    rw [bsemAlloc_exec hlocked hr, if_pos hv]
    simp [Act.apply, BsemAct.apply]
  have hstays := run_value (hlocked.step kernel_disciplined exec_step) hnew tr'
  obtain ⟨below', hr'⟩ := allocates_runs hc'
  rw [bsemAlloc_result hstays.1 hr', if_neg hstays.2]

/-- **From the table that `initsems` leaves no semaphore is ever allocated**: in every run the table
    stays as it is. -/
theorem run_initsems (g : Pages) (um : UserMem) (tr : List (CpuId × Env)) :
    (run kernel (boot g um) tr).mem.bsems = initsems := by
  refine run_invariant (fun s : KState => s.mem.bsems = initsems) (boot_bsems g um) ?_
  intro s c e hb
  funext d
  have hentry : s.mem.bsems d = initsem {} := by rw [hb]; rfl
  have hdesc : ¬ (s.mem.bsems d).descriptor ≠ -1 := by simp [hentry, initsem]
  cases bsem_of_step exec_step d with
  | same h => rw [h, hb]
  | alloc _ _ hv => exact absurd hv (by simp [hentry, initsem])
  | free _ _ hd | take _ _ _ hd | place _ _ _ hd | up _ _ hd => exact absurd hd hdesc

/-- The first process calls `bsem_alloc` when nothing is allocated, and gets `-1`. -/
theorem bsem_alloc_fails :
    let s := run kernel (boot firstPages fun _ => none) (steps 0 14 ++ ecall 0 29 0 0 :: steps 0 6)
    allocResult s 0 = some (-1) ∧ ∀ d, (s.mem.bsems d).descriptor = -1 := by
  decide +kernel

/-- A table as `bsem_alloc` expects it. -/
def freshBsems : BIdx → Bsem := fun _ => { descriptor := -1, value := -1 }

/-- On it the same call gets the descriptor 0. -/
theorem bsem_alloc_first :
    let s := run kernel (bootWith freshBsems firstPages fun _ => none)
      (steps 0 14 ++ ecall 0 29 0 0 :: steps 0 5)
    allocResult (exec kernel s 0 {}) 0 = some 0 ∧
      AllocSpec s.mem.bsems (exec kernel s 0 {}).mem.bsems 0 := by
  intro s
  have hres : allocResult (exec kernel s 0 {}) 0 = some 0 := by decide +kernel
  obtain ⟨r, hr, hiff, -⟩ := bsem_alloc_iff freshBsems firstPages (fun _ => none)
    (steps 0 14 ++ ecall 0 29 0 0 :: steps 0 5) 0 {} (by decide +kernel)
  cases hr.symm.trans hres
  exact ⟨hres, hiff.2 (.inl ⟨by decide +kernel, by decide +kernel⟩)⟩

/-! ## Schedules with one semaphore -/

/-- The first semaphore is allocated and can be taken. -/
def oneBsem : BIdx → Bsem := Function.update initsems 0 { descriptor := 0, value := 1 }

/-- The thread of the first process takes the semaphore and creates another one, which goes to sleep
    waiting for it. -/
def downTwice : List (CpuId × Env) :=
  steps 0 14 ++ ecall 0 31 0 0 :: steps 0 20 ++ ecall 0 26 100 200 :: steps 0 20 ++ steps 1 15 ++
    ecall 1 31 0 0 :: steps 1 20

end Xv6
