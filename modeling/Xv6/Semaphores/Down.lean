import Xv6.Semaphores.Entry

set_option autoImplicit false

/-! # The way through bsem_down

`Core.down_origin` says how a thread gets from one point of `bsem_down` to the next. One of the
steps of the code is not among them: after `sleep` the loop starts over with `acquire`, but `sleep`
has come back with the lock, so that `acquire` panics. A thread that has waited for a semaphore
never gets it and never returns. -/

namespace Xv6

open Function List Machine

/-- The steps inside `bsem_down`, on a table `m`. -/
inductive DownNext (m : Mem) (me : ThreadRef) (d : BIdx) : BsemDownPc → BsemDownPc → Prop where
  | locked : DownNext m me d .acquire .test
  | freed (h : (m.bsems d).descriptor = -1) : DownNext m me d .test .release
  | took (hd : (m.bsems d).descriptor ≠ -1) (hv : (m.bsems d).value = 1) :
      DownNext m me d .test .release
  | placed (hd : (m.bsems d).descriptor ≠ -1) (hv : (m.bsems d).value ≠ 1)
      (line : Fin NUM_OF_THREADS → Option ThreadRef)
      (hline : placeThreadInLine (m.bsems d).threads me = some line) :
      DownNext m me d .test .sleep
  | slept : DownNext m me d .sleep .slept
  | released : DownNext m me d .release .done

/-- The system call that the thread is about to make. -/
def calls (s : KState) (c : CpuId) : Option Syscall :=
  match s.top c with
  | some (.usertrap me .call) => some (decode ((s.mem.procs me.p).frames me.i))
  | _ => none

/-- Cpu `c` is about to call `bsem_down` on `d`. -/
def callsDown (s : KState) (c : CpuId) (d : BIdx) : Bool :=
  match calls s c with
  | some (.bsemDown n) => bsemIdx n = some d
  | _ => false

section

variable {s s' : KState} {c : CpuId} {e : Env} {d : BIdx} {t me : ThreadRef} {f k : Frame}
  {st below : List Frame} {pc : BsemDownPc} {v : KView}

theorem down_next (hs : Follows f (.bsemDown t d pc))
    (hk : (code v f).next = some (.bsemDown t d pc)) :
    ∃ pc0, f = .bsemDown t d pc0 ∧ (DownNext v.mem t d pc0 pc ∨ pc0 = .slept) := by
  obtain ⟨hidx⟩ := hs
  cases f with
  | bsemDown me0 d0 pc0 =>
    cases pc0 with
    | acquire =>
      cases hk
      exact ⟨_, rfl, .inl .locked⟩
    | test =>
      simp only [code, bsemDownCode] at hk
      split at hk
      · next h =>
        cases hk
        exact ⟨_, rfl, .inl (.freed h)⟩
      split at hk
      · next hd hv =>
        cases hk
        exact ⟨_, rfl, .inl (.took hd hv)⟩
      split at hk
      · cases hk
      next hd hv _ line hline =>
      cases hk
      exact ⟨_, rfl, .inl (.placed hd hv line hline)⟩
    | slept =>
      cases hk
      exact ⟨_, rfl, .inr rfl⟩
    | release =>
      cases hk
      exact ⟨_, rfl, .inl .released⟩
    | sleep | done => cases hk
  | _ => cases hidx

theorem syscallFrame_down {call : Syscall} (h : syscallFrame me call = .bsemDown t d pc) :
    me = t ∧ pc = .acquire ∧ ∃ n, call = .bsemDown n ∧ bsemIdx n = some d := by
  cases call with
  | bsemDown n =>
    simp only [syscallFrame] at h
    cases hn : bsemIdx n with
    | none =>
      rw [hn] at h
      cases h
    | some d0 =>
      rw [hn] at h
      cases h
      exact ⟨rfl, rfl, n, rfl, hn⟩
  | bsemFree n | bsemUp n =>
    simp only [syscallFrame] at h
    cases hn : bsemIdx n with
    | none | some d0 =>
      rw [hn] at h
      cases h
  | _ => cases h

theorem call_down (hs : Follows f k) (ha : k.awaits .syscall)
    (hk : code v f = .call (.bsemDown t d pc) k) :
    f = .usertrap t .call ∧ pc = .acquire ∧
      ∃ n, decode ((v.mem.procs t.p).frames t.i) = .bsemDown n ∧ bsemIdx n = some d := by
  obtain ⟨me, rfl⟩ := awaits_syscall ha
  have hidx : (Frame.usertrap me .returned).ctorIdx = f.ctorIdx := by
    cases hs with
    | same h => exact h
  cases f with
  | usertrap me0 pc0 =>
    cases pc0 with
    | call =>
      obtain ⟨rfl, hpc, hn⟩ := syscallFrame_down (Instr.call.inj hk).1
      exact ⟨rfl, hpc, hn⟩
    | start cause =>
      simp only [code, usertrapCode, devintr] at hk
      repeat' split at hk
      all_goals cases hk
    | after timer =>
      simp only [code, usertrapCode] at hk
      repeat' split at hk
      all_goals cases hk
    | _ => cases hk
  | _ => cases hidx

theorem down_waits {g : Frame} (hs : Follows f (.bsemDown t d pc))
    (hk : code v f = .call g (.bsemDown t d pc)) : f = .bsemDown t d .sleep ∧ pc = .slept := by
  obtain ⟨hidx⟩ := hs
  cases f with
  | bsemDown me0 d0 pc0 =>
    cases pc0 with
    | sleep =>
      cases (Instr.call.inj hk).2
      exact ⟨rfl, rfl⟩
    | test =>
      simp only [code, bsemDownCode] at hk
      repeat' split at hk
      all_goals cases hk
    | _ => cases hk
  | _ => cases hidx

theorem resume_down {r : Int} (hk : resumeFrame k r = .bsemDown t d pc) : k = .bsemDown t d pc := by
  cases k with
  | usertrap _ pc0 | exit _ _ pc0 | exec _ pc0 => cases pc0 <;> cases hk
  | _ => exact hk

/-- **Where a thread is in `bsem_down`**: it was there before, has just called it, or has gone on
    from the point before. -/
theorem Core.down_origin (h : Core s) (hadv : Advances s c s') (hstep : Step kernel s c e s')
    (hv : Valid s' t st) (hf : .bsemDown t d pc ∈ st) :
    (∃ st0, Valid s t st0 ∧ .bsemDown t d pc ∈ st0) ∨
      On s c t ∧ ((pc = .acquire ∧ callsDown s c d = true) ∨
        ∃ pc0 below, s.Runs c (.bsemDown t d pc0) below ∧ DownNext s.mem t d pc0 pc) := by
  rcases h.stack_origin hadv hstep hv with ⟨hv0, -⟩ | ⟨rfl, -⟩ | ⟨hon, hst⟩
  · exact .inl ⟨st, hv0, hf⟩
  · cases mem_singleton.1 hf
  have hold : .bsemDown t d pc ∈ s.active c → ∃ st0, Valid s t st0 ∧ .bsemDown t d pc ∈ st0 :=
    fun hmem => ⟨_, .on c hon, hmem⟩
  cases hst with
  | same => exact .inl (hold hf)
  | trap ha hcur ht =>
    obtain ⟨cause, regs, rfl, rfl⟩ := trapEntry_some ht
    cases mem_singleton.1 hf
  | irq hr hi hq =>
    obtain ⟨cause, -, rfl⟩ := Option.map_eq_some_iff.1 hq
    rcases mem_cons.1 hf with hf | hf
    · cases hf
    · exact .inl (hold (hr.active ▸ hf))
  | next hr hk hl =>
    rcases mem_cons.1 hf with rfl | hf
    · have hok := (h.locked.cpu c).instrOk (i := e) kernel_disciplined hr rfl
      obtain ⟨pc0, rfl, hnext | rfl⟩ := down_next (hok.next hk).follows hk
      · exact .inr ⟨hon, .inr ⟨pc0, _, hr, hnext⟩⟩
      -- the second `acquire` does not get through
      have hheld := h.lock (l := .bsem d) hr.active (by simp)
      cases (hl _ _ rfl).symm.trans hheld
    · exact .inl (hold (hr.active ▸ mem_cons_of_mem _ hf))
  | @call f g k below hr hk =>
    have hok := (h.locked.cpu c).instrOk kernel_disciplined hr hk
    obtain ⟨hs, -, -, hentry, hadj, hisr, -⟩ := hok
    rcases mem_cons.1 hf with rfl | hf
    · obtain ⟨rfl, hpc, n, hdec, hn⟩ := call_down hs.follows (hadj.resolve_left hisr) hk
      refine .inr ⟨hon, .inl ⟨hpc, ?_⟩⟩
      simp only [callsDown, calls, hr.top]
      rw [show decode ((s.mem.procs t.p).frames t.i) = .bsemDown n from hdec]
      exact decide_eq_true hn
    rcases mem_cons.1 hf with rfl | hf
    · obtain ⟨rfl, rfl⟩ := down_waits hs.follows hk
      exact .inr ⟨hon, .inr ⟨.sleep, below, hr, .slept⟩⟩
    · exact .inl (hold (hr.active ▸ mem_cons_of_mem _ hf))
  | ret hr hk =>
    rcases mem_cons.1 hf with hf | hf
    · obtain rfl := resume_down hf.symm
      exact .inl (hold (hr.active ▸ mem_cons_of_mem _ (mem_cons_self ..)))
    · exact .inl (hold (hr.active ▸ mem_cons_of_mem _ (mem_cons_of_mem _ hf)))
  | iret hr hk => exact .inl (hold (hr.active ▸ mem_cons_of_mem _ hf))
  | userret => cases hf

end

/-! ## The events -/

/-- The thread that takes the semaphore `d` in the next step of cpu `c`. -/
def takes (s : KState) (c : CpuId) (d : BIdx) : Option ThreadRef :=
  match s.top c with
  | some (.bsemDown me d' .test) =>
    if d' = d ∧ (s.mem.bsems d).descriptor ≠ -1 ∧ (s.mem.bsems d).value = 1 then some me else none
  | _ => none

/-- The next step of cpu `c` ups the semaphore `d`. -/
def ups (s : KState) (c : CpuId) (d : BIdx) : Bool :=
  match s.top c with
  | some (.bsemUp d' .test) => d' = d ∧ (s.mem.bsems d).descriptor ≠ -1
  | _ => false

/-- The thread that returns from `bsem_down` on `d` in the next step of cpu `c`, if it is not
    interrupted. -/
def returns (s : KState) (c : CpuId) (e : Env) (d : BIdx) : Option ThreadRef :=
  match s.top c with
  | some (.bsemDown me d' .done) =>
    if d' = d ∧ ((s.regs c).intr && e.irq.isSome) = false then some me else none
  | _ => none

section

variable {s s' : KState} {c : CpuId} {e : Env} {d : BIdx} {t me : ThreadRef} {st : List Frame}

theorem takes_runs (h : takes s c d = some me) : ∃ below, s.Runs c (.bsemDown me d .test) below ∧
    (s.mem.bsems d).descriptor ≠ -1 ∧ (s.mem.bsems d).value = 1 := by
  unfold takes at h
  split at h
  · next htop =>
    split at h
    · next hc =>
      obtain ⟨rfl, hd, hv⟩ := hc
      cases h
      obtain ⟨below, hr⟩ := State.runs_of_top htop
      exact ⟨below, hr, hd, hv⟩
    · cases h
  · cases h

theorem takes_eq {below : List Frame} (hr : s.Runs c (.bsemDown me d .test) below)
    (hd : (s.mem.bsems d).descriptor ≠ -1) (hv : (s.mem.bsems d).value = 1) :
    takes s c d = some me := by
  simp [takes, hr.top, hd, hv]

theorem ups_runs (h : ups s c d = true) :
    ∃ below, s.Runs c (.bsemUp d .test) below ∧ (s.mem.bsems d).descriptor ≠ -1 := by
  unfold ups at h
  split at h
  · next htop =>
    obtain ⟨rfl, hd⟩ := of_decide_eq_true h
    obtain ⟨below, hr⟩ := State.runs_of_top htop
    exact ⟨below, hr, hd⟩
  · cases h

theorem ups_eq {below : List Frame} (hr : s.Runs c (.bsemUp d .test) below)
    (hd : (s.mem.bsems d).descriptor ≠ -1) : ups s c d = true := by
  simp [ups, hr.top, hd]

theorem returns_runs (h : returns s c e d = some me) : ∃ below, s.Runs c (.bsemDown me d .done) below := by
  unfold returns at h
  split at h
  · next htop =>
    split at h
    · next hc =>
      obtain ⟨rfl, -⟩ := hc
      cases h
      exact State.runs_of_top htop
    · cases h
  · cases h

theorem Core.take_exec (h : Core s) (ht : takes s c d = some me) :
    (exec kernel s c e).mem.bsems d = BsemAct.apply (.take me) (s.mem.bsems d) := by
  obtain ⟨below, hr, hd, hv⟩ := takes_runs ht
  have hcode : code (s.view c e) (.bsemDown me d .test) =
      .act (.bsem d (.take me)) (.bsemDown me d .release) := by
    show (if (s.mem.bsems d).descriptor = -1 then _ else _) = _
    rw [if_neg hd]
    exact if_pos hv
  rw [h.exec_held hr (by simp), hcode]
  exact update_self ..

theorem Core.up_exec (h : Core s) (hu : ups s c d = true) :
    (exec kernel s c e).mem.bsems d = BsemAct.apply .up (s.mem.bsems d) := by
  obtain ⟨below, hr, hd⟩ := ups_runs hu
  have hcode : code (s.view c e) (.bsemUp d .test) = .act (.bsem d .up) (.bsemUp d .wake) :=
    if_neg hd
  rw [h.exec_held hr (by simp), hcode]
  exact update_self ..

theorem bsem_keeps (hstep : Step kernel s c e s') (ht : takes s c d = none)
    (hu : ups s c d = false) (hf : ∀ below, ¬ s.Runs c (.bsemFree d .test) below)
    (hv : (s.mem.bsems d).value ≠ -1) :
    (s'.mem.bsems d).value = (s.mem.bsems d).value ∧
      (s'.mem.bsems d).currentThread = (s.mem.bsems d).currentThread ∧
      (s'.mem.bsems d).descriptor = (s.mem.bsems d).descriptor := by
  cases bsem_of_step hstep d with
  | same h | place _ _ _ _ _ _ _ _ _ h => rw [h]; exact ⟨rfl, rfl, rfl⟩
  | alloc _ _ hv' => exact absurd hv' hv
  | free below hr => exact absurd hr (hf below)
  | take me below hr hd hv => cases ht.symm.trans (takes_eq hr hd hv)
  | up below hr hd => cases hu.symm.trans (ups_eq hr hd)

end

section

variable {s s' : KState} {c : CpuId} {e : Env} {d : BIdx} {t : ThreadRef} {st : List Frame}
  {pc : BsemDownPc}

/-- A thread past the test of `bsem_down` was past it before, takes the semaphore now, or finds that
    it is not allocated. -/
theorem Core.past_origin (h : Core s) (hadv : Advances s c s') (hstep : Step kernel s c e s')
    (hv : Valid s' t st) (hf : .bsemDown t d pc ∈ st) (hpc : pc = .release ∨ pc = .done) :
    (∃ st0 pc0, Valid s t st0 ∧ .bsemDown t d pc0 ∈ st0 ∧ (pc0 = .release ∨ pc0 = .done)) ∨
      takes s c d = some t ∨
      ∃ below, s.Runs c (.bsemDown t d .test) below ∧ (s.mem.bsems d).descriptor = -1 := by
  rcases h.down_origin hadv hstep hv hf with ⟨st0, hv0, hf0⟩ | ⟨hon, ⟨rfl, -⟩ | ⟨pc0, below, hr, hn⟩⟩
  · exact .inl ⟨st0, pc, hv0, hf0, hpc⟩
  · rcases hpc with hpc | hpc <;> cases hpc
  cases hn with
  | freed hd => exact .inr (.inr ⟨below, hr, hd⟩)
  | took hd hv => exact .inr (.inl (takes_eq hr hd hv))
  | released =>
    refine .inl ⟨_, .release, .on c hon, ?_, .inl rfl⟩
    rw [hr.active]
    exact mem_cons_self ..
  | locked | placed | slept => rcases hpc with hpc | hpc <;> cases hpc

end

end Xv6
