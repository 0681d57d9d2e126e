import Xv6.Semaphores.Entry

set_option autoImplicit false

/-! # No waiter of a semaphore is stranded

A thread that is committed to sleep on a semaphore has found it taken, and it stays taken until a
`bsem_up` that has yet to finish its wake-up (`Waits`). `bsem_free` leaves a semaphore that is taken
alone. So once the semaphore's lock is free, nobody sleeps on a semaphore that can be taken or that
has been freed. -/

namespace Xv6

open Machine

/-- A `bsem_up` on `d` that has set the value and not been through its wake-up. -/
def Upping (s : KState) (d : BIdx) : Prop :=
  ∃ c rest, s.active c = .bsemUp d .wake :: rest ∨
    ∃ pc, s.active c = .wakeup (.bsem d) pc :: .bsemUp d .release :: rest

/-- The semaphore `d` is taken, or will be once the waiters are woken up, whenever a thread is
    committed to sleep on it. -/
structure Waits (s : KState) (d : BIdx) : Prop where
  value : (s.mem.bsems d).value = 0 ∨ (s.mem.bsems d).value = 1
  taken : ∀ t id, Commits s t (.bsem d) id →
    ((s.mem.bsems d).value = 0 ∧ (s.mem.bsems d).descriptor ≠ -1) ∨ Upping s d

section

variable {s s' : KState} {c : CpuId} {e : Env} {d : BIdx} {t : ThreadRef} {id : Option Int}

theorem Upping.lock (hu : Upping s d) (h : Core s) : ∃ c, s.lock (.bsem d) = some c := by
  obtain ⟨c, rest, hact | ⟨pc, hact⟩⟩ := hu
  · exact ⟨c, h.lock hact (by simp)⟩
  refine ⟨c, ?_⟩
  rw [(h.locked.cpu c).lock, hact, Discipline.total_cons]
  refine Multiset.mem_add.2 (.inr (Multiset.mem_add.2 (.inl ?_)))
  simp [locking]

theorem Upping.step (hu : Upping s d) (h : Core s) (hw : Woken s) (hstep : Step kernel s c e s') :
    Upping s' d ∨ ∀ t id, ¬ Commits s t (.bsem d) id := by
  obtain ⟨c0, rest, hact⟩ := hu
  by_cases hne : c0 = c
  · subst hne
    rcases hact with hact | ⟨pc, hact⟩
    · have hi := h.intr_off (h.lock (l := .bsem d) hact (by simp))
      rcases hstep.instr hact hi with rfl | ⟨msg, rfl⟩ | ⟨hr, rfl⟩
      · exact .inl ⟨c0, rest, .inl hact⟩
      · exact .inl ⟨c0, rest, .inl hact⟩
      · exact .inl ⟨c0, rest, .inr ⟨.acquire 0, Function.update_self ..⟩⟩
    have hlock : s.lock (.bsem d) = some c0 := by
      rw [(h.locked.cpu c0).lock, hact, Discipline.total_cons]
      refine Multiset.mem_add.2 (.inr (Multiset.mem_add.2 (.inl ?_)))
      simp [locking]
    have hon : WokenOn s (.bsem d) (.bsem d) := fun c pc rest hact => hw c _ pc rest _ hact rfl
    rcases hon.progress h hstep hact hlock with hact' | hnone
    · exact .inl ⟨c0, rest, .inr hact'⟩
    · exact .inr hnone
  have hsame := (hstep.other hne).active
  rw [← hsame] at hact
  exact .inl ⟨c0, rest, hact⟩

/-- **The waiters stay waited for**: every step keeps it so. -/
theorem Waits.step (hd : Waits s d) (h : Core s) (hw : Woken s) (hadv : Advances s c s')
    (hstep : Step kernel s c e s') : Waits s' d where
  value := by
    cases bsem_of_step hstep d with
    | same h' | free _ _ _ _ h' | place _ _ _ _ _ _ _ _ _ h' => rw [h']; exact hd.value
    | alloc _ _ _ h' | up _ _ _ _ h' => rw [h']; exact .inr rfl
    | take _ _ _ _ _ _ h' => rw [h']; exact .inl rfl
  taken := by
    intro t id hc'
    rcases h.commits_origin hadv hstep hc' with hc | ⟨-, f, below, hr, henter⟩
    · rcases hd.taken t id hc with ⟨hv, hdesc⟩ | hu
      · cases bsem_of_step hstep d with
        | same h' | place _ _ _ _ _ _ _ _ _ h' => rw [h']; exact .inl ⟨hv, hdesc⟩
        | alloc _ _ hv' | take _ _ _ _ hv' => omega
        | free _ _ _ hv' => exact absurd hv hv'
        | up below _ _ hact => exact .inr ⟨c, below, .inl hact⟩
      · exact (hu.step h hw hstep).elim .inr fun hnone => absurd hc (hnone t id)
    -- the thread has just found the semaphore taken
    cases henter with
    | bsem me d hdesc hv =>
      have hv0 := hd.value.resolve_right hv
      cases bsem_of_step hstep d with
      | same h' | place _ _ _ _ _ _ _ _ _ h' => rw [h']; exact .inl ⟨hv0, hdesc⟩
      | alloc _ _ hv' => omega
      | free _ _ _ hv' => exact absurd hv0 hv'
      | take _ _ _ _ hv' => exact absurd hv' hv
      | up _ hr' => cases (List.cons.inj (hr.active.symm.trans hr'.active)).1

end

/-- **No waiter is stranded.** Whatever the threads do with the semaphore, once its lock is free and
    it can be taken or is not allocated any more, no thread sleeps on it. -/
theorem bsem_none_stranded {g : Pages} (hg : g.ok = true) (um : UserMem) {b : BIdx → Bsem}
    {d : BIdx} (hv : (b d).value = 0 ∨ (b d).value = 1) {tr : List (CpuId × Env)}
    (h : ReapsZombies (bootWith b g um) tr)
    (hlock : (run kernel (bootWith b g um) tr).lock (.bsem d) = none)
    (hfree : ((run kernel (bootWith b g um) tr).mem.bsems d).value = 1 ∨
      ((run kernel (bootWith b g um) tr).mem.bsems d).descriptor = -1) (t : ThreadRef) :
    ¬ (((run kernel (bootWith b g um) tr).mem.thread t).state = .sleeping ∧
      ((run kernel (bootWith b g um) tr).mem.thread t).chan = .bsem d) := by
  rintro ⟨hst, hchan⟩
  obtain ⟨hcore, hsl, -, hwaits⟩ := h.invariant (fun s => Core s ∧ Sleepers s ∧ Woken s ∧ Waits s d)
    ⟨bootWith_core hg um b, bootWith_sleepers hg um b, bootWith_woken b g um, hv,
      fun _ _ hc => absurd hc (bootWith_commits hg um b)⟩
    fun s c e hreap ⟨hcore, hsl, hw, hwaits⟩ => by
      have hadv := hcore.step (e := e) hreap exec_step
      exact ⟨hadv.core, hsl.step hcore hadv exec_step, hw.step hcore hsl hadv exec_step,
        hwaits.step hcore hw hadv exec_step⟩
  obtain ⟨id, hc⟩ := hsl t hst
  rw [hchan] at hc
  rcases hwaits.taken t id hc with ⟨hv0, hdesc⟩ | hu
  · rcases hfree with hv1 | hd
    · omega
    · exact hdesc hd
  · obtain ⟨c, hl⟩ := hu.lock hcore
    cases hlock.symm.trans hl

/-- The waiter of `downTwice` is not asleep any more after the `bsem_up`. -/
theorem bsem_none_stranded_two :
    let s := run kernel (bootWith oneBsem firstPages fun _ => none)
      (downTwice ++ ecall 0 32 0 0 :: steps 0 215)
    ¬ ((s.mem.thread ⟨0, 1⟩).state = .sleeping ∧ (s.mem.thread ⟨0, 1⟩).chan = .bsem 0) :=
  bsem_none_stranded rfl _ (by decide) (by decide +kernel) (by decide +kernel) (by decide +kernel) _

end Xv6
