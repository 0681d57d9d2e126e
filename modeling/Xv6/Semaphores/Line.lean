import Xv6.Semaphores.Down
import Xv6.Threads.Joining

set_option autoImplicit false

/-! # The line of a semaphore

`threads[]` of a semaphore lists the threads that wait for it: `bsem_down` puts a thread there
before it sleeps, and takes it out again when it gets the semaphore. A thread that sleeps in
`bsem_down` stays there whatever happens around it: `sleep` comes back to it (`Core.at_step`), and
the second `acquire` of the lock that `sleep` has come back with does not get it any further. -/

namespace Xv6

open Function List Machine Option

/-- The part of `bsem_down` in which the thread waits. -/
def BsemDownPc.waits : BsemDownPc → Bool
  | .sleep | .slept => true
  | _ => false

/-- Thread `t` waits in `bsem_down` for the semaphore `d`. -/
def WaitsFor (s : KState) (t : ThreadRef) (d : BIdx) : Prop :=
  ∃ st pc, Valid s t st ∧ .bsemDown t d pc ∈ st ∧ pc.waits = true

/-- The thread that is put in the line of `d` in the next step of cpu `c`. -/
def places (s : KState) (c : CpuId) (d : BIdx) : Option ThreadRef :=
  match s.top c with
  | some (.bsemDown me d' .test) =>
    if d' = d ∧ (s.mem.bsems d).descriptor ≠ -1 ∧ (s.mem.bsems d).value ≠ 1 ∧
      (placeThreadInLine (s.mem.bsems d).threads me).isSome = true then some me else none
  | _ => none

section

variable {s s' : KState} {c : CpuId} {e : Env} {d : BIdx} {t me : ThreadRef} {f k : Frame}
  {st below pre rest : List Frame} {pc : BsemDownPc} {v : KView}

/-! ## Waiting goes on -/

theorem bsemDown_calm : (Frame.bsemDown t d pc).Calm where
  awaits := fun x hx => by
    cases pc with
    | slept =>
      cases x with
      | sleep => rfl
      | _ => cases hx
    | _ => cases hx
  sane := rfl

theorem WaitsFor.at (hw : WaitsFor s t d) (hlive : (s.mem.table.slot t).state.dead = false) :
    ∃ pc rest, At s t (.bsemDown t d pc) rest ∧ pc.waits = true := by
  obtain ⟨st, pc, hv, hmem, hpc⟩ := hw
  obtain ⟨pre, rest, rfl⟩ := append_of_mem hmem
  exact ⟨pc, rest, ⟨⟨pre, hv⟩, hlive⟩, hpc⟩

theorem At.waitsFor (hat : At s t (.bsemDown t d pc) rest) (hpc : pc.waits = true) : WaitsFor s t d := by
  obtain ⟨pre, hv⟩ := hat.stack
  exact ⟨_, pc, hv, by simp, hpc⟩

/-- **A thread that waits goes on waiting.** -/
theorem Core.waits_stays (h : Core s) (hadv : Advances s c s') (hstep : Step kernel s c e s')
    (hw : WaitsFor s t d) (hlive : (s.mem.table.slot t).state.dead = false) :
    WaitsFor s' t d ∧ (s'.mem.table.slot t).state.dead = false := by
  obtain ⟨pc, rest, hat, hpc⟩ := hw.at hlive
  rcases h.at_step hadv hstep bsemDown_calm hat with hat' | ⟨hr, hcur, hs⟩
  · exact ⟨hat'.waitsFor hpc, hat'.live⟩
  cases pc with
  | sleep =>
    -- it calls `sleep`
    have hact : s'.active c = .sleep t (.bsem d) (.bsem d) .acquire :: .bsemDown t d .slept ::
        rest := by
      rw [hs]
      exact execInstr_call
    have hsleep := hadv.core.at_top hact (by rw [hs]; exact hcur) rfl
    obtain ⟨pre, hv⟩ := hsleep.stack
    exact ⟨⟨_, .slept, hv, by simp, rfl⟩, hsleep.live⟩
  | slept =>
    -- it has the lock already
    have hheld := h.lock (l := .bsem d) hr.active (by simp)
    have hhalt : s' = s.halt c "acquire" := by
      rw [hs]
      show execInstr kernel s c rest (.acquire (.bsem d) (.bsemDown t d .test)) = _
      simp [execInstr, hheld]
    have hact : s'.active c = .bsemDown t d .slept :: rest := by
      rw [hhalt]
      exact hr.active
    have hat' := hadv.core.at_top hact (by rw [hhalt]; exact hcur) rfl
    exact ⟨hat'.waitsFor rfl, hat'.live⟩
  | _ => cases hpc

/-! ## The list -/

theorem places_runs (h : places s c d = some me) : ∃ below line,
    s.Runs c (.bsemDown me d .test) below ∧ (s.mem.bsems d).descriptor ≠ -1 ∧
      (s.mem.bsems d).value ≠ 1 ∧ placeThreadInLine (s.mem.bsems d).threads me = some line := by
  unfold places at h
  split at h
  · next htop =>
    split at h
    · next hc =>
      obtain ⟨rfl, hd, hv, hline⟩ := hc
      cases h
      obtain ⟨below, hr⟩ := State.runs_of_top htop
      obtain ⟨line, hline⟩ := isSome_iff_exists.1 hline
      exact ⟨below, line, hr, hd, hv, hline⟩
    · cases h
  · cases h

theorem places_eq {line : Fin NUM_OF_THREADS → Option ThreadRef}
    (hr : s.Runs c (.bsemDown me d .test) below) (hd : (s.mem.bsems d).descriptor ≠ -1)
    (hv : (s.mem.bsems d).value ≠ 1)
    (hline : placeThreadInLine (s.mem.bsems d).threads me = some line) :
    places s c d = some me := by
  simp [places, hr.top, hd, hv, hline]

theorem Core.waits_origin (h : Core s) (hadv : Advances s c s') (hstep : Step kernel s c e s')
    (hw : WaitsFor s' t d) : WaitsFor s t d ∨ places s c d = some t := by
  obtain ⟨st, pc, hv, hmem, hpc⟩ := hw
  rcases h.down_origin hadv hstep hv hmem with ⟨st0, hv0, hmem0⟩ |
    ⟨hon, ⟨rfl, -⟩ | ⟨pc0, below, hr, hn⟩⟩
  · exact .inl ⟨st0, pc, hv0, hmem0, hpc⟩
  · cases hpc
  cases hn with
  | placed hd hv line hline => exact .inr (places_eq hr hd hv hline)
  | slept =>
    refine .inl ⟨_, .sleep, .on c hon, ?_, rfl⟩
    rw [hr.active]
    exact mem_cons_self ..
  | _ => cases hpc

theorem Core.test_not_waits (h : Core s) (hr : s.Runs c (.bsemDown me d .test) below) : ¬ WaitsFor s me d := by
  rintro ⟨st, pc, hv, hmem, hpc⟩
  obtain ⟨me', rfl⟩ := h.syscall_under hr.active rfl
  rw [h.valid_unique hv (.on c (.ofTop hr.active (h.mine hr.active) rfl)), hr.active] at hmem
  rcases mem_cons.1 hmem with hf | hf
  · cases hf
    cases hpc
  · cases mem_singleton.1 hf

theorem Core.place_exec (h : Core s) (hp : places s c d = some me) :
    ∃ i, (s.mem.bsems d).threads i = none ∧
      ((exec kernel s c e).mem.bsems d).threads =
        update (s.mem.bsems d).threads i (some me) ∧
      ∃ below, (exec kernel s c e).active c = .bsemDown me d .sleep :: below ∧
        (exec kernel s c e).cur c = some me := by
  obtain ⟨below, line, hr, hd, hv, hline⟩ := places_runs hp
  have hcode : code (s.view c e) (.bsemDown me d .test) =
      .act (.bsem d (.place me)) (.bsemDown me d .sleep) := by
    simp [code, bsemDownCode, State.view, hd, hv, hline]
  obtain ⟨i, hfind, rfl⟩ := map_eq_some_iff.1 hline
  rw [h.exec_held hr (by simp), hcode]
  have hempty := find?_some hfind
  refine ⟨i, of_decide_eq_true hempty, ?_, below, update_self .., h.mine hr.active⟩
  show (update s.mem.bsems d _ d).threads = _
  rw [update_self]
  simp [BsemAct.apply, hline]

theorem removeCurrentThread_absent {threads : Fin NUM_OF_THREADS → Option ThreadRef}
    (h : ∀ i, threads i ≠ some me) : removeCurrentThread threads me = threads := by
  have hnone : (List.finRange NUM_OF_THREADS).find? (fun i => threads i = some me) = none := by
    simp [h]
  simp only [removeCurrentThread, hnone]

/-- The list has the threads that wait, each once. -/
structure Lined (s : KState) (d : BIdx) : Prop where
  live : ∀ t, WaitsFor s t d → (s.mem.table.slot t).state.dead = false
  listed : ∀ t, WaitsFor s t d → ∃ i, (s.mem.bsems d).threads i = some t
  waits : ∀ i t, (s.mem.bsems d).threads i = some t → WaitsFor s t d
  once : ∀ i j t, (s.mem.bsems d).threads i = some t → (s.mem.bsems d).threads j = some t → i = j

theorem Lined.threads_stay (hl : Lined s d) (h : Core s) (hstep : Step kernel s c e s')
    (hp : places s c d = none) : (s'.mem.bsems d).threads = (s.mem.bsems d).threads := by
  cases bsem_of_step hstep d with
  | same h' => rw [h']
  | alloc _ _ _ h' | free _ _ _ _ h' | up _ _ _ _ h' =>
    rw [h']
    rfl
  | take me below hr _ _ _ h' =>
    rw [h']
    exact removeCurrentThread_absent fun i hi => h.test_not_waits hr (hl.waits i me hi)
  | place me below hr hd hv _ _ line hline =>
    cases hp.symm.trans (places_eq hr hd hv hline)

/-- **The list keeps up with the threads that wait.** -/
theorem Lined.step (hl : Lined s d) (h : Core s) (hadv : Advances s c (exec kernel s c e)) :
    Lined (exec kernel s c e) d := by
  have hstays : ∀ {t}, WaitsFor s t d → WaitsFor (exec kernel s c e) t d ∧
      ((exec kernel s c e).mem.table.slot t).state.dead = false := fun hw =>
    h.waits_stays hadv exec_step hw (hl.live _ hw)
  cases hp : places s c d with
  | none =>
    have hthreads := hl.threads_stay (e := e) h exec_step hp
    have hback : ∀ {t}, WaitsFor (exec kernel s c e) t d → WaitsFor s t d := by
      intro t hw
      rcases h.waits_origin hadv exec_step hw with hw | hp'
      · exact hw
      · cases hp.symm.trans hp'
    refine ⟨fun t hw => (hstays (hback hw)).2, fun t hw => ?_, fun i t hi => ?_, ?_⟩
    · rw [hthreads]
      exact hl.listed t (hback hw)
    · rw [hthreads] at hi
      exact (hstays (hl.waits i t hi)).1
    · rw [hthreads]
      exact hl.once
  | some me =>
    obtain ⟨i, hi, hthreads, below', hact, hcur⟩ := h.place_exec (e := e) hp
    obtain ⟨below, line, hr, -⟩ := places_runs hp
    have hon : On (exec kernel s c e) c me := .ofTop hact hcur rfl
    have hnew : WaitsFor (exec kernel s c e) me d := by
      refine ⟨_, .sleep, .on c hon, ?_, rfl⟩
      rw [hact]
      exact mem_cons_self ..
    -- the thread was not in the line before
    have hnot : ∀ j, (s.mem.bsems d).threads j ≠ some me := fun j hj =>
      h.test_not_waits hr (hl.waits j me hj)
    have hback : ∀ {t}, WaitsFor (exec kernel s c e) t d → WaitsFor s t d ∨ t = me := by
      intro t hw
      refine (h.waits_origin hadv exec_step hw).imp_right fun hp' => ?_
      exact some.inj (hp'.symm.trans hp)
    have hentry : ∀ {j t}, ((exec kernel s c e).mem.bsems d).threads j = some t →
        j = i ∧ t = me ∨ j ≠ i ∧ (s.mem.bsems d).threads j = some t := by
      intro j t hj
      rw [hthreads, update_apply] at hj
      split at hj
      · next hji => exact .inl ⟨hji, (some.inj hj).symm⟩
      · next hji => exact .inr ⟨hji, hj⟩
    refine ⟨fun t hw => ?_, fun t hw => ?_, fun j t hj => ?_, fun j k t hj hk => ?_⟩
    · rcases hback hw with hw | rfl
      · exact (hstays hw).2
      have hst : ((exec kernel s c e).mem.table.slot t).state = .running :=
        hadv.core.top_state hact hcur rfl
      rw [hst]
      rfl
    · rw [hthreads]
      rcases hback hw with hw | rfl
      · obtain ⟨j, hj⟩ := hl.listed t hw
        refine ⟨j, ?_⟩
        rw [update_of_ne (fun hji => by rw [hji, hi] at hj; exact nomatch hj)]
        exact hj
      · exact ⟨i, update_self ..⟩
    · rcases hentry hj with ⟨-, rfl⟩ | ⟨-, hj⟩
      · exact hnew
      · exact (hstays (hl.waits j t hj)).1
    rcases hentry hj with ⟨rfl, rfl⟩ | ⟨-, hj⟩ <;> rcases hentry hk with ⟨rfl, hkm⟩ | ⟨-, hk⟩
    · rfl
    · exact absurd hk (hnot k)
    · exact absurd (hkm ▸ hj) (hnot j)
    · exact hl.once j k t hj hk

end

/-- **The list of a semaphore has the threads that wait for it, each once**; so a thread for which
    there is no room finds `NUM_OF_THREADS` others in it. -/
theorem bsem_line {g : Pages} (hg : g.ok = true) (um : UserMem) {b : BIdx → Bsem} {d : BIdx}
    (hb : ∀ i, (b d).threads i = none) (tr : List (CpuId × Env))
    (h : ReapsZombies (bootWith b g um) tr) :
    let s := run kernel (bootWith b g um) tr
    (∀ t, WaitsFor s t d ↔ ∃ i, (s.mem.bsems d).threads i = some t) ∧
      (∀ i j t, (s.mem.bsems d).threads i = some t → (s.mem.bsems d).threads j = some t → i = j) ∧
      ∀ c e me msg, s.top c = some (.bsemDown me d .test) →
        code (s.view c e) (.bsemDown me d .test) = .panic msg →
        ∃ f : Fin NUM_OF_THREADS → ThreadRef, Function.Injective f ∧
          ∀ i, WaitsFor s (f i) d ∧ f i ≠ me := by
  intro s
  have hboot : Lined (bootWith b g um) d := by
    have hnone : ∀ t, ¬ WaitsFor (bootWith b g um) t d := fun t ⟨_, _, hv, hmem, _⟩ =>
      nomatch bootWith_frame hg um hv hmem
    refine ⟨fun t hw => absurd hw (hnone t), fun t hw => absurd hw (hnone t), fun i t hi => ?_,
      fun i j t hi _ => ?_⟩
    · cases (hb i).symm.trans hi
    · cases (hb i).symm.trans hi
  obtain ⟨hcore, hl⟩ : Core s ∧ Lined s d := h.invariant (fun s => Core s ∧ Lined s d)
    ⟨bootWith_core hg um b, hboot⟩ fun s c e hreap ⟨hcore, hl⟩ => by
      have hadv := hcore.step (e := e) hreap exec_step
      exact ⟨hadv.core, hl.step hcore hadv⟩
  refine ⟨fun t => ⟨hl.listed t, fun ⟨i, hi⟩ => hl.waits i t hi⟩, hl.once, ?_⟩
  intro c e me msg htop hpanic
  obtain ⟨below, hr⟩ := State.runs_of_top htop
  -- the code panics only if every entry is taken
  have hfull : ∀ i, ∃ t, (s.mem.bsems d).threads i = some t := by
    simp only [code, bsemDownCode] at hpanic
    split at hpanic
    · cases hpanic
    split at hpanic
    · cases hpanic
    split at hpanic
    · next hnone =>
      intro i
      have hfind := List.find?_eq_none.1 (map_eq_none_iff.1 hnone) i (mem_finRange i)
      exact ne_none_iff_exists'.1 (of_decide_eq_false (Bool.eq_false_iff.2 hfind))
    · cases hpanic
  choose f hf using hfull
  refine ⟨f, fun i j hij => ?_, fun i => ⟨hl.waits i _ (hf i), ?_⟩⟩
  · exact hl.once i j (f i) (hf i) (hij ▸ hf j)
  · rintro hme
    exact hcore.test_not_waits hr (hl.waits i me (hme ▸ hf i))

/-- In `downTwice` the second thread waits, and the first does not. -/
theorem bsem_line_two :
    let s := run kernel (bootWith oneBsem firstPages fun _ => none) downTwice
    WaitsFor s ⟨0, 1⟩ 0 ∧ ¬ WaitsFor s ⟨0, 0⟩ 0 := by
  obtain ⟨hline, -⟩ := bsem_line (g := firstPages) rfl (fun _ => none) (b := oneBsem) (d := 0)
    (fun _ => rfl) downTwice (by decide +kernel)
  have hfirst := mt (hline ⟨0, 0⟩).1 (by decide +kernel)
  exact ⟨(hline ⟨0, 1⟩).2 (by decide +kernel), hfirst⟩

end Xv6
