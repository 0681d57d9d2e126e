import Xv6.Pipes.Pipe

set_option autoImplicit false

/-! # Who sleeps on a pipe

A reader sleeps on `nread` while the buffer is empty and a writer on `nwrite` while it is full. What
ends their waiting is done under the pipe's lock, and whoever does it owes them a `wakeup` before
the lock is free again (`Pc.owes`). `piperead` and `pipeclose` always pay. `pipewrite` does not if
it finds `pr->killed` set after it has put bytes into the buffer: that exit only releases the
lock. -/

namespace Xv6.Pipes

open Function Option Structures

variable {P T : Type}

/-- The threads that have put bytes into the buffer since they took the lock or called `wakeup`. -/
def noteBytes [DecidableEq T] (s : Pipe P T) (a : Act P T) (h : T → Bool) : T → Bool :=
  match a with
  | .run t =>
    match s.pc t with
    | .writeAcquire _ _ | .writeWake _ _ | .writeDone _ _ => update h t false
    | _ => h
  | .copyin t true => update h t true
  | _ => h

/-- A writer that finds `pr->killed` set has put nothing into the buffer. -/
def KilledEarly (proc : T → P) (s : Pipe P T) (a : Act P T) (h : T → Bool) : Prop :=
  match a with
  | .run t =>
    match s.pc t with
    | .writeKilled _ _ => s.killed (proc t) = true → h t = false
    | _ => True
  | _ => True

/-- The thread has to call `wakeup` on the channel before it releases the lock; `put` says that it
    has put bytes into the buffer. -/
def Pc.owes (put : Bool) (c : Chan) : Pc → Bool
  | writeLoop _ _ | writeKilled _ _ | writeFull _ _ | writeWake _ _ | writeCopy _ _ | writeDone _ _ =>
    put && c = .nread
  | readFor _ _ | readOut _ _ _ | readDone _ _ => c = .nwrite
  | closeWake w => c = if w then .nread else .nwrite
  | _ => false

namespace Pipe

/-- There is a reason to sleep on the channel. -/
def Awaits (s : Pipe P T) : Chan → Prop
  | .nread => s.Drained ∧ s.writeopen = true
  | .nwrite => s.Full ∧ s.readopen = true

/-- Whoever sleeps has a reason to, or is going to be woken. -/
structure Sound (s : Pipe P T) (h : T → Bool) : Prop where
  ok : s.Ok
  readopen : ∀ u n i, s.pc u = .writeLoop n i → h u = true → s.readopen = true
  asleep : ∀ u c, (s.pc u).chan = some c →
    s.Awaits c ∨ ∃ v, s.lock = some v ∧ (s.pc v).owes (h v) c = true

variable {s s' : Pipe P T} {t u : T} {k pc : Pc} {c c' : Chan} {killed b : Bool} {h h' : T → Bool}

theorem Same.awaits (hs : Same s s') : s'.Awaits c ↔ s.Awaits c := by
  cases c
  · rw [Awaits, Awaits, hs.drained, hs.writeopen]
  · rw [Awaits, Awaits, hs.full, hs.readopen]

theorem locked_chan (hk : k.locked = true) : k.chan = none := by
  cases hc : k.chan with
  | none => rfl
  | some c => cases hk.symm.trans (chan_unlocked hc)

theorem rouse_quiet (pc : Pc) : pc.rouse = pc ∨ (pc.rouse.locked = false ∧ pc.rouse.chan = none) := by
  cases pc with
  | writeSleep n i | readSleep n => exact .inr ⟨rfl, rfl⟩
  | _ => exact .inl rfl

theorem Turn.asleep (hturn : Turn s s' t k) (hk : k.chan = none) (hu : (s'.pc u).chan = some c) :
    u ≠ t ∧ (s.pc u).chan = some c := by
  have hne : u ≠ t := by
    rintro rfl
    rw [hturn.pc, hk] at hu
    cases hu
  refine ⟨hne, ?_⟩
  rcases hturn.others u hne with heq | heq
  · rwa [heq] at hu
  · rw [heq, rouse_chan] at hu
    cases hu

theorem Sound.holder (hs : Sound s h) (ht : (s.pc t).locked = true) (hu : (s.pc u).chan = some c) :
    s.Awaits c ∨ (s.pc t).owes (h t) c = true := by
  rcases hs.asleep u c hu with hw | ⟨v, hv, ho⟩
  · exact .inl hw
  · have heq := some.inj (hv.symm.trans ((hs.ok.lock t).1 ht))
    exact .inr (heq ▸ ho)

theorem Sound.held (hs : Sound s h) (hok : Ok s') (ht : (s.pc t).locked = true) (hturn : Turn s s' t k)
    (hlock : s'.lock = s.lock) (hk : k.locked = true)
    (hopen : ∀ n i, k = .writeLoop n i → h' t = true → s'.readopen = true)
    (hkeep : ∀ u c, (s'.pc u).chan = some c → s.Awaits c ∨ (s.pc t).owes (h t) c = true →
      s'.Awaits c ∨ k.owes (h' t) c = true) : Sound s' h' where
  ok := hok
  readopen := by
    intro u n i hu hput
    have heq : u = t := by
      have hl := (hok.lock u).1 (by rw [hu]; rfl)
      rw [hlock, (hs.ok.lock t).1 ht] at hl
      exact (some.inj hl).symm
    subst heq
    exact hopen n i (hturn.pc.symm.trans hu) hput
  asleep := by
    intro u c hu
    obtain ⟨-, hold⟩ := hturn.asleep (locked_chan hk) hu
    refine (hkeep u c hu (hs.holder ht hold)).imp_right fun ho => ⟨t, ?_, ?_⟩
    · rw [hlock]
      exact (hs.ok.lock t).1 ht
    · rwa [hturn.pc]

theorem Sound.quiet (hs : Sound s h) (hok : Ok s') (hlock : s'.lock = s.lock) (hsame : Same s s')
    (hpc : ∀ u, s'.pc u = s.pc u ∨ ((s'.pc u).locked = false ∧ (s'.pc u).chan = none)) : Sound s' h where
  ok := hok
  readopen := by
    intro u n i hu hput
    rw [hsame.readopen]
    rcases hpc u with heq | ⟨hl, -⟩
    · exact hs.readopen u n i (heq ▸ hu) hput
    · rw [hu] at hl
      cases hl
  asleep := by
    intro u c hu
    have hold : (s.pc u).chan = some c := by
      rcases hpc u with heq | ⟨-, hc⟩
      · rwa [heq] at hu
      · cases hc.symm.trans hu
    rw [hsame.awaits, hlock]
    refine (hs.asleep u c hold).imp_right ?_
    rintro ⟨v, hv, ho⟩
    refine ⟨v, hv, ?_⟩
    rcases hpc v with heq | ⟨hl, -⟩
    · rwa [heq]
    · have hlocked := (hok.lock v).2 (hlock.trans hv)
      cases hl.symm.trans hlocked

/-! ## The instructions -/

theorem code_release (hc : s.code killed pc = .release k) :
    (∀ b c, pc.owes b c = false) ∧ (s.Knows pc → k.chan = some c → s.Awaits c) := by
  cases pc with
  | writeBlock n i | readBlock n =>
    obtain rfl := Instr.release.inj hc
    refine ⟨fun _ _ => rfl, fun hknows hchan => ?_⟩
    cases hchan
    exact hknows
  | _ => grind [code, Pc.owes, Pc.chan]

theorem code_wakeup (hc : s.code killed pc = .wakeup c k) :
    (∀ b c', c' ≠ c → pc.owes b c' = false) ∧ ∀ n i, k ≠ .writeLoop n i := by
  cases pc <;> grind [code, Pc.owes]

theorem code_goto (hc : s.code killed pc = .goto k)
    (hkilled : ∀ n i, pc = .writeKilled n i → killed = true → b = false)
    (hopen : ∀ n i, pc = .writeLoop n i → b = true → s.readopen = true) (ho : pc.owes b c = true) :
    k.owes b c = true := by
  cases pc <;> grind [code, Pc.owes]

variable {i n : Int} {a : Act P T} {proc : T → P}

theorem goto_not_loop (hc : s.code killed pc = .goto k) : k ≠ .writeLoop n i := by
  cases pc <;> grind [code]

theorem Fresh.sound (hf : Fresh s) : Sound s h where
  ok := hf.ok
  readopen := by
    intro u n i hu
    cases (hf.pc u).symm.trans hu
  asleep := by
    intro u c hu
    rw [hf.pc u] at hu
    cases hu

/-! ## The steps -/

variable [DecidableEq T]

theorem noteBytes_entry (ha : a.entry = some (t, k)) : noteBytes s a h = h := by
  cases a <;> first | rfl | cases ha

theorem noteBytes_rouses (ha : a.rouses = true) : noteBytes s a h = h := by
  cases a <;> first | rfl | cases ha

theorem noteBytes_goto (hc : s.code (s.killed (proc t)) (s.pc t) = .goto k) : noteBytes s (.run t) h = h := by
  cases hpc : s.pc t <;> rw [hpc] at hc <;> grind [code, noteBytes]

theorem noteBytes_acquire (hc : s.code (s.killed (proc t)) (s.pc t) = .acquire (.writeLoop n i)) :
    noteBytes s (.run t) h t = false := by
  have hpc : s.pc t = .writeAcquire n i := by
    cases hpc : s.pc t <;> rw [hpc] at hc <;> grind [code]
  simp only [noteBytes, hpc, update_self]

theorem wakeup_chan (s : Pipe P T) (t : T) (c : Chan) (hk : k.chan = none)
    (hu : (((s.wakeup c).at_ t k).pc u).chan = some c') : c' ≠ c := by
  rintro rfl
  obtain ⟨hne, hold⟩ := (turn_wakeup s t c' k).asleep hk hu
  have hpc : ((s.wakeup c').at_ t k).pc u = (s.pc u).rouse := by
    show update (s.wakeup c').pc t k u = _
    rw [update_of_ne hne]
    simp only [Pipe.wakeup, Pipe.rouse, hold, decide_true, if_true]
  rw [hpc, rouse_chan] at hu
  cases hu

theorem Sound.quiet_turn (hs : Sound s h) (hok : Ok s') (hlock : s'.lock = s.lock) (hsame : Same s s')
    (hpc : s'.pc = update s.pc t k) (hk : k.locked = false) (hchan : k.chan = none) : Sound s' h := by
  refine hs.quiet hok hlock hsame fun u => ?_
  rw [hpc]
  by_cases hu : u = t
  · rw [hu, update_self]
    exact .inr ⟨hk, hchan⟩
  · exact .inl (update_of_ne hu ..)

theorem Sound.acquire {proc : T → P} (hs : Sound s h)
    (hok : Ok { s.at_ t k with lock := some t }) (hc : s.code (s.killed (proc t)) (s.pc t) = .acquire k)
    (hfree : s.lock = none) (hk : k.locked = true) :
    Sound { s.at_ t k with lock := some t } (noteBytes s (.run t) h) where
  ok := hok
  readopen := by
    intro u n i hu hput
    have heq : u = t := (some.inj ((hok.lock u).1 (by rw [hu]; rfl))).symm
    subst heq
    have hloop : k = .writeLoop n i := (turn_of_update (s := s) rfl).pc.symm.trans hu
    rw [hloop] at hc
    rw [noteBytes_acquire hc] at hput
    cases hput
  asleep := by
    intro u c hu
    have hturn : Turn s { s.at_ t k with lock := some t } t k := turn_of_update rfl
    obtain ⟨-, hold⟩ := hturn.asleep (locked_chan hk) hu
    left
    rcases hs.asleep u c hold with hw | ⟨v, hv, -⟩
    · exact (Same.awaits ⟨rfl, rfl, rfl, rfl⟩).2 hw
    · cases hfree.symm.trans hv

theorem Sound.release {proc : T → P} (hs : Sound s h) (hok : Ok { s.at_ t k with lock := none })
    (hc : s.code (s.killed (proc t)) (s.pc t) = .release k) (ht : (s.pc t).locked = true) :
    Sound { s.at_ t k with lock := none } h' where
  ok := hok
  readopen := by
    intro u n i hu _
    have hl := (hok.lock u).1 (by rw [hu]; rfl)
    cases hl
  asleep := by
    intro u c hu
    left
    refine (Same.awaits ⟨rfl, rfl, rfl, rfl⟩).2 ?_
    obtain ⟨howes, hreason⟩ := code_release hc
    by_cases heq : u = t
    · have hpc : { s.at_ t k with lock := none }.pc t = k := update_self ..
      rw [heq, hpc] at hu
      exact hreason (hs.ok.knows t) hu
    have hpc : { s.at_ t k with lock := none }.pc u = s.pc u := update_of_ne heq ..
    rw [hpc] at hu
    refine (hs.holder ht hu).resolve_right fun ho => ?_
    rw [howes] at ho
    cases ho

theorem Sound.step [DecidableEq P] (hs : Sound s h) (he : Effect proc s a s')
    (hearly : KilledEarly proc s a h) : Sound s' (noteBytes s a h) := by
  have hok := hs.ok.effect he
  cases he with
  | enter t k ha hpc =>
    obtain ⟨hk, hchan⟩ := entry_outside ha
    rw [noteBytes_entry ha]
    exact hs.quiet_turn hok rfl ⟨rfl, rfl, rfl, rfl⟩ rfl hk hchan
  | goto t k hc =>
    have hlocks := locks_of_code hc
    rw [noteBytes_goto hc]
    cases ht : (s.pc t).locked with
    | false =>
      exact hs.quiet_turn hok rfl ⟨rfl, rfl, rfl, rfl⟩ rfl (hlocks.1.trans ht) hlocks.2
    | true =>
      refine hs.held hok ht (turn_of_update rfl) rfl (hlocks.1.trans ht) ?_ ?_
      · intro n i hk
        exact absurd hk (goto_not_loop hc)
      intro u c _ hold
      refine hold.imp (Same.awaits ⟨rfl, rfl, rfl, rfl⟩).2 (code_goto hc ?_ ?_)
      · intro n i hpc
        simpa only [KilledEarly, hpc] using hearly
      · intro n i hpc
        exact hs.readopen t n i hpc
  | acquire t k hc hfree =>
    have hlocks := locks_of_code hc
    exact hs.acquire hok hc hfree hlocks.2
  | release t k hc =>
    have hlocks := locks_of_code hc
    exact hs.release hok hc hlocks.1
  | wakeup t c k hc =>
    have hlocks := locks_of_code hc
    obtain ⟨howes, hloop⟩ := code_wakeup hc
    refine hs.held hok hlocks.1 (turn_wakeup s t c k) rfl hlocks.2 (fun n i hk => absurd hk (hloop n i)) ?_
    intro u c' hu hold
    have hne := wakeup_chan s t c (locked_chan hlocks.2) hu
    rw [howes _ c' hne] at hold
    exact .inl ((Same.awaits ⟨rfl, rfl, rfl, rfl⟩).2 (hold.resolve_right nofun))
  | shut t w hpc =>
    refine hs.held hok (by rw [hpc]; rfl) (turn_of_update rfl) rfl rfl nofun ?_
    intro u c _ hold
    have hw := hold.resolve_right (by rw [hpc]; nofun)
    -- the end that stays open keeps its reason to sleep, the other one is woken
    cases w <;> cases c
    · exact .inl ⟨hw.1, by simpa using hw.2⟩
    · exact .inr rfl
    · exact .inr rfl
    · exact .inl ⟨hw.1, by simpa using hw.2⟩
  | take t n i hpc _ hdata =>
    refine hs.held hok (by rw [hpc]; rfl) (turn_of_update rfl) rfl rfl nofun ?_
    intro u c _ hold
    cases c with
    | nwrite => exact .inr rfl
    | nread =>
      have hw := hold.resolve_right (by rw [hpc]; nofun)
      exact absurd hw.1 hdata
  | kfree t hpc =>
    have hnote : noteBytes s (.run t) h = h := by simp only [noteBytes, hpc]
    rw [hnote]
    exact hs.quiet_turn hok rfl ⟨rfl, rfl, rfl, rfl⟩ rfl rfl rfl
  | put t n i hpc =>
    have hknows := hs.ok.knows t
    rw [hpc] at hknows
    refine hs.held hok (by rw [hpc]; rfl) (turn_of_update rfl) rfl rfl (fun _ _ _ _ => hknows.2.1) ?_
    intro u c _ hold
    cases c with
    | nread =>
      right
      simp only [noteBytes, update_self]
      rfl
    | nwrite =>
      have hw := hold.resolve_right (by rw [hpc]; simp [Pc.owes])
      exact absurd hw.1 hknows.2.2
  | unmapped t n i hpc | copied t n i ch hpc | lost t n i ch hpc =>
    refine hs.held hok (by rw [hpc]; rfl) (turn_of_update rfl) rfl rfl nofun ?_
    intro u c _ hold
    rw [hpc] at hold
    exact hold.imp_left (Same.awaits ⟨rfl, rfl, rfl, rfl⟩).2
  | rouse f κ μ ha =>
    rw [noteBytes_rouses ha]
    refine hs.quiet hok rfl ⟨rfl, rfl, rfl, rfl⟩ fun u => ?_
    have hpc : { s.rouse f with killed := κ, mem := μ }.pc u = if f u then (s.pc u).rouse else s.pc u := rfl
    rw [hpc]
    split
    · exact rouse_quiet (s.pc u)
    · exact .inl rfl

/-- **While the lock is free, readers sleep only on an empty pipe that may be written to, and
    writers only on a full one that may be read from, if no writer is killed after it has put bytes
    into the buffer.** -/
theorem asleep_has_reason [DecidableEq P] {proc : T → P} {tr : List (Act P T)} (hf : Fresh s)
    (hrun : runs (step proc) s tr = some s')
    (hearly : Along (step proc) noteBytes (KilledEarly proc) s (fun _ => false) tr) (hfree : s'.lock = none) :
    (∀ u, (s'.pc u).chan = some .nread → s'.Drained ∧ s'.writeopen = true) ∧
      (∀ u, (s'.pc u).chan = some .nwrite → s'.Full ∧ s'.readopen = true) := by
  have hsound := hearly.invariant Sound hrun hf.sound fun s a s' h hstep hcond hs =>
    hs.step (step_effect hstep) hcond
  have hreason : ∀ u c, (s'.pc u).chan = some c → s'.Awaits c := by
    intro u c hu
    refine (hsound.asleep u c hu).resolve_right ?_
    rintro ⟨v, hv, -⟩
    cases hfree.symm.trans hv
  exact ⟨fun u hu => hreason u .nread hu, fun u hu => hreason u .nwrite hu⟩

/-- A new pipe and two threads, each a process of its own. -/
def twoThreads : Pipe Bool Bool where
  data := fun _ => 0
  nread := 0
  nwrite := 0
  readopen := true
  writeopen := true
  lock := none
  freed := false
  killed := fun _ => false
  mem := fun _ _ => 7
  addr := fun _ => 0
  pc := fun _ => .idle

/-- A reader that finds the pipe empty. -/
def readerSleeps : List (Act Bool Bool) :=
  .piperead false 0 1 :: List.replicate 4 (.run false)

theorem asleep_has_reason_empty :
    ∃ s', runs (step id) twoThreads readerSleeps = some s' ∧ (s'.pc false).chan = some .nread ∧
      s'.Drained ∧ s'.writeopen = true := by
  obtain ⟨s', hrun, hchan, hfree⟩ : ∃ s', runs (step id) twoThreads readerSleeps = some s' ∧
      (s'.pc false).chan = some .nread ∧ s'.lock = none := ⟨_, rfl, rfl, rfl⟩
  have hf : Fresh twoThreads := ⟨rfl, rfl, rfl, rfl, rfl, rfl, fun _ => rfl⟩
  have hearly : Along (step id) noteBytes (KilledEarly id) twoThreads (fun _ => false) readerSleeps :=
    ⟨trivial, trivial, trivial, trivial, trivial, trivial⟩
  exact ⟨s', hrun, hchan, (asleep_has_reason hf hrun hearly hfree).1 false hchan⟩

/-- The reader sleeps, the writer puts in one of two bytes, and then a sibling kills it: the lock is
    free, there is a byte in the buffer, and the reader sleeps on. -/
theorem reader_sleeps_with_data : ∃ s', runs (step id) twoThreads
        (readerSleeps ++ [.pipewrite true 0 2, .run true, .run true, .run true, .run true, .copyin true true,
          .run true, .kill true, .run true, .run true]) = some s' ∧
      s'.lock = none ∧ s'.pc true = .ret (-1) ∧ (s'.pc false).chan = some .nread ∧ ¬ s'.Drained := by
  refine ⟨_, rfl, rfl, rfl, rfl, ?_⟩
  unfold Drained
  decide

end Pipe

end Xv6.Pipes
