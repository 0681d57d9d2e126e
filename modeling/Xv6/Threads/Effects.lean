import Xv6.Kernel.Frame
import Xv6.Threads.Table

set_option autoImplicit false

/-! # What the kernel's accesses do to the thread tables

`Mem.table` forgets everything about the kernel's memory but the thread tables. Each access of the
code is then one operation on tables; most leave them alone. -/

namespace Xv6

open Function Table Mem ThreadRef

/-- What the tables keep of `struct thread`. -/
@[simp] def Thread.slot (t : Thread) : Slot :=
  { state := t.state, tid := t.tid, trapframe := t.trapframe, tparent := t.tparent }

/-- The thread tables of the kernel's memory. -/
def Mem.table (m : Mem) : Table where
  slot := fun t => (m.thread t).slot
  proc := fun p => (m.procs p).state
  nexttid := m.nexttid

theorem Table.ext {T T' : Table} (hslot : ∀ t, T.slot t = T'.slot t)
    (hproc : ∀ p, T.proc p = T'.proc p) (hnext : T.nexttid = T'.nexttid) : T = T' := by
  obtain ⟨slot, proc, next⟩ := T
  obtain ⟨slot', proc', next'⟩ := T'
  obtain rfl : slot = slot' := funext hslot
  obtain rfl : proc = proc' := funext hproc
  obtain rfl : next = next' := hnext
  rfl

variable (m : Mem)

/-! ## Reading after a change -/

@[simp] theorem procs_modProc (p q : PIdx) (f : Proc → Proc) :
    (m.modProc p f).procs q = if q = p then f (m.procs p) else m.procs q := by
  simp only [modProc, update_apply]

@[simp] theorem thread_modProc (p : PIdx) (f : Proc → Proc) (t : ThreadRef) :
    (m.modProc p f).thread t = if t.p = p then (f (m.procs p)).threadTbl t.i else m.thread t := by
  unfold thread
  rw [procs_modProc]
  split <;> rfl

theorem thread_modThread (t t' : ThreadRef) (f : Thread → Thread) :
    (m.modThread t f).thread t' = if t' = t then f (m.thread t) else m.thread t' := by
  obtain ⟨p, i⟩ := t
  obtain ⟨p', i'⟩ := t'
  simp only [modThread, thread_modProc, Proc.modThread, update_apply, ThreadRef.mk.injEq]
  by_cases hp : p' = p
  · subst hp
    by_cases hi : i' = i
    · simp [hi, thread]
    · simp [hi, thread]
  · simp [hp]

@[simp] theorem state_modThread (t : ThreadRef) (f : Thread → Thread) (p : PIdx) :
    ((m.modThread t f).procs p).state = (m.procs p).state := by
  simp only [modThread, procs_modProc]
  split
  · next h => subst h; rfl
  · rfl

theorem table_modThread (t : ThreadRef) (f : Thread → Thread) : (m.modThread t f).table =
      { m.table with slot := update m.table.slot t (f (m.thread t)).slot } := by
  refine ext (fun t' => ?_) (fun p => state_modThread m t f p) rfl
  simp only [table, thread_modThread, update_apply]
  split <;> rfl

variable {f : Proc → Proc} {p : PIdx} {t : ThreadRef} {m' : Mem} {g : Pages}

theorem thread_modProc_same (hf : ∀ x, (f x).threadTbl = x.threadTbl)
    (t : ThreadRef) : (m.modProc p f).thread t = m.thread t := by
  rw [thread_modProc]
  split
  · next ht =>
    subst ht
    rw [hf]
    rfl
  · rfl

theorem thread_modBoth {h : Thread → Thread} (hf : ∀ x, (f x).threadTbl = x.threadTbl) (t t' : ThreadRef) :
    ((m.modProc p f).modThread t h).thread t' = if t' = t then h (m.thread t) else m.thread t' := by
  rw [thread_modThread, thread_modProc_same m hf, thread_modProc_same m hf]

theorem table_modProc (hstate : ∀ x, (f x).state = x.state) (htbl : ∀ x, (f x).threadTbl = x.threadTbl) :
    (m.modProc p f).table = m.table := by
  refine ext (fun t => ?_) (fun q => ?_) rfl
  · simp only [table, thread_modProc_same m htbl]
  simp only [table, procs_modProc]
  split
  · next h => subst h; exact hstate _
  · rfl

/-! ## Accesses that leave the tables alone -/

/-- What the accesses to the registers, the signal state and the user memory of a process leave
    alone. -/
structure Proc.Kept (q p : Proc) : Prop where
  state : q.state = p.state
  threadTbl : q.threadTbl = p.threadTbl
  trapframepointer : q.trapframepointer = p.trapframepointer
  pagetable : q.pagetable = p.pagetable ∨ q.pagetable = some ⟨p.trapframepointer⟩
  backupPage : q.backupPage = p.backupPage

theorem Proc.Kept.trans {p q r : Proc} (h : r.Kept q) (h' : q.Kept p) : r.Kept p where
  state := h.state.trans h'.state
  threadTbl := h.threadTbl.trans h'.threadTbl
  trapframepointer := h.trapframepointer.trans h'.trapframepointer
  pagetable := by
    rcases h.pagetable with hp | hp
    · rw [hp]
      exact h'.pagetable
    · rw [hp, h'.trapframepointer]
      exact .inr rfl
  backupPage := h.backupPage.trans h'.backupPage

theorem setHandlerAt_kept (p : Proc) (n : Nat) (h : BitVec 64) : (setHandlerAt p n h).Kept p := by
  unfold setHandlerAt
  split <;> exact ⟨rfl, rfl, rfl, .inl rfl, rfl⟩

theorem setMaskAt_kept (p : Proc) (n : Nat) (k : BitVec 32) : (setMaskAt p n k).Kept p := by
  unfold setMaskAt
  split
  · exact ⟨rfl, rfl, rfl, .inl rfl, rfl⟩
  · split <;> exact ⟨rfl, rfl, rfl, .inl rfl, rfl⟩

theorem sigactionOld_kept (p : Proc) (n oldact pad : Nat) : (sigactionOld p n oldact pad).1.Kept p := by
  unfold sigactionOld
  split <;> exact ⟨rfl, rfl, rfl, .inl rfl, rfl⟩

theorem sigactionNew_kept (p : Proc) (n act : Nat) : (sigactionNew p n act).1.Kept p := by
  unfold sigactionNew
  split
  · exact ⟨rfl, rfl, rfl, .inl rfl, rfl⟩
  split
  · exact ⟨rfl, rfl, rfl, .inl rfl, rfl⟩
  split
  · exact ⟨rfl, rfl, rfl, .inl rfl, rfl⟩
  · exact (setMaskAt_kept _ _ _).trans (setHandlerAt_kept _ _ _)

theorem sigactionProc_kept (p : Proc) (signum : Int) (act oldact pad : Nat) :
    (sigactionProc p signum act oldact pad).1.Kept p := by
  have hold := sigactionOld_kept p signum.toNat oldact pad
  unfold sigactionProc
  split
  · exact ⟨rfl, rfl, rfl, .inl rfl, rfl⟩
  dsimp only
  split
  · exact hold
  · exact (sigactionNew_kept _ _ _).trans hold

theorem signalhandlerUser_kept (p : Proc) (i : TIdx) (n : Fin NUMOFSIGNALS) (junk : Junk) :
    ((signalhandlerUser p i n junk).getD p).Kept p := by
  unfold signalhandlerUser
  dsimp only
  split <;> exact ⟨rfl, rfl, rfl, .inl rfl, rfl⟩

theorem ProcAct.apply_kept (a : ProcAct) (p : Proc) : (a.apply p).Kept p := by
  cases a with
  | deliver i n junk => exact signalhandlerUser_kept p i n junk
  | sigaction signum act oldact pad => exact sigactionProc_kept p signum act oldact pad
  | execCommit i img => exact ⟨rfl, rfl, rfl, .inr rfl, rfl⟩
  | _ => exact ⟨rfl, rfl, rfl, .inl rfl, rfl⟩

theorem table_proc (p : PIdx) (a : ProcAct) : ((Act.proc p a).apply m).table = m.table :=
  table_modProc m (fun x => (a.apply_kept x).state) fun x => (a.apply_kept x).threadTbl

/-- The accesses that the tables do not see. -/
def Act.quiet : Act → Bool
  | .proc _ _ | .clearChan _ | .markKilled _ | .setParent _ _ | .forkCopy _ _ | .bsem _ _
  | .setSepc _ _ => true
  | _ => false

theorem table_modThread_same {f : Thread → Thread}
    (h : ∀ x, (f x).slot = x.slot) : (m.modThread t f).table = m.table := by
  rw [table_modThread, h]
  exact ext (fun t' => by simp [table]) (fun _ => rfl) rfl

variable {a : Act}

theorem table_quiet (h : a.quiet = true) : (a.apply m).table = m.table := by
  cases a with
  | proc p a => exact table_proc m p a
  | clearChan t | markKilled t => exact table_modThread_same m fun _ => rfl
  | setParent p q =>
    exact table_modProc (f := fun x => { x with parent := q }) m (fun _ => rfl) fun _ => rfl
  | forkCopy t np =>
    exact table_modProc (f := fun x => forkCopyProc (m.procs t.p) x t.i) m (fun _ => rfl)
      fun _ => rfl
  | bsem | setSepc => rfl
  | _ => exact absurd h (by simp [Act.quiet])

/-! ## Accesses that change them -/

theorem table_setState (t : ThreadRef) (st : ThreadState) :
    ((Act.setState t st).apply m).table = m.table.setState t st :=
  table_modThread m t _

theorem table_sleepOn (t : ThreadRef) (chan : Chan) :
    ((Act.sleepOn t chan).apply m).table = m.table.setState t .sleeping :=
  table_modThread m t _

theorem table_wakeup (p : PIdx) (chan : Chan) : ((Act.wakeup p chan).apply m).table =
      m.table.wake p fun i =>
        decide ((m.thread ⟨p, i⟩).state = .sleeping ∧ (m.thread ⟨p, i⟩).chan = chan) := by
  refine ext (fun t => ?_) (fun q => ?_) rfl
  · obtain ⟨q, i⟩ := t
    simp only [Act.apply, table, thread_modProc, wake]
    by_cases hq : q = p
    · subst hq
      rw [if_pos rfl]
      show (wakeupThread chan (m.thread ⟨q, i⟩)).slot = _
      unfold wakeupThread
      by_cases h : (m.thread ⟨q, i⟩).state = .sleeping ∧ (m.thread ⟨q, i⟩).chan = chan
      · rw [if_pos h, if_pos ⟨rfl, decide_eq_true h⟩]
        rfl
      · rw [if_neg h, if_neg fun hd => h (of_decide_eq_true hd.2)]
    · simp [hq]
  simp only [Act.apply, table, procs_modProc, wake]
  split
  · next h => subst h; rfl
  · rfl

theorem table_wakeThread (t : ThreadRef) : (m.modThread t wakeThread).table =
      m.table.wake t.p fun i => decide (i = t.i ∧ (m.thread t).state = .sleeping) := by
  rw [table_modThread]
  refine ext (fun t' => ?_) (fun _ => rfl) rfl
  have hiff : t' = t ↔ t'.p = t.p ∧ t'.i = t.i :=
    ⟨fun h => by rw [h]; exact ⟨rfl, rfl⟩, fun ⟨hp, hi⟩ => by cases t; cases t'; simp_all⟩
  simp only [wake, update_apply, decide_eq_true_eq, ← and_assoc, ← hiff]
  by_cases ht : t' = t
  · subst ht
    simp only [wakeThread, true_and, if_true]
    split <;> rfl
  · simp [ht]

theorem table_wakeSlot (t : ThreadRef) : ((Act.wakeSlot t).apply m).table =
      m.table.wake t.p fun i => decide (i = t.i ∧ (m.thread t).state = .sleeping) :=
  table_wakeThread m t

theorem table_sigkill (t : ThreadRef) : ((Act.sigkill t).apply m).table =
      m.table.wake t.p fun i => decide (i = t.i ∧ (m.thread t).state = .sleeping) := by
  have hkill : (m.modProc t.p fun x => { x with killed := true }).table = m.table :=
    table_modProc (f := fun x => { x with killed := true }) m (fun _ => rfl) fun _ => rfl
  have hstate : ((m.modProc t.p fun x => { x with killed := true }).thread t).state =
      (m.thread t).state := congrArg (fun T : Table => (T.slot t).state) hkill
  show (modThread _ t wakeThread).table = _
  rw [table_wakeThread, hkill, hstate]

theorem table_exitProc (t : ThreadRef) (status : BitVec 32) :
    ((Act.exitProc t status).apply m).table = m.table.exit t := by
  refine ext (fun t' => ?_) (fun q => ?_) rfl
  · show (((m.modProc t.p _).modThread t _).thread t').slot = _
    rw [thread_modBoth m fun _ => by rfl]
    simp only [table, exit, setState, update_apply]
    split <;> rfl
  · simp only [Act.apply, table, state_modThread, procs_modProc, exit, update_apply]
    split <;> rfl

theorem table_freeThread (t : ThreadRef) : ((Act.freeThread t).apply m).table = m.table.reap t :=
  table_modThread m t _

theorem table_freeproc (j : PIdx) : ((Act.freeproc j).apply m).table = m.table.free j := by
  refine ext (fun t => ?_) (fun q => ?_) rfl
  · simp only [Act.apply, table, thread_modProc, free]
    split
    · next h => subst h; rfl
    · rfl
  · simp only [Act.apply, table, procs_modProc, free, update_apply]
    split <;> rfl

theorem table_forkRunnable (j : PIdx) (hj : (m.procs j).state = .used) :
    ((Act.forkRunnable j).apply m).table = m.table.setState ⟨j, 0⟩ .runnable := by
  refine ext (fun t => ?_) (fun q => ?_) rfl
  · show (((m.modProc j _).modThread ⟨j, 0⟩ _).thread t).slot = _
    rw [thread_modBoth m fun _ => by rfl]
    simp only [table, setState, update_apply]
    split <;> rfl
  simp only [Act.apply, table, state_modThread, procs_modProc, setState]
  split
  · next h => rw [h]; exact hj.symm
  · rfl

theorem table_createThread (t : ThreadRef) (fn stack : BitVec 64) :
    ((Act.createThread t fn stack).apply m).table = m.table.create t := by
  refine ext (fun t' => ?_) (fun q => ?_) rfl
  · show (((m.modProc t.p _).modThread t _).thread t').slot = _
    rw [thread_modBoth m fun _ => by rfl]
    simp only [table, create, update_apply]
    split <;> rfl
  show ((modThread _ t _).procs q).state = _
  simp only [table, state_modThread, procs_modProc, create]
  split
  · next h => rw [h]
  · rfl

theorem table_createFault (t : ThreadRef) : ((Act.createFault t).apply m).table = m.table.createFault t := by
  refine ext (fun t' => ?_) (fun q => state_modThread m t _ q) rfl
  show (thread (modThread _ t _) t').slot = _
  simp only [table, thread_modThread, createFault, update_apply]
  split <;> rfl

/-! ## allocproc -/

theorem procs_allocproc_other {j q : PIdx} (g : Pages) (hq : q ≠ j) :
    (allocproc m j g).procs q = m.procs q := by
  simp only [allocproc, allocprocInit, modThread, modProc]
  split_ifs <;> simp [hq]

theorem thread_allocproc_other {j : PIdx} (g : Pages) (ht : t.p ≠ j) :
    (allocproc m j g).thread t = m.thread t := by
  rw [thread, procs_allocproc_other m g ht]
  rfl

/-- A failed `allocproc` leaves nothing but a number. -/
theorem allocproc_fail (j : PIdx) (hg : g.ok = false) :
    (allocproc m j g).nexttid = m.nexttid + 1 ∧ ((allocproc m j g).procs j).state = .unused ∧
      ∀ i, (allocproc m j g).thread ⟨j, i⟩ = { tid := if i = 0 then m.nexttid else (m.thread ⟨j, i⟩).tid } := by
  simp only [Pages.ok, Bool.and_eq_false_iff, bne_eq_false_iff_eq] at hg
  simp only [allocproc]
  split_ifs
  case neg => simp_all
  all_goals
    refine ⟨rfl, by simp [freeproc], fun i => ?_⟩
    by_cases hi : i = 0 <;> simp [freeproc, freeThread, allocprocInit, modThread, Proc.modThread, thread, hi]

theorem allocproc_ok (j : PIdx) (hg : g.ok = true) :
    (allocproc m j g).nexttid = m.nexttid + 1 ∧ ((allocproc m j g).procs j).state = .used ∧
      ∀ i, (allocproc m j g).thread ⟨j, i⟩ =
        { (if i = 0 then
            { m.thread ⟨j, 0⟩ with state := .used, killed := false, tid := m.nexttid, tparent := some j }
          else m.thread ⟨j, i⟩) with trapframe := g.tf + sizeofTrapframe * i } := by
  simp only [Pages.ok, Bool.and_eq_true, bne_iff_ne, ne_eq] at hg
  obtain ⟨⟨htf, hpt⟩, hb⟩ := hg
  simp only [allocproc, if_neg htf, hpt, Bool.true_eq_false, if_false, if_neg hb]
  refine ⟨rfl, by simp [allocprocInit, modThread, Proc.modThread], fun i => ?_⟩
  by_cases hi : i = 0 <;> simp [allocprocInit, modThread, Proc.modThread, thread, hi]

theorem table_allocproc_fail (j : PIdx) (hg : g.ok = false) :
    ((Act.allocproc j g).apply m).table = m.table.allocFail j := by
  obtain ⟨hnext, hstate, hthread⟩ := allocproc_fail m j hg
  refine ext (fun t => ?_) (fun q => ?_) hnext
  · obtain ⟨p, i⟩ := t
    simp only [Act.apply, table, allocFail]
    split
    · next hp =>
      obtain rfl : p = j := hp
      rw [hthread]
      by_cases hi : i = 0 <;> simp [hi]
    · next hp => rw [thread_allocproc_other m g hp]
  · simp only [Act.apply, table, allocFail, update_apply]
    split
    · next hq => rw [hq, hstate]
    · next hq => rw [procs_allocproc_other m g hq]

theorem table_allocproc (j : PIdx) (hg : g.ok = true) :
    ((Act.allocproc j g).apply m).table = m.table.alloc j g.tf := by
  obtain ⟨hnext, hstate, hthread⟩ := allocproc_ok m j hg
  refine ext (fun t => ?_) (fun q => ?_) hnext
  · obtain ⟨p, i⟩ := t
    simp only [Act.apply, table, alloc]
    split
    · next hp =>
      obtain rfl : p = j := hp
      rw [hthread]
      by_cases hi : i = 0 <;> simp [hi]
    · next hp => rw [thread_allocproc_other m g hp]
  · simp only [Act.apply, table, alloc, update_apply]
    split
    · next hq => rw [hq, hstate]
    · next hq => rw [procs_allocproc_other m g hq]

/-! ## The fields that the tables leave out -/

/-- What an access does to `chan`, `killed`, `xstate` and the state of the slot `t`. -/
inductive Touch (a : Act) (t : ThreadRef) (x x' : Thread) : Prop where
  | same (hchan : x'.chan = x.chan) (hkilled : x'.killed = x.killed) (hxstate : x'.xstate = x.xstate)
      (hstate : x'.state = x.state ∨ x'.state = .runnable ∨ a = .setState t x'.state)
  | mark (ha : a = .markKilled t) (h : x' = { x with killed := true })
  | exit (status : BitVec 32) (ha : a = .exitProc t status)
      (h : x' = { x with state := .zombie, xstate := status })
  | sleep (chan : Chan) (ha : a = .sleepOn t chan) (h : x' = { x with chan := chan, state := .sleeping })
  | clear (ha : a = .clearChan t) (h : x' = { x with chan := .null })
  | freed (hstate : x'.state = .unused) (hxstate : x'.xstate = 0)
  /-- The first slot of a process is set up by `allocproc`. -/
  | setUp (hstate : x'.state = .used) (hxstate : x'.xstate = x.xstate)

theorem Touch.refl (a : Act) (t : ThreadRef) (x : Thread) : Touch a t x x :=
  .same rfl rfl rfl (.inl rfl)

theorem touch_modThread (t0 t : ThreadRef) {f : Thread → Thread}
    (hf : t = t0 → Touch a t (m.thread t) (f (m.thread t))) :
    Touch a t (m.thread t) ((m.modThread t0 f).thread t) := by
  rw [thread_modThread]
  split
  · next ht =>
    subst ht
    exact hf rfl
  · exact .refl a t _

/-- An access to a process, which leaves the slots alone, and to one slot. -/
theorem touch_modBoth {f : Thread → Thread} {g : Proc → Proc} (t0 t : ThreadRef)
    (hg : ∀ x, (g x).threadTbl = x.threadTbl) (hf : t = t0 → Touch a t (m.thread t) (f (m.thread t))) :
    Touch a t (m.thread t) (((m.modProc p g).modThread t0 f).thread t) := by
  rw [thread_modBoth m hg]
  split
  · next ht =>
    subst ht
    exact hf rfl
  · exact .refl a t _

theorem touch_wakeThread (t : ThreadRef) (x : Thread) : Touch a t x (wakeThread x) := by
  unfold wakeThread
  split
  · exact .same rfl rfl rfl (.inr (.inl rfl))
  · exact .refl a t x

theorem touch_allocproc (j : PIdx) (g : Pages) (t : ThreadRef) :
    Touch a t (m.thread t) ((allocproc m j g).thread t) := by
  obtain ⟨p, i⟩ := t
  by_cases hp : p = j
  · subst hp
    cases hg : g.ok with
    | false =>
      rw [(allocproc_fail m p hg).2.2]
      exact .freed rfl rfl
    | true =>
      rw [(allocproc_ok m p hg).2.2]
      split
      · next hi => exact hi ▸ .setUp rfl rfl
      · exact .same rfl rfl rfl (.inl rfl)
  · rw [thread_allocproc_other m g hp]
    exact .refl a _ _

/-- **What an access does to the fields of a slot that the tables leave out.** -/
theorem Act.touch (a : Act) (t : ThreadRef) : Touch a t (m.thread t) ((a.apply m).thread t) := by
  -- the accesses to a process that leave the slots alone
  have hproc : ∀ (p : PIdx) (f : Proc → Proc), (∀ x, (f x).threadTbl = x.threadTbl) →
      Touch a t (m.thread t) ((m.modProc p f).thread t) := by
    intro p f hf
    rw [thread_modProc_same m hf]
    exact .refl a t _
  cases a with
  | proc p a => exact hproc p _ fun x => (a.apply_kept x).threadTbl
  | setState t0 st => exact touch_modThread m t0 t fun ht => .same rfl rfl rfl (.inr (.inr (ht ▸ rfl)))
  | sleepOn t0 chan => exact touch_modThread m t0 t fun ht => .sleep chan (ht ▸ rfl) rfl
  | clearChan t0 => exact touch_modThread m t0 t fun ht => .clear (ht ▸ rfl) rfl
  | markKilled t0 => exact touch_modThread m t0 t fun ht => .mark (ht ▸ rfl) rfl
  | wakeSlot t0 => exact touch_modThread m t0 t fun _ => touch_wakeThread t _
  | sigkill t0 => exact touch_modBoth m t0 t (fun _ => rfl) fun _ => touch_wakeThread t _
  | wakeup p chan =>
    simp only [Act.apply, thread_modProc]
    split
    · next hp =>
      subst hp
      unfold wakeupThread
      split
      · exact .same rfl rfl rfl (.inr (.inl rfl))
      · exact .refl _ t _
    · exact .refl _ t _
  | exitProc t0 status => exact touch_modBoth m t0 t (fun _ => rfl) fun ht => .exit status (ht ▸ rfl) rfl
  | setParent | forkCopy =>
    simp only [Act.apply]
    exact hproc _ _ fun _ => by rfl
  | allocproc p g => exact touch_allocproc m p g t
  | freeproc p =>
    show Touch _ t _ ((m.modProc p Xv6.freeproc).thread t)
    rw [thread_modProc]
    split
    · exact .freed rfl rfl
    · exact .refl _ t _
  | forkRunnable np =>
    exact touch_modBoth m ⟨np, 0⟩ t (fun _ => rfl) fun _ => .same rfl rfl rfl (.inr (.inl rfl))
  | createThread t0 fn stack =>
    exact touch_modBoth m t0 t (fun _ => rfl) fun _ => .same rfl rfl rfl (.inr (.inl rfl))
  | createFault t0 => exact touch_modThread m t0 t fun _ => .same rfl rfl rfl (.inr (.inl rfl))
  | freeThread t0 => exact touch_modThread m t0 t fun _ => .freed rfl rfl
  | bsem | setSepc => exact .refl _ t _

theorem Act.xstate_of_unused (a : Act) (j : PIdx) (hne : (m.procs j).state ≠ .unused)
    (h : ((a.apply m).procs j).state = .unused) (i : TIdx) :
    ((a.apply m).thread ⟨j, i⟩).xstate = 0 := by
  cases a with
  | proc p a =>
    have hk := (a.apply_kept (m.procs p)).state
    simp only [Act.apply, procs_modProc] at h
    grind
  | allocproc p g =>
    by_cases hj : j = p
    · subst hj
      cases hg : g.ok with
      | false => exact congrArg Thread.xstate ((allocproc_fail m j hg).2.2 i)
      | true => cases (allocproc_ok m j hg).2.1.symm.trans h
    · cases hne ((congrArg Proc.state (procs_allocproc_other m g hj)).symm.trans h)
  | freeproc p =>
    simp only [Act.apply, procs_modProc, thread] at h ⊢
    grind [Xv6.freeproc, Xv6.freeThread]
  | _ =>
    -- the process keeps its state, or gets another one than that
    simp only [Act.apply, modThread, procs_modProc] at h
    grind [Proc.modThread, forkCopyProc]

end Xv6
