import Xv6.Kernel.Proc

set_option autoImplicit false

/-! # The thread tables as an abstract machine

What the kernel's functions do to the thread tables, with everything else left out: a `Table` has,
for every slot, the state, the id, the trapframe pointer and the parent pointer, and for every
process its state. `Move` lists the ways in which the tables change. Each is one critical section
(or one unlocked write) of the kernel's code together with what that code has made sure of before: a
thread changes its own state only while it is `t_RUNNING`, `wakeup` makes sleepers runnable,
`kthread_create` takes the first `t_UNUSED` slot, and so on.

`Table.Ok` is the invariant of the tables. Its least obvious part is `order`: since
`kthread_create` takes the first free slot and a freed slot loses its trapframe, the slots that have
never been used come after all the others. That a thread can only create threads in slots above its
own is what makes the unlocked scan of `killthreads` sound. -/

namespace Xv6

open Function

/-- The states that `killthreads` takes for those of a thread that is gone. -/
def ThreadState.dead : ThreadState → Bool
  | .unused | .zombie => true
  | _ => false

structure Slot where
  state : ThreadState
  tid : Int
  trapframe : Nat
  tparent : Option PIdx

structure Table where
  slot : ThreadRef → Slot
  proc : PIdx → ProcState
  nexttid : Int

namespace Table

variable {T T' : Table}

/-! ## Operations -/

def setState (T : Table) (t : ThreadRef) (st : ThreadState) : Table :=
  { T with slot := update T.slot t { T.slot t with state := st } }

/-- The slots `S` of process `p` become runnable. -/
def wake (T : Table) (p : PIdx) (S : TIdx → Bool) : Table :=
  { T with
    slot := fun t =>
      if t.p = p ∧ S t.i = true then { T.slot t with state := .runnable } else T.slot t }

/-- The last critical section of `exit`. -/
@[simp] def exit (T : Table) (t : ThreadRef) : Table :=
  { T.setState t .zombie with proc := update T.proc t.p .zombie }

/-- `free_thread`. -/
@[simp] def freeSlot (x : Slot) : Slot := { x with state := .unused, trapframe := 0, tparent := none }

/-- `free_thread` of one slot. -/
def reap (T : Table) (t : ThreadRef) : Table :=
  { T with slot := update T.slot t (freeSlot (T.slot t)) }

/-- `freeproc`. -/
@[simp] def free (T : Table) (j : PIdx) : Table :=
  { T with
    slot := fun t => if t.p = j then freeSlot (T.slot t) else T.slot t
    proc := update T.proc j .unused }

/-- `allocproc` with the trapframe page `tf`. -/
@[simp] def alloc (T : Table) (j : PIdx) (tf : Nat) : Table :=
  { slot := fun t =>
      if t.p = j then
        if t.i = 0 then
          { state := .used, tid := T.nexttid, trapframe := tf, tparent := some j }
        else { T.slot t with trapframe := tf + sizeofTrapframe * t.i }
      else T.slot t
    proc := update T.proc j .used
    nexttid := T.nexttid + 1 }

/-- `allocproc` when it runs out of memory: the id stays with the slot. -/
@[simp] def allocFail (T : Table) (j : PIdx) : Table :=
  { slot := fun t =>
      if t.p = j then
        if t.i = 0 then { state := .unused, tid := T.nexttid, trapframe := 0, tparent := none }
        else freeSlot (T.slot t)
      else T.slot t
    proc := update T.proc j .unused
    nexttid := T.nexttid + 1 }

/-- `kthread_create` in the slot `t`. -/
@[simp] def create (T : Table) (t : ThreadRef) : Table :=
  { T with
    slot := update T.slot t
      { T.slot t with state := .runnable, tid := T.nexttid, tparent := some t.p }
    nexttid := T.nexttid + 1 }

/-- `kthread_create` in the slot `t` up to its access through a null trapframe. -/
@[simp] def createFault (T : Table) (t : ThreadRef) : Table :=
  { T with
    slot := update T.slot t { T.slot t with state := .runnable, tid := T.nexttid }
    nexttid := T.nexttid + 1 }

/-! ### Slots that an operation does not touch -/

section Untouched

variable {t t0 : ThreadRef} {j p : PIdx}

theorem setState_slot (T : Table) (t t' : ThreadRef) (st : ThreadState) :
    (T.setState t st).slot t' =
      if t' = t then { T.slot t with state := st } else T.slot t' := by
  simp only [setState, update_apply]

theorem setState_other {st : ThreadState} (h : t ≠ t0) : (T.setState t0 st).slot t = T.slot t :=
  update_of_ne h _ _

theorem wake_other {S : TIdx → Bool} (h : ¬ (t.p = p ∧ S t.i = true)) :
    (T.wake p S).slot t = T.slot t := if_neg h

theorem exit_other (h : t ≠ t0) : (T.exit t0).slot t = T.slot t := update_of_ne h _ _

theorem reap_other (h : t ≠ t0) : (T.reap t0).slot t = T.slot t := update_of_ne h _ _

theorem free_other (h : t.p ≠ j) : (T.free j).slot t = T.slot t := if_neg h

theorem alloc_other {tf : Nat} (h : t.p ≠ j) : (T.alloc j tf).slot t = T.slot t := if_neg h

theorem allocFail_other (h : t.p ≠ j) : (T.allocFail j).slot t = T.slot t := if_neg h

theorem create_other (h : t ≠ t0) : (T.create t0).slot t = T.slot t := update_of_ne h _ _

theorem createFault_other (h : t ≠ t0) : (T.createFault t0).slot t = T.slot t :=
  update_of_ne h _ _

end Untouched

/-! ## Moves -/

/-- A process between `allocproc` and the end of `fork`. -/
structure Embryo (T : Table) (j : PIdx) : Prop where
  proc : T.proc j = .used
  first : (T.slot ⟨j, 0⟩).state = .used
  rest : ∀ i, i ≠ 0 → (T.slot ⟨j, i⟩).state = .unused
  trapframe : (T.slot ⟨j, 0⟩).trapframe ≠ 0

theorem Embryo.state {t : ThreadRef} (h : T.Embryo t.p) :
    (T.slot t).state = .used ∨ (T.slot t).state = .unused := by
  by_cases hi : t.i = 0
  · left
    rw [show t = ⟨t.p, 0⟩ from congrArg (ThreadRef.mk t.p) hi]
    exact h.first
  · exact Or.inr (h.rest t.i hi)

/-- The slot `t` is the one `kthread_create` takes. -/
structure FirstUnused (T : Table) (t : ThreadRef) : Prop where
  unused : (T.slot t).state = .unused
  first : ∀ i < t.i, (T.slot ⟨t.p, i⟩).state ≠ .unused

/-- The changes the kernel makes to the thread tables. -/
inductive Move : Table → Table → Prop where
  | stay (T : Table) : Move T T
  | leave (T : Table) (t : ThreadRef) (st : ThreadState) (h : (T.slot t).state = .running)
      (hst : st = .runnable ∨ st = .sleeping ∨ st = .zombie) : Move T (T.setState t st)
  | start (T : Table) (t : ThreadRef) (h : (T.slot t).state = .runnable) :
      Move T (T.setState t .running)
  | wake (T : Table) (p : PIdx) (S : TIdx → Bool)
      (h : ∀ i, S i = true → (T.slot ⟨p, i⟩).state = .sleeping) : Move T (T.wake p S)
  | exit (T : Table) (t : ThreadRef) (h : (T.slot t).state = .running)
      (hrest : ∀ i, i ≠ t.i → (T.slot ⟨t.p, i⟩).state.dead = true) : Move T (T.exit t)
  | alloc (T : Table) (j : PIdx) (tf : Nat) (h : T.proc j = .unused) (htf : tf ≠ 0) :
      Move T (T.alloc j tf)
  | allocFail (T : Table) (j : PIdx) (h : T.proc j = .unused) : Move T (T.allocFail j)
  | free (T : Table) (j : PIdx) (h : T.proc j = .zombie ∨ T.Embryo j) : Move T (T.free j)
  | forkRun (T : Table) (j : PIdx) (h : T.Embryo j) : Move T (T.setState ⟨j, 0⟩ .runnable)
  | create (T : Table) (t : ThreadRef) (k : TIdx) (h : (T.slot t).state = .running)
      (hk : T.FirstUnused ⟨t.p, k⟩) (htf : (T.slot ⟨t.p, k⟩).trapframe ≠ 0) :
      Move T (T.create ⟨t.p, k⟩)
  | createFault (T : Table) (t : ThreadRef) (k : TIdx) (h : (T.slot t).state = .running)
      (hk : T.FirstUnused ⟨t.p, k⟩) (htf : (T.slot ⟨t.p, k⟩).trapframe = 0) :
      Move T (T.createFault ⟨t.p, k⟩)
  | reap (T : Table) (t : ThreadRef) (h : (T.slot t).state = .zombie) : Move T (T.reap t)

/-! ## The invariant -/

/-- The invariant of the thread tables. -/
structure Ok (T : Table) : Prop where
  /-- A thread that is not gone belongs to a process in use. -/
  alive : ∀ t, (T.slot t).state.dead = false → T.proc t.p = .used
  unused : ∀ t, T.proc t.p = .unused → (T.slot t).state = .unused
  /-- The slots that have never been used come last. -/
  order : ∀ p a b, a < b → (T.slot ⟨p, a⟩).state = .unused → (T.slot ⟨p, a⟩).trapframe ≠ 0 →
    (T.slot ⟨p, b⟩).state = .unused
  tid_nonneg : ∀ t, 0 ≤ (T.slot t).tid
  tid_lt : ∀ t, (T.slot t).tid < T.nexttid
  tid_pos : ∀ t, (T.slot t).state ≠ .unused → 0 < (T.slot t).tid
  tid_inj : ∀ t t', (T.slot t).tid = (T.slot t').tid → 0 < (T.slot t).tid → t = t'
  tparent : ∀ t, (T.slot t).state.dead = false → (T.slot t).trapframe ≠ 0 →
    (T.slot t).tparent = some t.p

section

variable (h : T.Ok)
include h

theorem Ok.ofStates (hproc : T'.proc = T.proc) (hnext : T'.nexttid = T.nexttid)
    (hrest : ∀ t, (T'.slot t).tid = (T.slot t).tid ∧
      (T'.slot t).trapframe = (T.slot t).trapframe ∧ (T'.slot t).tparent = (T.slot t).tparent)
    (hunused : ∀ t, (T'.slot t).state = .unused ↔ (T.slot t).state = .unused)
    (hdead : ∀ t, (T'.slot t).state.dead = false → (T.slot t).state.dead = false) : T'.Ok where
  alive := fun t ht => by rw [hproc]; exact h.alive t (hdead t ht)
  unused := fun t ht => (hunused t).2 (h.unused t (hproc ▸ ht))
  order := fun p a b => by grind [h.order p a b]
  tid_nonneg := fun t => by grind [h.tid_nonneg t]
  tid_lt := fun t => by grind [h.tid_lt t]
  tid_pos := fun t ht => by
    rw [(hrest t).1]
    exact h.tid_pos t fun hu => ht ((hunused t).2 hu)
  tid_inj := fun t t' => by grind [h.tid_inj t t']
  tparent := fun t => by grind [h.tparent t]

theorem Ok.setState {t : ThreadRef} {st : ThreadState}
    (hlive : (T.slot t).state.dead = false) (hst : st ≠ .unused) : (T.setState t st).Ok := by
  have hslot := fun t' => T.setState_slot t t' st
  refine h.ofStates rfl rfl ?_ ?_ ?_ <;> grind [ThreadState.dead]

theorem Ok.wake {p : PIdx} {S : TIdx → Bool}
    (hS : ∀ i, S i = true → (T.slot ⟨p, i⟩).state = .sleeping) : (T.wake p S).Ok := by
  have hsleep : ∀ t : ThreadRef, t.p = p ∧ S t.i = true → (T.slot t).state = .sleeping := by
    rintro ⟨p', i⟩ ⟨rfl, hi⟩
    exact hS i hi
  refine h.ofStates rfl rfl ?_ ?_ ?_ <;> grind [Table.wake, ThreadState.dead]

theorem Ok.exit {t : ThreadRef} (ht : (T.slot t).state = .running)
    (hrest : ∀ i, i ≠ t.i → (T.slot ⟨t.p, i⟩).state.dead = true) : (T.exit t).Ok := by
  have hset : (T.setState t .zombie).Ok := h.setState (by rw [ht]; rfl) nofun
  have hdead : ∀ t', t'.p = t.p → ((T.setState t .zombie).slot t').state.dead = true := by
    intro t' hp
    rw [setState_slot]
    split
    · rfl
    next hne =>
    obtain ⟨p', i'⟩ := t'
    obtain rfl : p' = t.p := hp
    exact hrest i' fun hi => hne (by rw [hi])
  have hproc : ∀ p, (T.exit t).proc p = if p =
    t.p then .zombie else (T.setState t .zombie).proc p := fun _ => update_apply ..
  refine { hset with alive := fun t' ht' => ?_, unused := fun t' ht' => ?_ }
  · grind [hset.alive t', hdead t', Table.exit]
  · grind [hset.unused t', Table.exit]

/-- Freeing slots keeps the invariant, if the processes stay as they are or become `UNUSED` with all
    their slots. -/
theorem Ok.freeSlots {S : ThreadRef → Prop} (hnext : T'.nexttid = T.nexttid)
    (hin : ∀ t, S t → T'.slot t = freeSlot (T.slot t)) (hout : ∀ t, ¬ S t → T'.slot t = T.slot t)
    (halive : ∀ t, ¬ S t → T.proc t.p = .used → T'.proc t.p = .used)
    (hunused : ∀ t, ¬ S t → T'.proc t.p = .unused → T.proc t.p = .unused) : T'.Ok := by
  have hslot : ∀ t, T'.slot t = freeSlot (T.slot t) ∨ T'.slot t = T.slot t ∧ ¬ S t := fun t => by
    by_cases hs : S t
    · exact .inl (hin t hs)
    · exact .inr ⟨hout t hs, hs⟩
  refine ⟨fun t => ?_, fun t => ?_, fun p a b => ?_, fun t => ?_, fun t => ?_, fun t => ?_,
    fun t t' => ?_, fun t => ?_⟩
  · grind [freeSlot, ThreadState.dead, h.alive t]
  · grind [freeSlot, h.unused t]
  · grind [freeSlot, h.order p a b]
  · grind [freeSlot, h.tid_nonneg t]
  · grind [freeSlot, h.tid_lt t]
  · have := h.tid_pos t
    grind [freeSlot]
  · grind [freeSlot, h.tid_inj t t']
  · grind [freeSlot, ThreadState.dead, h.tparent t]

theorem Ok.reap {t : ThreadRef} : (T.reap t).Ok := by
  refine h.freeSlots (S := (· = t)) rfl ?_ ?_ (fun _ _ hp => hp) fun _ _ hp => hp
  · rintro t' rfl
    simp [Table.reap]
  · intro t' hne
    simp [Table.reap, hne]

theorem Ok.free {j : PIdx} : (T.free j).Ok := by
  refine h.freeSlots (S := fun t => t.p = j) rfl ?_ ?_ ?_ ?_
  · intro t ht
    simp [ht]
  · intro t ht
    simp [ht]
  · intro t ht hp
    simpa [ht] using hp
  · intro t ht hp
    simpa [ht] using hp

/-- A fresh id for the slot `x`, which may change its state as well: a slot in use needs a process
    in use and no never-used slot before it, and a free one no trapframe. -/
theorem Ok.fresh {x : ThreadRef} (hnext : T'.nexttid = T.nexttid + 1)
    (hproc : T'.proc = T.proc) (hout : ∀ t, t ≠ x → T'.slot t = T.slot t)
    (hid : (T'.slot x).tid = T.nexttid)
    (huse : (T'.slot x).state ≠ .unused → T.proc x.p = .used ∧
      ∀ a < x.i, (T.slot ⟨x.p, a⟩).state = .unused → (T.slot ⟨x.p, a⟩).trapframe = 0)
    (hfree : (T'.slot x).state = .unused → (T'.slot x).trapframe = 0)
    (hparent : (T'.slot x).trapframe ≠ 0 → (T'.slot x).tparent = some x.p) : T'.Ok := by
  have hpos : 0 < T.nexttid := by
    have h1 := h.tid_nonneg x
    have h2 := h.tid_lt x
    omega
  have hprocs := congrFun hproc
  have hslot : ∀ t, t = x ∨ T'.slot t = T.slot t := fun t => or_iff_not_imp_left.2 (hout t)
  refine ⟨fun t => ?_, fun t => ?_, fun p a b => ?_, fun t => ?_, fun t => ?_, fun t => ?_,
    fun t t' => ?_, fun t => ?_⟩
  · have := h.alive t
    grind [ThreadState.dead]
  · have := h.unused t
    grind
  · have := h.order p a b
    grind
  · grind [h.tid_nonneg t]
  · grind [h.tid_lt t]
  · have := h.tid_pos t
    grind
  · -- the fresh id is above every other one
    grind [h.tid_inj t t', h.tid_lt t, h.tid_lt t']
  · have := h.tparent t
    grind

theorem Ok.create {t : ThreadRef} (hp : T.proc t.p = .used) (hk : T.FirstUnused t) : (T.create t).Ok := by
  refine h.fresh (x := t) rfl rfl (fun t' ht' => ?_) ?_ (fun _ => ⟨hp, fun a ha hu => ?_⟩)
    (fun hu => ?_) fun _ => ?_
  · simp [ht']
  · simp
  · exact absurd hu (hk.first a ha)
  · simp at hu
  · simp

theorem Ok.createFault {t : ThreadRef} (hp : T.proc t.p = .used)
    (hk : T.FirstUnused t) (htf : (T.slot t).trapframe = 0) : (T.createFault t).Ok := by
  refine h.fresh (x := t) rfl rfl (fun t' ht' => ?_) ?_ (fun _ => ⟨hp, fun a ha hu => ?_⟩)
    (fun hu => ?_) fun hne => ?_
  · simp [ht']
  · simp
  · exact absurd hu (hk.first a ha)
  · simp at hu
  · simp [htf] at hne

end

/-- The trapframe pointers of a process that `allocproc` has found. -/
def setTrapframes (T : Table) (j : PIdx) (tf : Nat) : Table :=
  { T with
    slot := fun t =>
      if t.p = j then { T.slot t with trapframe := tf + sizeofTrapframe * t.i } else T.slot t
    proc := update T.proc j .used }

theorem Ok.setTrapframes {j : PIdx} {tf : Nat} (h : T.Ok) (hj : T.proc j = .unused) :
    (T.setTrapframes j tf).Ok := by
  have hslot : ∀ t, (T.setTrapframes j tf).slot t =
      if t.p = j then { T.slot t with trapframe := tf + sizeofTrapframe * t.i } else T.slot t := fun _ => rfl
  have hproc : ∀ p, (T.setTrapframes j tf).proc p = if p = j then .used else T.proc p := fun _ =>
    update_apply ..
  refine ⟨fun t => ?_, fun t => ?_, fun p a b => ?_, fun t => ?_, fun t => ?_, fun t => ?_,
    fun t t' => ?_, fun t => ?_⟩
  · grind [h.alive t]
  · grind [h.unused t]
  · grind [h.order p a b, h.unused ⟨p, b⟩]
  · grind [h.tid_nonneg t]
  · grind [Table.setTrapframes, h.tid_lt t]
  · have := h.tid_pos t
    grind
  · grind [h.tid_inj t t']
  · grind [ThreadState.dead, h.tparent t, h.unused t]

theorem Ok.alloc {j : PIdx} {tf : Nat} (h : T.Ok) (hj : T.proc j = .unused) : (T.alloc j tf).Ok := by
  have hset : (T.setTrapframes j tf).Ok := h.setTrapframes hj
  refine hset.fresh (x := ⟨j, 0⟩) rfl rfl (fun t ht => ?_) ?_ (fun _ => ⟨?_, fun a ha => ?_⟩)
    (fun hu => ?_) fun _ => ?_
  · have hi : t.p = j → t.i ≠ 0 := fun hp hi => ht (by cases t; simp_all)
    simp only [Table.alloc, Table.setTrapframes]
    split
    · next hp => simp [hi hp]
    · rfl
  · simp [Table.setTrapframes]
  · simp [Table.setTrapframes]
  · exact absurd ha (Nat.not_lt_zero _)
  · simp at hu
  · simp

theorem Ok.allocFail {j : PIdx} (h : T.Ok) : (T.allocFail j).Ok := by
  refine (h.free (j := j)).fresh (x := ⟨j, 0⟩) rfl rfl (fun t ht => ?_) ?_ (fun hu => ?_)
    (fun _ => ?_) fun hne => ?_
  · have hi : t.p = j → t.i ≠ 0 := fun hp hi => ht (by cases t; simp_all)
    simp only [Table.allocFail, Table.free]
    split
    · next hp => simp [hi hp]
    · rfl
  · simp
  · simp at hu
  · simp
  · simp at hne

/-- **Every move keeps the invariant of the tables.** -/
theorem Move.ok (hm : Move T T') (h : T.Ok) : T'.Ok := by
  have hlive : ∀ t, (T.slot t).state = .running → (T.slot t).state.dead = false := fun t ht => by
    rw [ht]; rfl
  cases hm with
  | stay => exact h
  | leave t st ht hst => exact h.setState (hlive t ht) (by rcases hst with rfl | rfl | rfl <;> nofun)
  | start t ht => exact h.setState (by rw [ht]; rfl) nofun
  | wake p S hS => exact h.wake hS
  | exit t ht hrest => exact h.exit ht hrest
  | alloc j tf hj _ => exact h.alloc hj
  | allocFail j hj => exact h.allocFail
  | free j hj => exact h.free
  | forkRun j hj => exact h.setState (by rw [hj.first]; rfl) nofun
  | create t k ht hk htf => exact h.create (h.alive t (hlive t ht)) hk
  | createFault t k ht hk htf => exact h.createFault (h.alive t (hlive t ht)) hk htf
  | reap t _ => exact h.reap

/-! ### Processes that are being set up -/

/-- A slot is `t_USED` only in a process that `fork` is setting up. -/
def UsedAlone (T : Table) : Prop := ∀ t, (T.slot t).state = .used → T.Embryo t.p

theorem Embryo.congr {j : PIdx} (h : T.Embryo j) (hproc : T'.proc j = T.proc j)
    (hslot : ∀ i, T'.slot ⟨j, i⟩ = T.slot ⟨j, i⟩) : T'.Embryo j where
  proc := hproc.trans h.proc
  first := by rw [hslot]; exact h.first
  rest := fun i hi => by rw [hslot]; exact h.rest i hi
  trapframe := by rw [hslot]; exact h.trapframe

/-- A process with a slot in any other state than `t_USED` and `t_UNUSED` is not being set up. -/
theorem UsedAlone.busy {t : ThreadRef} (t0 : ThreadRef) (h : T.UsedAlone) (hused : (T.slot t0).state ≠ .used)
    (hunused : (T.slot t0).state ≠ .unused) (hp : t.p = t0.p) : (T.slot t).state ≠ .used := by
  intro ht
  have hembryo := h t ht
  rw [hp] at hembryo
  rcases hembryo.state with hst | hst
  · exact hused hst
  · exact hunused hst

theorem UsedAlone.elsewhere {q : PIdx} (h : T.UsedAlone)
    (hq : ∀ t, t.p = q → (T'.slot t).state ≠ .used) (hslot : ∀ t, t.p ≠ q → T'.slot t = T.slot t)
    (hproc : ∀ j, j ≠ q → T'.proc j = T.proc j) : T'.UsedAlone := by
  intro t ht
  have hp : t.p ≠ q := fun hp => hq t hp ht
  rw [hslot t hp] at ht
  exact (h t ht).congr (hproc _ hp) fun i => hslot ⟨t.p, i⟩ hp

theorem UsedAlone.setState {t : ThreadRef} {st : ThreadState} (h : T.UsedAlone)
    (hrest : ∀ t', t'.p = t.p → t' ≠ t → (T.slot t').state ≠ .used) (hst : st ≠ .used) :
    (T.setState t st).UsedAlone := by
  refine h.elsewhere (q := t.p) (fun t' hp => ?_) (fun t' hp => ?_) fun _ _ => rfl
  · rw [setState_slot]
    split
    · exact hst
    · next hne => exact hrest t' hp hne
  · exact setState_other fun he => hp (he ▸ rfl)

theorem UsedAlone.alloc {j : PIdx} {tf : Nat} (h : T.UsedAlone) (hok : T.Ok)
    (hj : T.proc j = .unused) (htf : tf ≠ 0) : (T.alloc j tf).UsedAlone := by
  intro t ht
  by_cases hp : t.p = j
  · subst hp
    refine ⟨by simp, by simp, fun i hi => ?_, by simp [htf]⟩
    simp [hi, hok.unused ⟨t.p, i⟩ hj]
  · rw [alloc_other hp] at ht
    exact (h t ht).congr (by simp [hp]) fun i => alloc_other hp

theorem Move.used (hm : Move T T') (hok : T.Ok) (h : T.UsedAlone) : T'.UsedAlone := by
  -- the process of a thread that runs, waits or has ended is not being set up
  have hbusy : ∀ {t0 : ThreadRef} {st : ThreadState}, (T.slot t0).state = st → st ≠ .used →
      st ≠ .unused → ∀ t, t.p = t0.p → (T.slot t).state ≠ .used := by
    rintro t0 st rfl hused hunused t hp
    exact h.busy t0 hused hunused hp
  -- a change of one slot of such a process
  have hslot : ∀ {t0 t : ThreadRef} {st : ThreadState}, (T.slot t0).state = st → st ≠ .used → st ≠ .unused →
      (T'.slot t).state ≠ .used → (∀ t', t' ≠ t → T'.slot t' = T.slot t') →
      (∀ j, j ≠ t.p → T'.proc j = T.proc j) → t.p = t0.p → T'.UsedAlone := by
    intro t0 t st hst hused hunused hnew hother hproc hp
    refine h.elsewhere (q := t.p) (fun t' hp' => ?_) (fun t' hp' => hother t' fun he => hp' (he ▸ rfl)) hproc
    by_cases he : t' = t
    · exact he ▸ hnew
    · rw [hother t' he]
      exact hbusy hst hused hunused t' (hp'.trans hp)
  cases hm with
  | stay => exact h
  | leave t st ht hst =>
    refine h.setState (fun t' hp _ => hbusy ht nofun nofun t' hp) ?_
    rcases hst with rfl | rfl | rfl <;> nofun
  | start t ht => exact h.setState (fun t' hp _ => hbusy ht nofun nofun t' hp) nofun
  | wake p S hS =>
    intro t ht
    have hsame : ∀ i, ¬ (t.p = p ∧ S i = true) := by
      rintro i ⟨rfl, hi⟩
      have hused : (T.slot t).state = .used := by
        by_cases hti : t.p = t.p ∧ S t.i = true
        · simp [Table.wake, hti] at ht
        · rwa [wake_other hti] at ht
      exact hbusy (hS i hi) nofun nofun t rfl hused
    rw [wake_other (hsame t.i)] at ht
    exact (h t ht).congr rfl fun i => wake_other (t := ⟨t.p, i⟩) (hsame i)
  | exit t ht hrest =>
    refine hslot ht nofun nofun (by simp [Table.setState]) (fun t' he => exit_other he) (fun j hj => ?_) rfl
    simp [hj]
  | alloc j tf hj htf => exact h.alloc hok hj htf
  | allocFail j hj =>
    refine h.elsewhere (q := j) (fun t hp => ?_) (fun t hp => allocFail_other hp) fun j' hj' => ?_
    · by_cases hi : t.i = 0 <;> simp [hp, hi]
    · simp [hj']
  | free j hj =>
    refine h.elsewhere (q := j) (fun t hp => ?_) (fun t hp => free_other hp) fun j' hj' => ?_
    · simp [hp]
    · simp [hj']
  | forkRun j hj =>
    refine h.setState (fun t hp hne => ?_) nofun
    have hi : t.i ≠ 0 := fun hi => hne (by cases t; simp_all)
    have hrest := hj.rest t.i hi
    rw [← show t.p = j from hp] at hrest
    rw [hrest]
    nofun
  | create t k ht hk htf =>
    exact hslot (t := ⟨t.p, k⟩) ht nofun nofun (by simp) (fun t' he => create_other he) (fun _ _ => rfl) rfl
  | createFault t k ht hk htf =>
    exact hslot (t := ⟨t.p, k⟩) ht nofun nofun (by simp) (fun t' he => createFault_other he)
      (fun _ _ => rfl) rfl
  | reap t ht =>
    exact hslot ht nofun nofun (by simp [Table.reap]) (fun t' he => reap_other he) (fun _ _ => rfl) rfl

end Table

end Xv6
