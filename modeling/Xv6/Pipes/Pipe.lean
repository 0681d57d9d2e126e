import Xv6.Structures.Fifo
import Xv6.Structures.Runs

set_option autoImplicit false

/-! # Pipes (`pipe.c`)

Any number of threads in `pipewrite`, `piperead` and `pipeclose` on one pipe. What a thread does
next is given by where it is (`code`), and the accesses that other threads may come between are
steps of their own. `sleep` and `wakeup` are single steps: both hold the lock of the sleeper's
process while they look at it or change it, and the pipe's lock is held when they are called. The
flag `p->killed` may be set at any moment, and a thread may be roused for reasons that have nothing
to do with the pipe. User memory is that of the process, and can change between any two steps. When
both ends are closed the page of the pipe is freed, and the model says no more about threads that
still use it. -/

namespace Xv6.Pipes

open Function Option Structures

def PIPESIZE : Nat := 512

instance : NeZero PIPESIZE := ⟨by decide⟩

/-- The channels `&pi->nread` and `&pi->nwrite`. -/
inductive Chan
  | nread
  | nwrite
deriving DecidableEq

/-- Where a thread is; `n` is the length of the request and `i` the number of bytes so far. -/
inductive Pc
  | idle
  | writeAcquire (n i : Int)
  | writeLoop (n i : Int)
  | writeKilled (n i : Int)
  | writeFull (n i : Int)
  /-- `wakeup` and `sleep` of a writer that found the buffer full. -/
  | writeWake (n i : Int)
  | writeBlock (n i : Int)
  | writeSleep (n i : Int)
  | writeCopy (n i : Int)
  | writeDone (n i : Int)
  | writeRelease (n i : Int)
  | readAcquire (n : Int)
  | readLoop (n : Int)
  | readKilled (n : Int)
  | readBlock (n : Int)
  | readSleep (n : Int)
  | readFor (n i : Int)
  /-- `copyout` of a byte that has been taken. -/
  | readOut (n i : Int) (ch : BitVec 8)
  | readDone (n i : Int)
  | readRelease (n i : Int)
  /-- The exits of `pipewrite` and `piperead` with -1. -/
  | writeFail
  | readFail
  | closeAcquire (writable : Bool)
  | closeSet (writable : Bool)
  | closeWake (writable : Bool)
  | closeTest
  | closeRelease
  /-- `release` and `kfree` when both ends are closed. -/
  | closeLast
  | closeKfree
  | ret (r : Int)
deriving DecidableEq

/-- The threads `T` of the processes `P` and their pipe. -/
structure Pipe (P T : Type) where
  data : Fin PIPESIZE → BitVec 8
  nread : BitVec 32
  nwrite : BitVec 32
  readopen : Bool
  writeopen : Bool
  lock : Option T
  freed : Bool
  killed : P → Bool
  /-- User memory, and the argument `addr` of the call that a thread is in. -/
  mem : P → BitVec 64 → BitVec 8
  addr : T → BitVec 64
  pc : T → Pc

inductive Act (P T : Type)
  | pipewrite (t : T) (addr : BitVec 64) (n : Int)
  | piperead (t : T) (addr : BitVec 64) (n : Int)
  | pipeclose (t : T) (writable : Bool)
  | run (t : T)
  /-- `copyin` and `copyout` of a byte, which return -1 if the address is not mapped. -/
  | copyin (t : T) (ok : Bool)
  | copyout (t : T) (ok : Bool)
  | kill (p : P)
  | rouse (t : T)
  /-- A process writes to its memory. -/
  | user (p : P) (mem : BitVec 64 → BitVec 8)

/-- The thread that makes a call, and where it is then. -/
def Act.entry {P T : Type} : Act P T → Option (T × Pc)
  | .pipewrite t _ n => some (t, .writeAcquire n 0)
  | .piperead t _ n => some (t, .readAcquire n)
  | .pipeclose t w => some (t, .closeAcquire w)
  | _ => none

/-- The address that is passed to the call. -/
def Act.base {P T : Type} : Act P T → BitVec 64
  | .pipewrite _ addr _ | .piperead _ addr _ => addr
  | _ => 0

/-- The act has to do only with threads that sleep, or with user memory. -/
def Act.rouses {P T : Type} : Act P T → Bool
  | .kill _ | .rouse _ | .user _ _ => true
  | _ => false

/-- What a thread does in one step, and where it is then. -/
inductive Instr
  | wait
  | goto (k : Pc)
  | acquire (k : Pc)
  | release (k : Pc)
  | wakeup (c : Chan) (k : Pc)
  | shut (writable : Bool) (k : Pc)
  | take (n i : Int)
  | kfree

variable {P T : Type}

namespace Pipe

/-- The functions of `pipe.c`; `killed` is `pr->killed`. -/
def code (s : Pipe P T) (killed : Bool) : Pc → Instr
  | .idle => .wait
  | .writeAcquire n i => .acquire (.writeLoop n i)
  | .writeLoop n i =>
    if i < n then .goto (if s.readopen then .writeKilled n i else .writeFail) else .goto (.writeDone n i)
  | .writeKilled n i => .goto (if killed then .writeFail else .writeFull n i)
  | .writeFull n i =>
    .goto (if s.nwrite = s.nread + BitVec.ofNat 32 PIPESIZE then .writeWake n i else .writeCopy n i)
  | .writeWake n i => .wakeup .nread (.writeBlock n i)
  | .writeBlock n i => .release (.writeSleep n i)
  | .writeSleep _ _ => .wait
  | .writeCopy _ _ => .wait
  | .writeDone n i => .wakeup .nread (.writeRelease n i)
  | .writeRelease _ i => .release (.ret i)
  | .readAcquire n => .acquire (.readLoop n)
  | .readLoop n => .goto (if s.nread = s.nwrite ∧ s.writeopen = true then .readKilled n else .readFor n 0)
  | .readKilled n => .goto (if killed then .readFail else .readBlock n)
  | .readBlock n => .release (.readSleep n)
  | .readSleep _ => .wait
  | .readFor n i =>
    if i < n then if s.nread = s.nwrite then .goto (.readDone n i) else .take n i
    else .goto (.readDone n i)
  | .readOut _ _ _ => .wait
  | .readDone n i => .wakeup .nwrite (.readRelease n i)
  | .readRelease _ i => .release (.ret i)
  | .writeFail => .release (.ret (-1))
  | .readFail => .release (.ret (-1))
  | .closeAcquire w => .acquire (.closeSet w)
  | .closeSet w => .shut w (.closeWake w)
  | .closeWake w => .wakeup (if w then .nread else .nwrite) .closeTest
  | .closeTest =>
    .goto (if s.readopen = false ∧ s.writeopen = false then .closeLast else .closeRelease)
  | .closeRelease => .release (.ret 0)
  | .closeLast => .release .closeKfree
  | .closeKfree => .kfree
  | .ret _ => .goto .idle

end Pipe

namespace Pc

/-- A thread that sleeps becomes runnable, and `sleep` takes the pipe's lock again. -/
def rouse : Pc → Pc
  | writeSleep n i => writeAcquire n i
  | readSleep n => readAcquire n
  | pc => pc

/-- The channel on which the thread sleeps. -/
def chan : Pc → Option Chan
  | writeSleep _ _ => some .nwrite
  | readSleep _ => some .nread
  | _ => none

/-- The thread has the pipe's lock. -/
def locked : Pc → Bool
  | idle | writeAcquire _ _ | writeSleep _ _ | readAcquire _ | readSleep _ | closeAcquire _ | closeKfree
  | ret _ => false
  | _ => true

/-- The thread has nothing more to do with the pipe. -/
def outside : Pc → Bool
  | idle | ret _ => true
  | _ => false

end Pc

/-- What an instruction does to the lock. -/
def Instr.Locks (pc : Pc) : Instr → Prop
  | .wait => True
  | .goto k => k.locked = pc.locked ∧ k.chan = none
  | .acquire k => pc.locked = false ∧ k.locked = true
  | .release k => pc.locked = true ∧ k.locked = false
  | .wakeup _ k | .shut _ k => pc.locked = true ∧ k.locked = true
  | .take _ _ => pc.locked = true
  | .kfree => pc.locked = false

namespace Pipe

def at_ [DecidableEq T] (s : Pipe P T) (t : T) (k : Pc) : Pipe P T := { s with pc := update s.pc t k }

/-- Rouse the threads for which `f` holds. -/
def rouse (s : Pipe P T) (f : T → Bool) : Pipe P T :=
  { s with pc := fun u => if f u then (s.pc u).rouse else s.pc u }

def wakeup (s : Pipe P T) (c : Chan) : Pipe P T := s.rouse fun u => (s.pc u).chan = some c

def exec [DecidableEq T] (s : Pipe P T) (t : T) : Instr → Option (Pipe P T)
  | .wait => none
  | .goto k => some (s.at_ t k)
  | .acquire k => if s.lock = none then some { s.at_ t k with lock := some t } else none
  | .release k => some { s.at_ t k with lock := none }
  | .wakeup c k => some ((s.wakeup c).at_ t k)
  | .shut w k =>
    some { s.at_ t k with
      readopen := s.readopen && w
      writeopen := s.writeopen && !w }
  | .take n i =>
    some { s.at_ t (.readOut n i (s.data (slot PIPESIZE s.nread))) with nread := s.nread + 1 }
  | .kfree => some { s.at_ t (.ret 0) with freed := true }

/-- A byte goes into the buffer. -/
def put (s : Pipe P T) (ch : BitVec 8) : Pipe P T :=
  { s with
    data := update s.data (slot PIPESIZE s.nwrite) ch
    nwrite := s.nwrite + 1 }

/-- The thread begins a call. -/
def enter [DecidableEq T] (s : Pipe P T) (t : T) (addr : BitVec 64) (k : Pc) : Pipe P T :=
  { s.at_ t k with addr := update s.addr t addr }

/-- The address of byte `i` of the thread's buffer. -/
def place (s : Pipe P T) (t : T) (i : Int) : BitVec 64 := s.addr t + BitVec.ofInt 64 i

/-- The memory after a byte has been copied out. -/
def store [DecidableEq P] (s : Pipe P T) (p : P) (a : BitVec 64) (ch : BitVec 8) : P → BitVec 64 → BitVec 8 :=
  update s.mem p (update (s.mem p) a ch)

def step [DecidableEq P] [DecidableEq T] (proc : T → P) (s : Pipe P T) : Act P T → Option (Pipe P T)
  | .pipewrite t addr n => if s.pc t = .idle then some (s.enter t addr (.writeAcquire n 0)) else none
  | .piperead t addr n => if s.pc t = .idle then some (s.enter t addr (.readAcquire n)) else none
  | .pipeclose t w => if s.pc t = .idle then some (s.enter t 0 (.closeAcquire w)) else none
  | .run t =>
    if s.freed = true ∧ (s.pc t).outside = false then none
    else s.exec t (s.code (s.killed (proc t)) (s.pc t))
  | .copyin t ok =>
    match s.freed, s.pc t, ok with
    | false, .writeCopy n i, true => some ((s.put (s.mem (proc t) (s.place t i))).at_ t (.writeLoop n (i + 1)))
    | false, .writeCopy n i, false => some (s.at_ t (.writeDone n i))
    | _, _, _ => none
  | .copyout t ok =>
    match s.freed, s.pc t, ok with
    | false, .readOut n i ch, true =>
      some { s.at_ t (.readFor n (i + 1)) with mem := s.store (proc t) (s.place t i) ch }
    | false, .readOut n i _, false => some (s.at_ t (.readDone n i))
    | _, _, _ => none
  | .kill p => some { s.rouse (fun u => proc u = p) with killed := update s.killed p true }
  | .rouse t => some (s.rouse fun u => u = t)
  | .user p mem => some { s with mem := update s.mem p mem }

/-- `pipealloc`: both ends are open and nothing has been written. -/
structure Fresh (s : Pipe P T) : Prop where
  nread : s.nread = 0
  nwrite : s.nwrite = 0
  readopen : s.readopen = true
  writeopen : s.writeopen = true
  lock : s.lock = none
  freed : s.freed = false
  pc : ∀ t, s.pc t = .idle

end Pipe

/-! ## The lock, and what its holder knows -/

namespace Pipe

def Full (s : Pipe P T) : Prop := s.nwrite = s.nread + BitVec.ofNat 32 PIPESIZE

def Drained (s : Pipe P T) : Prop := s.nread = s.nwrite

/-- What a thread has found out about the pipe since it took the lock. -/
def Knows (s : Pipe P T) : Pc → Prop
  | .writeKilled n i | .writeFull n i => i < n ∧ s.readopen = true
  | .writeWake _ _ | .writeBlock _ _ => s.Full ∧ s.readopen = true
  | .writeCopy n i => i < n ∧ s.readopen = true ∧ ¬ s.Full
  | .readKilled _ | .readBlock _ => s.Drained ∧ s.writeopen = true
  | .readFor _ i => 0 ≤ i ∧ (i = 0 → s.Drained → s.writeopen = false)
  | .readOut _ i _ => 0 ≤ i
  | _ => True

/-- Threads in a critical section have the lock, and what they know is true. -/
structure Ok (s : Pipe P T) : Prop where
  lock : ∀ u, (s.pc u).locked = true ↔ s.lock = some u
  knows : ∀ u, s.Knows (s.pc u)

/-- The counters and the ends are the same. -/
structure Same (s s' : Pipe P T) : Prop where
  nread : s'.nread = s.nread
  nwrite : s'.nwrite = s.nwrite
  readopen : s'.readopen = s.readopen
  writeopen : s'.writeopen = s.writeopen

variable {s s' : Pipe P T} {t u : T} {k pc : Pc} {c : Chan} {killed : Bool}

theorem Same.full (h : Same s s') : s'.Full ↔ s.Full := by
  rw [Full, Full, h.nread, h.nwrite]

theorem Same.drained (h : Same s s') : s'.Drained ↔ s.Drained := by
  rw [Drained, Drained, h.nread, h.nwrite]

theorem Same.knows (h : Same s s') : s'.Knows pc ↔ s.Knows pc := by
  cases pc <;> simp only [Knows, h.full, h.drained, h.readopen, h.writeopen]

theorem knows_of_unlocked (h : pc.locked = false) : s.Knows pc := by
  cases pc <;> trivial

theorem rouse_knows (h : s.Knows pc) : s.Knows pc.rouse := by
  cases pc with
  | writeSleep n i | readSleep n => trivial
  | _ => exact h

theorem rouse_locked (pc : Pc) : pc.rouse.locked = pc.locked := by
  cases pc <;> rfl

theorem rouse_chan (pc : Pc) : pc.rouse.chan = none := by
  cases pc <;> rfl

theorem entry_outside {a : Act P T} (h : a.entry = some (t, k)) : k.locked = false ∧ k.chan = none := by
  cases a with
  | pipewrite v n | piperead v n | pipeclose v w =>
    cases h
    exact ⟨rfl, rfl⟩
  | _ => cases h

theorem chan_unlocked (h : pc.chan = some c) : pc.locked = false := by
  cases pc <;> first | rfl | cases h

theorem code_locks (s : Pipe P T) (killed : Bool) (pc : Pc) : (s.code killed pc).Locks pc := by
  cases pc <;> simp only [code] <;> (repeat' split) <;> simp [Instr.Locks, Pc.locked, Pc.chan]

theorem locks_of_code {x : Instr} (h : s.code killed pc = x) : x.Locks pc := by
  rw [← h]
  exact code_locks s killed pc

/-- What the thread knows after a test or a `wakeup`. -/
def Learns (s : Pipe P T) : Instr → Prop
  | .goto k | .wakeup _ k => s.Knows k
  | _ => True

theorem code_learns (h : s.Knows pc) : s.Learns (s.code killed pc) := by
  cases pc with
  | writeLoop n i =>
    rw [code]
    split
    · next hlt =>
      cases hopen : s.readopen with
      | false => trivial
      | true => exact ⟨hlt, hopen⟩
    · trivial
  | writeKilled n i | readKilled n =>
    cases killed with
    | false => exact h
    | true => trivial
  | writeFull n i =>
    rw [code, Learns]
    split
    · next hfull => exact ⟨hfull, h.2⟩
    · next hfull => exact ⟨h.1, h.2, hfull⟩
  | writeWake n i => exact h
  | readLoop n =>
    rw [code, Learns]
    split
    · next hempty => exact hempty
    · next hnot => exact ⟨le_rfl, fun _ hempty => Bool.eq_false_iff.2 fun hopen => hnot ⟨hempty, hopen⟩⟩
  | readFor n i =>
    rw [code]
    split
    · split <;> trivial
    · trivial
  | closeTest =>
    rw [code, Learns]
    split <;> trivial
  | _ => trivial

/-- A turn of `t`, during which others may be roused. -/
structure Turn (s s' : Pipe P T) (t : T) (k : Pc) : Prop where
  pc : s'.pc t = k
  others : ∀ u, u ≠ t → s'.pc u = s.pc u ∨ s'.pc u = (s.pc u).rouse

theorem Turn.locked (h : Turn s s' t k) (hne : u ≠ t) : (s'.pc u).locked = (s.pc u).locked := by
  rcases h.others u hne with heq | heq
  · rw [heq]
  · rw [heq, rouse_locked]

theorem Ok.unlocked (h : Ok s) (ht : (s.pc t).locked = true) (hne : u ≠ t) : (s.pc u).locked = false := by
  cases hu : (s.pc u).locked with
  | false => rfl
  | true =>
    have heq := ((h.lock t).1 ht).symm.trans ((h.lock u).1 hu)
    exact absurd (some.inj heq).symm hne

theorem Ok.held (h : Ok s) (ht : (s.pc t).locked = true) (hturn : Turn s s' t k) (hlock : s'.lock = s.lock)
    (hk : k.locked = true) (hknows : s'.Knows k) : Ok s' where
  lock := by
    intro u
    by_cases hu : u = t
    · subst hu
      rw [hturn.pc, hk, hlock, (h.lock u).1 ht]
      simp
    · rw [hturn.locked hu, hlock]
      exact h.lock u
  knows := by
    intro u
    by_cases hu : u = t
    · rw [hu, hturn.pc]
      exact hknows
    · exact knows_of_unlocked ((hturn.locked hu).trans (h.unlocked ht hu))

theorem Ok.unheld (h : Ok s) (ht : (s.pc t).locked = false) (hturn : Turn s s' t k) (hlock : s'.lock = s.lock)
    (hk : k.locked = false) (hsame : Same s s') : Ok s' where
  lock := by
    intro u
    by_cases hu : u = t
    · have hold := h.lock u
      rw [hu, hturn.pc, hk, hlock]
      rwa [hu, ht] at hold
    · rw [hturn.locked hu, hlock]
      exact h.lock u
  knows := by
    intro u
    by_cases hu : u = t
    · rw [hu, hturn.pc]
      exact knows_of_unlocked hk
    rw [hsame.knows]
    rcases hturn.others u hu with heq | heq
    · rw [heq]
      exact h.knows u
    · rw [heq]
      exact rouse_knows (h.knows u)

theorem Ok.rouse (h : Ok s) (f : T → Bool) (κ : P → Bool) (μ : P → BitVec 64 → BitVec 8) :
    Ok { s.rouse f with killed := κ, mem := μ } where
  lock := by
    intro u
    show (if f u then (s.pc u).rouse else s.pc u).locked = true ↔ s.lock = some u
    split
    · rw [rouse_locked]
      exact h.lock u
    · exact h.lock u
  knows := by
    intro u
    have hknows : s.Knows (if f u then (s.pc u).rouse else s.pc u) := by
      split
      · exact rouse_knows (h.knows u)
      · exact h.knows u
    exact (Same.knows ⟨rfl, rfl, rfl, rfl⟩).2 hknows

theorem Fresh.ok (h : Fresh s) : Ok s := by
  refine ⟨fun u => ?_, fun u => ?_⟩
  · rw [h.pc u, h.lock]
    exact ⟨nofun, nofun⟩
  · rw [h.pc u]
    trivial

theorem code_shut {w : Bool} (h : s.code killed pc = .shut w k) : pc = .closeSet w ∧ k = .closeWake w := by
  cases pc <;> grind [code]

theorem code_take {n i : Int} (h : s.code killed pc = .take n i) : pc = .readFor n i ∧ i < n ∧ ¬ s.Drained := by
  cases pc <;> grind [code, Drained]

theorem code_kfree (h : s.code killed pc = .kfree) : pc = .closeKfree := by
  cases pc <;> grind [code]

theorem code_acquire (h : s.code killed pc = .acquire k) (s' : Pipe P T) : s'.Knows k := by
  cases pc <;> grind [code, Knows]

/-! ## The steps -/

variable [DecidableEq T]

/-- Everything that a step may do. -/
inductive Effect [DecidableEq P] (proc : T → P) (s : Pipe P T) : Act P T → Pipe P T → Prop
  | enter {a : Act P T} (t : T) (k : Pc) (ha : a.entry = some (t, k)) (hpc : s.pc t = .idle) :
      Effect proc s a (s.enter t a.base k)
  | goto (t : T) (k : Pc) (hc : s.code (s.killed (proc t)) (s.pc t) = .goto k) :
      Effect proc s (.run t) (s.at_ t k)
  | acquire (t : T) (k : Pc) (hc : s.code (s.killed (proc t)) (s.pc t) = .acquire k) (hfree : s.lock = none) :
      Effect proc s (.run t) { s.at_ t k with lock := some t }
  | release (t : T) (k : Pc) (hc : s.code (s.killed (proc t)) (s.pc t) = .release k) :
      Effect proc s (.run t) { s.at_ t k with lock := none }
  | wakeup (t : T) (c : Chan) (k : Pc) (hc : s.code (s.killed (proc t)) (s.pc t) = .wakeup c k) :
      Effect proc s (.run t) ((s.wakeup c).at_ t k)
  | shut (t : T) (w : Bool) (hpc : s.pc t = .closeSet w) :
      Effect proc s (.run t) { s.at_ t (.closeWake w) with
        readopen := s.readopen && w
        writeopen := s.writeopen && !w }
  | take (t : T) (n i : Int) (hpc : s.pc t = .readFor n i) (hlt : i < n) (hdata : ¬ s.Drained) :
      Effect proc s (.run t)
        { s.at_ t (.readOut n i (s.data (slot PIPESIZE s.nread))) with nread := s.nread + 1 }
  | kfree (t : T) (hpc : s.pc t = .closeKfree) :
      Effect proc s (.run t) { s.at_ t (.ret 0) with freed := true }
  | put (t : T) (n i : Int) (hpc : s.pc t = .writeCopy n i) :
      Effect proc s (.copyin t true) ((s.put (s.mem (proc t) (s.place t i))).at_ t (.writeLoop n (i + 1)))
  | unmapped (t : T) (n i : Int) (hpc : s.pc t = .writeCopy n i) :
      Effect proc s (.copyin t false) (s.at_ t (.writeDone n i))
  | copied (t : T) (n i : Int) (ch : BitVec 8) (hpc : s.pc t = .readOut n i ch) :
      Effect proc s (.copyout t true)
        { s.at_ t (.readFor n (i + 1)) with mem := s.store (proc t) (s.place t i) ch }
  | lost (t : T) (n i : Int) (ch : BitVec 8) (hpc : s.pc t = .readOut n i ch) :
      Effect proc s (.copyout t false) (s.at_ t (.readDone n i))
  | rouse {a : Act P T} (f : T → Bool) (κ : P → Bool) (μ : P → BitVec 64 → BitVec 8) (ha : a.rouses = true) :
      Effect proc s a { s.rouse f with killed := κ, mem := μ }

theorem exec_effect [DecidableEq P] {proc : T → P}
    (h : s.exec t (s.code (s.killed (proc t)) (s.pc t)) = some s') :
    Effect proc s (.run t) s' := by
  cases hc : s.code (s.killed (proc t)) (s.pc t) with
  | wait =>
    rw [hc] at h
    cases h
  | goto k =>
    rw [hc] at h
    cases h
    exact .goto t k hc
  | acquire k =>
    rw [hc, exec] at h
    obtain ⟨hfree, ⟨⟩⟩ := ite_none_right_eq_some.1 h
    exact .acquire t k hc hfree
  | release k =>
    rw [hc] at h
    cases h
    exact .release t k hc
  | wakeup c k =>
    rw [hc] at h
    cases h
    exact .wakeup t c k hc
  | shut w k =>
    rw [hc] at h
    cases h
    obtain ⟨hpc, rfl⟩ := code_shut hc
    exact .shut t w hpc
  | take n i =>
    rw [hc] at h
    cases h
    obtain ⟨hpc, hlt, hdata⟩ := code_take hc
    exact .take t n i hpc hlt hdata
  | kfree =>
    rw [hc] at h
    cases h
    exact .kfree t (code_kfree hc)

theorem step_effect [DecidableEq P] {proc : T → P} {a : Act P T} (h : s.step proc a = some s') :
    Effect proc s a s' := by
  cases a with
  | pipewrite t a n | piperead t a n | pipeclose t w =>
    rw [step] at h
    obtain ⟨hpc, ⟨⟩⟩ := ite_none_right_eq_some.1 h
    exact .enter t _ rfl hpc
  | run t =>
    rw [step] at h
    split at h
    · cases h
    · exact exec_effect h
  | copyin t ch =>
    simp only [step] at h
    split at h
    · next hpc =>
      cases h
      exact .put t _ _ hpc
    · next hpc =>
      cases h
      exact .unmapped t _ _ hpc
    · cases h
  | copyout t ok =>
    simp only [step] at h
    split at h
    · next hpc =>
      cases h
      exact .copied t _ _ _ hpc
    · next hpc =>
      cases h
      exact .lost t _ _ _ hpc
    · cases h
  | kill p =>
    cases h
    exact .rouse _ _ s.mem rfl
  | rouse t =>
    cases h
    exact .rouse _ s.killed s.mem rfl
  | user p mem =>
    cases h
    exact .rouse (fun _ => false) s.killed _ rfl

/-! ## Every step keeps them -/

theorem turn_of_update (h : s'.pc = update s.pc t k) : Turn s s' t k where
  pc := by rw [h, update_self]
  others := fun u hu => .inl (by rw [h, update_of_ne hu])

theorem turn_wakeup (s : Pipe P T) (t : T) (c : Chan) (k : Pc) : Turn s ((s.wakeup c).at_ t k) t k where
  pc := update_self ..
  others := by
    intro u hu
    have hpc : ((s.wakeup c).at_ t k).pc u = if (s.pc u).chan = some c then (s.pc u).rouse else s.pc u := by
      show update (s.wakeup c).pc t k u = _
      rw [update_of_ne hu]
      simp only [Pipe.wakeup, Pipe.rouse, decide_eq_true_eq]
    rw [hpc]
    split
    · exact .inr rfl
    · exact .inl rfl

theorem Ok.acquire (h : Ok s) (hfree : s.lock = none) (hk : k.locked = true)
    (hknows : { s.at_ t k with lock := some t }.Knows k) : Ok { s.at_ t k with lock := some t } where
  lock := by
    intro u
    by_cases hu : u = t
    · subst hu
      show (update s.pc u k u).locked = true ↔ some u = some u
      rw [update_self, hk]
      simp
    show (update s.pc t k u).locked = true ↔ some t = some u
    rw [update_of_ne hu, h.lock u, hfree, some.injEq]
    exact ⟨nofun, fun heq => absurd heq.symm hu⟩
  knows := by
    intro u
    show Knows _ (update s.pc t k u)
    by_cases hu : u = t
    · rw [hu, update_self]
      exact hknows
    rw [update_of_ne hu]
    refine knows_of_unlocked ?_
    cases hl : (s.pc u).locked with
    | false => rfl
    | true => cases hfree.symm.trans ((h.lock u).1 hl)

theorem Ok.release (h : Ok s) (ht : (s.pc t).locked = true) (hk : k.locked = false) :
    Ok { s.at_ t k with lock := none } := by
  have hpc : ∀ u, ({ s.at_ t k with lock := none }.pc u).locked = false := by
    intro u
    show (update s.pc t k u).locked = false
    by_cases hu : u = t
    · rw [hu, update_self, hk]
    · rw [update_of_ne hu]
      exact h.unlocked ht hu
  refine ⟨fun u => ?_, fun u => knows_of_unlocked (hpc u)⟩
  rw [hpc u]
  exact ⟨nofun, nofun⟩

theorem Ok.effect [DecidableEq P] {proc : T → P} {a : Act P T} (h : Ok s)
    (he : Effect proc s a s') : Ok s' := by
  cases he with
  | enter t k ha hpc =>
    exact h.unheld (by rw [hpc]; rfl) (turn_of_update rfl) rfl (entry_outside ha).1 ⟨rfl, rfl, rfl, rfl⟩
  | goto t k hc =>
    have hlocks := code_locks s (s.killed (proc t)) (s.pc t)
    have hlearns : s.Learns (s.code (s.killed (proc t)) (s.pc t)) := code_learns (h.knows t)
    rw [hc] at hlocks hlearns
    cases ht : (s.pc t).locked with
    | false =>
      exact h.unheld ht (turn_of_update rfl) rfl (hlocks.1.trans ht) ⟨rfl, rfl, rfl, rfl⟩
    | true =>
      exact h.held ht (turn_of_update rfl) rfl (hlocks.1.trans ht) ((Same.knows ⟨rfl, rfl, rfl, rfl⟩).2 hlearns)
  | acquire t k hc hfree =>
    have hlocks := locks_of_code hc
    exact h.acquire hfree hlocks.2 (code_acquire hc _)
  | release t k hc =>
    have hlocks := locks_of_code hc
    exact h.release hlocks.1 hlocks.2
  | wakeup t c k hc =>
    have hlocks := code_locks s (s.killed (proc t)) (s.pc t)
    have hlearns : s.Learns (s.code (s.killed (proc t)) (s.pc t)) := code_learns (h.knows t)
    rw [hc] at hlocks hlearns
    exact h.held hlocks.1 (turn_wakeup s t c k) rfl hlocks.2 ((Same.knows ⟨rfl, rfl, rfl, rfl⟩).2 hlearns)
  | shut t w hpc => exact h.held (by rw [hpc]; rfl) (turn_of_update rfl) rfl rfl trivial
  | take t n i hpc _ _ =>
    have hknows := h.knows t
    rw [hpc] at hknows
    exact h.held (by rw [hpc]; rfl) (turn_of_update rfl) rfl rfl hknows.1
  | kfree t hpc => exact h.unheld (by rw [hpc]; rfl) (turn_of_update rfl) rfl rfl ⟨rfl, rfl, rfl, rfl⟩
  | put t n i hpc | unmapped t n i hpc | lost t n i ch hpc =>
    exact h.held (by rw [hpc]; rfl) (turn_of_update rfl) rfl rfl trivial
  | copied t n i ch hpc =>
    have hknows : 0 ≤ i := by
      have := h.knows t
      rwa [hpc] at this
    exact h.held (by rw [hpc]; rfl) (turn_of_update rfl) rfl rfl ⟨by omega, fun hzero => by omega⟩
  | rouse f κ μ _ => exact h.rouse f κ μ

end Pipe

end Xv6.Pipes
