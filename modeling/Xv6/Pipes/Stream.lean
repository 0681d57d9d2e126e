import Xv6.Pipes.Pipe

set_option autoImplicit false

/-! # What goes through a pipe

The bytes that `pipewrite` has put into the buffer and those that `piperead` has handed to its
caller are kept in a record (`Record`) beside the run, as they are in user memory: byte number `k`
of a call is the one at `addr + k`. What has been accepted is what has been returned, a byte that a
reader has taken and is copying out, and what is in the buffer (`Flow`). The counters are never
reset and may wrap around. User buffers are mapped: `copyin` and `copyout` do not fail, until the
last section looks at what a `copyout` that fails does to the pipe. -/

namespace Xv6.Pipes

open Function List Structures

variable {P T : Type}

/-- The call that a thread has made last; `pipeclose` asks for no bytes. -/
inductive Request
  | none
  | write (addr : BitVec 64) (n : Int)
  | read (addr : BitVec 64) (n : Int)

/-- A byte, and in which call of which thread it was passed on. -/
structure Entry (T : Type) where
  thread : T
  call : Nat
  byte : BitVec 8

/-- The calls, the bytes accepted and returned, and which threads have had a time since their call
    began at which the write end was closed and all that was accepted had been returned. -/
structure Record (T : Type) where
  calls : T → Nat
  request : T → Request
  accepted : List (Entry T)
  returned : List (Entry T)
  ended : T → Bool

namespace Record

def empty (T : Type) : Record T where
  calls := fun _ => 0
  request := fun _ => .none
  accepted := []
  returned := []
  ended := fun _ => false

variable [DecidableEq T]

/-- The bytes that the current call of `u` has written or read. -/
def part (h : Record T) (u : T) : List (Entry T) :=
  (match h.request u with
    | .none => []
    | .write _ _ => h.accepted
    | .read _ _ => h.returned).filter fun e => e.thread = u ∧ e.call = h.calls u

def begins (h : Record T) (t : T) (q : Request) : Record T :=
  { h with
    calls := update h.calls t (h.calls t + 1)
    request := update h.request t q
    ended := update h.ended t false }

def watch (h : Record T) (s : Pipe P T) : Record T :=
  { h with ended := fun u => h.ended u || !s.writeopen && h.accepted.length = h.returned.length }

def accept (h : Record T) (t : T) (ch : BitVec 8) : Record T :=
  { h with accepted := h.accepted ++ [⟨t, h.calls t, ch⟩] }

def return_ (h : Record T) (t : T) (ch : BitVec 8) : Record T :=
  { h with returned := h.returned ++ [⟨t, h.calls t, ch⟩] }

end Record

/-- The byte at `a` after the step. -/
def seen [DecidableEq P] [DecidableEq T] (proc : T → P) (s : Pipe P T) (x : Act P T) (p : P)
    (a : BitVec 64) : BitVec 8 :=
  match s.step proc x with
  | some s' => s'.mem p a
  | none => 0

def noteStream [DecidableEq P] [DecidableEq T] (proc : T → P) (s : Pipe P T) (x : Act P T)
    (h : Record T) : Record T :=
  match x with
  | .pipewrite t addr n => (h.watch s).begins t (.write addr n)
  | .piperead t addr n => (h.watch s).begins t (.read addr n)
  | .pipeclose t _ => (h.watch s).begins t .none
  | .copyin t true =>
    match h.request t with
    | .write addr _ => (h.watch s).accept t (s.mem (proc t) (addr + BitVec.ofNat 64 (h.part t).length))
    | _ => h.watch s
  | .copyout t true =>
    match h.request t with
    | .read addr _ => (h.watch s).return_ t (seen proc s x (proc t) (addr + BitVec.ofNat 64 (h.part t).length))
    | _ => h.watch s
  | _ => h.watch s

/-- The user's buffers are mapped. -/
def Mapped (_ : Pipe P T) (a : Act P T) (_ : Record T) : Prop :=
  match a with
  | .copyin _ false | .copyout _ false => False
  | _ => True

/-- Where an instruction leads that moves no byte and closes nothing. -/
def Instr.next : Instr → Option Pc
  | .goto k | .acquire k | .release k | .wakeup _ k => some k
  | _ => none

/-- The byte that a reader is copying out. -/
def Pc.carried : Pc → List (BitVec 8)
  | readOut _ _ ch => [ch]
  | _ => []

namespace Pipe

variable {s s' : Pipe P T} {t u : T} {k pc : Pc} {c : Chan} {killed : Bool} {h h' : Record T}
  {buffered : List (BitVec 8)} {addr : BitVec 64}

/-! ## The buffer -/

/-- The byte that is neither in the buffer nor with the caller. -/
def pending (s : Pipe P T) : List (BitVec 8) :=
  match s.lock with
  | some t => (s.pc t).carried
  | none => []

structure Flow (s : Pipe P T) (h : Record T) (buffered : List (BitVec 8)) : Prop where
  queue : Queued s.data s.nread buffered
  count : s.nwrite = s.nread + BitVec.ofNat 32 buffered.length
  bytes : h.accepted.map Entry.byte = h.returned.map Entry.byte ++ s.pending ++ buffered
  room : s.pending.length + buffered.length ≤ PIPESIZE

theorem carried_rouse (pc : Pc) : pc.rouse.carried = pc.carried := by
  cases pc <;> rfl

theorem pending_at (hl : s.lock = some t) (hpc : s.pc t = k) : s.pending = k.carried := by
  rw [pending, hl, ← hpc]

theorem Ok.pending (hok : Ok s) (hpc : s.pc t = k) (hk : k.locked = true) :
    s.lock = some t ∧ s.pending = k.carried := by
  have hl := (hok.lock t).1 (hpc ▸ hk)
  exact ⟨hl, pending_at hl hpc⟩

theorem Turn.pending (hturn : Turn s s' t k) (hold : (s.pc t).carried = []) (hnew : k.carried = [])
    (hlock : s'.lock = s.lock ∨ (s.lock = none ∧ s'.lock = some t) ∨ (s.lock = some t ∧ s'.lock = none)) :
    s'.pending = s.pending := by
  have hcarried : ∀ v, (s'.pc v).carried = (s.pc v).carried := fun v => by
    by_cases hv : v = t
    · rw [hv, hturn.pc, hold, hnew]
    · rcases hturn.others v hv with heq | heq <;> rw [heq]
      exact carried_rouse _
  unfold Pipe.pending
  rcases hlock with heq | ⟨hfree, htaken⟩ | ⟨htaken, hfree⟩
  · rw [heq]
    cases s.lock with
    | none => rfl
    | some v => exact hcarried v
  · rw [htaken, hfree]
    exact (hcarried t).trans hold
  · rw [htaken, hfree]
    exact hold.symm

theorem PIPESIZE_dvd : PIPESIZE ∣ 2 ^ 32 := by decide

theorem Flow.drained_iff (hf : Flow s h buffered) : s.Drained ↔ buffered = [] := by
  have hlen : buffered.length < 2 ^ 32 := by
    have := hf.room
    unfold PIPESIZE at this
    omega
  rw [Drained, hf.count]
  exact counter_eq_iff s.nread hlen

theorem Flow.room_left (hf : Flow s h buffered) (hfull : ¬ s.Full) : buffered.length < PIPESIZE := by
  have hroom := hf.room
  refine Nat.lt_of_le_of_ne (by omega) fun heq => hfull ?_
  rw [Full, hf.count, heq]

/-- A step that moves no byte. -/
theorem Flow.same (hf : Flow s h buffered) (hdata : s'.data = s.data) (hread : s'.nread = s.nread)
    (hwrite : s'.nwrite = s.nwrite) (hpending : s'.pending = s.pending) (hacc : h'.accepted = h.accepted)
    (hret : h'.returned = h.returned) : Flow s' h' buffered where
  queue := by
    rw [hdata, hread]
    exact hf.queue
  count := by
    rw [hwrite, hread]
    exact hf.count
  bytes := by
    rw [hacc, hret, hpending]
    exact hf.bytes
  room := by
    rw [hpending]
    exact hf.room

theorem Flow.take {n i : Int} [DecidableEq T] (hok : Ok s) (hf : Flow s h buffered)
    (hpc : s.pc t = .readFor n i)
    (hdata : ¬ s.Drained) :
    ∃ rest, Flow { s.at_ t (.readOut n i (s.data (slot PIPESIZE s.nread))) with nread := s.nread + 1 }
      (h.watch s) rest := by
  obtain ⟨hl, hpending⟩ : s.lock = some t ∧ s.pending = [] := hok.pending hpc rfl
  have hpending' : { s.at_ t (.readOut n i (s.data (slot PIPESIZE s.nread))) with
      nread := s.nread + 1 }.pending = [s.data (slot PIPESIZE s.nread)] :=
    pending_at (k := .readOut n i _) hl (update_self ..)
  cases buffered with
  | nil => exact absurd (hf.drained_iff.2 rfl) hdata
  | cons x rest =>
    have hx := hf.queue.1
    have hbytes := hf.bytes
    have hroom := hf.room
    rw [hpending] at hbytes hroom
    refine ⟨rest, hf.queue.2, ?_, ?_, ?_⟩
    · show s.nwrite = s.nread + 1 + BitVec.ofNat 32 rest.length
      rw [hf.count, counter_succ]
      rfl
    · rw [hpending', hx]
      simpa [Record.watch] using hbytes
    · rw [hpending']
      simp only [length_cons, length_nil] at hroom ⊢
      omega

theorem Flow.put {n i : Int} {ch : BitVec 8} [DecidableEq T] (hok : Ok s) (hf : Flow s h buffered)
    (hpc : s.pc t = .writeCopy n i) :
    Flow ((s.put ch).at_ t (.writeLoop n (i + 1))) ((h.watch s).accept t ch) (buffered ++ [ch]) := by
  obtain ⟨hl, hpending⟩ : s.lock = some t ∧ s.pending = [] := hok.pending hpc rfl
  have hknows := hok.knows t
  rw [hpc] at hknows
  have hroom := hf.room_left hknows.2.2
  have hpending' : ((s.put ch).at_ t (.writeLoop n (i + 1))).pending = [] :=
    pending_at (k := .writeLoop n (i + 1)) hl (update_self ..)
  have hbytes := hf.bytes
  rw [hpending, append_nil] at hbytes
  refine ⟨?_, ?_, ?_, ?_⟩
  · show Queued (update s.data (slot PIPESIZE s.nwrite) ch) s.nread (buffered ++ [ch])
    rw [hf.count]
    exact hf.queue.push PIPESIZE_dvd hroom
  · show s.nwrite + 1 = s.nread + BitVec.ofNat 32 (buffered ++ [ch]).length
    rw [hf.count, length_append, BitVec.ofNat_add, BitVec.add_assoc]
    rfl
  · simp [hpending', Record.accept, Record.watch, hbytes]
  · rw [hpending', length_append, length_nil, Nat.zero_add]
    exact hroom

theorem Flow.copied {n i : Int} {ch : BitVec 8} [DecidableEq T] (hok : Ok s) (hf : Flow s h buffered)
    (hpc : s.pc t = .readOut n i ch) (hpc' : s'.pc = update s.pc t (.readFor n (i + 1)))
    (hlock : s'.lock = s.lock)
    (hdata : s'.data = s.data) (hread : s'.nread = s.nread) (hwrite : s'.nwrite = s.nwrite) :
    Flow s' ((h.watch s).return_ t ch) buffered := by
  obtain ⟨hl, hpending⟩ : s.lock = some t ∧ s.pending = [ch] := hok.pending hpc rfl
  have hpending' : s'.pending = [] :=
    pending_at (k := .readFor n (i + 1)) (hlock.trans hl) (by rw [hpc', update_self])
  have hbytes := hf.bytes
  have hroom := hf.room
  rw [hpending] at hbytes
  refine ⟨by rw [hdata, hread]; exact hf.queue, by rw [hwrite, hread]; exact hf.count, ?_, ?_⟩
  · simpa [hpending', Record.return_, Record.watch] using hbytes
  · rw [hpending', length_nil]
    omega

/-! ## What a call has done -/

variable [DecidableEq T]

/-- The entries are of calls that have been made. -/
def Past (h : Record T) : Prop := ∀ e, e ∈ h.accepted ∨ e ∈ h.returned → e.call ≤ h.calls e.thread

/-- What a call that returns `r` has done. -/
def Results (h : Record T) (u : T) (r : Int) : Prop :=
  match h.request u with
  | .none => True
  | .write _ _ => r = -1 ∨ r = (h.part u).length
  | .read _ n => r = -1 ∨ r = (h.part u).length ∧ (r = 0 → 0 < n → h.ended u = true)

/-- What a call under way has done so far. -/
def Served (h : Record T) (addr : BitVec 64) (u : T) : Pc → Prop
  | .writeAcquire n i | .writeLoop n i | .writeKilled n i | .writeFull n i | .writeWake n i | .writeBlock n i
  | .writeSleep n i | .writeCopy n i | .writeDone n i | .writeRelease n i =>
    h.request u = .write addr n ∧ i = (h.part u).length
  | .readAcquire n | .readLoop n | .readKilled n | .readBlock n | .readSleep n =>
    h.request u = .read addr n ∧ (h.part u).length = 0
  | .readFor n i | .readOut n i _ => h.request u = .read addr n ∧ i = (h.part u).length
  | .readDone n i | .readRelease n i =>
    h.request u = .read addr n ∧ i = (h.part u).length ∧ (i = 0 → 0 < n → h.ended u = true)
  | .closeAcquire _ | .closeSet _ | .closeWake _ | .closeTest | .closeRelease | .closeLast | .closeKfree =>
    h.request u = .none
  | .ret r => Results h u r
  | .writeFail | .readFail | .idle => True

theorem Served.mono (hs : Served h addr u pc) (hreq : h'.request u = h.request u)
    (hpart : (h'.part u).length = (h.part u).length)
    (hend : h.ended u = true → h'.ended u = true) : Served h' addr u pc := by
  cases pc <;> grind -ring -linarith -order [Served, Results]

theorem Served.rouse (hs : Served h addr u pc) : Served h addr u pc.rouse := by
  cases pc <;> exact hs

/-- The next step of a call that copies nothing. -/
theorem Served.code (hs : Served h addr t pc) (hpart : (h'.part t).length = (h.part t).length)
    (hreq : h'.request t = h.request t)
    (hend : h.ended t = true → h'.ended t = true)
    (hzero : ∀ n, pc = .readFor n 0 → s.Drained → h'.ended t = true)
    (hc : (s.code killed pc).next = some k) : Served h' addr t k := by
  cases pc <;> grind -ring -linarith -order [Pipe.code, Instr.next, Served, Results, Drained]

theorem part_begins (hp : Past h) (t : T) (q : Request) (u : T) :
    (h.begins t q).part u = if u = t then [] else h.part u := by
  unfold Record.part Record.begins
  split_ifs with hu
  · subst hu
    refine filter_eq_nil_iff.2 fun e he hmine => ?_
    obtain ⟨hw, hcall⟩ := of_decide_eq_true hmine
    have hold : e.call ≤ h.calls u := hw ▸ hp e (by grind)
    simp only [update_self] at hcall
    omega
  · simp only [update_of_ne hu]

theorem part_accept {ch : BitVec 8} {n : Int} (hreq : h.request t = .write addr n) (u : T) :
    ((h.accept t ch).part u).length = (h.part u).length + if u = t then 1 else 0 := by
  unfold Record.part Record.accept
  grind

theorem part_return {ch : BitVec 8} {n : Int} (hreq : h.request t = .read addr n) (u : T) :
    ((h.return_ t ch).part u).length = (h.part u).length + if u = t then 1 else 0 := by
  unfold Record.part Record.return_
  grind

/-! ## The stream -/

structure Streams (s : Pipe P T) (h : Record T) : Prop where
  ok : Ok s
  flow : ∃ buffered, Flow s h buffered
  past : Past h
  served : ∀ u, Served h (s.addr u) u (s.pc u)

theorem Fresh.streams (hf : Fresh s) : Streams s (.empty T) where
  ok := hf.ok
  flow := by
    have hpending : s.pending = [] := by rw [Pipe.pending, hf.lock]
    refine ⟨[], trivial, ?_, ?_, ?_⟩
    · rw [hf.nwrite, hf.nread]
      rfl
    · rw [hpending]
      rfl
    · rw [hpending]
      exact Nat.zero_le _
  past := by
    intro e he
    simp [Record.empty] at he
  served := by
    intro u
    rw [hf.pc u]
    trivial

/-- A step of one thread that changes the record of no other. -/
theorem Streams.turn (hs : Streams s h) (hok : Ok s') (hturn : Turn s s' t k)
    (hflow : ∃ buffered, Flow s' h' buffered)
    (hpast : Past h') (haddr : ∀ u, u ≠ t → s'.addr u = s.addr u)
    (hreq : ∀ u, u ≠ t → h'.request u = h.request u)
    (hpart : ∀ u, u ≠ t → (h'.part u).length = (h.part u).length)
    (hend : ∀ u, u ≠ t → h.ended u = true → h'.ended u = true) (hk : Served h' (s'.addr t) t k) :
    Streams s' h' := by
  refine ⟨hok, hflow, hpast, fun u => ?_⟩
  by_cases hu : u = t
  · rw [hu, hturn.pc]
    exact hk
  · rw [haddr u hu]
    have hold := (hs.served u).mono (hreq u hu) (hpart u hu) (hend u hu)
    rcases hturn.others u hu with heq | heq <;> rw [heq]
    · exact hold
    · exact hold.rouse

omit [DecidableEq T] in
theorem watch_ended (hu : h.ended u = true) : (h.watch s).ended u = true := by
  simp [Record.watch, hu]

/-- A step that copies nothing. -/
theorem Streams.quiet (hs : Streams s h) (hok : Ok s') (hturn : Turn s s' t k) (hdata : s'.data = s.data)
    (hread : s'.nread = s.nread) (hwrite : s'.nwrite = s.nwrite) (haddr : s'.addr = s.addr)
    (hlock : s'.lock = s.lock ∨ (s.lock = none ∧ s'.lock = some t) ∨ (s.lock = some t ∧ s'.lock = none))
    (hold : (s.pc t).carried = []) (hnew : k.carried = []) (hk : Served (h.watch s) (s.addr t) t k) :
    Streams s' (h.watch s) := by
  obtain ⟨buffered, hflow⟩ := hs.flow
  exact hs.turn hok hturn ⟨buffered, hflow.same hdata hread hwrite
    (hturn.pending hold hnew hlock) rfl rfl⟩ hs.past
    (fun u _ => by rw [haddr]) (fun _ _ => rfl) (fun _ _ => rfl) (fun _ _ => watch_ended)
      (by rw [haddr]; exact hk)

omit [DecidableEq T] in
theorem code_carried (hc : (s.code killed pc).next = some k) : pc.carried = [] ∧ k.carried = [] := by
  cases pc <;> grind [code, Instr.next, Pc.carried]

theorem Streams.code (hs : Streams s h) (hok : Ok s') (hturn : Turn s s' t k) (hdata : s'.data = s.data)
    (hread : s'.nread = s.nread) (hwrite : s'.nwrite = s.nwrite) (haddr : s'.addr = s.addr)
    (hlock : s'.lock = s.lock ∨ (s.lock = none ∧ s'.lock = some t) ∨ (s.lock = some t ∧ s'.lock = none))
    (hc : (s.code killed (s.pc t)).next = some k) : Streams s' (h.watch s) := by
  obtain ⟨hold, hnew⟩ := code_carried hc
  refine hs.quiet hok hturn hdata hread hwrite haddr hlock hold hnew
    ((hs.served t).code rfl rfl watch_ended ?_ hc)
  -- a reader that has found nothing has found the end
  intro n hpc hdrained
  obtain ⟨buffered, hflow⟩ := hs.flow
  have hknows := hs.ok.knows t
  rw [hpc] at hknows
  have hlen := congrArg List.length hflow.bytes
  rw [(hs.ok.pending hpc rfl).2, hflow.drained_iff.1 hdrained] at hlen
  simp [Record.watch, hknows.2 rfl hdrained, Pc.carried] at hlen ⊢
  exact .inr hlen

variable [DecidableEq P] {proc : T → P} {a : Act P T}

theorem Streams.step (hs : Streams s h) (hstep : s.step proc a = some s') (hm : Mapped s a h) :
    Streams s' (noteStream proc s a h) := by
  have he := step_effect hstep
  have hok := hs.ok.effect he
  obtain ⟨buffered, hflow⟩ := hs.flow
  cases he with
  | enter t k ha hpc =>
    have hturn : Turn s (s.enter t a.base k) t k := turn_of_update rfl
    have hpending := hturn.pending (by rw [hpc]; rfl) (by cases a <;> cases ha <;> rfl) (.inl rfl)
    have hpast : Past (h.watch s) := hs.past
    have hbegin : ∀ {q}, Served ((h.watch s).begins t q) a.base t k →
        Streams (s.enter t a.base k) ((h.watch s).begins t q) := by
      intro q hk
      refine hs.turn hok hturn ⟨buffered, hflow.same rfl rfl rfl hpending rfl rfl⟩ (fun e he => ?_)
        (fun u hu => update_of_ne hu ..) (fun u hu => update_of_ne hu ..) (fun u hu => ?_)
          (fun u hu h' => ?_) ?_
      · have hold := hs.past e he
        show e.call ≤ update h.calls t (h.calls t + 1) e.thread
        grind
      · rw [part_begins hpast, if_neg hu]
        rfl
      · exact (update_of_ne hu ..).trans (watch_ended h')
      · show Served _ (update s.addr t a.base t) t k
        rwa [update_self]
    have hnone : ∀ q, ((h.watch s).begins t q).part t = [] := fun q => by rw [part_begins hpast, if_pos rfl]
    have hreq : ∀ q, ((h.watch s).begins t q).request t = q := fun q => update_self ..
    cases a with
    | pipewrite v addr n | piperead v addr n =>
      obtain ⟨rfl, rfl⟩ := Prod.mk.inj (Option.some.inj ha)
      exact hbegin ⟨hreq _, by rw [hnone]; rfl⟩
    | pipeclose v w =>
      obtain ⟨rfl, rfl⟩ := Prod.mk.inj (Option.some.inj ha)
      exact hbegin (hreq _)
    | _ => cases ha
  | goto t k hc => exact hs.code hok (turn_of_update rfl) rfl rfl rfl rfl (.inl rfl) (congrArg Instr.next hc)
  | acquire t k hc hfree =>
    exact hs.code hok (turn_of_update rfl) rfl rfl rfl rfl (.inr (.inl ⟨hfree, rfl⟩)) (congrArg Instr.next hc)
  | release t k hc =>
    exact hs.code hok (turn_of_update rfl) rfl rfl rfl rfl
      (.inr (.inr ⟨(hs.ok.lock t).1 (locks_of_code hc).1, rfl⟩)) (congrArg Instr.next hc)
  | wakeup t c k hc =>
    exact hs.code hok (turn_wakeup s t c k) rfl rfl rfl rfl (.inl rfl) (congrArg Instr.next hc)
  | shut t w hpc =>
    have hserved := hs.served t
    rw [hpc] at hserved
    exact hs.quiet hok (turn_of_update rfl) rfl rfl rfl rfl (.inl rfl) (by rw [hpc]; rfl) rfl hserved
  | kfree t hpc =>
    have hserved : h.request t = .none := by
      have := hs.served t
      rwa [hpc] at this
    refine hs.quiet hok (turn_of_update rfl) rfl rfl rfl rfl (.inl rfl) (by rw [hpc]; rfl) rfl ?_
    simp only [Served, Results, Record.watch, hserved]
  | take t n i hpc _ hdata =>
    have hserved := hs.served t
    rw [hpc] at hserved
    exact hs.turn hok (turn_of_update rfl) (hflow.take hs.ok hpc hdata) hs.past (fun _ _ => rfl)
      (fun _ _ => rfl)
      (fun _ _ => rfl) (fun _ _ => watch_ended) hserved
  | put t n i hpc =>
    obtain ⟨hreq, hi⟩ : Served h (s.addr t) t (.writeCopy n i) := hpc ▸ hs.served t
    have hplace : s.place t i = s.addr t + BitVec.ofNat 64 (h.part t).length := by
      rw [place, hi, BitVec.ofInt_natCast]
    have hlen := @part_accept T t (h.watch s) (s.addr t) _ (s.mem (proc t) (s.place t i)) n hreq
    simp only [noteStream, hreq, ← hplace]
    refine hs.turn hok (turn_of_update rfl) ⟨_, hflow.put hs.ok hpc⟩ ?_ (fun _ _ => rfl) (fun _ _ => rfl)
      (fun u hu => ?_) (fun _ _ => watch_ended) ⟨hreq, ?_⟩
    · intro e he
      have := hs.past e
      simp only [Record.accept, Record.watch] at he ⊢
      grind
    · rw [hlen, if_neg hu]
      rfl
    · rw [hlen, if_pos rfl, hi]
      rfl
  | unmapped t n i hpc | lost t n i ch hpc => exact hm.elim
  | copied t n i ch hpc =>
    obtain ⟨hreq, hi⟩ : Served h (s.addr t) t (.readOut n i ch) := hpc ▸ hs.served t
    have hplace : s.addr t + BitVec.ofNat 64 (h.part t).length = s.place t i := by
      rw [place, hi, BitVec.ofInt_natCast]
    have hseen : seen proc s (.copyout t true) (proc t) (s.place t i) = ch := by
      simp only [seen, hstep, store, update_self]
    have hlen := @part_return T t (h.watch s) (s.addr t) _ ch n hreq
    simp only [noteStream, hreq, hplace, hseen]
    refine hs.turn hok (turn_of_update rfl)
      ⟨buffered, hflow.copied hs.ok hpc rfl rfl rfl rfl rfl⟩ ?_ (fun _ _ => rfl)
      (fun _ _ => rfl) (fun u hu => ?_) (fun _ _ => watch_ended) ⟨hreq, ?_⟩
    · intro e he
      have := hs.past e
      simp only [Record.return_, Record.watch] at he ⊢
      grind
    · rw [hlen, if_neg hu]
      rfl
    · rw [hlen, if_pos rfl, hi]
      rfl
  | rouse f κ μ ha =>
    have hnote : noteStream proc s a h = h.watch s := by
      cases a <;> first | rfl | cases ha
    have hpending : { s.rouse f with killed := κ, mem := μ }.pending = s.pending := by
      unfold Pipe.pending
      show (match s.lock with | some t => (if f t then (s.pc t).rouse else s.pc t).carried | none => []) = _
      cases s.lock with
      | none => rfl
      | some v =>
        dsimp only
        split
        · exact carried_rouse _
        · rfl
    rw [hnote]
    refine ⟨hok, ⟨buffered, hflow.same rfl rfl rfl hpending rfl rfl⟩, hs.past, fun u => ?_⟩
    have hold : Served (h.watch s) (s.addr u) u (s.pc u) := (hs.served u).mono rfl rfl watch_ended
    show Served _ _ u (if f u then (s.pc u).rouse else s.pc u)
    split
    · exact hold.rouse
    · exact hold

/-- **Bytes come out of a pipe in the order in which they went in, at most `PIPESIZE` of them are on
    the way, a call that returns the number of its bytes has passed on as many of its buffer, in
    order, and a read returns 0 only after a time at which the write end was closed and everything
    was read.** -/
theorem stream_in_order {tr : List (Act P T)} (hf : Fresh s) (hrun : runs (step proc) s tr = some s')
    (hmapped : Along (step proc) (noteStream proc) Mapped s (.empty T) tr) :
    let h := history (step proc) (noteStream proc) s (.empty T) tr
    h.returned.map Entry.byte <+: h.accepted.map Entry.byte ∧
      h.accepted.length ≤ h.returned.length + PIPESIZE ∧
      (∀ u r addr n, s'.pc u = .ret r → h.request u = .write addr n → r = -1 ∨ r = (h.part u).length) ∧
      (∀ u r addr n, s'.pc u = .ret r → h.request u = .read addr n →
        r = -1 ∨ r = (h.part u).length ∧ (r = 0 → 0 < n → h.ended u = true)) := by
  intro h
  have hs : Streams s' h := hmapped.invariant Streams hrun hf.streams fun _ _ _ _ hstep hcond hs =>
    hs.step hstep hcond
  obtain ⟨buffered, hflow⟩ := hs.flow
  have hroom := hflow.room
  have hresults : ∀ {u r}, s'.pc u = .ret r → Results h u r := fun {u _} hpc => by
    have := hs.served u
    rwa [hpc] at this
  refine ⟨?_, ?_, fun u r addr n hpc hreq => ?_, fun u r addr n hpc hreq => ?_⟩
  · rw [hflow.bytes, append_assoc]
    exact prefix_append _ _
  · have hlen := congrArg List.length hflow.bytes
    simp only [length_map, length_append] at hlen
    omega
  all_goals
    have := hresults hpc
    rwa [Results, hreq] at this

/-- A process with one thread and a new pipe. -/
def oneThread : Pipe Unit Unit where
  data := fun _ => 0
  nread := 0
  nwrite := 0
  readopen := true
  writeopen := true
  lock := none
  freed := false
  killed := fun _ => false
  mem := fun _ a => a.setWidth 8
  addr := fun _ => 0
  pc := fun _ => .idle

/-- Two bytes are written and read again, to another place. -/
def writesAndReads : List (Act Unit Unit) :=
  List.flatten [.pipewrite () 5 2 :: List.replicate 4 (.run ()), .copyin () true :: List.replicate 3 (.run ()),
    .copyin () true :: List.replicate 4 (.run ()), .piperead () 100 2 :: List.replicate 3 (.run ()),
    [.copyout () true, .run (), .copyout () true], List.replicate 3 (.run ())]

theorem stream_in_order_bytes :
    let h := history (step id) (noteStream id) oneThread (.empty Unit) writesAndReads
    ∃ s', runs (step id) oneThread writesAndReads = some s' ∧ s'.pc () = .ret 2 ∧ s'.mem () 101 = 6 ∧
      h.returned.map Entry.byte = [5, 6] ∧ (2 : Int) = (h.part ()).length := by
  obtain ⟨s', hrun, hpc, hmem⟩ : ∃ s', runs (step id) oneThread writesAndReads = some s' ∧ s'.pc () = .ret 2 ∧
      s'.mem () 101 = 6 := ⟨_, rfl, rfl, rfl⟩
  have hf : Fresh oneThread := ⟨rfl, rfl, rfl, rfl, rfl, rfl, fun _ => rfl⟩
  have hmapped : Along (step id) (noteStream id) Mapped oneThread (.empty Unit) writesAndReads := by
    repeat' apply And.intro
    all_goals trivial
  have hread := (stream_in_order hf hrun hmapped).2.2.2 () 2 100 2 hpc rfl
  exact ⟨s', hrun, hpc, hmem, rfl, (hread.resolve_left (by decide)).1⟩

/-- A write of one byte, up to its return. -/
def writesByte : List (Act Unit Unit) :=
  [.pipewrite () 0 1, .run (), .run (), .run (), .run (), .copyin () true, .run (), .run ()]

/-! ## A copy that fails -/

/-- Where `nread` is for a thread in the loop of `piperead`, which has begun it with `nread =
    start`; `failed` if a `copyout` has failed since. -/
def Reading (start : BitVec 32) (failed : Prop) (nread : BitVec 32) : Pc → Prop
  | .readFor _ i => ¬ failed ∧ nread = start + BitVec.ofInt 32 i
  | .readOut _ i _ => ¬ failed ∧ nread = start + BitVec.ofInt 32 i + 1
  | .readDone _ i | .readRelease _ i =>
    (¬ failed → nread = start + BitVec.ofInt 32 i) ∧ (failed → nread = start + BitVec.ofInt 32 i + 1)
  | .ret _ | .idle => True
  | _ => False

variable {start nread nread' : BitVec 32} {failed failed' : Prop}

section

omit [DecidableEq T] [DecidableEq P]

theorem Reading.of_unlocked (hr : Reading start failed nread pc) (hl : pc.locked = false) :
    Reading start failed' nread' pc := by
  cases pc <;> trivial

theorem Reading.rouse (hr : Reading start failed nread pc) : Reading start failed nread pc.rouse := by
  cases pc <;> exact hr

theorem Reading.code (hr : Reading start failed nread pc) (hc : (s.code killed pc).next = some k) :
    Reading start failed nread k := by
  cases pc <;> grind [Pipe.code, Instr.next, Reading]

end

theorem Reading.step (hok : Ok s) (hr : Reading start failed s.nread (s.pc t)) (he : Effect proc s a s')
    (ha : ∀ k, a.entry ≠ some (t, k)) :
    Reading start (failed ∨ a = .copyout t false) s'.nread (s'.pc t) := by
  -- a turn of another thread that does not take a byte
  have hother : ∀ {v k}, Turn s s' v k → t ≠ v → s'.nread = s.nread → a ≠ .copyout t false →
      Reading start (failed ∨ a = .copyout t false) s'.nread (s'.pc t) := by
    intro v k hturn hv hnread hact
    rw [hnread, or_iff_left hact]
    rcases hturn.others t hv with heq | heq
    · rw [heq]
      exact hr
    · rw [heq]
      exact hr.rouse
  -- an instruction that is not a copy
  have hcode : ∀ {v k}, Turn s s' v k → s'.nread = s.nread → a ≠ .copyout t false →
      (s.code (s.killed (proc v)) (s.pc v)).next = some k →
      Reading start (failed ∨ a = .copyout t false) s'.nread (s'.pc t) := by
    intro v k hturn hnread hact hc
    by_cases hv : t = v
    · subst hv
      rw [hturn.pc, hnread, or_iff_left hact]
      exact hr.code hc
    · exact hother hturn hv hnread hact
  cases he with
  | enter v k hentry hpc =>
    refine hother (turn_of_update rfl) ?_ rfl ?_
    · rintro rfl
      exact ha k hentry
    · rintro rfl
      cases hentry
  | goto v k hc | acquire v k hc | release v k hc =>
    exact hcode (turn_of_update rfl) rfl nofun (congrArg Instr.next hc)
  | wakeup v c k hc => exact hcode (turn_wakeup s v c k) rfl nofun (congrArg Instr.next hc)
  | shut v w hpc | kfree v hpc | put v n i hpc | unmapped v n i hpc =>
    refine hother (turn_of_update rfl) ?_ rfl nofun
    rintro rfl
    rw [hpc] at hr
    exact hr
  | take v n i hpc =>
    by_cases hv : t = v
    · subst hv
      rw [hpc] at hr
      obtain ⟨hno, hnread⟩ := hr
      show Reading _ _ _ (update s.pc t _ t)
      rw [update_self]
      exact ⟨fun h => h.elim hno nofun, congrArg (· + 1) hnread⟩
    show Reading _ _ _ (update s.pc v _ t)
    rw [update_of_ne hv]
    exact hr.of_unlocked (hok.unlocked (by rw [hpc]; rfl) hv)
  | copied v n i ch hpc =>
    by_cases hv : t = v
    · subst hv
      rw [hpc] at hr
      obtain ⟨hno, hnread⟩ := hr
      show Reading _ _ s.nread (update s.pc t _ t)
      rw [update_self]
      refine ⟨fun h => h.elim hno nofun, ?_⟩
      rw [hnread, BitVec.ofInt_add, BitVec.add_assoc]
      rfl
    · exact hother (turn_of_update rfl) hv rfl nofun
  | lost v n i ch hpc =>
    by_cases hv : t = v
    · subst hv
      rw [hpc] at hr
      show Reading _ _ s.nread (update s.pc t _ t)
      rw [update_self]
      exact ⟨fun h => absurd (.inr rfl) h, fun _ => hr.2⟩
    · refine hother (turn_of_update rfl) hv rfl ?_
      rintro ⟨⟩
      exact hv rfl
  | rouse f κ μ hact =>
    have hne : a ≠ .copyout t false := by
      rintro rfl
      cases hact
    rw [or_iff_left hne]
    show Reading start failed s.nread (if f t then (s.pc t).rouse else s.pc t)
    split
    · exact hr.rouse
    · exact hr

theorem Reading.run {tr : List (Act P T)} (hok : Ok s)
    (hr : Reading start failed s.nread (s.pc t)) (ha : ∀ a, a ∈ tr → ∀ k, a.entry ≠ some (t, k))
    (hrun : runs (Pipe.step proc) s tr = some s') :
    Reading start (failed ∨ .copyout t false ∈ tr) s'.nread (s'.pc t) := by
  induction tr generalizing s failed with
  | nil =>
    cases hrun
    rwa [or_iff_left not_mem_nil]
  | cons a tr ih =>
    unfold runs at hrun
    cases hstep : s.step proc a with
    | none =>
      rw [hstep] at hrun
      cases hrun
    | some s₁ =>
      rw [hstep] at hrun
      have he := step_effect hstep
      have hmore := ih (hok.effect he) (hr.step hok he (ha a mem_cons_self))
        (fun b hb => ha b (mem_cons_of_mem _ hb)) hrun
      rw [or_assoc] at hmore
      rwa [mem_cons, eq_comm (a := Act.copyout t false)]

/-- **From the first byte that `piperead` looks for to the last, the pipe loses the bytes that it
    reports, and one more if a `copyout` fails**: the byte has been taken before it is copied. -/
theorem piperead_exact_iff {tr : List (Act P T)} {n m i : Int} (hok : Ok s)
    (hpc : s.pc t = .readFor n 0) (hcall : ∀ a, a ∈ tr → ∀ k, a.entry ≠ some (t, k))
    (hrun : runs (step proc) s tr = some s') (hend : s'.pc t = .readRelease m i) :
    (s'.nread = s.nread + BitVec.ofInt 32 i ↔ .copyout t false ∉ tr) ∧
      (.copyout t false ∈ tr → s'.nread = s.nread + BitVec.ofInt 32 i + 1) := by
  have hstart : Reading s.nread False s.nread (s.pc t) := by
    rw [hpc]
    exact ⟨id, by simp⟩
  have hlast := hstart.run hok hcall hrun
  rw [hend, false_or] at hlast
  refine ⟨⟨fun heq hmem => ?_, hlast.1⟩, hlast.2⟩
  have hone := (hlast.2 hmem).symm.trans heq
  exact absurd (BitVec.add_right_eq_self.1 hone) (by decide)

/-- The byte is in the buffer and the thread is in the loop of `piperead`. -/
def readerReady : List (Act Unit Unit) :=
  writesByte ++ [.run (), .run (), .piperead () 0 1, .run (), .run ()]

theorem piperead_exact_iff_byte : ∃ s s', runs (step id) oneThread readerReady = some s ∧
      runs (step id) s [.run (), .copyout () true, .run (), .run ()] = some s' ∧
      s'.pc () = .readRelease 1 1 ∧ s'.nread = s.nread + 1 := by
  obtain ⟨s, s', hready, hrun, hpc, hend⟩ : ∃ s s', runs (step id) oneThread readerReady = some s ∧
      runs (step id) s [.run (), .copyout () true, .run (), .run ()] = some s' ∧
      s.pc () = .readFor 1 0 ∧ s'.pc () = .readRelease 1 1 := ⟨_, _, rfl, rfl, rfl, rfl⟩
  have hf : Fresh oneThread := ⟨rfl, rfl, rfl, rfl, rfl, rfl, fun _ => rfl⟩
  have hok : Ok s := runs_preserve Ok hready hf.ok fun _ _ _ hstep hok => hok.effect (step_effect hstep)
  exact ⟨s, s', hready, hrun, hend, (piperead_exact_iff hok hpc (by simp [Act.entry]) hrun hend).1.2 (by simp)⟩

/-- 0 bytes are reported, and the byte is gone. -/
theorem failed_copy_loses_byte :
    ∃ s s', runs (step id) oneThread readerReady = some s ∧ s.nread = 0 ∧ s.nwrite = 1 ∧
      runs (step id) s [.run (), .copyout () false, .run ()] = some s' ∧
      s'.pc () = .readRelease 1 0 ∧ s'.nread = 1 :=
  ⟨_, _, rfl, rfl, rfl, rfl, rfl, rfl⟩

end Pipe

end Xv6.Pipes
