import Xv6.Structures.Fifo
import Xv6.Structures.Runs

set_option autoImplicit false

/-! # The transmit buffer of the UART (`uart.c`)

Any number of threads in `uartputc` and of interrupt handlers in `uartintr`. `sleep` and `wakeup`
are single steps, as in a pipe, and a sleeper may be roused for other reasons. The device clears its
idle bit when it gets a byte, or when `uartputc_sync` gives it one, and raises an interrupt when it
sets the bit again. -/

namespace Xv6.Uart

open Function List Option Structures

/-- The size of the ring. -/
def UART_TX_BUF_SIZE : Nat := 32

instance : NeZero UART_TX_BUF_SIZE := ⟨by decide⟩

/-- Where a thread is. -/
inductive Pc
  | idle
  | putAcquire (c : BitVec 8)
  | putTest (c : BitVec 8)
  | putSleep (c : BitVec 8)
  | intrAcquire
  /-- The top of the loop in `uartstart`. -/
  | start
  | wake (c : BitVec 8)
  | write (c : BitVec 8)
  | release
  deriving DecidableEq

/-- The driver and the device. -/
structure Tx (T : Type) where
  buf : Fin UART_TX_BUF_SIZE → BitVec 8
  w : BitVec 64
  r : BitVec 64
  lock : Option T
  /-- `LSR_TX_IDLE`. -/
  idle : Bool
  /-- The device has raised an interrupt since the last call of `uartintr`. -/
  irq : Bool
  pc : T → Pc
  /-- The characters that `uartputc` has put into the buffer, and those that the register has got
      from it. -/
  put : List (BitVec 8)
  sent : List (BitVec 8)

/-- A step of a thread or of the device. -/
inductive Act (T : Type)
  | uartputc (t : T) (c : BitVec 32)
  | uartintr (t : T)
  /-- The next step of a call; `idle` is what the line status is after a write to the register. -/
  | run (t : T) (idle : Bool)
  | rouse (t : T) (c : BitVec 8)
  | transmitted
  | sync

/-- A thread that `wakeup(&uart_tx_r)` finds asleep goes on in `sleep`, which takes the lock. -/
def Pc.woken : Pc → Pc
  | .putSleep c => .putAcquire c
  | k => k

variable {T : Type} [DecidableEq T]

namespace Tx

/-- The thread goes to `k`. -/
def goto (s : Tx T) (t : T) (k : Pc) : Tx T := { s with pc := update s.pc t k }

/-- `acquire(&uart_tx_lock)`. -/
def acquire (s : Tx T) (t : T) (k : Pc) : Option (Tx T) :=
  if s.lock = none then some ({ s with lock := some t }.goto t k) else none

/-- The next step of a call. -/
def run (s : Tx T) (t : T) (idle : Bool) : Option (Tx T) :=
  match s.pc t with
  | .idle | .putSleep _ => none
  | .putAcquire c => s.acquire t (.putTest c)
  | .putTest c =>
    if s.w = s.r + BitVec.ofNat 64 UART_TX_BUF_SIZE then some ({ s with lock := none }.goto t (.putSleep c))
    else
      some ({ s with
        buf := update s.buf (slot UART_TX_BUF_SIZE s.w) c
        w := s.w + 1
        put := s.put ++ [c] }.goto t .start)
  | .intrAcquire => s.acquire t .start
  | .start =>
    if s.w = s.r ∨ s.idle = false then some (s.goto t .release)
    else some ({ s with r := s.r + 1 }.goto t (.wake (s.buf (slot UART_TX_BUF_SIZE s.r))))
  | .wake c => some ({ s with pc := fun u => (s.pc u).woken }.goto t (.write c))
  | .write c => some ({ s with sent := s.sent ++ [c], idle := idle }.goto t .start)
  | .release => some ({ s with lock := none }.goto t .idle)

/-- One step, if it is possible. -/
def step (s : Tx T) : Act T → Option (Tx T)
  | .uartputc t c => if s.pc t = .idle then some (s.goto t (.putAcquire (c.setWidth 8))) else none
  | .uartintr t => if s.pc t = .idle then some ({ s with irq := false }.goto t .intrAcquire) else none
  | .run t idle => s.run t idle
  | .rouse t c => if s.pc t = .putSleep c then some (s.goto t (.putAcquire c)) else none
  | .transmitted => some { s with idle := true, irq := true }
  | .sync => if s.idle = true then some { s with idle := false } else none

/-- An empty buffer, with the counters anywhere. -/
def boot (i : BitVec 64) (buf : Fin UART_TX_BUF_SIZE → BitVec 8) (idle : Bool) : Tx T where
  buf := buf
  w := i
  r := i
  lock := none
  idle := idle
  irq := false
  pc _ := .idle
  put := []
  sent := []

end Tx

/-! ## The invariant -/

/-- The thread has `uart_tx_lock`. -/
def Pc.locked : Pc → Bool
  | .putTest _ | .start | .wake _ | .write _ | .release => true
  | _ => false

/-- The character that a thread has taken out of the buffer. -/
def Pc.carried : Pc → List (BitVec 8)
  | .wake c | .write c => [c]
  | _ => []

/-- The thread will look at the line status. -/
def Pc.looks : Pc → Bool
  | .intrAcquire | .start | .wake _ | .write _ => true
  | _ => false

/-- The buffer holds `l`, and the thread with the lock carries `o`. -/
structure Tx.Holds (s : Tx T) (o l : List (BitVec 8)) : Prop where
  lock : ∀ t, s.lock = some t ↔ (s.pc t).locked = true
  carry : ∀ t, (s.pc t).locked = true → (s.pc t).carried = o
  free : s.lock = none → o = []
  queued : Queued s.buf s.r l
  count : s.w = s.r + BitVec.ofNat 64 l.length
  size : l.length ≤ UART_TX_BUF_SIZE
  stream : s.put = s.sent ++ o ++ l
  asleep : ∀ t c, s.pc t = .putSleep c → l.length = UART_TX_BUF_SIZE ∨ ∃ u d, s.pc u = .wake d
  seen : l ≠ [] → s.idle = false ∨ s.irq = true ∨ ∃ t, (s.pc t).looks = true

variable {s s' : Tx T} {t : T} {o l : List (BitVec 8)}

omit [DecidableEq T] in
theorem Tx.Holds.full (h : s.Holds o l) :
    s.w = s.r + BitVec.ofNat 64 UART_TX_BUF_SIZE ↔ l.length = UART_TX_BUF_SIZE := by
  have := h.size
  rw [h.count, BitVec.add_right_inj, ← BitVec.toNat_inj, BitVec.toNat_ofNat, BitVec.toNat_ofNat]
  simp only [UART_TX_BUF_SIZE] at *
  omega

theorem Tx.goto_pc (s : Tx T) (t u : T) (k : Pc) :
    (s.goto t k).pc u = if u = t then k else s.pc u := update_apply ..

/-- A step in which a thread changes only its place, the lock and the note of the interrupt. -/
theorem Tx.Holds.moves (h : s.Holds o l) {k : Pc} {lock : Option T} {irq : Bool}
    (hc : (s.pc t).carried = []) (hk : k.carried = [])
    (hlock : lock = s.lock ∧ k.locked = (s.pc t).locked ∨ s.lock = none ∧ lock = some t ∧ k.locked = true ∨
      s.lock = some t ∧ lock = none ∧ k.locked = false)
    (hsleep : ∀ c, k = .putSleep c → l.length = UART_TX_BUF_SIZE)
    (hseen : l ≠ [] → s.idle = true → s.irq = true ∨ (s.pc t).looks = true → irq = true ∨ k.looks = true) :
    ({ s with lock := lock, irq := irq }.goto t k).Holds o l := by
  have ht := h.lock t
  have hcarry := h.carry t
  have hfree := h.free
  have hwake : ∀ d, s.pc t ≠ .wake d := by
    intro d hd
    rw [hd] at hc
    cases hc
  refine ⟨fun u => ?_, fun u hu => ?_, fun hl => ?_, h.queued, h.count, h.size, h.stream,
    fun u c hu => ?_, fun hne => ?_⟩
  · have := h.lock u
    rw [goto_pc]
    grind [goto]
  · have := h.carry u
    rw [goto_pc] at hu ⊢
    grind
  · grind [goto]
  · have := h.asleep u c
    rw [goto_pc] at hu
    simp only [goto_pc]
    grind
  · have := h.seen hne
    simp only [goto_pc]
    grind [goto]

theorem Tx.Holds.acquire (h : s.Holds o l) {k : Pc} (hs : s.acquire t k = some s') (hc : (s.pc t).carried = [])
    (hk : k.carried = []) (hl : k.locked = true) (hsleep : ∀ c, k ≠ .putSleep c)
    (hseen : (s.pc t).looks = true → k.looks = true) : s'.Holds o l := by
  obtain ⟨hnone, ⟨⟩⟩ := ite_none_right_eq_some.1 hs
  exact h.moves hc hk (.inr (.inl ⟨hnone, rfl, hl⟩)) (fun c hc => absurd hc (hsleep c))
    fun _ _ hx => hx.imp_right hseen

omit [DecidableEq T] in
/-- A writer sleeps beside the holder of the lock only while the buffer is full, or the holder is to
    wake it. -/
theorem Tx.Holds.sleeper (h : s.Holds o l) {u : T} {c : BitVec 8} (hl : s.lock = some t)
    (ht : ∀ d, s.pc t ≠ .wake d)
    (hu : s.pc u = .putSleep c) : l.length = UART_TX_BUF_SIZE := by
  rcases h.asleep u c hu with hlen | ⟨v, d, hv⟩
  · exact hlen
  · have hv' := (h.lock v).2 (by rw [hv]; rfl)
    obtain rfl := some.inj (hl.symm.trans hv')
    exact absurd hv (ht d)

/-- A step of the thread with the lock, which keeps it and goes on in `uartstart`. -/
theorem Tx.Holds.inside {s₁ : Tx T} {m : List (BitVec 8)} {k : Pc} (h : s.Holds o l) (hl : s.lock = some t)
    (hlock : s₁.lock = s.lock) (hpc : ∀ u, (s₁.pc u).locked = (s.pc u).locked) (hk : k.locked = true)
    (hlooks : k.looks = true) (hqueued : Queued s₁.buf s₁.r m) (hcount : s₁.w = s₁.r + BitVec.ofNat 64 m.length)
    (hsize : m.length ≤ UART_TX_BUF_SIZE) (hstream : s₁.put = s₁.sent ++ k.carried ++ m)
    (hasleep : ∀ u c, s₁.pc u = .putSleep c → m.length = UART_TX_BUF_SIZE ∨ ∃ d, k = .wake d) :
    ∃ o l, (s₁.goto t k).Holds o l := by
  have hone : ∀ u, ((s₁.goto t k).pc u).locked = true ↔ u = t := by
    intro u
    have := h.lock u
    have := hpc u
    rw [goto_pc]
    grind
  refine ⟨k.carried, m, fun u => ?_, fun u hu => ?_, fun hn => ?_, hqueued, hcount, hsize, hstream,
    fun u c hu => ?_,
    fun _ => .inr (.inr ⟨t, ?_⟩)⟩
  · rw [hone]
    grind [goto]
  · rw [goto_pc, if_pos ((hone u).1 hu)]
  · grind [goto]
  · have hu' : s₁.pc u = .putSleep c := by
      rw [goto_pc] at hu
      split_ifs at hu
      · rw [hu] at hk
        cases hk
      · exact hu
    rcases hasleep u c hu' with hlen | ⟨d, hd⟩
    · exact .inl hlen
    · exact .inr ⟨t, d, by rw [goto_pc, if_pos rfl, hd]⟩
  · rwa [goto_pc, if_pos rfl]

theorem Tx.Holds.run (h : s.Holds o l) {idle : Bool} (hs : s.run t idle = some s') : ∃ o l, s'.Holds o l := by
  have hlock := h.lock t
  have hcarry := h.carry t
  unfold Tx.run at hs
  cases hp : s.pc t with rw [hp] at hs hlock hcarry
  | idle | putSleep => cases hs
  | putAcquire c => exact ⟨o, l, h.acquire hs (by rw [hp]; rfl) rfl rfl (by simp) (by simp [hp, Pc.looks])⟩
  | intrAcquire => exact ⟨o, l, h.acquire hs (by rw [hp]; rfl) rfl rfl (by simp) (by simp [hp, Pc.looks])⟩
  | putTest c =>
    obtain rfl : [] = o := hcarry rfl
    have hl := hlock.2 rfl
    replace hs : (if s.w = s.r + _ then _ else _) = _ := hs
    split_ifs at hs with hfull <;> cases hs
    · refine ⟨[], l, h.moves (by rw [hp]; rfl) rfl (.inr (.inr ⟨hl, rfl, rfl⟩)) (fun _ _ => h.full.1 hfull) ?_⟩
      simp [hp, Pc.looks]
    · have hsize : l.length < UART_TX_BUF_SIZE := lt_of_le_of_ne h.size fun heq => hfull (h.full.2 heq)
      refine h.inside (m := l ++ [c]) hl rfl (fun _ => rfl) rfl rfl ?_ ?_ ?_ ?_ fun u d hu => ?_
      · show Queued (update s.buf (slot UART_TX_BUF_SIZE s.w) c) s.r (l ++ [c])
        rw [h.count]
        exact h.queued.push (by decide) hsize
      · show s.w + 1 = s.r + _
        rw [h.count, length_append, BitVec.ofNat_add, BitVec.add_assoc]
        rfl
      · rw [length_append]
        exact hsize
      · simp [h.stream, Pc.carried]
      · -- nobody sleeps while there is room
        exact absurd (h.sleeper hl (by simp [hp]) hu) hsize.ne
  | start =>
    obtain rfl : [] = o := hcarry rfl
    have hempty : s.r = s.w ↔ l = [] := by
      rw [h.count]
      exact counter_eq_iff s.r (h.size.trans_lt (by decide))
    replace hs : (if s.w = s.r ∨ _ then _ else _) = _ := hs
    split_ifs at hs with hstop <;> cases hs
    · refine ⟨[], l, h.moves (by rw [hp]; rfl) rfl (.inl ⟨rfl, by rw [hp]; rfl⟩) (by simp) fun hne hi => ?_⟩
      rcases hstop with hw | hi'
      · exact absurd (hempty.1 hw.symm) hne
      · cases hi.symm.trans hi'
    · cases l with
      | nil => exact absurd (.inl (hempty.2 rfl).symm) hstop
      | cons c l =>
        refine h.inside (hlock.2 rfl) rfl (fun _ => rfl) rfl rfl h.queued.2 ?_ (Nat.le_of_succ_le h.size) ?_
          fun _ _ _ => .inr ⟨_, rfl⟩
        · show s.w = s.r + 1 + _
          rw [h.count, length_cons, ← counter_succ]
        · rw [h.queued.1]
          simp [h.stream, Pc.carried]
  | wake c =>
    obtain rfl : [c] = o := hcarry rfl
    cases hs
    refine h.inside (hlock.2 rfl) rfl (fun u => ?_) rfl rfl h.queued h.count h.size h.stream fun u d hu => ?_
    · show (s.pc u).woken.locked = _
      cases s.pc u <;> rfl
    · replace hu : (s.pc u).woken = .putSleep d := hu
      cases hpu : s.pc u <;> rw [hpu] at hu <;> cases hu
  | write c =>
    obtain rfl : [c] = o := hcarry rfl
    cases hs
    refine h.inside (hlock.2 rfl) rfl (fun _ => rfl) rfl rfl h.queued h.count h.size ?_ fun u d hu => .inl ?_
    · simp [h.stream, Pc.carried]
    · exact h.sleeper (hlock.2 rfl) (by simp [hp]) hu
  | release =>
    obtain rfl : [] = o := hcarry rfl
    cases hs
    exact ⟨[], l, h.moves (by rw [hp]; rfl) rfl (.inr (.inr ⟨hlock.2 rfl, rfl, rfl⟩)) (by simp)
      (by simp [hp, Pc.looks])⟩

theorem Tx.Holds.step (h : s.Holds o l) {a : Act T} (hs : s.step a = some s') : ∃ o l, s'.Holds o l := by
  cases a with
  | uartputc t c =>
    obtain ⟨hp, ⟨⟩⟩ := ite_none_right_eq_some.1 hs
    exact ⟨o, l, h.moves (by rw [hp]; rfl) rfl (.inl ⟨rfl, by rw [hp]; rfl⟩) (by simp) (by simp [hp, Pc.looks])⟩
  | uartintr t =>
    obtain ⟨hp, ⟨⟩⟩ := ite_none_right_eq_some.1 hs
    exact ⟨o, l, h.moves (by rw [hp]; rfl) rfl (.inl ⟨rfl, by rw [hp]; rfl⟩) (by simp) (by simp [Pc.looks])⟩
  | run t idle => exact h.run hs
  | rouse t c =>
    obtain ⟨hp, ⟨⟩⟩ := ite_none_right_eq_some.1 hs
    exact ⟨o, l, h.moves (by rw [hp]; rfl) rfl (.inl ⟨rfl, by rw [hp]; rfl⟩) (by simp) (by simp [hp, Pc.looks])⟩
  | transmitted =>
    cases hs
    exact ⟨o, l, { h with seen := fun _ => .inr (.inl rfl) }⟩
  | sync =>
    obtain ⟨-, ⟨⟩⟩ := ite_none_right_eq_some.1 hs
    exact ⟨o, l, { h with seen := fun _ => .inl rfl }⟩

omit [DecidableEq T] in
theorem boot_holds (i : BitVec 64) (buf : Fin UART_TX_BUF_SIZE → BitVec 8) (idle : Bool) :
    (Tx.boot i buf idle : Tx T).Holds [] [] := by
  constructor <;> simp [Tx.boot, Pc.locked, Queued]

/-- **The characters reach the register in the order in which they were put into the buffer.** Of
what was put in, the register has got a first part; what is left is in the buffer, or in the hands
of the thread with the lock. A writer sleeps only while the buffer is full or its wakeup is due, and
characters are left in the buffer only while the device is busy, has raised an interrupt, or a
thread is about to look at it. -/
theorem uart_in_order (i : BitVec 64) (buf : Fin UART_TX_BUF_SIZE → BitVec 8) (idle : Bool) {as : List (Act T)}
    (hrun : runs Tx.step (Tx.boot i buf idle) as = some s) :
    (∃ o l, s.put = s.sent ++ o ++ l ∧ (∀ t, s.lock = some t → (s.pc t).carried = o) ∧
      (s.lock = none → o = []) ∧
      Queued s.buf s.r l ∧ s.w = s.r + BitVec.ofNat 64 l.length ∧ l.length ≤ UART_TX_BUF_SIZE) ∧
    (∀ t c, s.pc t = .putSleep c → s.w = s.r + BitVec.ofNat 64 UART_TX_BUF_SIZE ∨ ∃ u d, s.pc u = .wake d) ∧
    (s.w ≠ s.r → s.idle = false ∨ s.irq = true ∨ ∃ t, (s.pc t).looks = true) := by
  obtain ⟨o, l, h⟩ : ∃ o l, s.Holds o l := by
    refine runs_preserve (fun s => ∃ o l, s.Holds o l) hrun ⟨[], [], boot_holds i buf idle⟩ ?_
    rintro s a s' hstep ⟨o, l, h⟩
    exact h.step hstep
  refine ⟨⟨o, l, h.stream, fun t ht => h.carry t ((h.lock t).1 ht), h.free, h.queued, h.count, h.size⟩,
    fun t c hc => ?_, fun hne => h.seen ?_⟩
  · rw [h.full]
    exact h.asleep t c hc
  · rintro rfl
    exact hne (by simpa using h.count)

theorem uart_in_order_two : ∃ s : Tx Bool,
    runs Tx.step (Tx.boot 0 (fun _ => 0) true) [.uartputc true 65, .run true true, .run true true,
      .run true true,
      .run true true, .run true false, .run true false, .run true false, .uartputc false 66, .run false true,
      .run false true] = some s ∧ s.sent = [65] ∧
    (∃ o l, s.put = s.sent ++ o ++ l ∧ (∀ t, s.lock = some t → (s.pc t).carried = o) ∧
      (s.lock = none → o = []) ∧
      Queued s.buf s.r l ∧ s.w = s.r + BitVec.ofNat 64 l.length ∧ l.length ≤ UART_TX_BUF_SIZE) :=
  Exists.imp (fun _ hs => ⟨hs, by cases hs; rfl, (uart_in_order 0 _ true hs).1⟩) ⟨_, rfl⟩

end Xv6.Uart
