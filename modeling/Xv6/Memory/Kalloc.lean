import Xv6.Structures.LittleEndian
import Xv6.Structures.Runs

set_option autoImplicit false

/-! # The page allocator

`kernel/kalloc.c` for any number of threads on any number of cpus. The list of free pages is
threaded through the bytes of the pages, which their holders and the two junk fills write too. A
page is held from the step in which `kalloc` takes it off the list to the step in which `kfree` puts
it there. -/

namespace Xv6.Kalloc

open Function List Structures

variable {T : Type} [DecidableEq T]

def PGSIZE : Nat := 4096

def PHYSTOP : Nat := 0x80000000 + 128 * 1024 * 1024

def pgRoundUp (a : Nat) : Nat := (a + PGSIZE - 1) / PGSIZE * PGSIZE

/-- The pages over which the loop of `freerange(end, PHYSTOP)` goes. -/
def freerange (kend : Nat) : List Nat :=
  (range ((PHYSTOP - pgRoundUp kend) / PGSIZE)).map (pgRoundUp kend + PGSIZE * ·)

/-- Where a thread is in `kfree` or `kalloc`. -/
inductive Pc
  | idle
  | panicked
  /-- In `memset`, before byte `i` of the page. -/
  | fill (freeing : Bool) (pa i : Nat)
  | freeLink (pa : Nat)
  | freePush (pa : Nat)
  | freeRelease
  | allocAcquire
  | allocRead
  | allocPop (r : Nat)
  | allocRelease (r : Nat)
  /-- The return of `kalloc`. -/
  | ret (r : Nat)
  deriving DecidableEq

structure Kmem (T : Type) where
  mem : Buf
  freelist : Nat
  lock : Option T
  /-- Who holds a page. -/
  held : Nat → Option T
  pc : T → Pc

inductive Act (T : Type)
  | go
  | kalloc
  | kfree (pa : Nat)
  /-- A page changes hands. -/
  | give (p : Nat) (u : T)
  | write (a : Nat) (v : UInt8)

/-- Before `kinit` all pages are with the thread that frees them in `freerange`. -/
def start (kend : Nat) (boot : T) (mem : Buf) : Kmem T where
  mem := mem
  freelist := 0
  lock := none
  held p := if p ∈ freerange kend then some boot else none
  pc _ := .idle

/-- The list from `r` on, through the links. -/
def Chain (next : Nat → Nat) : Nat → List Nat → Prop
  | r, [] => r = 0
  | r, p :: l => r = p ∧ p ≠ 0 ∧ Chain next (next p) l

/-- From `r` on come the pages that nobody holds, each once. -/
def Lists (kend : Nat) (held : Nat → Option T) (next : Nat → Nat) (r : Nat) : Prop :=
  ∃ l, Chain next r l ∧ l.Nodup ∧ ∀ p, p ∈ l ↔ p ∈ freerange kend ∧ held p = none

theorem Chain.congr {next next' : Nat → Nat} {r : Nat} {l : List Nat} (h : Chain next r l)
    (heq : ∀ p ∈ l, next' p = next p) :
    Chain next' r l := by
  induction l generalizing r with
  | nil => exact h
  | cons p l ih =>
    refine ⟨h.1, h.2.1, ?_⟩
    rw [heq p mem_cons_self]
    exact ih h.2.2 fun q hq => heq q (mem_cons_of_mem p hq)

namespace Kmem

/-- `r->next`. -/
def next (s : Kmem T) (r : Nat) : Nat := getLE 8 s.mem r

def goto (s : Kmem T) (t : T) (pc : Pc) : Kmem T := { s with pc := update s.pc t pc }

/-- `acquire(&kmem.lock)`, which waits while the lock is taken. -/
def acquire (s : Kmem T) (t : T) (pc : Pc) : Option (Kmem T) :=
  if s.lock = none then some ({ s with lock := some t }.goto t pc) else none

/-- The byte with which the two functions fill a page. -/
def junk (freeing : Bool) : UInt8 := if freeing then 1 else 5

def go (s : Kmem T) (t : T) : Option (Kmem T) :=
  match s.pc t with
  | .idle | .panicked => none
  | .fill freeing pa i =>
    if i < PGSIZE then
      some ({ s with mem := update s.mem (pa + i) (junk freeing) }.goto t (.fill freeing pa (i + 1)))
    else if freeing then s.acquire t (.freeLink pa)
    else some (s.goto t (.ret pa))
  | .freeLink pa => some ({ s with mem := putLE 8 s.mem pa s.freelist }.goto t (.freePush pa))
  | .freePush pa => some ({ s with freelist := pa, held := update s.held pa none }.goto t .freeRelease)
  | .freeRelease => some ({ s with lock := none }.goto t .idle)
  | .allocAcquire => s.acquire t .allocRead
  | .allocRead => some (s.goto t (.allocPop s.freelist))
  | .allocPop r =>
    if r ≠ 0 then
      some ({ s with freelist := s.next r, held := update s.held r (some t) }.goto t (.allocRelease r))
    else some (s.goto t (.allocRelease r))
  | .allocRelease r => some ({ s with lock := none }.goto t (if r ≠ 0 then .fill false r 0 else .ret 0))
  | .ret _ => some (s.goto t .idle)

/-- The step of a thread. Outside a call it may call `kalloc`, free a page that it holds, give it
    away, and write into it or into memory that is not for pages. -/
def step (kend : Nat) (s : Kmem T) : T × Act T → Option (Kmem T)
  | (t, .go) => s.go t
  | (t, .kalloc) => if s.pc t = .idle then some (s.goto t .allocAcquire) else none
  | (t, .kfree pa) =>
    if s.pc t = .idle ∧ s.held pa = some t then
      some (s.goto t (if pa % PGSIZE ≠ 0 ∨ pa < kend ∨ PHYSTOP ≤ pa then .panicked else .fill true pa 0))
    else none
  | (t, .give p u) =>
    if s.pc t = .idle ∧ s.held p = some t then some { s with held := update s.held p (some u) } else none
  | (t, .write a v) =>
    if s.pc t = .idle ∧ (s.held (a / PGSIZE * PGSIZE) = some t ∨ a / PGSIZE * PGSIZE ∉ freerange kend) then
      some { s with mem := update s.mem a v }
    else none

/-! ## The invariant -/

/-- What holds of a thread at its place in the code. -/
def PcOk (s : Kmem T) (t : T) : Pc → Prop
  | .idle | .allocAcquire => True
  | .panicked => False
  | .fill _ pa _ => s.held pa = some t
  | .freeLink pa => s.lock = some t ∧ s.held pa = some t
  | .freePush pa => s.lock = some t ∧ s.held pa = some t ∧ s.next pa = s.freelist
  | .freeRelease | .allocRead => s.lock = some t
  | .allocPop r => s.lock = some t ∧ r = s.freelist
  | .allocRelease r => s.lock = some t ∧ (r ≠ 0 → s.held r = some t)
  | .ret r => r ≠ 0 → s.held r = some t

structure Inv (kend : Nat) (s : Kmem T) : Prop where
  list : Lists kend s.held s.next s.freelist
  page : ∀ {p t}, s.held p = some t → p ∈ freerange kend
  pc : ∀ t, s.PcOk t (s.pc t)

/-- What a step of `t` leaves as it is for the other threads and for the pages on the list. -/
structure Keeps (kend : Nat) (t : T) (s s' : Kmem T) : Prop where
  pc : ∀ u, u ≠ t → s'.pc u = s.pc u
  held : ∀ u, u ≠ t → ∀ p, s.held p = some u → s'.held p = some u
  lock : ∀ u, u ≠ t → s.lock = some u → s'.lock = some u ∧ s'.freelist = s.freelist
  next : ∀ p ∈ freerange kend, s.held p ≠ some t → s'.next p = s.next p

variable {kend : Nat} {s s' : Kmem T} {t u : T} {p r : Nat} {l : List Nat}

theorem goto_pc (s : Kmem T) (t : T) (pc : Pc) : (s.goto t pc).pc t = pc := update_self ..

theorem goto_apply (s : Kmem T) (t u : T) (pc : Pc) : (s.goto t pc).pc u = if u = t then pc else s.pc u :=
  update_apply ..

theorem mem_freerange : p ∈ freerange kend ↔ p % PGSIZE = 0 ∧ kend ≤ p ∧ p < PHYSTOP := by
  simp only [freerange, mem_map, mem_range, pgRoundUp, PGSIZE, PHYSTOP]
  constructor
  · rintro ⟨i, hi, rfl⟩
    omega
  · rintro ⟨h0, hk, hp⟩
    exact ⟨(p - (kend + 4096 - 1) / 4096 * 4096) / 4096, by omega, by omega⟩

section

omit [DecidableEq T]

theorem next_update {a : Nat} (v : UInt8)
    (ha : s.held (a / PGSIZE * PGSIZE) = some t ∨ a / PGSIZE * PGSIZE ∉ freerange kend)
    (hp : p ∈ freerange kend) (hne : s.held p ≠ some t) : getLE 8 (update s.mem a v) p = s.next p := by
  refine getLE_congr fun i hi => update_of_ne (fun heq => ?_) _ _
  have hpage : a / PGSIZE * PGSIZE = p := by
    have := (mem_freerange.1 hp).1
    simp only [PGSIZE] at *
    omega
  rw [hpage] at ha
  exact ha.elim hne (· hp)

theorem Inv.next_fill (h : s.Inv kend) {pa i : Nat} (hpa : s.held pa = some t) (hi : i < PGSIZE) (v : UInt8)
    (hp : p ∈ freerange kend) (hne : s.held p ≠ some t) : getLE 8 (update s.mem (pa + i) v) p = s.next p := by
  refine next_update v (.inl ?_) hp hne
  have := (mem_freerange.1 (h.page hpa)).1
  rwa [show (pa + i) / PGSIZE * PGSIZE = pa by simp only [PGSIZE] at *; omega]

theorem Inv.freelist_lt (h : s.Inv kend) : s.freelist < 256 ^ 8 := by
  obtain ⟨_ | ⟨r, l⟩, hc, -, hm⟩ := h.list
  · rw [show s.freelist = 0 from hc]
    decide
  have := (mem_freerange.1 ((hm r).1 mem_cons_self).1).2.2
  rw [hc.1]
  simp only [PHYSTOP] at this
  omega

end

theorem Inv.of_keeps (h : s.Inv kend) (hk : Keeps kend t s s') (hpc : s'.PcOk t (s'.pc t))
    (hlist : Lists kend s'.held s'.next s'.freelist)
    (hpage : ∀ {p u}, s'.held p = some u → p ∈ freerange kend) : s'.Inv kend := by
  refine ⟨hlist, hpage, fun u => ?_⟩
  by_cases hu : u = t
  · exact hu ▸ hpc
  have hpc := h.pc u
  have hlock := hk.lock u hu
  rw [hk.pc u hu]
  cases hp : s.pc u with
  | idle | allocAcquire => trivial
  | panicked =>
    rw [hp] at hpc
    exact hpc
  | fill | freeLink | freeRelease | allocRead | allocPop | allocRelease | ret =>
    have hheld := hk.held u hu
    rw [hp] at hpc
    simp only [PcOk] at hpc ⊢
    grind
  | freePush pa =>
    rw [hp] at hpc
    obtain ⟨hl, hpa, hn⟩ := hpc
    have hne : s.held pa ≠ some t := by simpa [hpa] using hu
    exact ⟨(hlock hl).1, hk.held u hu pa hpa, by rw [hk.next pa (h.page hpa) hne, hn, (hlock hl).2]⟩

theorem Inv.quiet (h : s.Inv kend) (hk : Keeps kend t s s') (hpc : s'.PcOk t (s'.pc t))
    (hfree : s'.freelist = s.freelist) (hnone : ∀ p, s'.held p = none ↔ s.held p = none) : s'.Inv kend := by
  obtain ⟨l, hc, hn, hm⟩ := h.list
  refine h.of_keeps hk hpc ⟨l, ?_, hn, fun p => by rw [hm, hnone]⟩ fun {p u} hp => ?_
  · rw [hfree]
    refine hc.congr fun p hp => hk.next p ((hm p).1 hp).1 ?_
    rw [((hm p).1 hp).2]
    simp
  · obtain ⟨v, hv⟩ := Option.ne_none_iff_exists'.1 fun h0 => by simp [(hnone p).2 h0] at hp
    exact h.page hv

theorem Inv.move (h : s.Inv kend) {mem : Buf} {lock : Option T} {pc : Pc}
    (hlock : lock = s.lock ∨ s.lock = none ∨ s.lock = some t)
    (hmem : ∀ p ∈ freerange kend, s.held p ≠ some t → getLE 8 mem p = s.next p)
    (hpc : { s with mem := mem, lock := lock }.PcOk t pc) :
    ({ s with mem := mem, lock := lock }.goto t pc).Inv kend := by
  refine h.quiet ⟨fun u hu => update_of_ne hu _ _, fun _ _ _ h => h,
    fun u hu h => ⟨?_, rfl⟩, hmem⟩ ?_ rfl fun _ => .rfl
  · show lock = some u
    rcases hlock with hl | hl | hl
    · exact hl.trans h
    · cases hl.symm.trans h
    · cases hl.symm.trans h
      exact absurd rfl hu
  · rw [goto_pc]
    exact hpc

theorem Inv.acquire (h : s.Inv kend) {pc : Pc} (hs : s.acquire t pc = some s')
    (hpc : { s with lock := some t }.PcOk t pc) : s'.Inv kend := by
  obtain ⟨hl, ⟨⟩⟩ := Option.ite_none_right_eq_some.1 hs
  exact h.move (.inr (.inl hl)) (fun _ _ _ => rfl) hpc

theorem Inv.turn (h : s.Inv kend) (hl : s.lock = some t) {pa f : Nat} {x : Option T} {pc : Pc}
    (hpa : pa ∈ freerange kend) (hown : ∀ u, s.held pa = some u → u = t)
    (hpc : { s with freelist := f, held := update s.held pa x }.PcOk t pc)
    (hlist : Lists kend (update s.held pa x) s.next f) :
    ({ s with freelist := f, held := update s.held pa x }.goto t pc).Inv kend := by
  refine h.of_keeps (t := t) ⟨fun u hu => update_of_ne hu _ _, fun u hu q hq => ?_,
    fun u hu h => ?_, fun _ _ _ => rfl⟩
    ?_ hlist fun {q u} hq => ?_
  · refine (update_of_ne ?_ _ _).trans hq
    rintro rfl
    exact hu (hown u hq)
  · exact absurd (Option.some.inj (h.symm.trans hl)) hu
  · rw [goto_pc]
    exact hpc
  · by_cases hqp : q = pa
    · exact hqp ▸ hpa
    · exact h.page ((update_of_ne hqp _ _).symm.trans hq)

theorem Inv.push (h : s.Inv kend) (hend : 0 < kend) {pa : Nat} (hpc : s.PcOk t (.freePush pa)) :
    ({ s with freelist := pa, held := update s.held pa none }.goto t .freeRelease).Inv kend := by
  obtain ⟨hl, hpa, hnext⟩ := hpc
  obtain ⟨l, hc, hn, hm⟩ := h.list
  have hrange := mem_freerange.1 (h.page hpa)
  have hnot : pa ∉ l := fun hmem => by simp [((hm pa).1 hmem).2] at hpa
  refine h.turn hl (h.page hpa) (fun u hu => Option.some.inj (hu.symm.trans hpa)) hl
    ⟨pa :: l, ⟨rfl, by omega, hnext.symm ▸ hc⟩, nodup_cons.2 ⟨hnot, hn⟩, fun q => ?_⟩
  by_cases hq : q = pa
  · simp [hq, h.page hpa]
  · simp [hq, hm]

theorem Inv.pop (h : s.Inv kend) (hl : s.lock = some t) (hr : s.freelist ≠ 0) :
    ({ s with freelist := s.next s.freelist, held := update s.held s.freelist (some t) }.goto t
      (.allocRelease s.freelist)).Inv kend := by
  obtain ⟨_ | ⟨r, l⟩, hc, hn, hm⟩ := h.list
  · exact absurd hc hr
  obtain ⟨rfl, -, hc⟩ := hc
  obtain ⟨hrange, hnone⟩ := (hm _).1 mem_cons_self
  obtain ⟨hnot, hn⟩ := nodup_cons.1 hn
  refine h.turn hl hrange (fun u hu => by simp [hnone] at hu) ⟨hl, fun _ => update_self ..⟩
    ⟨l, hc, hn, fun q => ?_⟩
  have := hm q
  by_cases hq : q = s.freelist
  · simp [hq, hnot]
  · simpa [hq] using this

theorem Inv.go (h : s.Inv kend) (hend : 0 < kend) (hs : s.go t = some s') : s'.Inv kend := by
  have hpc := h.pc t
  unfold Kmem.go at hs
  cases hp : s.pc t with rw [hp] at hs hpc
  | idle | panicked => cases hs
  | fill freeing pa i =>
    replace hs : (if i < PGSIZE then _ else _) = _ := hs
    split_ifs at hs with hi hf
    · cases hs
      exact h.move (.inl rfl) (fun q => h.next_fill hpc hi _) hpc
    · exact h.acquire hs ⟨rfl, hpc⟩
    · cases hs
      exact h.move (.inl rfl) (fun _ _ _ => rfl) fun _ => hpc
  | freeLink pa =>
    cases hs
    obtain ⟨hl, hpa⟩ := hpc
    refine h.move (.inl rfl) (fun q hq hne => getLE_putLE_ne _ _ ?_) ⟨hl, hpa, ?_⟩
    · have hq := (mem_freerange.1 hq).1
      have hpage := (mem_freerange.1 (h.page hpa)).1
      have hqp : q ≠ pa := by
        rintro rfl
        exact hne hpa
      simp only [PGSIZE] at *
      omega
    · exact (getLE_putLE ..).trans (Nat.mod_eq_of_lt h.freelist_lt)
  | freePush pa =>
    cases hs
    exact h.push hend hpc
  | freeRelease =>
    cases hs
    exact h.move (.inr (.inr hpc)) (fun _ _ _ => rfl) trivial
  | allocAcquire => exact h.acquire hs rfl
  | allocRead =>
    cases hs
    exact h.move (.inl rfl) (fun _ _ _ => rfl) ⟨hpc, rfl⟩
  | allocPop r =>
    obtain ⟨hl, rfl⟩ := hpc
    replace hs : (if s.freelist ≠ 0 then _ else _) = _ := hs
    split_ifs at hs with hr
    · cases hs
      exact h.pop hl hr
    · cases hs
      exact h.move (.inl rfl) (fun _ _ _ => rfl) ⟨hl, fun h => absurd h hr⟩
  | allocRelease r =>
    cases hs
    refine h.move (.inr (.inr hpc.1)) (fun _ _ _ => rfl) ?_
    split_ifs with hr
    · exact hpc.2 hr
    · exact fun h => absurd rfl h
  | ret r =>
    cases hs
    exact h.move (.inl rfl) (fun _ _ _ => rfl) trivial

theorem Inv.step (h : s.Inv kend) (hend : 0 < kend) {x : T × Act T}
    (hs : s.step kend x = some s') : s'.Inv kend := by
  obtain ⟨t, a⟩ := x
  cases a with
  | go => exact h.go hend hs
  | kalloc =>
    obtain ⟨-, ⟨⟩⟩ := Option.ite_none_right_eq_some.1 hs
    exact h.move (.inl rfl) (fun _ _ _ => rfl) trivial
  | kfree pa =>
    obtain ⟨⟨-, hpa⟩, ⟨⟩⟩ := Option.ite_none_right_eq_some.1 hs
    have := mem_freerange.1 (h.page hpa)
    rw [if_neg (by omega)]
    exact h.move (.inl rfl) (fun _ _ _ => rfl) hpa
  | give p u =>
    obtain ⟨⟨hidle, hp⟩, ⟨⟩⟩ := Option.ite_none_right_eq_some.1 hs
    refine h.quiet (t := t) ⟨fun _ _ => rfl, fun v hv q hq => ?_, fun _ _ h => ⟨h, rfl⟩, fun _ _ _ => rfl⟩
      (hidle ▸ trivial) rfl fun q => ?_
    · refine (update_of_ne ?_ _ _).trans hq
      rintro rfl
      exact hv (Option.some.inj (hq.symm.trans hp))
    by_cases hq : q = p
    · simp [hq, hp]
    · simp [hq]
  | write a v =>
    obtain ⟨⟨hidle, ha⟩, ⟨⟩⟩ := Option.ite_none_right_eq_some.1 hs
    exact h.quiet (t := t) ⟨fun _ _ => rfl, fun _ _ _ h => h, fun _ _ h => ⟨h, rfl⟩,
      fun q hq => next_update v ha hq⟩
      (hidle ▸ trivial) rfl fun _ => .rfl

/-! ## What a call returns -/

/-- All pages are held. -/
def Full (kend : Nat) (s : Kmem T) : Prop := ∀ p ∈ freerange kend, s.held p ≠ none

omit [DecidableEq T] in
theorem Inv.freelist_eq_zero (h : s.Inv kend) : s.freelist = 0 ↔ s.Full kend := by
  obtain ⟨l, hc, -, hm⟩ := h.list
  constructor
  · intro h0 p hrange hnone
    have hmem := (hm p).2 ⟨hrange, hnone⟩
    cases l with
    | nil => cases hmem
    | cons r l => exact hc.2.1 (hc.1.symm.trans h0)
  · intro hfull
    cases l with
    | nil => exact hc
    | cons r l => exact absurd ((hm r).1 mem_cons_self).2 (hfull r ((hm r).1 mem_cons_self).1)

/-- Which threads have had a time since their last call of `kalloc` at which all pages were held. -/
def noteFull (kend : Nat) (s : Kmem T) (x : T × Act T) (full : T → Prop) (u : T) : Prop :=
  full u ∧ (x.1 = u → x.2 ≠ .kalloc) ∨ s.Full kend

/-- Only a thread with such a time is on its way to return 0. -/
def Fails (s : Kmem T) (full : T → Prop) : Prop :=
  ∀ t, s.pc t = .allocRelease 0 ∨ s.pc t = .ret 0 → full t

theorem step_pc {x : T × Act T} (hs : s.step kend x = some s') (hu : u ≠ x.1) : s'.pc u = s.pc u := by
  obtain ⟨t, a⟩ := x
  cases a with
  | go | kalloc | kfree =>
    simp only [step, Kmem.go, Kmem.acquire] at hs
    grind [goto_apply]
  | give | write =>
    obtain ⟨-, ⟨⟩⟩ := Option.ite_none_right_eq_some.1 hs
    rfl

theorem Inv.fails (h : s.Inv kend) (hend : 0 < kend) {full : T → Prop} (hf : s.Fails full) {x : T × Act T}
    (hs : s.step kend x = some s') : s'.Fails (noteFull kend s x full) := by
  intro u hu
  by_cases hx : u = x.1
  · -- the thread has just read the list, or is where it was on its way
    obtain ⟨t, a⟩ := x
    obtain rfl : u = t := hx
    have hpc : ∀ {pc}, s.pc u = pc → s.PcOk u pc := fun hp => hp ▸ h.pc u
    have hpop : ∀ r, s.pc u = .allocPop r → r = s.freelist := fun r hp => (hpc hp).2
    have hfill : ∀ freeing pa i, s.pc u = .fill freeing pa i → pa ≠ 0 := fun freeing pa i hp => by
      have := (mem_freerange.1 (h.page (hpc hp))).2.1
      omega
    have hfull := h.freelist_eq_zero
    have := hf u
    cases a with
    | go | kalloc | kfree =>
      simp only [Kmem.step, Kmem.go, Kmem.acquire, noteFull] at hs ⊢
      grind [goto_apply]
    | give | write =>
      obtain ⟨-, ⟨⟩⟩ := Option.ite_none_right_eq_some.1 hs
      exact .inl ⟨hf u hu, by simp⟩
  · rw [step_pc hs hx] at hu
    exact .inl ⟨hf u hu, fun h => absurd h.symm hx⟩

variable (kend) in
/-- The loop of `memset`. -/
theorem runs_fill {freeing : Bool} (i : Nat) (hi : i ≤ PGSIZE) (hp : s.pc t = .fill freeing r (PGSIZE - i)) :
    ∃ s', (∀ tr, runs (step kend) s (replicate i (t, .go) ++ tr) = runs (step kend) s' tr) ∧
      s'.pc t = .fill freeing r PGSIZE ∧ (∀ u ≠ t, s'.pc u = s.pc u) ∧ s'.held = s.held ∧ s'.lock = s.lock := by
  induction i generalizing s with
  | zero => exact ⟨s, fun _ => rfl, hp, fun _ _ => rfl, rfl, rfl⟩
  | succ i ih =>
    let s₁ := { s with mem := update s.mem (r + (PGSIZE - (i + 1))) (junk freeing) }.goto t
      (.fill freeing r (PGSIZE - i))
    have hlt : PGSIZE - (i + 1) < PGSIZE := by omega
    have hgo : s.go t = some s₁ := by
      simp only [Kmem.go, hp, if_pos hlt, s₁, show PGSIZE - (i + 1) + 1 = PGSIZE - i by omega]
    obtain ⟨s', hruns, hpc, hother, hheld, hlock⟩ := ih (by omega) (goto_pc _ t _ : s₁.pc t = _)
    refine ⟨s', fun tr => ?_, hpc, fun u hu => (hother u hu).trans (update_of_ne hu _ _), hheld, hlock⟩
    rw [replicate_succ, cons_append, runs, step, hgo]
    exact hruns tr

/-- Left to itself with the lock free, a call returns, and with a page exactly if there is one. -/
theorem kalloc_answers (h : s.Inv kend) (hidle : s.pc t = .idle) (hl : s.lock = none) :
    ∃ k s' r, runs (step kend) s ((t, .kalloc) :: replicate k (t, .go)) = some s' ∧ s'.pc t = .ret r ∧
      (r = 0 ↔ s.Full kend) := by
  by_cases h0 : s.freelist = 0
  · have hfull := h.freelist_eq_zero.1 h0
    refine ⟨4, ?_⟩
    simp only [replicate, runs, step, Kmem.go, Kmem.acquire, goto, hidle, hl, h0, if_true, update_self, ne_eq,
      not_true_eq_false, if_false]
    exact ⟨_, 0, rfl, update_self .., by simpa⟩
  · obtain ⟨s₁, hstart, hfill⟩ : ∃ s₁,
      (∀ tr, runs (step kend) s ((t, .kalloc) :: (replicate 4 (t, .go) ++ tr)) =
        runs (step kend) s₁ tr) ∧ s₁.pc t = .fill false s.freelist (PGSIZE - PGSIZE) := by
      simp only [replicate, cons_append, nil_append, runs, step, Kmem.go, Kmem.acquire, goto,
        hidle, hl, h0, if_true,
        update_self, ne_eq, not_false_eq_true]
      exact ⟨_, fun _ => rfl, update_self ..⟩
    obtain ⟨s', hruns, hpc, -⟩ := runs_fill kend PGSIZE le_rfl hfill
    refine ⟨4 + (PGSIZE + 1), s'.goto t (.ret s.freelist), s.freelist, ?_, goto_pc .., h.freelist_eq_zero⟩
    rw [replicate_add, hstart, replicate_add, hruns]
    simp [runs, step, Kmem.go, hpc]

/-- Left to itself with the lock free, `kfree` puts the page on the list. -/
theorem kfree_answers (h : s.Inv kend) (hidle : s.pc t = .idle) (hl : s.lock = none) (hr : s.held r = some t) :
    ∃ k s', (∀ tr, runs (step kend) s ((t, .kfree r) :: (replicate k (t, .go) ++ tr)) =
      runs (step kend) s' tr) ∧
      (∀ u, u ≠ t → s'.pc u = s.pc u) ∧ s'.lock = none ∧ s'.held r = none := by
  have hrange := mem_freerange.1 (h.page hr)
  have hok : ¬ (r % PGSIZE ≠ 0 ∨ r < kend ∨ PHYSTOP ≤ r) := by omega
  obtain ⟨s₁, hruns, hpc, hother, -, hlock⟩ :=
    runs_fill kend PGSIZE le_rfl (goto_pc s t (.fill true r (PGSIZE - PGSIZE)))
  obtain ⟨s₂, hput, hpc₂, hl₂, hnone⟩ : ∃ s₂, (∀ tr, runs (step kend) s₁ (replicate 4 (t, .go) ++ tr) =
      runs (step kend) s₂ tr) ∧ (∀ u, u ≠ t → s₂.pc u = s₁.pc u) ∧ s₂.lock = none ∧ s₂.held r = none := by
    simp only [replicate, cons_append, nil_append, runs, step, Kmem.go, Kmem.acquire, goto, hpc, Nat.lt_irrefl,
      if_false, if_true, hlock.trans hl, update_self]
    refine ⟨_, fun _ => rfl, fun u hu => ?_, rfl, update_self ..⟩
    simp only [update_of_ne hu]
  refine ⟨PGSIZE + 4, s₂, fun tr => ?_, fun u hu => ?_, hl₂, hnone⟩
  · rw [runs, step, if_pos ⟨hidle, hr⟩, if_neg hok, replicate_add, append_assoc]
    exact (hruns _).trans (hput tr)
  · rw [hpc₂ u hu, hother u hu, goto_apply, if_neg hu]

/-! ## Every run -/

/-- What the allocator promises in a state, and of the calls under way. -/
structure Correct (kend : Nat) (s : Kmem T) (full : T → Prop) : Prop where
  list : Lists kend s.held s.next s.freelist
  /-- The page that `kalloc` is about to take is held by nobody, the one that it returns by its
      caller alone. -/
  takes : ∀ t r, s.pc t = .allocPop r → r ≠ 0 → s.held r = none
  returns : ∀ t r, s.pc t = .ret r → r ≠ 0 → s.held r = some t
  /-- `kalloc` returns 0 only if all pages were held at some time during the call. -/
  fails : ∀ t, s.pc t = .ret 0 → full t
  /-- A call returns, and alone it returns 0 only if all pages are held. -/
  answers : ∀ t, s.pc t = .idle → s.lock = none → ∃ k s' r,
    runs (step kend) s ((t, .kalloc) :: replicate k (t, .go)) = some s' ∧ s'.pc t = .ret r ∧
      (r = 0 ↔ s.Full kend)
  /-- A byte of junk changes no link of the list. -/
  links : ∀ t freeing pa i s', s.pc t = .fill freeing pa i → s.go t = some s' →
    ∀ p ∈ freerange kend, s.held p = none → s'.next p = s.next p
  panics : ∀ t, s.pc t ≠ .panicked

theorem Inv.correct (h : s.Inv kend) {full : T → Prop} (hf : s.Fails full) : s.Correct kend full := by
  have hpc : ∀ {t pc}, s.pc t = pc → s.PcOk t pc := fun {t _} hp => hp ▸ h.pc t
  refine ⟨h.list, fun t r hp hr => ?_, fun t r hp => hpc hp, fun t hp => hf t (.inr hp),
    fun t => kalloc_answers h,
    fun t freeing pa i s' hp hs p hrange hnone => ?_, fun t hp => hpc hp⟩
  · obtain ⟨l, hc, -, hm⟩ := h.list
    obtain ⟨-, rfl⟩ := hpc hp
    cases l with
    | nil => exact absurd hc hr
    | cons r l => exact hc.1 ▸ ((hm r).1 mem_cons_self).2
  have hpa := hpc hp
  simp only [Kmem.go, hp, Kmem.acquire] at hs
  split_ifs at hs with hi
  · cases hs
    exact h.next_fill hpa hi _ hrange (by simp [hnone])
  all_goals
    cases hs
    rfl

omit [DecidableEq T] in
theorem start_inv (boot : T) (mem : Buf) : (start kend boot mem).Inv kend where
  list := ⟨[], rfl, nodup_nil, fun p => by simp [start]⟩
  page {p t} h := by
    by_contra hp
    simp [start, hp] at h
  pc _ := trivial

/-- **In every run of `kalloc` and `kfree` calls, by any threads that free only pages they hold, no
    page is on the list twice or while it is held, none is returned that another holds, and `kalloc`
    returns 0 only if all were held during the call.** The kernel lies behind `KERNBASE`. -/
theorem kalloc_correct (kend : Nat) (hend : 0x80000000 ≤ kend) (boot : T) (mem : Buf) (tr : List (T × Act T))
    (h : runs (step kend) (start kend boot mem) tr = some s) :
    s.Correct kend (history (step kend) (noteFull kend) (start kend boot mem) (fun _ => False) tr) := by
  have hpos : 0 < kend := by omega
  obtain ⟨hinv, hfails⟩ : s.Inv kend ∧
      s.Fails (history (step kend) (noteFull kend) (start kend boot mem) (fun _ => False) tr) :=
    runs_invariant (fun s full => s.Inv kend ∧ s.Fails full) h
      ⟨start_inv boot mem, fun t ht => by simp [start] at ht⟩
      fun _ _ _ _ hs hi => ⟨hi.1.step hpos hs, hi.1.fails hpos hi.2 hs⟩
  exact hinv.correct hfails

/-- A page is freed, and the next `kalloc` returns one. -/
theorem kalloc_correct_returns : ∃ tr s r, runs (step 0x80000000) (start 0x80000000 (0 : Nat) fun _ => 0)
      ((0, .kfree 0x80000000) :: tr) = some s ∧ s.pc 1 = .ret r ∧ r ≠ 0 ∧ s.held r = some 1 := by
  have hpage : 0x80000000 ∈ freerange 0x80000000 := mem_freerange.2 (by simp [PGSIZE, PHYSTOP])
  obtain ⟨k, s₁, hfree, hother, hl, hnone⟩ := @kfree_answers Nat _ 0x80000000 _ 0 0x80000000
    (start_inv 0 fun _ => 0) rfl rfl (by simp only [start, if_pos hpage])
  have hinv : s₁.Inv 0x80000000 :=
    runs_preserve (Inv 0x80000000) (hfree []) (start_inv 0 fun _ => 0) fun _ _ _ hs hi => hi.step (by decide) hs
  obtain ⟨k', s', r, hruns, hret, hr⟩ := kalloc_answers hinv (t := 1) (hother 1 (by decide)) hl
  have hr : r ≠ 0 := fun h => hr.1 h _ hpage hnone
  have hall := (hfree _).trans hruns
  exact ⟨_, s', r, hall, hret, hr, (kalloc_correct _ le_rfl _ _ _ hall).returns 1 r hret hr⟩

end Kmem

end Xv6.Kalloc
