import Xv6.Devices.Chains

set_option autoImplicit false

/-! # Every request is completed before it returns

Runs of the disk driver: any number of threads, interrupt handlers and completions by the device, in
any order. The callers answer for one thing, that a thread calls `virtio_disk_rw` with a buffer that
it has locked, so that no other thread works on it. -/

namespace Xv6.Virtio

open Function List Option Structures State

variable {T B C : Type}

variable [DecidableEq T] [DecidableEq B] [DecidableEq C]

def State.step (blockno : B → BitVec 32) (s : State T B C) (a : Act T B C) : Option (State T B C) :=
  match s.next blockno a with
  | some (.ok s') => some s'
  | _ => none

/-- Of the chain that was last made available at a head: whether the device has completed it. -/
def noteDone (s : State T B C) (a : Act T B C) (done : Fin NUM → Bool) : Fin NUM → Bool :=
  match a with
  | .publish t =>
    match s.pc t with
    | .publish c => update done c.i0 false
    | _ => done
  | .complete h => update done h true
  | _ => done

/-- A thread calls `virtio_disk_rw` with a buffer that it has locked. -/
def exclusive (s : State T B C) (a : Act T B C) (_ : Fin NUM → Bool) : Prop :=
  match a with
  | .call _ b _ => ∀ t, (s.pc t).buf ≠ some b
  | _ => True

/-- After `virtio_disk_init`. -/
def State.init : State T B C where
  disk :=
    { desc := fun _ => {}
      availIdx := 0
      availRing := fun _ => 0
      deviceIdx := 0
      deviceRing := fun _ => 0
      free := fun _ => true
      usedIdx := 0
      info := fun _ => {}
      ops := fun _ => {} }
  busy := fun _ => false
  pc := fun _ => .idle
  lock := none
  lastAvail := 0
  taken := []

variable {s s' : State T B C} {done : Fin NUM → Bool} {pa pu : List (Fin NUM)} {blockno : B → BitVec 32}
  {a : Act T B C}

omit [DecidableEq T] [DecidableEq B] [DecidableEq C] in
theorem Inv.init (done : Fin NUM → Bool) : Inv (State.init : State T B C) done [] [] where
  lock := by
    intro t
    exact ⟨nofun, nofun⟩
  bufs := nofun
  distinct := nofun
  used := by
    intro i
    exact ⟨nofun, fun ⟨_, _, h, _⟩ => nomatch h⟩
  apart := nofun
  filled := by
    rintro t c (h | h) <;> cases h
  ready := nofun
  avail := trivial
  availIdx := rfl
  device := trivial
  deviceIdx := rfl
  nodup := nodup_nil
  pending := by
    intro h
    exact ⟨nofun, fun ⟨_, _, h, _⟩ => nomatch h⟩
  status := nofun
  completed := nofun

omit [DecidableEq B] [DecidableEq C] in
theorem Inv.step_pc {t : T} {p old : Pc B} {lock : Option (T ⊕ C)} (hi : Inv s done pa pu)
    (hpc : s.pc t = old) (hchain : p.chain = old.chain) (hsent : p.sent = old.sent) (hpub : ∀ c, p ≠ .publish c)
    (hlock : ∀ t', (update s.pc t p t').locked = true ↔ lock = some (.inl t'))
    (hbufs : ∀ t₁ t₂ b, (update s.pc t p t₁).buf = some b →
      (update s.pc t p t₂).buf = some b → t₁ = t₂) :
    Inv { s with pc := update s.pc t p, lock := lock } done pa pu := by
  refine hi.move (update_kept hpc hchain) (update_kept hpc hsent)
    (fun t' c hc => ?_) hlock hbufs rfl rfl rfl rfl
  change update s.pc t p t' = _ at hc
  by_cases ht : t' = t
  · rw [ht, update_self] at hc
    exact absurd hc (hpub c)
  · rwa [update_of_ne ht] at hc

section

omit [DecidableEq T] [DecidableEq B] [DecidableEq C]

theorem Inv.used_eq_iff (hi : Inv s done pa pu) : s.disk.usedIdx = s.disk.deviceIdx ↔ pu = [] := by
  have hlen := hi.nodup.of_append_right.length_le_card
  rw [Fintype.card_fin] at hlen
  rw [hi.deviceIdx]
  exact counter_eq_iff _ (Nat.lt_of_le_of_lt hlen (by decide))

theorem Inv.avail_eq_iff (hi : Inv s done pa pu) : s.lastAvail = s.disk.availIdx ↔ pa = [] := by
  have hlen := hi.nodup.of_append_left.of_append_left.length_le_card
  rw [Fintype.card_fin] at hlen
  rw [hi.availIdx]
  exact counter_eq_iff _ (Nat.lt_of_le_of_lt hlen (by decide))

theorem Inv.freeChain_ok {t : T} {c : Chain B} (hi : Inv s done pa pu) (hpc : s.pc t = .check c) :
    freeChain { s.disk with
        info := update s.disk.info c.i0 { s.disk.info c.i0 with b := none } } c.i0
      = .ok { s.disk with
        info := update s.disk.info c.i0 { s.disk.info c.i0 with b := none }
        desc := update (update (update s.disk.desc c.i0 {}) c.i1 {}) c.i2 {}
        free := update (update (update s.disk.free c.i0 true) c.i1 true) c.i2 true } := by
  have hc : (s.pc t).chain = some c := by rw [hpc]; rfl
  have hf := hi.filled t c (.inr (by rw [hpc]; rfl))
  exact freeChain_filled (hi.distinct t c hc) (fun i hin => (hi.used i).2 ⟨t, c, hc, hin⟩)
    hf.desc0 hf.desc1 hf.desc2

theorem Inv.relock {lock : Option (T ⊕ C)} (hi : Inv s done pa pu) (hold : ∀ t, s.lock ≠ some (.inl t))
    (hnew : ∀ t, lock ≠ some (.inl t)) : Inv { s with lock := lock } done pa pu := by
  refine hi.move (fun _ => rfl) (fun _ => rfl) (fun _ _ h => h) (fun t => ?_) hi.bufs rfl rfl rfl rfl
  rw [hi.lock]
  exact ⟨fun h => absurd h (hold t), fun h => absurd h (hnew t)⟩

end

/-- **Every step keeps the invariant.** -/
theorem Inv.next (hi : Inv s done pa pu) (hx : exclusive s a done)
    (h : s.next blockno a = some (.ok s')) : ∃ pa' pu', Inv s' (noteDone s a done) pa' pu' := by
  cases a with
  | call t b w =>
    simp only [State.next] at h
    split at h
    · next hpc hlock =>
      cases h
      refine ⟨pa, pu, hi.step_pc hpc rfl rfl (fun c => nofun)
        (lock_taken hi hlock rfl) fun t₁ t₂ b' h₁ h₂ => ?_⟩
      -- nobody else works on the buffer
      by_cases ht₁ : t₁ = t
      · by_cases ht₂ : t₂ = t
        · rw [ht₁, ht₂]
        rw [ht₁, update_self] at h₁
        rw [update_of_ne ht₂] at h₂
        exact absurd (h₂.trans h₁.symm) (hx t₂)
      rw [update_of_ne ht₁] at h₁
      by_cases ht₂ : t₂ = t
      · rw [ht₂, update_self] at h₂
        exact absurd (h₁.trans h₂.symm) (hx t₁)
      · rw [update_of_ne ht₂] at h₂
        exact hi.bufs t₁ t₂ b' h₁ h₂
    · cases h
  | alloc t =>
    simp only [State.next] at h
    split at h
    · next b w hpc =>
      rcases alloc3Desc_cases s.disk with
        ⟨desc, hcall, hdesc⟩ | ⟨i0, i1, i2, h01, h02, h12, hf0, hf1, hf2, hcall⟩
      · rw [hcall] at h
        cases h
        have hi' := hi.redesc hdesc
        exact ⟨pa, pu, hi'.step_pc hpc rfl rfl (fun c => nofun)
          (lock_given hi' hpc rfl rfl) (bufs_kept hi' hpc rfl)⟩
      rw [hcall] at h
      cases h
      exact ⟨pa, pu, hi.alloc hpc h01 h02 h12 hf0 hf1 hf2⟩
    · cases h
  | format t =>
    simp only [State.next] at h
    split at h
    · next c hpc =>
      cases h
      exact ⟨pa, pu, hi.format blockno hpc⟩
    · cases h
  | publish t =>
    simp only [State.next] at h
    split at h
    · next c hpc =>
      cases h
      simp only [noteDone, hpc]
      exact ⟨pa ++ [c.i0], pu, hi.publish hpc⟩
    · cases h
  | check t =>
    simp only [State.next] at h
    split at h
    · next c hpc =>
      split at h
      · cases h
        exact ⟨pa, pu, hi.step_pc hpc rfl rfl (fun c => nofun)
          (lock_given hi hpc rfl rfl) (bufs_kept hi hpc rfl)⟩
      next hb =>
      rw [hi.freeChain_ok hpc] at h
      cases h
      exact ⟨pa, pu, hi.finish hpc (by simpa using hb)⟩
    · cases h
  | wake t =>
    simp only [State.next] at h
    split at h
    · next b w hpc hlock =>
      cases h
      exact ⟨pa, pu, hi.step_pc hpc rfl rfl (fun c => nofun)
        (lock_taken hi hlock rfl) (bufs_kept hi hpc rfl)⟩
    · next c hpc hlock =>
      cases h
      exact ⟨pa, pu, hi.step_pc hpc rfl rfl (fun c => nofun)
        (lock_taken hi hlock rfl) (bufs_kept hi hpc rfl)⟩
    · cases h
  | intr k =>
    simp only [State.next] at h
    split at h
    · next hlock =>
      cases h
      exact ⟨pa, pu, hi.relock (by rw [hlock]; exact fun _ => nofun) (fun _ => nofun)⟩
    · cases h
  | handle k =>
    simp only [State.next] at h
    obtain ⟨hlock, h⟩ := ite_none_right_eq_some.1 h
    split at h
    · next hne =>
      cases pu with
      | nil => exact absurd (hi.used_eq_iff.2 rfl) hne
      | cons x pu =>
        obtain ⟨t, c, hs, hh, -, hf⟩ := hi.owner (mem_append_right _ mem_cons_self)
        have hbuf := hf.buf
        rw [hh] at hbuf
        rw [hi.device.1, hbuf, if_neg (not_not.2 (hi.status x mem_cons_self).1)] at h
        cases h
        exact ⟨pa, pu, hi.handle hs hh⟩
    · cases h
      exact ⟨pa, pu, hi.relock (by rw [hlock]; exact fun _ => nofun) (fun _ => nofun)⟩
  | take =>
    obtain ⟨hne, h⟩ := ite_none_right_eq_some.1 h
    cases pa with
    | nil => exact absurd (hi.avail_eq_iff.2 rfl) hne
    | cons x pa =>
      rw [hi.avail.1] at h
      cases h
      exact ⟨pa, pu, hi.take⟩
  | complete x =>
    simp only [State.next] at h
    split at h
    · next hin =>
      cases h
      exact ⟨pa, pu ++ [x], hi.complete hin⟩
    · cases h

/-- **No step panics.** -/
theorem Inv.no_panic (hi : Inv s done pa pu) (a : Act T B C) (e : String) :
    s.next blockno a ≠ some (.error e) := by
  intro h
  cases a with
  | alloc t =>
    simp only [State.next] at h
    split at h
    · rcases alloc3Desc_cases s.disk with ⟨desc, hcall, -⟩ | ⟨i0, i1, i2, -, -, -, -, -, -, hcall⟩
      · rw [hcall] at h
        cases h
      · rw [hcall] at h
        cases h
    · cases h
  | check t =>
    simp only [State.next] at h
    split at h
    · next c hpc =>
      split at h
      · cases h
      · rw [hi.freeChain_ok hpc] at h
        cases h
    · cases h
  | handle k =>
    simp only [State.next] at h
    obtain ⟨-, h⟩ := ite_none_right_eq_some.1 h
    split at h
    · next hne =>
      cases pu with
      | nil => exact hne (hi.used_eq_iff.2 rfl)
      | cons x pu =>
        obtain ⟨t, c, -, hh, -, hf⟩ := hi.owner (mem_append_right _ mem_cons_self)
        have hbuf := hf.buf
        rw [hh] at hbuf
        rw [hi.device.1, hbuf, if_neg (not_not.2 (hi.status x mem_cons_self).1)] at h
        cases h
    · cases h
  | call t b w | format t | publish t | wake t | intr k | take | complete x =>
    simp only [State.next] at h
    split at h <;> cases h

theorem step_next (h : s.step blockno a = some s') : s.next blockno a = some (.ok s') := by
  unfold step at h
  split at h
  · next hnext => rw [hnext, ← some.inj h]
  · cases h

/-- **The disk driver in any run in which callers have locked their buffers.** The chains of the
    threads are disjoint, and a descriptor is in use just if it is in one; `alloc3_desc` takes three
    descriptors or none; a thread that leaves its loop has a request that the device has completed;
    what `virtio_disk_intr` finds in the used ring is the chain of a thread that waits, with its
    buffer; and no step panics. -/
theorem disk_requests {tr : List (Act T B C)}
    (hlocked : Along (State.step blockno) noteDone exclusive State.init (fun _ => false) tr)
    (hrun : runs (State.step blockno) State.init tr = some s) :
    (∀ t c, (s.pc t).chain = some c → c.descs.Nodup) ∧
    (∀ i, s.disk.free i = false ↔ ∃ t c, (s.pc t).chain = some c ∧ i ∈ c.descs) ∧
    (∀ t t' c c' i, (s.pc t).chain = some c → (s.pc t').chain = some c' → i ∈ c.descs →
      i ∈ c'.descs → t = t') ∧
    (∀ d, alloc3Desc s.disk = .ok (d, none) → d.free = s.disk.free) ∧
    (∀ t c, s.pc t = .check c → s.busy c.b = false →
      history (State.step blockno) noteDone State.init (fun _ => false) tr c.i0 = true) ∧
    (s.disk.usedIdx ≠ s.disk.deviceIdx →
      ∃ t c, (s.pc t).sent = some c ∧ c.i0 = s.disk.deviceRing (slot NUM s.disk.usedIdx) ∧
        (s.disk.info c.i0).b = some c.b ∧ Filled s.disk c) ∧
    (∀ a e, s.next blockno a ≠ some (.error e)) := by
  obtain ⟨pa, pu, hi⟩ := hlocked.invariant (fun s done => ∃ pa pu, Inv s done pa pu) hrun
    ⟨[], [], .init _⟩ fun s a s' done hstep hx ⟨pa, pu, hi⟩ => hi.next hx (step_next hstep)
  refine ⟨?_, hi.used, hi.apart, ?_, ?_, ?_, hi.no_panic⟩
  · intro t c hc
    have hd := hi.distinct t c hc
    simp [hd.h01, hd.h02, hd.h12]
  · intro d hd
    rcases alloc3Desc_cases s.disk with ⟨desc, hcall, -⟩ | ⟨i0, i1, i2, -, -, -, -, -, -, hcall⟩
    · cases hd.symm.trans hcall
      rfl
    · cases (Prod.mk.inj (Except.ok.inj (hd.symm.trans hcall))).2
  · intro t c hpc hb
    exact hi.completed t c (by rw [hpc]; rfl) hb
  intro hne
  cases pu with
  | nil => exact absurd (hi.used_eq_iff.2 rfl) hne
  | cons x pu =>
    obtain ⟨t, c, hs, hh, -, hf⟩ := hi.owner (mem_append_right _ mem_cons_self)
    exact ⟨t, c, hs, by rw [hi.device.1, hh], hf.buf, hf⟩

instance exclusive.decidable [Fintype T] (s : State T B C) (a : Act T B C) (done : Fin NUM → Bool) :
    Decidable (exclusive s a done) :=
  match a with
  | .call _ b _ => inferInstanceAs (Decidable (∀ t, (s.pc t).buf ≠ some b))
  | .alloc _ | .format _ | .publish _ | .check _ | .wake _ | .intr _ | .handle _ | .take | .complete _ =>
    .isTrue trivial

/-- Two threads read two blocks; the second request is completed first and the second thread is back
    from its sleep. -/
def twoReads : List (Act Bool Bool Unit) :=
  [.call true true false, .alloc true, .format true, .publish true, .check true,
   .call false false false, .alloc false, .format false, .publish false, .take, .take, .check false,
   .complete 3, .intr (), .handle (), .handle (), .wake false]

theorem disk_requests_two : ∃ s, runs (State.step fun _ => 0) State.init twoReads = some s ∧
    (∃ c, s.pc false = .check c ∧ s.busy c.b = false ∧
      history (State.step fun _ => 0) noteDone State.init (fun _ => false) twoReads c.i0 = true) ∧
    ∀ a e, s.next (fun _ => 0) a ≠ some (.error e) := by
  have hlocked : Along (step fun _ => 0) noteDone exclusive init (fun _ => false) twoReads := by
    decide +kernel
  have hstate : (runs (step fun _ => 0) init twoReads).map (fun s => (s.pc false, s.busy false)) =
      some (.check ⟨false, false, 3, 4, 5⟩, false) := by decide +kernel
  obtain ⟨s, hs, hst⟩ := map_eq_some_iff.1 hstate
  obtain ⟨hpc, hbusy⟩ := Prod.mk.inj hst
  obtain ⟨-, -, -, -, hdone, -, hpanic⟩ := disk_requests hlocked hs
  exact ⟨s, hs, ⟨_, hpc, hbusy, hdone false _ hpc hbusy⟩, hpanic⟩

end Xv6.Virtio
