import Xv6.FileSystem.Cache
import Xv6.Structures.Runs

set_option autoImplicit false

/-! # The least recently used buffer

The list of the buffers stays sorted by the time of the last `brelse` that has brought the reference
count to zero: that is where `brelse` moves a buffer to the front, and nothing else moves it. So the
first unused buffer from the end, the one that `bget` recycles, is the one that was released
first. -/

namespace Xv6.Fs

open Function List Option Structures Bcache Cache

variable {T : Type} [DecidableEq T]

section

variable {c c' : Cache T} {t : T} {b : BufIdx} {x : BlockNo} {a : CacheAct T} {order : List BufIdx}

/-- When the reference count of each buffer was last brought to zero by `brelse`, by counting these
    events; zero if it never was. -/
structure Releases where
  clock : Nat
  last : BufIdx → Nat

def noteRelease (c : Cache T) : CacheAct T → Releases → Releases
  | .unref _ b, r =>
    if (c.bc.buf b).refcnt = 1 then
      { clock := r.clock + 1, last := update r.last b (r.clock + 1) }
    else r
  | _, r => r

/-- The list is sorted by these times, the latest first. -/
structure Sorted (bc : Bcache) (r : Releases) (order : List BufIdx) : Prop where
  ring : bc.links.Ring order
  all : ∀ b, b ∈ order
  sorted : order.Pairwise fun b b' => r.last b' ≤ r.last b
  clock : ∀ b, r.last b ≤ r.clock

theorem step_links (hstep : c.step a = some c') :
    (∃ t b, a = .unref t b ∧ ⟨t, b, .releasing⟩ ∈ c.uses ∧ c'.bc = c.bc.unref b) ∨
      (∀ t b, a ≠ .unref t b) ∧ c'.bc.links = c.bc.links := by
  cases a with
  | unref t b =>
    obtain ⟨hu, ⟨⟩⟩ := ite_none_right_eq_some.1 hstep
    exact .inl ⟨t, b, rfl, hu, rfl⟩
  | bget t x =>
    refine .inr ⟨(by simp), ?_⟩
    simp only [step] at hstep
    split at hstep
    · next b bc hget =>
      cases hstep
      unfold bget at hget
      split at hget
      · cases hget
        rfl
      split at hget
      · cases hget
        rfl
      · cases hget
    · cases hstep
  | fill t b =>
    refine .inr ⟨(by simp), ?_⟩
    obtain ⟨-, ⟨⟩⟩ := ite_none_right_eq_some.1 hstep
    show links (if _ then _ else _) = _
    split <;> rfl
  | acquire | store | bwrite | release | bpin | bunpin =>
    refine .inr ⟨(by simp), ?_⟩
    obtain ⟨-, ⟨⟩⟩ := ite_none_right_eq_some.1 hstep
    rfl

/-- **The list stays sorted.** -/
theorem Sorted.step {r : Releases} (hs : Sorted c.bc r order) (h : c.Ok) (hstep : c.step a = some c') :
    ∃ order, Sorted c'.bc (noteRelease c a r) order := by
  rcases step_links hstep with ⟨t, b, rfl, hu, hbc⟩ | ⟨hne, hlinks⟩
  · simp only [noteRelease]
    rw [hbc]
    unfold unref
    by_cases hone : (c.bc.buf b).refcnt = 1
    · have hzero : ((c.bc.mod b fun x => { x with refcnt := x.refcnt - 1 }).buf b).refcnt = 0 := by
        simp [hone]
      rw [if_pos hzero, if_pos hone]
      refine ⟨b :: order.erase b, hs.ring.toFront (hs.all b), fun b' => ?_, ?_, fun b' => ?_⟩
      · have := hs.all b'
        grind
      · refine pairwise_cons.2 ⟨fun b' _ => ?_, ?_⟩
        · have := hs.clock b'
          grind
        refine (hs.sorted.sublist erase_sublist).imp_of_mem fun {b₁ b₂} h₁ h₂ hle => ?_
        -- the buffer that has been moved is not among the others
        have hmem := Nodup.not_mem_erase hs.ring.nodup (a := b)
        grind
      · have := hs.clock b'
        grind
    · have hmore : ((c.bc.mod b fun x => { x with refcnt := x.refcnt - 1 }).buf b).refcnt ≠ 0 := by
        have hpos := Cache.Ok.count_pos hu
        have hcnt := h.table.refcnt b
        grind [mod_buf]
      rw [if_neg hmore, if_neg hone]
      exact ⟨order, hs.ring, hs.all, hs.sorted, hs.clock⟩
  · have hr : noteRelease c a r = r := by
      cases a with
      | unref t b => exact absurd rfl (hne t b)
      | _ => rfl
    rw [hr]
    exact ⟨order, hlinks ▸ hs.ring, hs.all, hs.sorted, hs.clock⟩

/-- The buffer that is recycled was released before all others that are not in use. -/
theorem Sorted.recycled {r : Releases} (hs : Sorted c.bc r order)
    (hstep : c.step (.bget t x) = some c')
    (hnew : ∀ b, (c.bc.buf b).dev = ROOTDEV → (c.bc.buf b).blockno ≠ x) :
    ∃ b, (c.bc.buf b).refcnt = 0 ∧ (c'.bc.buf b).dev = ROOTDEV ∧ (c'.bc.buf b).blockno = x ∧
      ∀ b', (c.bc.buf b').refcnt = 0 → r.last b ≤ r.last b' := by
  simp only [Cache.step] at hstep
  split at hstep
  · next b bc hget =>
    cases hstep
    cases bget_move hs.ring hs.all hget with
    | hit hdev hblock => exact absurd hblock (hnew b hdev)
    | recycle _ hfree l₁ l₂ horder hused =>
      refine ⟨b, hfree, ?_, ?_, fun b' hb' => ?_⟩
      · rw [mod_buf, if_pos rfl]
      · rw [mod_buf, if_pos rfl]
      have hmem := hs.all b'
      have hsorted := hs.sorted
      rw [horder] at hmem hsorted
      rcases mem_append.1 hmem with hl | hl
      · exact (pairwise_append.1 hsorted).2.2 b' hl b (mem_cons_self ..)
      rcases mem_cons.1 hl with rfl | hl
      · exact le_refl _
      · exact absurd hb' (hused b' hl)
  · cases hstep

end

/-! ## All runs -/

/-- The number of references that are in the given phase. -/
def Cache.inPhase (c : Cache T) (b : BufIdx) (p : Phase) : Nat :=
  c.uses.countP fun u => decide (u.buf = b ∧ u.phase = p)

omit [DecidableEq T] in
theorem refs_phases (c : Cache T) (b : BufIdx) :
    c.refs b = c.inPhase b .waiting + (c.inPhase b .locked + c.inPhase b .ready +
      c.inPhase b .releasing) := by
  unfold refs inPhase
  induction c.uses with
  | nil => rfl
  | cons u l ih =>
    simp only [countP_cons, ih]
    by_cases hb : u.buf = b
    · cases hp : u.phase <;> simp [hb] <;> omega
    · simp [hb]

theorem ring_foldl {L : Links BufIdx} {l order : List BufIdx} (h : L.Ring order)
    (hl : (l ++ order).Nodup) : (l.foldl Links.pushFront L).Ring (l.reverse ++ order) := by
  induction l generalizing L order with
  | nil => exact h
  | cons b l ih =>
    have hb : b ∉ order := fun hmem =>
      (nodup_cons.1 hl).1 (mem_append_right l hmem)
    have hperm : (l ++ b :: order).Nodup :=
      (perm_middle.nodup_iff).2 hl
    simpa using ih (h.pushFront hb) hperm

theorem binit_sorted : ∃ order, Sorted binit ⟨0, fun _ => 0⟩ order := by
  refine ⟨(List.finRange NBUF).reverse ++ [], ring_foldl .empty ?_, fun b => ?_, ?_, fun _ => le_refl _⟩
  · simpa using nodup_finRange NBUF
  · simp
  · exact pairwise_of_forall fun _ _ => le_refl _

omit [DecidableEq T] in
theorem start_ok (disk : BlockNo → Block) : (Cache.start disk : Cache T).Ok where
  table := by
    obtain ⟨order, hs⟩ := binit_sorted
    refine ⟨⟨order, hs.ring, hs.all⟩, fun _ _ hdev => ?_, fun _ => rfl, fun _ hne => absurd rfl hne⟩
    exact absurd (show (0 : BitVec 32) = ROOTDEV from hdev) (by decide)
  lone := fun _ => Nat.zero_le _
  owner := fun b t => ⟨nofun, by simp [start]⟩
  valid := by simp [start]

/-- **The buffer cache in every run.** The list is a ring of all buffers; no block of the root
    device is in two buffers; the reference count is the number of the threads that wait for the
    buffer, of those that hold it or are not through with giving it back, and of its pins; a buffer
    in use keeps its block; and a buffer that is recycled was brought to zero by `brelse` before all
    the others that are not in use. -/
theorem bcache_runs (disk : BlockNo → Block) {tr : List (CacheAct T)} {c : Cache T}
    (hrun : runs Cache.step (Cache.start disk) tr = some c) :
    (∃ order, c.bc.links.Ring order ∧ ∀ b, b ∈ order) ∧
    (∀ b b', (c.bc.buf b).dev = ROOTDEV → (c.bc.buf b').dev = ROOTDEV →
      (c.bc.buf b).blockno = (c.bc.buf b').blockno → b = b') ∧
    (∀ b, (c.bc.buf b).refcnt = c.inPhase b .waiting +
      (c.inPhase b .locked + c.inPhase b .ready + c.inPhase b .releasing) + c.pins b) ∧
    (∀ a c', c.step a = some c' → ∀ b, (c.bc.buf b).refcnt ≠ 0 →
      (c'.bc.buf b).dev = (c.bc.buf b).dev ∧ (c'.bc.buf b).blockno = (c.bc.buf b).blockno) ∧
    (∀ t x c', c.step (.bget t x) = some c' →
      (∀ b, (c.bc.buf b).dev = ROOTDEV → (c.bc.buf b).blockno ≠ x) →
      ∃ b, (c.bc.buf b).refcnt = 0 ∧ (c'.bc.buf b).dev = ROOTDEV ∧ (c'.bc.buf b).blockno = x ∧
        ∀ b', (c.bc.buf b').refcnt = 0 →
          (history Cache.step noteRelease (Cache.start disk) ⟨0, fun _ => 0⟩ tr).last b ≤
            (history Cache.step noteRelease (Cache.start disk) ⟨0, fun _ => 0⟩ tr).last b') := by
  obtain ⟨hok, order, hs⟩ := runs_invariant
    (fun c r => c.Ok ∧ ∃ order, Sorted c.bc r order) hrun ⟨start_ok disk, binit_sorted⟩
    fun c a c' r hstep ⟨hok, order, hs⟩ => ⟨hok.step hstep, hs.step hok hstep⟩
  refine ⟨hok.table.ring, hok.table.unique, fun b => ?_, fun a c' hstep b => hok.block_kept hstep,
    fun t x c' hstep hnew => hs.recycled hstep hnew⟩
  rw [hok.table.refcnt, refs_phases]

/-- Two threads read the same block, the first one pins it and gives it back. -/
def readTwice : List (CacheAct Nat) :=
  [.bget 0 7, .acquire 0 0, .fill 0 0, .bget 1 7, .bpin 0 0, .release 0 0, .acquire 1 0, .unref 0 0]

theorem bcache_runs_twice : ∃ c, runs Cache.step (Cache.start fun _ _ => 0) readTwice = some c ∧
    (c.bc.buf 0).refcnt = c.inPhase 0 .waiting +
      (c.inPhase 0 .locked + c.inPhase 0 .ready + c.inPhase 0 .releasing) + c.pins 0 := by
  have hrun : (runs step (start fun _ _ => 0) readTwice).isSome = true := by
    decide +kernel
  obtain ⟨c, hc⟩ := isSome_iff_exists.1 hrun
  exact ⟨c, hc, (bcache_runs _ hc).2.2.1 0⟩

end Xv6.Fs
