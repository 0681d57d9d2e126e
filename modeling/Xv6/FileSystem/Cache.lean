import Xv6.FileSystem.Bio

set_option autoImplicit false

/-! # The invariant of the buffer cache

`Cache.Ok` ties the table of buffers to the threads that refer to them: the reference count of a
buffer is the number of its uses and pins, at most one thread has its sleep lock, and no block of
the root device is in two buffers. It rests on lookup and recycling being one critical section, and
on a buffer being recycled only with a reference count of zero (`BgetMove`). `BufMove` says what a
step does to a buffer. -/

namespace Xv6.Fs

open Function List Structures Bcache Cache

variable {T : Type} [DecidableEq T]

/-- The table of buffers, with the number of references to each buffer. -/
structure Bcache.Ok (bc : Bcache) (count : BufIdx → Nat) : Prop where
  ring : ∃ order, bc.links.Ring order ∧ ∀ b, b ∈ order
  unique : ∀ b b', (bc.buf b).dev = ROOTDEV → (bc.buf b').dev = ROOTDEV →
    (bc.buf b).blockno = (bc.buf b').blockno → b = b'
  refcnt : ∀ b, (bc.buf b).refcnt = count b
  device : ∀ b, count b ≠ 0 → (bc.buf b).dev = ROOTDEV

namespace Cache

/-- The number of references of threads to the buffer. -/
def refs (c : Cache T) (b : BufIdx) : Nat := c.uses.countP fun u => decide (u.buf = b)

/-- The number of threads that have the sleep lock of the buffer. -/
def holders (c : Cache T) (b : BufIdx) : Nat :=
  c.uses.countP fun u => decide (u.buf = b) && u.phase.holds

structure Ok (c : Cache T) : Prop where
  table : c.bc.Ok fun b => c.refs b + c.pins b
  lone : ∀ b, c.holders b ≤ 1
  owner : ∀ b t, c.owner b = some t ↔ ∃ u ∈ c.uses, u.buf = b ∧ u.phase.holds = true ∧ u.thread = t
  valid : ∀ u ∈ c.uses, u.phase = .ready → (c.bc.buf u.buf).valid = true

end Cache

/-! ## Lists of references -/

section

variable {l : List (Use T)} {u : Use T} {p : Use T → Bool}

theorem countP_erase_add (h : u ∈ l) : (l.erase u).countP p + (if p u then 1 else 0) = l.countP p := by
  rw [(perm_cons_erase h).countP_eq, countP_cons]

theorem exists_erase (h : u ∈ l) (P : Use T → Prop) : (∃ v ∈ l, P v) ↔ P u ∨ ∃ v ∈ l.erase u, P v := by
  simp only [(perm_cons_erase h).mem_iff, mem_cons, exists_eq_or_imp]

end

section

variable {c c' : Cache T} {t : T} {b b' : BufIdx} {p q : Phase} {x : BlockNo} {u : Use T}
  {a : CacheAct T} {bc : Bcache} {order : List BufIdx}

theorem refs_move (h : ⟨t, b, p⟩ ∈ c.uses) (b' : BufIdx) : (c.move t b p q).refs b' = c.refs b' := by
  have hcount := countP_erase_add (p := fun u => decide (u.buf = b')) h
  simp only [refs, move, countP_cons]
  exact hcount

theorem holders_move (h : ⟨t, b, p⟩ ∈ c.uses) (b' : BufIdx) :
    (c.move t b p q).holders b' + (if b = b' ∧ p.holds = true then 1 else 0) =
      c.holders b' + (if b = b' ∧ q.holds = true then 1 else 0) := by
  have hcount := countP_erase_add (p := fun u => decide (u.buf = b') && u.phase.holds) h
  simp only [holders, move, countP_cons, Bool.and_eq_true, decide_eq_true_eq]
    at hcount ⊢
  omega

theorem exists_move (P : Use T → Prop) :
    (∃ u ∈ (c.move t b p q).uses, P u) ↔ P ⟨t, b, q⟩ ∨ ∃ u ∈ c.uses.erase ⟨t, b, p⟩, P u := by
  simp only [move, mem_cons, exists_eq_or_imp]

theorem mem_move (h : u ∈ (c.move t b p q).uses) : u = ⟨t, b, q⟩ ∨ u ∈ c.uses := by
  rcases mem_cons.1 h with h | h
  · exact Or.inl h
  · exact Or.inr (mem_of_mem_erase h)

theorem mem_move_of (h : u ∈ c.uses) (hne : u ≠ ⟨t, b, p⟩) : u ∈ (c.move t b p q).uses :=
  mem_cons_of_mem _ ((mem_erase_of_ne hne).2 h)

omit [DecidableEq T] in
theorem refs_pos (h : u ∈ c.uses) : 0 < c.refs u.buf :=
  List.countP_pos_iff.2 ⟨u, h, by simp⟩

omit [DecidableEq T] in
/-! ## Looking for a buffer -/

theorem order_length (h : bc.links.Ring order) : order.length < NBUF + 1 := by
  have hlen := Nodup.length_le_card h.nodup
  rw [Fintype.card_fin] at hlen
  omega

theorem lookup_eq (h : bc.links.Ring order) (dev : BitVec 32) : bc.lookup dev x =
      order.find? fun b => decide ((bc.buf b).dev = dev ∧ (bc.buf b).blockno = x) :=
  h.scan_next (order_length h)

theorem victim_eq (h : bc.links.Ring order) :
    bc.victim = order.reverse.find? fun b => decide ((bc.buf b).refcnt = 0) :=
  h.scan_prev (order_length h)

/-- What `bget` does: it finds the block, or recycles the last buffer of the list that is not in
    use. -/
inductive BgetMove (bc : Bcache) (order : List BufIdx) (x : BlockNo) : BufIdx → Bcache → Prop where
  | hit (b : BufIdx) (hdev : (bc.buf b).dev = ROOTDEV) (hblock : (bc.buf b).blockno = x) :
      BgetMove bc order x b (bc.mod b fun y => { y with refcnt := y.refcnt + 1 })
  | recycle (b : BufIdx) (hnew : ∀ b, (bc.buf b).dev = ROOTDEV → (bc.buf b).blockno ≠ x)
      (hfree : (bc.buf b).refcnt = 0) (l₁ l₂ : List BufIdx) (horder : order = l₁ ++ b :: l₂)
      (hused : ∀ b' ∈ l₂, (bc.buf b').refcnt ≠ 0) :
      BgetMove bc order x b (bc.mod b fun y =>
        { y with dev := ROOTDEV, blockno := x, valid := false, refcnt := 1 })

theorem bget_move {bc' : Bcache} (h : bc.links.Ring order) (hall : ∀ b, b ∈ order)
    (hget : bc.bget ROOTDEV x = some (b, bc')) : BgetMove bc order x b bc' := by
  unfold bget at hget
  split at hget
  · next b0 hlook =>
    obtain ⟨rfl, rfl⟩ := Prod.mk.inj (Option.some.inj hget)
    rw [lookup_eq h] at hlook
    have hb : (bc.buf b0).dev = ROOTDEV ∧ (bc.buf b0).blockno = x := by
      simpa using find?_some hlook
    exact .hit b0 hb.1 hb.2
  next hlook =>
  rw [lookup_eq h] at hlook
  have hnew : ∀ b, (bc.buf b).dev = ROOTDEV → (bc.buf b).blockno ≠ x := fun b hdev hblock =>
    List.find?_eq_none.1 hlook b (hall b) (decide_eq_true ⟨hdev, hblock⟩)
  split at hget
  · next b0 hvict =>
    obtain ⟨rfl, rfl⟩ := Prod.mk.inj (Option.some.inj hget)
    rw [victim_eq h] at hvict
    obtain ⟨hfree, l₁, l₂, horder, hused⟩ := List.find?_eq_some_iff_append.1 hvict
    refine .recycle b0 hnew (of_decide_eq_true hfree) l₂.reverse l₁.reverse ?_ fun b' hb' => ?_
    · rw [← reverse_reverse order, horder]
      simp
    · simpa using hused b' (List.mem_reverse.1 hb')
  · cases hget

theorem bget_isSome (h : bc.links.Ring order) (hall : ∀ b, b ∈ order) (hfree : (bc.buf b).refcnt = 0) :
    (bc.bget ROOTDEV x).isSome = true := by
  have hvict : bc.victim.isSome = true := by
    rw [victim_eq h, find?_isSome]
    exact ⟨b, List.mem_reverse.2 (hall b), decide_eq_true hfree⟩
  obtain ⟨b', hb'⟩ := Option.isSome_iff_exists.1 hvict
  unfold bget
  rw [hb']
  cases bc.lookup ROOTDEV x <;> rfl

/-! ## The table -/

namespace Bcache.Ok

variable {count count' : BufIdx → Nat} {f : Buf → Buf}

theorem mod (h : bc.Ok count) (hdev : (f (bc.buf b)).dev = (bc.buf b).dev)
    (hblock : (f (bc.buf b)).blockno = (bc.buf b).blockno)
    (hcount : (f (bc.buf b)).refcnt = count' b) (hother : ∀ b', b' ≠ b → count' b' = count b')
    (hpos : count' b ≠ 0 → (bc.buf b).dev = ROOTDEV) : (bc.mod b f).Ok count' := by
  have hbuf := bc.mod_buf b
  refine ⟨h.ring, fun b₁ b₂ => ?_, fun b' => ?_, fun b' => ?_⟩
  · have := h.unique b₁ b₂
    grind
  · have := h.refcnt b'
    grind
  · have := h.device b'
    grind

theorem recycle (h : bc.Ok count) (hnew : ∀ b, (bc.buf b).dev = ROOTDEV → (bc.buf b).blockno ≠ x)
    (hcount : count' b = 1) (hother : ∀ b', b' ≠ b → count' b' = count b') :
    (bc.mod b fun y =>
      { y with dev := ROOTDEV, blockno := x, valid := false, refcnt := 1 }).Ok count' := by
  have hbuf := bc.mod_buf b
  refine ⟨h.ring, fun b₁ b₂ => ?_, fun b' => ?_, fun b' => ?_⟩
  · have := h.unique b₁ b₂
    have := hnew b₁
    have := hnew b₂
    grind
  · have := h.refcnt b'
    grind
  · have := h.device b'
    grind

theorem bget {bc' : Bcache} (h : bc.Ok count) (hget : bc.bget ROOTDEV x = some (b, bc')) :
    bc'.Ok fun b' => count b' + if b = b' then 1 else 0 := by
  obtain ⟨order, hring, hall⟩ := h.ring
  have hcount := h.refcnt b
  cases bget_move hring hall hget with
  | hit hdev _ => exact h.mod rfl rfl (by grind) (by grind) fun _ => hdev
  | recycle hnew hfree => exact h.recycle hnew (by grind) (by grind)

section

variable (h : bc.Ok count) (hpos : 0 < count b)
include h hpos

theorem unref : (bc.unref b).Ok fun b' => count b' - if b = b' then 1 else 0 := by
  have hmod : (bc.mod b fun x => { x with refcnt := x.refcnt - 1 }).Ok
      fun b' => count b' - if b = b' then 1 else 0 := by
    have hcount := h.refcnt b
    exact h.mod rfl rfl (by grind) (by grind) fun _ => h.device b (by omega)
  unfold Bcache.unref
  dsimp only
  split
  · obtain ⟨order, hring, hall⟩ := hmod.ring
    refine ⟨⟨b :: order.erase b, hring.toFront (hall b), fun b' => ?_⟩, hmod.unique, hmod.refcnt,
      hmod.device⟩
    have := hall b'
    grind
  · exact hmod

theorem bpin : (bc.bpin b).Ok fun b' => count b' + if b = b' then 1 else 0 := by
  have hcount := h.refcnt b
  exact h.mod rfl rfl (by grind) (by grind) fun _ => h.device b (by omega)

theorem bunpin : (bc.bunpin b).Ok fun b' => count b' - if b = b' then 1 else 0 := by
  have hcount := h.refcnt b
  exact h.mod rfl rfl (by grind) (by grind) fun _ => h.device b (by omega)

end

theorem congr (h : bc.Ok count) (heq : ∀ b, count' b = count b) : bc.Ok count' := by
  rwa [show count' = count from funext heq]

end Bcache.Ok

/-! ## Every step keeps the invariant -/

theorem mod_valid {f : Buf → Buf} (hf : ∀ y, (f y).valid = y.valid) (b' : BufIdx) :
    ((bc.mod b f).buf b').valid = (bc.buf b').valid := by
  rw [mod_buf]
  split
  · next he => rw [he, hf]
  · rfl

theorem unref_valid (b' : BufIdx) : ((bc.unref b).buf b').valid = (bc.buf b').valid := by
  unfold unref
  dsimp only
  split <;> exact mod_valid (f := fun x => { x with refcnt := x.refcnt - 1 }) (fun _ => rfl) b'

namespace Cache.Ok

omit [DecidableEq T] in
theorem count_pos (h : u ∈ c.uses) : 0 < c.refs u.buf + c.pins u.buf :=
  Nat.lt_of_lt_of_le (refs_pos h) (Nat.le_add_right ..)

omit [DecidableEq T] in
theorem owns (h : c.Ok) (hu : u ∈ c.uses) (hp : u.phase.holds = true) :
    c.owner u.buf = some u.thread :=
  (h.owner u.buf u.thread).2 ⟨u, hu, rfl, hp, rfl⟩

theorem rest_free (h : c.Ok) (hu : u ∈ c.uses) (hp : u.phase.holds = true) :
    ∀ u' ∈ c.uses.erase u, u'.buf = u.buf → u'.phase.holds = false := by
  intro u' hmem hb
  by_contra hp'
  have hcount := countP_erase_add (p := fun v => decide (v.buf = u.buf) && v.phase.holds) hu
  have hpos : 0 < (c.uses.erase u).countP fun v => decide (v.buf = u.buf) && v.phase.holds :=
    List.countP_pos_iff.2 ⟨u', hmem, by simp [hp', hb]⟩
  rw [if_pos (by simp [hp])] at hcount
  have hlone : c.uses.countP (fun v => decide (v.buf = u.buf) && v.phase.holds) ≤ 1 := h.lone u.buf
  omega

theorem holder_unique {u' : Use T} (h : c.Ok) (hu : u ∈ c.uses) (hp : u.phase.holds = true)
    (hu' : u' ∈ c.uses) (hp' : u'.phase.holds = true) (hb : u'.buf = u.buf) : u' = u := by
  by_contra hne
  cases (h.rest_free hu hp u' ((mem_erase_of_ne hne).2 hu') hb).symm.trans hp'

theorem bget (h : c.Ok) (hstep : c.step (.bget t x) = some c') : c'.Ok := by
  simp only [step] at hstep
  split at hstep
  · next b bc hget =>
    cases hstep
    refine ⟨(h.table.bget hget).congr fun b' => ?_, fun b' => ?_, fun b' t' => ?_, fun u hu hp => ?_⟩
    · simp only [refs, countP_cons, decide_eq_true_eq]
      omega
    · simpa [holders, countP_cons, Phase.holds] using h.lone b'
    · rw [h.owner]
      simp [Phase.holds]
    rcases mem_cons.1 hu with rfl | hmem
    · cases hp
    -- a buffer in use is not recycled
    obtain ⟨order, hring, hall⟩ := h.table.ring
    have hvalid := h.valid u hmem hp
    have hpos := count_pos hmem
    have hcnt := h.table.refcnt u.buf
    cases bget_move hring hall hget <;> grind [mod_buf]
  · cases hstep

theorem goes_on (h : c.Ok) (hu : ⟨t, b, p⟩ ∈ c.uses) (hpq : p.holds = q.holds)
    (hbc : bc.Ok fun b => c.refs b + c.pins b)
    (hvalid : ∀ u ∈ (c.move t b p q).uses, u.phase = .ready → (bc.buf u.buf).valid = true) :
    ({ c.move t b p q with bc := bc } : Cache T).Ok := by
  refine ⟨hbc.congr fun b' => ?_, fun b' => ?_, fun b' t' => ?_, hvalid⟩
  · have hrefs := refs_move (q := q) hu b'
    show (c.move t b p q).refs b' + _ = _
    rw [hrefs]
    rfl
  · have hmove := holders_move (q := q) hu b'
    have hlone := h.lone b'
    rw [hpq] at hmove
    show (c.move t b p q).holders b' ≤ 1
    omega
  show c.owner b' = some t' ↔ ∃ u ∈ (c.move t b p q).uses, _
  rw [h.owner, exists_erase hu, exists_move, hpq]

theorem hands_over {o : Option T} (h : c.Ok) (hu : ⟨t, b, p⟩ ∈ c.uses) (hq : q ≠ .ready)
    (hrest : ∀ u ∈ c.uses.erase ⟨t, b, p⟩, u.buf = b → u.phase.holds = false)
    (ho : ∀ t', o = some t' ↔ q.holds = true ∧ t = t') :
    ({ c.move t b p q with owner := update c.owner b o } : Cache T).Ok := by
  refine ⟨h.table.congr fun b' => ?_, fun b' => ?_, fun b' t' => ?_, fun u hmem hp => ?_⟩
  · have hrefs := refs_move (q := q) hu b'
    show (c.move t b p q).refs b' + _ = _
    rw [hrefs]
    rfl
  · show (c.move t b p q).holders b' ≤ 1
    by_cases he : b = b'
    · subst he
      have hzero : (c.uses.erase ⟨t, b, p⟩).countP (fun u => decide (u.buf = b) && u.phase.holds) = 0 := by
        refine List.countP_eq_zero.2 fun u hmem hp => ?_
        simp only [Bool.and_eq_true, decide_eq_true_eq] at hp
        cases (hrest u hmem hp.1).symm.trans hp.2
      rw [holders, move, countP_cons, hzero]
      split <;> omega
    have hmove := holders_move (q := q) hu b'
    have hlone := h.lone b'
    simp only [he, false_and, if_false] at hmove
    omega
  · show update c.owner b o b' = some t' ↔ ∃ u ∈ (c.move t b p q).uses, _
    rw [exists_move, update_apply]
    split
    · rw [ho]
      grind
    · rw [h.owner, exists_erase hu]
      grind
  · rcases mem_move hmem with rfl | hmem
    · exact absurd hp hq
    · exact h.valid u hmem hp

theorem acquire (h : c.Ok) (hstep : c.step (.acquire t b) = some c') : c'.Ok := by
  obtain ⟨hg, ⟨⟩⟩ := Option.ite_none_right_eq_some.1 hstep
  refine h.hands_over hg.1 nofun (fun u hmem hb => ?_) fun t' => by simp [Phase.holds]
  by_contra hp
  have ho := h.owns (mem_of_mem_erase hmem) (Bool.eq_true_of_not_eq_false hp)
  rw [hb, hg.2] at ho
  cases ho

theorem fill (h : c.Ok) (hstep : c.step (.fill t b) = some c') : c'.Ok := by
  obtain ⟨hu, ⟨⟩⟩ := Option.ite_none_right_eq_some.1 hstep
  refine h.goes_on hu rfl ?_ fun u hmem hp => ?_
  · split
    · exact h.table
    · exact h.table.mod rfl rfl (h.table.refcnt b) (fun _ _ => rfl) (h.table.device b)
  have hvalid := h.valid u
  have := mem_move hmem
  grind [mod_buf]

omit [DecidableEq T] in
theorem same_uses (h : c.Ok) (huses : c'.uses = c.uses) (howner : c'.owner = c.owner)
    (hbc : c'.bc.Ok fun b => c'.refs b + c'.pins b)
    (hvalid : ∀ b, (c'.bc.buf b).valid = (c.bc.buf b).valid) : c'.Ok := by
  refine ⟨hbc, fun b => ?_, fun b t => ?_, fun u hu hp => ?_⟩
  · have hlone := h.lone b
    rwa [holders, ← huses] at hlone
  · rw [howner, huses]
    exact h.owner b t
  · rw [hvalid]
    exact h.valid u (huses ▸ hu) hp

theorem store {d : Block} (h : c.Ok) (hstep : c.step (.store t b d) = some c') : c'.Ok := by
  obtain ⟨-, ⟨⟩⟩ := Option.ite_none_right_eq_some.1 hstep
  refine h.same_uses rfl rfl ?_ fun b' => ?_
  · exact h.table.mod (f := fun x => { x with data := d }) rfl rfl (h.table.refcnt b)
      (fun _ _ => rfl) (h.table.device b)
  · exact mod_valid (f := fun x => { x with data := d }) (fun _ => rfl) b'

theorem bwrite (h : c.Ok) (hstep : c.step (.bwrite t b) = some c') : c'.Ok := by
  obtain ⟨-, ⟨⟩⟩ := Option.ite_none_right_eq_some.1 hstep
  exact h.same_uses rfl rfl h.table fun _ => rfl

theorem release (h : c.Ok) (hstep : c.step (.release t b) = some c') : c'.Ok := by
  obtain ⟨hu, ⟨⟩⟩ := Option.ite_none_right_eq_some.1 hstep
  exact h.hands_over hu nofun (h.rest_free hu rfl) fun t' => by simp [Phase.holds]

theorem unref (h : c.Ok) (hstep : c.step (.unref t b) = some c') : c'.Ok := by
  obtain ⟨hu, ⟨⟩⟩ := Option.ite_none_right_eq_some.1 hstep
  have hrefs := fun b' => countP_erase_add (p := fun u => decide (u.buf = b')) hu
  have hholds := fun b' =>
    countP_erase_add (p := fun u => decide (u.buf = b') && u.phase.holds) hu
  refine ⟨(h.table.unref (count_pos hu)).congr fun b' => ?_, fun b' => ?_, fun b' t' => ?_,
    fun u hmem hp => ?_⟩
  · have hb := hrefs b'
    simp only [decide_eq_true_eq] at hb
    simp only [refs]
    omega
  · have hb := hholds b'
    have hlone := h.lone b'
    simp only [holders] at hlone ⊢
    omega
  · show c.owner b' = some t' ↔ _
    rw [h.owner, exists_erase hu]
    simp [Phase.holds]
  · show ((c.bc.unref b).buf u.buf).valid = true
    rw [unref_valid]
    exact h.valid u (mem_of_mem_erase hmem) hp

theorem bpin (h : c.Ok) (hstep : c.step (.bpin t b) = some c') : c'.Ok := by
  obtain ⟨hu, ⟨⟩⟩ := Option.ite_none_right_eq_some.1 hstep
  refine h.same_uses rfl rfl ((h.table.bpin (count_pos hu)).congr fun b' => ?_)
    (mod_valid (f := fun x => { x with refcnt := x.refcnt + 1 }) fun _ => rfl)
  show c.refs b' + update c.pins b (c.pins b + 1) b' = _
  grind

theorem bunpin (h : c.Ok) (hstep : c.step (.bunpin b) = some c') : c'.Ok := by
  obtain ⟨hpos, ⟨⟩⟩ := Option.ite_none_right_eq_some.1 hstep
  refine h.same_uses rfl rfl ((h.table.bunpin ?_).congr fun b' => ?_)
    (mod_valid (f := fun x => { x with refcnt := x.refcnt - 1 }) fun _ => rfl)
  · exact Nat.lt_of_lt_of_le hpos (Nat.le_add_left ..)
  show c.refs b' + update c.pins b (c.pins b - 1) b' = _
  grind

/-- **Every step keeps the invariant of the cache.** -/
theorem step (h : c.Ok) (hstep : c.step a = some c') : c'.Ok := by
  cases a with
  | bget t x => exact h.bget hstep
  | acquire t b => exact h.acquire hstep
  | fill t b => exact h.fill hstep
  | store t b d => exact h.store hstep
  | bwrite t b => exact h.bwrite hstep
  | release t b => exact h.release hstep
  | unref t b => exact h.unref hstep
  | bpin t b => exact h.bpin hstep
  | bunpin b => exact h.bunpin hstep

end Cache.Ok

/-! ## What a step does to a buffer -/

/-- The change of buffer `b` in a step. The reference count is left out. -/
inductive BufMove (c : Cache T) (a : CacheAct T) (c' : Cache T) (b : BufIdx) : Prop where
  | same (hdev : (c'.bc.buf b).dev = (c.bc.buf b).dev)
      (hblock : (c'.bc.buf b).blockno = (c.bc.buf b).blockno)
      (hvalid : (c'.bc.buf b).valid = (c.bc.buf b).valid)
      (hdata : (c'.bc.buf b).data = (c.bc.buf b).data)
  | recycled (t : T) (x : BlockNo) (ha : a = .bget t x) (hfree : (c.bc.buf b).refcnt = 0)
      (hnew : ∀ b, (c.bc.buf b).dev = ROOTDEV → (c.bc.buf b).blockno ≠ x)
      (hdev : (c'.bc.buf b).dev = ROOTDEV) (hblock : (c'.bc.buf b).blockno = x)
      (hvalid : (c'.bc.buf b).valid = false)
  | filled (t : T) (ha : a = .fill t b) (hu : ⟨t, b, .locked⟩ ∈ c.uses)
      (hinvalid : (c.bc.buf b).valid = false)
      (hbuf : c'.bc.buf b =
        { c.bc.buf b with valid := true, data := c.disk (c.bc.buf b).blockno })
  | stored (t : T) (d : Block) (ha : a = .store t b d) (hu : ⟨t, b, .ready⟩ ∈ c.uses)
      (hbuf : c'.bc.buf b = { c.bc.buf b with data := d })

omit [DecidableEq T] in
theorem BufMove.count (b₀ : BufIdx) (n : Buf → Nat)
    (hbuf : c'.bc.buf = (c.bc.mod b₀ fun x => { x with refcnt := n x }).buf) : BufMove c a c' b := by
  have hmod : c'.bc.buf b = if b = b₀ then { c.bc.buf b₀ with refcnt := n (c.bc.buf b₀) }
      else c.bc.buf b := by
    rw [hbuf, mod_buf]
  refine .same ?_ ?_ ?_ ?_ <;> grind

theorem Cache.Ok.buf_of_step (h : c.Ok) (hstep : c.step a = some c') (b : BufIdx) : BufMove c a c' b := by
  cases a with
  | bget t x =>
    obtain ⟨order, hring, hall⟩ := h.table.ring
    simp only [Cache.step] at hstep
    split at hstep
    · next b₀ bc hget =>
      cases hstep
      cases bget_move hring hall hget with
      | hit => exact .count b₀ (fun x => x.refcnt + 1) rfl
      | recycle hnew hfree =>
        by_cases he : b = b₀
        · subst he
          refine .recycled t x rfl hfree hnew ?_ ?_ ?_
          all_goals rw [Bcache.mod_buf, if_pos rfl]
        · refine .same ?_ ?_ ?_ ?_
          all_goals rw [Bcache.mod_buf, if_neg he]
    · cases hstep
  | unref t b₀ =>
    obtain ⟨-, ⟨⟩⟩ := Option.ite_none_right_eq_some.1 hstep
    refine .count b₀ (fun x => x.refcnt - 1) ?_
    unfold Bcache.unref
    dsimp only
    split <;> rfl
  | fill t b₀ =>
    obtain ⟨hu, ⟨⟩⟩ := Option.ite_none_right_eq_some.1 hstep
    by_cases hv : (c.bc.buf b₀).valid = true
    · simp only [hv, if_true]
      exact .same rfl rfl rfl rfl
    simp only [hv]
    by_cases he : b = b₀
    · subst he
      exact .filled t rfl hu (Bool.eq_false_iff.2 hv) (by simp)
    · refine .same ?_ ?_ ?_ ?_
      all_goals simp [he]
  | store t b₀ d =>
    obtain ⟨hu, ⟨⟩⟩ := Option.ite_none_right_eq_some.1 hstep
    by_cases he : b = b₀
    · subst he
      exact .stored t d rfl hu (by simp)
    · refine .same ?_ ?_ ?_ ?_
      all_goals simp [he]
  | bpin t b₀ =>
    obtain ⟨-, ⟨⟩⟩ := Option.ite_none_right_eq_some.1 hstep
    exact .count b₀ (fun x => x.refcnt + 1) rfl
  | bunpin b₀ =>
    obtain ⟨-, ⟨⟩⟩ := Option.ite_none_right_eq_some.1 hstep
    exact .count b₀ (fun x => x.refcnt - 1) rfl
  | acquire | bwrite | release =>
    obtain ⟨-, ⟨⟩⟩ := Option.ite_none_right_eq_some.1 hstep
    exact .same rfl rfl rfl rfl

theorem Cache.Ok.block_kept (h : c.Ok) (hstep : c.step a = some c') (hb : (c.bc.buf b).refcnt ≠ 0) :
    (c'.bc.buf b).dev = (c.bc.buf b).dev ∧ (c'.bc.buf b).blockno = (c.bc.buf b).blockno := by
  cases h.buf_of_step hstep b with
  | same hdev hblock => exact ⟨hdev, hblock⟩
  | recycled _ _ _ hfree => exact absurd hfree hb
  | filled _ _ _ _ hbuf | stored _ _ _ _ hbuf => exact ⟨by rw [hbuf], by rw [hbuf]⟩

end

end Xv6.Fs
