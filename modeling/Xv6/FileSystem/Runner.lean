import Xv6.FileSystem.Coherent

set_option autoImplicit false

/-! # The commands of the commit

What is known of the two pointers between any two commands: how far the thread is with the buffer,
whether the buffer has been changed and not written, and whether the block of this part has been
written (`Env`). It depends on the commands that are left only, so it can be checked like a type
(`Env.check`), and all the code passes the check. `Runner.Ok` relates it to the cache; the steps of
other threads keep it because they can neither move the references of this thread nor change or
recycle a buffer that it has. -/

namespace Xv6.Fs

open Function List Option Structures

structure Env where
  phase : Reg → Option Phase
  loaded : Option Reg
  written : Bool

namespace Env

def shift (e : Env) (g : Reg) (p q : Option Phase) : Option Env :=
  if e.phase g = p then some { e with phase := update e.phase g q } else none

/-- The pointer is to a buffer that the thread has come back with from `bread`. -/
def ready (e : Env) (g : Reg) : Prop := e.phase g = some .ready

instance (e : Env) (g : Reg) : Decidable (e.ready g) :=
  inferInstanceAs (Decidable (e.phase g = some .ready))

/-- What is known after a command, if it may stand here. -/
def next (e : Env) : Cmd → Option Env
  | .bget g _ => e.shift g none (some .waiting)
  | .acquire g => e.shift g (some .waiting) (some .locked)
  | .fill g => e.shift g (some .locked) (some .ready)
  | .memmove dst src =>
    if e.ready dst ∧ e.ready src ∧ dst ≠ src ∧ e.loaded = none ∧ e.written = false then
      some { e with loaded := some dst }
    else none
  | .putHead =>
    if e.ready .log ∧ e.loaded = none ∧ e.written = false then some { e with loaded := some .log }
    else none
  | .getHead =>
    if e.ready .log ∧ e.loaded = none ∧ e.written = false then some { e with written := true }
    else none
  | .bwrite g =>
    if e.ready g ∧ e.loaded = some g ∧ e.written = false then
      some { e with loaded := none, written := true }
    else none
  | .bunpin g => if e.ready g ∧ e.written = true then some e else none
  | .release g => if e.loaded ≠ some g then e.shift g (some .ready) (some .releasing) else none
  | .unref g => e.shift g (some .releasing) none

/-- The commands fit what is known, and at their end nothing is held and the block is written. -/
def check (e : Env) : List Cmd → Bool
  | [] => decide (e.phase .log = none ∧ e.phase .home = none ∧ e.loaded = none ∧ e.written = true)
  | c :: body =>
    match e.next c with
    | some e' => e'.check body
    | none => false

/-- What is known at the start of a part. -/
def enter (body : List Cmd) : Env := { phase := fun _ => none, loaded := none, written := body.isEmpty }

theorem check_code (A : LogArea) (blocks : List BlockNo) (stage : Stage) :
    (enter (stage.code A blocks)).check (stage.code A blocks) = true := by
  cases stage with
  | install recovering tail => cases recovering <;> rfl
  | commit | writeLog | commitHead | readHead | clear | clearHead | finish => rfl

theorem check_cons {e : Env} {c : Cmd} {body : List Cmd} (h : e.check (c :: body) = true) :
    ∃ e', e.next c = some e' ∧ e'.check body = true := by
  unfold check at h
  split at h
  · next e' he => exact ⟨e', he, h⟩
  · cases h

theorem check_nil {e : Env} (h : e.check [] = true) :
    (∀ g, e.phase g = none) ∧ e.loaded = none ∧ e.written = true := by
  obtain ⟨hlog, hhome, hrest⟩ := of_decide_eq_true h
  refine ⟨fun g => ?_, hrest⟩
  cases g with
  | log => exact hlog
  | home => exact hhome

theorem shift_eq {e e' : Env} {g : Reg} {p q : Option Phase} (h : e.shift g p q = some e') :
    e.phase g = p ∧ e' = { e with phase := update e.phase g q } := by
  unfold shift at h
  split at h
  · next hp => exact ⟨hp, (some.inj h).symm⟩
  · cases h

end Env

/-- The block that a pointer of the part points to. -/
def Stage.target (A : LogArea) (blocks : List BlockNo) : Stage → Reg → BlockNo
  | .writeLog tail, .log | .install _ tail, .log => A.slot tail
  | .writeLog tail, .home | .install _ tail, .home => blocks.getD tail 0
  | _, .log => A.start
  | _, .home => A.start + 1

theorem Stage.bget_target {A : LogArea} {blocks : List BlockNo} {stage : Stage} {g : Reg} {x : BlockNo}
    (h : .bget g x ∈ stage.code A blocks) : x = stage.target A blocks g := by
  cases stage with
  | writeLog tail =>
    simp only [Stage.code, bread, brelse, mem_append, mem_cons, Cmd.bget.injEq,
      reduceCtorEq, not_mem_nil, or_false] at h
    rcases h with ⟨rfl, rfl⟩ | ⟨rfl, rfl⟩ <;> rfl
  | install recovering tail =>
    cases recovering <;>
      simp only [Stage.code, bread, brelse, mem_append, mem_cons, Cmd.bget.injEq,
        reduceCtorEq, not_mem_nil, or_false, if_true, if_false, Bool.false_eq_true]
        at h <;>
      rcases h with ⟨rfl, rfl⟩ | ⟨rfl, rfl⟩ <;> rfl
  | commitHead | clearHead | readHead =>
    simp only [Stage.code, bread, brelse, mem_append, mem_cons, Cmd.bget.injEq,
      reduceCtorEq, not_mem_nil, or_false] at h
    obtain ⟨rfl, rfl⟩ := h
    rfl
  | commit | clear | finish => cases h

variable {T : Type} [DecidableEq T]

/-- The thread has the buffers that the pointers point to. -/
structure Runner.Ok (A : LogArea) (c : Cache T) (dirty : BufIdx → Bool) (blocks : List BlockNo)
    (r : Runner T) (e : Env) : Prop where
  check : e.check r.body = true
  code : ∀ cmd ∈ r.body, cmd ∈ r.stage.code A blocks
  use : ∀ g p, e.phase g = some p → ⟨r.thread, r.reg g, p⟩ ∈ c.uses
  block : ∀ g p, e.phase g = some p → (c.bc.buf (r.reg g)).blockno = r.stage.target A blocks g
  clean : ∀ g p, e.phase g = some p → p.holds = true → dirty (r.reg g) = false
  loads : ∀ g, e.loaded = some g → e.ready g

section

variable {A : LogArea} {c c' : Cache T} {dirty dirty' : BufIdx → Bool} {blocks : List BlockNo}
  {r : Runner T} {e : Env} {a : CacheAct T} {u : Use T} {g g' : Reg} {p : Phase} {q : Option Phase}
  {body : List Cmd} {b : BufIdx} {x : BlockNo}

theorem Cache.Ok.block_of_use (h : c.Ok) (hstep : c.step a = some c') (hu : u ∈ c.uses) :
    (c'.bc.buf u.buf).blockno = (c.bc.buf u.buf).blockno := by
  refine (h.block_kept hstep ?_).2
  have hcount : (c.bc.buf u.buf).refcnt = c.refs u.buf + c.pins u.buf := h.table.refcnt u.buf
  have hpos := Cache.Ok.count_pos hu
  omega

theorem Cache.Ok.data_of_use (h : c.Ok) (hstep : c.step a = some c') (hu : u ∈ c.uses)
    (hready : u.phase = .ready) (hstore : ∀ d, a ≠ .store u.thread u.buf d) :
    (c'.bc.buf u.buf).data = (c.bc.buf u.buf).data := by
  cases h.buf_of_step hstep u.buf with
  | same _ _ _ hdata => exact hdata
  | recycled _ _ _ hfree =>
    have hcount : (c.bc.buf u.buf).refcnt = c.refs u.buf + c.pins u.buf := h.table.refcnt u.buf
    have hpos := Cache.Ok.count_pos hu
    omega
  | filled _ _ _ hinvalid => cases (h.valid u hu hready).symm.trans hinvalid
  | stored t d ha hu' =>
    -- the other holder would be the same thread
    have he := h.holder_unique hu (by rw [hready]; rfl) hu' rfl rfl
    rw [← he] at hstore
    exact absurd ha (hstore d)

theorem bget_use (h : c.Ok) {t : T} (hstep : c.step (.bget t x) = some c') :
    ∃ b bc, c.bc.bget ROOTDEV x = some (b, bc) ∧ ⟨t, b, .waiting⟩ ∈ c'.uses ∧
      (c'.bc.buf b).blockno = x := by
  obtain ⟨order, hring, hall⟩ := h.table.ring
  simp only [Cache.step] at hstep
  split at hstep
  · next b bc hget =>
    cases hstep
    refine ⟨b, bc, hget, mem_cons_self .., ?_⟩
    cases bget_move hring hall hget with
    | hit _ hblock => simpa using hblock
    | recycle => simp
  · cases hstep

namespace Runner.Ok

section

variable (h : r.Ok A c dirty blocks e)
include h

omit [DecidableEq T] in
theorem apart
    (htarget : r.stage.target A blocks .log ≠ r.stage.target A blocks .home) (hne : g ≠ g')
    {p p' : Phase} (hp : e.phase g = some p) (hp' : e.phase g' = some p') : r.reg g ≠ r.reg g' := by
  intro heq
  have hg := h.block g p hp
  rw [heq, h.block g' p' hp'] at hg
  cases g <;> cases g' <;> first | exact hne rfl | exact htarget hg | exact htarget hg.symm

theorem other (hok : c.Ok) (hstep : c.step a = some c')
    (hmoves : ∀ u, a.moves = some u → u.thread ≠ r.thread)
    (hdirty : ∀ g p, e.phase g = some p → p.holds = true → dirty' (r.reg g) = false) :
    r.Ok A c' dirty' blocks e := by
  refine ⟨h.check, h.code, fun g p hp => ?_, fun g p hp => ?_, hdirty, h.loads⟩
  · exact mem_uses_of_step hstep (h.use g p hp) fun hm => hmoves _ hm rfl
  · exact (hok.block_of_use hstep (h.use g p hp)).trans (h.block g p hp)

theorem still {e' : Env} (hok : c.Ok) (hstep : c.step a = some c')
    (hmoves : a.moves = none) (hcheck : e'.check body = true) (hbody : ∀ cmd ∈ body, cmd ∈ r.body)
    (hphase : e'.phase = e.phase) (hloads : ∀ g, e'.loaded = some g → e.ready g) :
    Runner.Ok A c' dirty blocks { r with body := body } e' := by
  refine ⟨hcheck, fun cmd hc => h.code cmd (hbody cmd hc), fun g p hp => ?_, fun g p hp => ?_,
    fun g p hp => ?_, fun g hg => ?_⟩
  · rw [hphase] at hp
    exact mem_uses_of_step hstep (h.use g p hp) fun hm => nomatch hm.symm.trans hmoves
  · rw [hphase] at hp
    exact (hok.block_of_use hstep (h.use g p hp)).trans (h.block g p hp)
  · rw [hphase] at hp
    exact h.clean g p hp
  · show e'.phase g = _
    rw [hphase]
    exact hloads g hg

theorem shifted (hok : c.Ok) (hstep : c.step a = some c')
    (htarget : r.stage.target A blocks .log ≠ r.stage.target A blocks .home)
    (hp : e.phase g = some p) (hmoves : a.moves = some ⟨r.thread, r.reg g, p⟩)
    (hbody : ∀ cmd ∈ body, cmd ∈ r.body)
    (hcheck : Env.check { e with phase := update e.phase g q } body = true)
    (huse : ∀ p', q = some p' → ⟨r.thread, r.reg g, p'⟩ ∈ c'.uses)
    (hclean : ∀ p', q = some p' → p'.holds = true → dirty (r.reg g) = false)
    (hloaded : e.loaded ≠ some g ∨ q = some .ready) :
    Runner.Ok A c' dirty blocks { r with body := body }
      { e with phase := update e.phase g q } := by
  refine ⟨hcheck, fun cmd hc => h.code cmd (hbody cmd hc), fun g' p' hp' => ?_, fun g' p' hp' => ?_,
    fun g' p' hp' => ?_, fun g' hg' => ?_⟩
  · by_cases he : g' = g
    · subst he
      exact huse p' (by simpa using hp')
    simp only [update_of_ne he] at hp'
    refine mem_uses_of_step hstep (h.use g' p' hp') fun hm => ?_
    rw [hmoves] at hm
    exact h.apart htarget he hp' hp (congrArg Use.buf (some.inj hm)).symm
  · by_cases he : g' = g
    · subst he
      exact (hok.block_of_use hstep (h.use g' p hp)).trans (h.block g' p hp)
    · simp only [update_of_ne he] at hp'
      exact (hok.block_of_use hstep (h.use g' p' hp')).trans (h.block g' p' hp')
  · by_cases he : g' = g
    · subst he
      exact hclean p' (by simpa using hp')
    · simp only [update_of_ne he] at hp'
      exact h.clean g' p' hp'
  show update e.phase g q g' = _
  by_cases he : g' = g
  · subst he
    rcases hloaded with hne | hq
    · exact absurd hg' hne
    · simpa using hq
  · rw [update_of_ne he]
    exact h.loads g' hg'

theorem got (hok : c.Ok) (hstep : c.step (.bget r.thread x) = some c')
    (hbody : r.body = .bget g x :: body) (hp : e.phase g = none)
    (hcheck : Env.check { e with phase := update e.phase g (some .waiting) } body = true)
    (huse : ⟨r.thread, b, .waiting⟩ ∈ c'.uses) (hblock : (c'.bc.buf b).blockno = x) :
    Runner.Ok A c' dirty blocks { r with body := body, reg := update r.reg g b }
      { e with phase := update e.phase g (some .waiting) } := by
  have hsub : ∀ cmd ∈ body, cmd ∈ r.body := fun cmd hc => hbody ▸ mem_cons_of_mem _ hc
  refine ⟨hcheck, fun cmd hc => h.code cmd (hsub cmd hc), fun g' p' hp' => ?_, fun g' p' hp' => ?_,
    fun g' p' hp' hholds => ?_, fun g' hg' => ?_⟩
  · by_cases he : g' = g
    · subst he
      simp only [update_self, some.injEq] at hp' ⊢
      rwa [← hp']
    · simp only [update_of_ne he] at hp' ⊢
      exact mem_uses_of_step hstep (h.use g' p' hp') nofun
  · by_cases he : g' = g
    · subst he
      simp only [update_self]
      rw [hblock]
      exact Stage.bget_target (h.code _ (hbody ▸ mem_cons_self ..))
    · simp only [update_of_ne he] at hp' ⊢
      exact (hok.block_of_use hstep (h.use g' p' hp')).trans (h.block g' p' hp')
  · by_cases he : g' = g
    · subst he
      simp only [update_self, some.injEq] at hp'
      subst hp'
      cases hholds
    · simp only [update_of_ne he] at hp' ⊢
      exact h.clean g' p' hp' hholds
  have hready := h.loads g' hg'
  have he : g' ≠ g := by
    rintro rfl
    cases hp.symm.trans hready
  show update e.phase g _ g' = _
  rw [update_of_ne he]
  exact hready

end

/-- **The commands keep what is known.** -/
theorem exec {s : FileSys T} {cmd : Cmd} (h : r.Ok A s.cache s.dirty blocks e) (hok : s.cache.Ok)
    (hheld : ∀ b, s.dirty b = true → ∃ t, ⟨t, b, .ready⟩ ∈ s.cache.uses)
    (htarget : r.stage.target A blocks .log ≠ r.stage.target A blocks .home)
    (hbody : r.body = cmd :: body) (hact : s.act r cmd = some a)
    (hstep : s.cache.step a = some c') :
    ∃ e', e.next cmd = some e' ∧
      Runner.Ok A c' s.dirty blocks { r with body := body, reg := s.regs r cmd } e' := by
  have hcons := h.check
  rw [hbody] at hcons
  obtain ⟨e', hnext, hcheck⟩ := Env.check_cons hcons
  refine ⟨e', hnext, ?_⟩
  have hsub : ∀ cmd' ∈ body, cmd' ∈ r.body := fun cmd' hc => hbody ▸ mem_cons_of_mem _ hc
  cases cmd with
  | bget g x =>
    cases hact
    obtain ⟨hp, rfl⟩ := Env.shift_eq hnext
    obtain ⟨b, bc, hget, huse, hblock⟩ := bget_use hok hstep
    have hregs : s.regs r (.bget g x) = update r.reg g b := by
      simp only [FileSys.regs, hget]
    rw [hregs]
    exact h.got hok hstep hbody hp hcheck huse hblock
  | acquire g =>
    cases hact
    obtain ⟨hp, rfl⟩ := Env.shift_eq hnext
    have hguard := hstep
    obtain ⟨hfree, ⟨⟩⟩ := ite_none_right_eq_some.1 hguard
    refine h.shifted hok hstep htarget hp rfl hsub hcheck ?_ (fun p' _ _ => ?_) (.inl fun hl => ?_)
    · rintro p' hp'
      cases hp'
      exact mem_cons_self ..
    · -- somebody would have the lock of a dirty buffer
      by_contra hd
      obtain ⟨t, hu⟩ := hheld _ (Bool.eq_true_of_not_eq_false hd)
      cases (hok.owns hu rfl).symm.trans hfree.2
    · cases hp.symm.trans (h.loads g hl)
  | fill g =>
    cases hact
    obtain ⟨hp, rfl⟩ := Env.shift_eq hnext
    have hguard := hstep
    obtain ⟨-, ⟨⟩⟩ := ite_none_right_eq_some.1 hguard
    refine h.shifted hok hstep htarget hp rfl hsub hcheck ?_ (fun _ _ _ => h.clean g _ hp rfl)
      (.inr rfl)
    rintro p' hp'
    cases hp'
    exact mem_cons_self ..
  | release g =>
    cases hact
    obtain ⟨hl, hnext⟩ := ite_none_right_eq_some.1 hnext
    obtain ⟨hp, rfl⟩ := Env.shift_eq hnext
    have hguard := hstep
    obtain ⟨-, ⟨⟩⟩ := ite_none_right_eq_some.1 hguard
    refine h.shifted hok hstep htarget hp rfl hsub hcheck ?_ ?_ (.inl hl)
    · rintro p' hp'
      cases hp'
      exact mem_cons_self ..
    rintro p' hp' hholds
    cases hp'
    cases hholds
  | unref g =>
    cases hact
    obtain ⟨hp, rfl⟩ := Env.shift_eq hnext
    refine h.shifted hok hstep htarget hp rfl hsub hcheck nofun nofun (.inl fun hl => ?_)
    cases hp.symm.trans (h.loads g hl)
  | memmove dst src | putHead =>
    cases hact
    obtain ⟨hg, ⟨⟩⟩ := ite_none_right_eq_some.1 hnext
    refine h.still hok hstep rfl hcheck hsub rfl fun g hl => ?_
    cases hl
    exact hg.1
  | getHead => cases hact
  | bwrite g =>
    cases hact
    obtain ⟨-, ⟨⟩⟩ := ite_none_right_eq_some.1 hnext
    exact h.still hok hstep rfl hcheck hsub rfl nofun
  | bunpin g =>
    cases hact
    obtain ⟨-, ⟨⟩⟩ := ite_none_right_eq_some.1 hnext
    exact h.still hok hstep rfl hcheck hsub rfl h.loads

end Runner.Ok

end

end Xv6.Fs
