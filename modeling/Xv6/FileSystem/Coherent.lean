import Xv6.FileSystem.Cache
import Xv6.FileSystem.Commit

set_option autoImplicit false

/-! # Cache and disk as an array of blocks

`Coherent` says how the buffers, the disk and the pins stand for an array `content` of blocks: a
valid buffer holds the content of its block, unless it is stale, that is, somebody holds it who has
changed it; the disk holds the content of the other blocks; and the blocks for which it does not are
kept in pinned buffers. The blocks of the log are not part of the array: their buffers hold what is
on the disk. There is a lemma for each kind of step that a client or the commit can take. -/

namespace Xv6.Fs

open Function Option Structures

variable {T : Type} [DecidableEq T]

/-- What a buffer of the block holds. -/
@[simp] def LogArea.view (A : LogArea) (content disk : BlockNo → Block) (x : BlockNo) : Block :=
  if A.has x then disk x else content x

section

variable {A : LogArea} {content disk : BlockNo → Block} {x : BlockNo}

theorem LogArea.view_home (h : A.has x = false) : A.view content disk x = content x := by
  simp [h]

theorem LogArea.view_log (h : A.has x = true) : A.view content disk x = disk x := by
  simp [h]

end

structure Coherent (A : LogArea) (c : Cache T) (stale : BufIdx → Prop) (content : BlockNo → Block)
    (pend : List BlockNo) : Prop where
  ok : c.Ok
  view : ∀ b, (c.bc.buf b).dev = ROOTDEV → (c.bc.buf b).valid = true → ¬stale b →
    (c.bc.buf b).data = A.view content c.disk (c.bc.buf b).blockno
  home : ∀ x, A.has x = false → x ∉ pend → c.disk x = content x
  pinned : ∀ x ∈ pend, ∃ b, (c.bc.buf b).dev = ROOTDEV ∧ (c.bc.buf b).blockno = x ∧
    (c.bc.buf b).valid = true ∧ 0 < c.pins b
  held : ∀ b, stale b → ∃ t, ⟨t, b, .ready⟩ ∈ c.uses

/-! ## What the steps leave alone -/

section

variable {c c' : Cache T} {a : CacheAct T} {u : Use T} {t : T} {b : BufIdx}

/-- The reference that the step brings forward. -/
def CacheAct.moves : CacheAct T → Option (Use T)
  | .acquire t b => some ⟨t, b, .waiting⟩
  | .fill t b => some ⟨t, b, .locked⟩
  | .release t b => some ⟨t, b, .ready⟩
  | .unref t b => some ⟨t, b, .releasing⟩
  | _ => none

/-- The step is one of `bread` and `brelse`. -/
def CacheAct.quiet : CacheAct T → Bool
  | .bget .. | .acquire .. | .fill .. | .release .. | .unref .. => true
  | .store .. | .bwrite .. | .bpin .. | .bunpin .. => false

theorem mem_uses_of_step (hstep : c.step a = some c') (hu : u ∈ c.uses) (hne : a.moves ≠ some u) :
    u ∈ c'.uses := by
  have hmove : ∀ {t b p q}, (⟨t, b, p⟩ : Use T) ≠ u → u ∈ (c.move t b p q).uses :=
    fun hne => mem_move_of hu (Ne.symm hne)
  cases a with
  | bget t x =>
    simp only [Cache.step] at hstep
    split at hstep
    · cases hstep
      exact List.mem_cons_of_mem _ hu
    · cases hstep
  | unref t b =>
    obtain ⟨-, ⟨⟩⟩ := ite_none_right_eq_some.1 hstep
    exact (List.mem_erase_of_ne fun he => hne (congrArg some he.symm)).2 hu
  | acquire t b | fill t b | release t b =>
    obtain ⟨-, ⟨⟩⟩ := ite_none_right_eq_some.1 hstep
    exact hmove fun he => hne (congrArg some he)
  | store | bwrite | bpin | bunpin =>
    obtain ⟨-, ⟨⟩⟩ := ite_none_right_eq_some.1 hstep
    exact hu

theorem disk_pins_of_quiet (hstep : c.step a = some c') (hq : a.quiet = true) :
    c'.disk = c.disk ∧ c'.pins = c.pins := by
  cases a with
  | store | bwrite | bpin | bunpin => cases hq
  | bget | acquire | fill | release | unref =>
    simp only [Cache.step] at hstep
    split at hstep
    · cases hstep
      exact ⟨rfl, rfl⟩
    · cases hstep

theorem store_eq {d : Block} (hstep : c.step (.store t b d) = some c') :
    ⟨t, b, .ready⟩ ∈ c.uses ∧ c' = { c with bc := c.bc.mod b fun x => { x with data := d } } := by
  simp only [Cache.step] at hstep
  split at hstep
  · next hu => exact ⟨hu, (some.inj hstep).symm⟩
  · cases hstep

theorem bwrite_eq (hstep : c.step (.bwrite t b) = some c') : ⟨t, b, .ready⟩ ∈ c.uses ∧
      c' = { c with disk := update c.disk (c.bc.buf b).blockno (c.bc.buf b).data } := by
  simp only [Cache.step] at hstep
  split at hstep
  · next hu => exact ⟨hu, (some.inj hstep).symm⟩
  · cases hstep

theorem bpin_eq (hstep : c.step (.bpin t b) = some c') : ⟨t, b, .ready⟩ ∈ c.uses ∧
      c' = { c with bc := c.bc.bpin b, pins := update c.pins b (c.pins b + 1) } := by
  simp only [Cache.step] at hstep
  split at hstep
  · next hu => exact ⟨hu, (some.inj hstep).symm⟩
  · cases hstep

theorem bunpin_eq (hstep : c.step (.bunpin b) = some c') :
    c' = { c with bc := c.bc.bunpin b, pins := update c.pins b (c.pins b - 1) } := by
  simp only [Cache.step] at hstep
  split at hstep
  · exact (some.inj hstep).symm
  · cases hstep

omit [DecidableEq T] in
theorem Cache.Ok.dev_of_use (h : c.Ok) (hu : u ∈ c.uses) : (c.bc.buf u.buf).dev = ROOTDEV :=
  h.table.device u.buf (Nat.pos_iff_ne_zero.1 (Cache.Ok.count_pos hu))

end

/-! ## The steps -/

namespace Coherent

variable {A : LogArea} {c c' : Cache T} {stale : BufIdx → Prop} {content : BlockNo → Block}
  {pend pend' : List BlockNo} {a : CacheAct T} {t : T} {b : BufIdx} {d : Block}

omit [DecidableEq T] in
theorem not_pending (h : Coherent A c stale content pend) (hdev : (c.bc.buf b).dev = ROOTDEV)
    (hinvalid : (c.bc.buf b).valid = false) : (c.bc.buf b).blockno ∉ pend := by
  intro hx
  obtain ⟨b', hdev', hblock, hvalid, -⟩ := h.pinned _ hx
  obtain rfl := h.ok.table.unique b' b hdev' hdev hblock
  cases hvalid.symm.trans hinvalid

omit [DecidableEq T] in
theorem refcnt_of_pinned (h : c.Ok) (hpin : 0 < c.pins b) : (c.bc.buf b).refcnt ≠ 0 := by
  have hcount : (c.bc.buf b).refcnt = c.refs b + c.pins b := h.table.refcnt b
  omega

section

variable (h : Coherent A c stale content pend)
include h

theorem quiet (hstep : c.step a = some c')
    (hq : a.quiet = true) (hrel : ∀ t b, a = .release t b → ¬stale b) :
    Coherent A c' stale content pend := by
  obtain ⟨hdisk, hpins⟩ := disk_pins_of_quiet hstep hq
  refine ⟨h.ok.step hstep, fun b hdev hvalid hst => ?_, fun x hx hp => ?_, fun x hx => ?_,
    fun b hst => ?_⟩
  · rw [hdisk]
    cases h.ok.buf_of_step hstep b with
    | same hdev' hblock hvalid' hdata =>
      rw [hdata, hblock]
      exact h.view b (hdev'.symm.trans hdev) (hvalid'.symm.trans hvalid) hst
    | recycled t x ha hfree hnew hdev' hblock hvalid' => cases hvalid.symm.trans hvalid'
    | filled t ha hu hinvalid hbuf =>
      -- the block comes from the disk, which is up to date as the block is not pending
      rw [hbuf] at hdev ⊢
      cases hx : A.has (c.bc.buf b).blockno with
      | true => rw [LogArea.view_log hx]
      | false =>
        rw [LogArea.view_home hx]
        exact h.home _ hx (h.not_pending hdev hinvalid)
    | stored t d ha =>
      subst ha
      cases hq
  · rw [hdisk]
    exact h.home x hx hp
  · obtain ⟨b, hdev, hblock, hvalid, hpin⟩ := h.pinned x hx
    refine ⟨b, ?_⟩
    rw [hpins]
    cases h.ok.buf_of_step hstep b with
    | same hdev' hblock' hvalid' hdata =>
      exact ⟨hdev'.trans hdev, hblock'.trans hblock, hvalid'.trans hvalid, hpin⟩
    | recycled t x ha hfree => exact absurd hfree (refcnt_of_pinned h.ok hpin)
    | filled t ha hu hinvalid => cases hvalid.symm.trans hinvalid
    | stored t d ha =>
      subst ha
      cases hq
  · obtain ⟨t, hu⟩ := h.held b hst
    refine ⟨t, mem_uses_of_step hstep hu fun hm => ?_⟩
    cases a with
    | release t' b' =>
      cases hm
      exact hrel t b rfl hst
    | bget | acquire | fill | unref | store | bwrite | bpin | bunpin => cases hm

theorem store (hstep : c.step (.store t b d) = some c') :
    Coherent A c' (fun b' => stale b' ∨ b' = b) content pend := by
  have hok := h.ok.step hstep
  obtain ⟨hu, rfl⟩ := store_eq hstep
  refine ⟨hok, fun b' hdev hvalid hst => ?_, h.home, fun x hx => ?_, fun b' hst => ?_⟩
  · have hne : b' ≠ b := fun he => hst (.inr he)
    simp only [Bcache.mod_buf, if_neg hne] at hdev hvalid ⊢
    exact h.view b' hdev hvalid fun hst' => hst (.inl hst')
  · obtain ⟨b', hdev, hblock, hvalid, hpin⟩ := h.pinned x hx
    refine ⟨b', ?_⟩
    simp only [Bcache.mod_buf]
    split
    · next he =>
      subst he
      exact ⟨hdev, hblock, hvalid, hpin⟩
    · exact ⟨hdev, hblock, hvalid, hpin⟩
  · rcases hst with hst | rfl
    · exact h.held b' hst
    · exact ⟨t, hu⟩

omit [DecidableEq T] in
theorem recount {n : Buf → Nat} {pins : BufIdx → Nat} (hok : Cache.Ok
      { c with bc := c.bc.mod b fun x => { x with refcnt := n x }, pins := pins })
    (hpins : ∀ b', (c.bc.buf b').dev = ROOTDEV → (c.bc.buf b').blockno ∈ pend → 0 < c.pins b' →
      0 < pins b') :
    Coherent A { c with bc := c.bc.mod b fun x => { x with refcnt := n x }, pins := pins } stale content
      pend := by
  have hsame : ∀ b', ((c.bc.mod b fun x => { x with refcnt := n x }).buf b').dev = (c.bc.buf b').dev ∧
      ((c.bc.mod b fun x => { x with refcnt := n x }).buf b').blockno = (c.bc.buf b').blockno ∧
      ((c.bc.mod b fun x => { x with refcnt := n x }).buf b').valid = (c.bc.buf b').valid ∧
      ((c.bc.mod b fun x => { x with refcnt := n x }).buf b').data = (c.bc.buf b').data := by
    intro b'
    rw [Bcache.mod_buf]
    split
    · next he => exact ⟨by rw [he], by rw [he], by rw [he], by rw [he]⟩
    · exact ⟨rfl, rfl, rfl, rfl⟩
  refine ⟨hok, fun b' hdev hvalid hst => ?_, h.home, fun x hx => ?_, h.held⟩
  · obtain ⟨hd, hb, hv, hdata⟩ := hsame b'
    rw [hdata, hb]
    exact h.view b' (hd.symm.trans hdev) (hv.symm.trans hvalid) hst
  obtain ⟨b', hdev, hblock, hvalid, hpin⟩ := h.pinned x hx
  obtain ⟨hd, hb, hv, -⟩ := hsame b'
  exact ⟨b', hd.trans hdev, hb.trans hblock, hv.trans hvalid, hpins b' hdev (hblock ▸ hx) hpin⟩

theorem bpin (hstep : c.step (.bpin t b) = some c') : Coherent A c' stale content pend ∧ 0 < c'.pins b := by
  have hok := h.ok.step hstep
  obtain ⟨-, rfl⟩ := bpin_eq hstep
  refine ⟨h.recount hok fun b' _ _ hpin => ?_, by simp⟩
  rw [update_apply]
  split
  · exact Nat.succ_pos _
  · exact hpin

theorem bunpin (hstep : c.step (.bunpin b) = some c')
    (hx : (c.bc.buf b).blockno ∉ pend) : Coherent A c' stale content pend := by
  have hok := h.ok.step hstep
  obtain rfl := bunpin_eq hstep
  refine h.recount hok fun b' _ hmem hpin => ?_
  rw [update_of_ne]
  · exact hpin
  · rintro rfl
    exact hx hmem

omit [DecidableEq T] in
theorem settle {content' disk' : BlockNo → Block} {b' : BufIdx} (hdev : (c.bc.buf b).dev = ROOTDEV)
    (hself : A.view content' disk' (c.bc.buf b).blockno = (c.bc.buf b).data)
    (hother : ∀ y, y ≠ (c.bc.buf b).blockno → A.view content' disk' y = A.view content c.disk y)
    (hdev' : (c.bc.buf b').dev = ROOTDEV) (hvalid : (c.bc.buf b').valid = true)
    (hst : ¬(stale b' ∧ b' ≠ b)) :
    (c.bc.buf b').data = A.view content' disk' (c.bc.buf b').blockno := by
  by_cases he : b' = b
  · rw [he, hself]
  have hne : (c.bc.buf b').blockno ≠ (c.bc.buf b).blockno := fun heq =>
    he (h.ok.table.unique b' b hdev' hdev heq)
  rw [hother _ hne]
  exact h.view b' hdev' hvalid fun hst' => hst ⟨hst', he⟩

omit [DecidableEq T] in
theorem log (hu : ⟨t, b, .ready⟩ ∈ c.uses) (hx : A.has (c.bc.buf b).blockno = false)
    (hpend : ∀ y, y ∈ pend' ↔ y ∈ pend ∨ y = (c.bc.buf b).blockno)
    (hpin : (c.bc.buf b).blockno ∈ pend ∨ 0 < c.pins b) :
    Coherent A c (fun b' => stale b' ∧ b' ≠ b)
      (update content (c.bc.buf b).blockno (c.bc.buf b).data) pend' := by
  have hdev : (c.bc.buf b).dev = ROOTDEV := h.ok.dev_of_use hu
  refine ⟨h.ok, fun b' => h.settle hdev ?_ fun y hne => ?_, fun y hy hp => ?_, fun y hy => ?_,
    fun b' hst => h.held b' hst.1⟩
  · simp [hx]
  · simp only [LogArea.view, update_of_ne hne]
  · have hne : y ≠ (c.bc.buf b).blockno := fun heq => hp ((hpend y).2 (.inr heq))
    rw [update_of_ne hne]
    exact h.home y hy fun hmem => hp ((hpend y).2 (.inl hmem))
  rcases (hpend y).1 hy with hmem | rfl
  · exact h.pinned y hmem
  rcases hpin with hmem | hpos
  · exact h.pinned _ hmem
  · exact ⟨b, hdev, rfl, h.ok.valid _ hu rfl, hpos⟩

theorem bwrite_log (hstep : c.step (.bwrite t b) = some c')
    (hx : A.has (c.bc.buf b).blockno = true) :
    Coherent A c' (fun b' => stale b' ∧ b' ≠ b) content pend := by
  have hok := h.ok.step hstep
  obtain ⟨hu, rfl⟩ := bwrite_eq hstep
  have hdev : (c.bc.buf b).dev = ROOTDEV := h.ok.dev_of_use hu
  refine ⟨hok, fun b' => h.settle hdev ?_ fun y hne => ?_, fun y hy hp => ?_, h.pinned,
    fun b' hst => h.held b' hst.1⟩
  · simp [hx]
  · simp only [LogArea.view, update_of_ne hne]
  have hne : y ≠ (c.bc.buf b).blockno := by
    rintro rfl
    cases hx.symm.trans hy
  show update c.disk _ _ y = _
  rw [update_of_ne hne]
  exact h.home y hy hp

theorem bwrite_home (hstep : c.step (.bwrite t b) = some c')
    (hx : A.has (c.bc.buf b).blockno = false) (hsub : ∀ y ∈ pend', y ∈ pend)
    (hpend : ∀ y ∈ pend, y ≠ (c.bc.buf b).blockno → y ∈ pend') :
    Coherent A c' (fun b' => stale b' ∧ b' ≠ b)
      (update content (c.bc.buf b).blockno (c.bc.buf b).data) pend' := by
  have hok := h.ok.step hstep
  obtain ⟨hu, rfl⟩ := bwrite_eq hstep
  have hdev : (c.bc.buf b).dev = ROOTDEV := h.ok.dev_of_use hu
  refine ⟨hok, fun b' => h.settle hdev ?_ fun y hne => ?_, fun y hy hp => ?_,
    fun y hy => h.pinned y (hsub y hy), fun b' hst => h.held b' hst.1⟩
  · simp [hx]
  · simp only [LogArea.view, update_of_ne hne]
  show update c.disk _ _ y = _
  by_cases he : y = (c.bc.buf b).blockno
  · subst he
    rw [update_self, update_self]
  · rw [update_of_ne he, update_of_ne he]
    exact h.home y hy fun hmem => hp (hpend y hmem he)

end

end Coherent

end Xv6.Fs
