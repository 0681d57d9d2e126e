import Xv6.FileSystem.Journal

set_option autoImplicit false

/-! # Transactions keep the invariant

The steps of clients. The calls of the buffer cache change neither the array nor the disk;
`log_write` changes the array at one block, which is pinned from then on. During a commit no
operation is under way, so the array stands still. -/

namespace Xv6.Fs

open Function List Option Structures FileSys

variable {T : Type} [DecidableEq T]

section

variable {A : LogArea} {s s' : FileSys T} {e : Env} {content prev : BlockNo → Block} {a : CacheAct T}
  {c' : Cache T} {t : T} {b : BufIdx} {r : Runner T}

omit [DecidableEq T] in
theorem Coherent.congr_stale {c : Cache T} {stale stale' : BufIdx → Prop} {pend : List BlockNo}
    (h : Coherent A c stale content pend) (hiff : ∀ b, stale' b ↔ stale b) :
    Coherent A c stale' content pend := by
  rwa [show stale' = stale from funext fun b => propext (hiff b)]

theorem free_runner (h : s.free t = true) (hr : s.runner = some r) :
    r.stage.recovering = false ∧ r.thread ≠ t := by
  simpa [free, hr] using h

omit [DecidableEq T] in
theorem client_cases (h : a.client = some t) :
    (∃ b d, a = .store t b d) ∨ (a.quiet = true ∧ ∀ (dirty : BufIdx → Bool), FileSys.soil dirty a = dirty) := by
  cases a with
  | store t' b d =>
    cases h
    exact .inl ⟨b, d, rfl⟩
  | bget | acquire | fill | release | unref => exact .inr ⟨rfl, fun _ => rfl⟩
  | bwrite | bpin | bunpin => cases h

omit [DecidableEq T] in
theorem client_moves {u : Use T} (h : a.client = some t) (hm : a.moves = some u) : u.thread = t := by
  cases a with
  | acquire | fill | release | unref =>
    cases h
    cases hm
    rfl
  | bget | store | bwrite | bpin | bunpin => cases hm

namespace FileSys.Inv

theorem client_ne (h : s.Inv A e content prev) (hfree : s.free t = true) (hr : s.runner = some r)
    {g : Reg} {p q : Phase} (hg : e.phase g = some p) (hp : p.holds = true)
    (hu : ⟨t, b, q⟩ ∈ s.cache.uses) (hq : q.holds = true) : r.reg g ≠ b := by
  intro he
  have huse := (h.runner r hr).use g p hg
  have hsame := h.coherent.ok.holder_unique hu hq huse hp he
  exact (free_runner hfree hr).2 (congrArg Use.thread hsame)

omit [DecidableEq T] in
theorem of_cache {dirty : BufIdx → Bool} (h : s.Inv A e content prev)
    (hdisk : c'.disk = s.cache.disk)
    (hcoh : Coherent A c' (FileSys.stale { s with cache := c', dirty := dirty } e) content
      (s.stage.pending s.ops.log.blocks e.written))
    (hrunner : ∀ r, s.runner = some r → r.Ok A c' dirty s.ops.log.blocks e)
    (hdata : ∀ r g, s.runner = some r → e.loaded = some g →
      (c'.bc.buf (r.reg g)).data = (s.cache.bc.buf (r.reg g)).data) :
    FileSys.Inv A { s with cache := c', dirty := dirty } e content prev := by
  refine ⟨hcoh, hrunner, fun r g hr hg => ?_, ?_, h.fits, ?_, ?_, h.duty⟩
  · show r.stage.Goal _ _ _ (c'.bc.buf (r.reg g)).data
    rw [hdata r g hr hg]
    exact h.goal r g hr hg
  · show s.stage.Fact A _ c'.disk _ _ _
    rw [hdisk]
    exact h.fact
  · show A.Fits (headBlocks (c'.disk A.start))
    rw [hdisk]
    exact h.head
  · show ∀ x, _ → recovered A c'.disk x = prev x
    rw [hdisk]
    exact h.durable

theorem call (h : s.Inv A e content prev) (hstep : s.step A (.call a) = some s') : s'.Inv A e content prev := by
  simp only [step] at hstep
  split at hstep
  · next t hclient =>
    obtain ⟨hguard, hstep⟩ := ite_none_right_eq_some.1 hstep
    obtain ⟨hfree, hkeeps⟩ := hguard
    obtain ⟨c', hc, rfl⟩ := map_eq_some_iff.1 hstep
    have hok := h.coherent.ok
    have hdata : ∀ r g, s.runner = some r → e.loaded = some g →
        (c'.bc.buf (r.reg g)).data = (s.cache.bc.buf (r.reg g)).data := by
      intro r g hr hg
      have hok' := h.runner r hr
      refine hok.data_of_use hc (hok'.use g _ (hok'.loads g hg)) rfl fun d ha => ?_
      subst ha
      exact (free_runner hfree hr).2 (some.inj hclient)
    rcases client_cases hclient with ⟨b, d, rfl⟩ | ⟨hq, hsoil⟩
    · obtain ⟨hu, hc'⟩ := store_eq hc
      refine h.of_cache (by rw [hc']) ((h.coherent.store hc).congr_stale fun b' => ?_)
        (fun r hr => ?_) hdata
      · simp only [stale, soil, update_apply]
        split
        · next he => simp [he]
        · next he => simp [he]
      refine (h.runner r hr).other hok hc nofun fun g p hg hp => ?_
      have hne : r.reg g ≠ b := h.client_ne hfree hr hg hp hu rfl
      show update s.dirty b true (r.reg g) = false
      rw [update_of_ne hne]
      exact (h.runner r hr).clean g p hg hp
    rw [hsoil]
    refine h.of_cache (disk_pins_of_quiet hc hq).1
      (h.coherent.quiet hc hq fun t' b' ha => ?_) (fun r hr => ?_) hdata
    · -- what a client gives back is neither dirty nor in the hands of the commit
      subst ha
      obtain rfl := some.inj hclient
      have hu : ⟨t', b', .ready⟩ ∈ s.cache.uses := by
        obtain ⟨hu, hc⟩ := ite_none_right_eq_some.1 hc
        exact hu
      rintro (hd | ⟨r, g, hr, hg, rfl⟩)
      · simp [keeps, hd] at hkeeps
      · exact h.client_ne hfree hr ((h.runner r hr).loads g hg) rfl hu rfl rfl
    refine (h.runner r hr).other hok hc (fun u hm => ?_) (h.runner r hr).clean
    rw [client_moves hclient hm]
    exact (free_runner hfree hr).2.symm
  · cases hstep

section

variable (h : s.Inv A e content prev)
include h

theorem idle_of_op (hfree : s.free t = true) (ht : t ∈ s.ops.ops) :
    s.runner = none ∧ s.ops.log.committing = false ∧ ∃ passed, s.ops.Ok passed := by
  have hduty := h.duty
  unfold FileSys.Duty at hduty
  split at hduty
  · next hr => exact ⟨hr, hduty⟩
  next r hr =>
  rw [if_neg (by simp [(free_runner hfree hr).1])] at hduty
  obtain ⟨hcom, passed, hok⟩ := hduty
  rw [hok.alone hcom] at ht
  cases ht

theorem beginOp (hstep : s.step A (.beginOp t) = some s') : s'.Inv A e content prev := by
  obtain ⟨hfree, hstep⟩ := ite_none_right_eq_some.1 hstep
  obtain ⟨ops, hops, rfl⟩ := map_eq_some_iff.1 hstep
  have hmove := ops_move hops
  cases hmove with
  | beginOp _ hnew hidle =>
    refine ⟨h.coherent, h.runner, h.goal, h.fact, h.fits, h.head, h.durable, ?_⟩
    have hduty := h.duty
    unfold FileSys.Duty at hduty ⊢
    cases hr : s.runner with
    | none =>
      rw [hr] at hduty
      obtain ⟨hcom, passed, hok⟩ := hduty
      exact ⟨hcom, _, hok.step (ops_move hops)⟩
    | some r =>
      rw [hr] at hduty
      simp only [(free_runner hfree hr).1, Bool.false_eq_true, if_false] at hduty
      cases hidle.symm.trans hduty.1

theorem endOp (hstep : s.step A (.endOp t) = some s') : ∃ e', s'.Inv A e' content prev := by
  obtain ⟨hfree, hstep⟩ := ite_none_right_eq_some.1 hstep
  obtain ⟨ops, hops, rfl⟩ := map_eq_some_iff.1 hstep
  have hmove := ops_move hops
  cases hmove with
  | endOp _ ht hidle =>
    obtain ⟨hr, hcom, passed, hok⟩ := h.idle_of_op hfree ht
    have hok' := hok.step (ops_move hops)
    by_cases hlast : s.ops.log.outstanding - 1 = 0
    · -- the commit starts as the last operation ends
      simp only [hlast, decide_true, if_true] at hok' ⊢
      refine ⟨Env.enter [], ?_, ?_, (by rintro _ _ _ ⟨⟩), ?_, h.fits, h.head, h.durable, rfl, _, hok'⟩
      · have hcoh := h.coherent
        simp only [stage, hr] at hcoh
        refine hcoh.congr_stale fun b => ?_
        simp [stale, hr, Env.enter]
      · intro r hr'
        cases hr'
        exact ⟨rfl, (by intros; contradiction), (by intros; contradiction),
          (by intros; contradiction), (by intros; contradiction), (by intros; contradiction)⟩
      · have hfact := h.fact
        simp only [stage, hr] at hfact
        exact hfact
    simp only [hlast, decide_false, Bool.false_eq_true, if_false] at hok' ⊢
    refine ⟨e, h.coherent, h.runner, h.goal, h.fact, h.fits, h.head, h.durable, ?_⟩
    rw [hr]
    exact ⟨rfl, _, hok'⟩

omit [DecidableEq T] in
theorem log_write {ops : Ops T} {c : Cache T} {x : BlockNo} {d : Block} (hr : s.runner = none)
    (hcoh : Coherent A c (s.stale e) content s.ops.log.blocks) (hdisk : c.disk = s.cache.disk)
    (hu : ⟨t, b, .ready⟩ ∈ c.uses) (hblock : (c.bc.buf b).blockno = x)
    (hdata : (c.bc.buf b).data = d) (hx : A.has x = false)
    (hpin : x ∈ s.ops.log.blocks ∨ 0 < c.pins b)
    (hblocks : ∀ y, y ∈ ops.log.blocks ↔ y ∈ s.ops.log.blocks ∨ y = x)
    (hfits : A.Fits ops.log.blocks) (hcom : ops.log.committing = false) {passed : T → List BlockNo}
    (hok : ops.Ok passed) :
    FileSys.Inv A
      { s with cache := c, ops := ops, dirty := update s.dirty b false } e
      (update content x d) prev := by
  subst hblock hdata
  have hstage : s.stage = .commit := by simp only [stage, hr]
  have hfact := h.fact
  rw [hstage] at hfact
  refine ⟨?_, fun r hr' => (nomatch hr.symm.trans hr'), fun r g hr' => (nomatch hr.symm.trans hr'), ?_,
    hfits, ?_, ?_, ?_⟩
  · show Coherent A c _ _ (s.stage.pending ops.log.blocks _)
    rw [hstage]
    refine (hcoh.log hu hx hblocks hpin).congr_stale fun b' => ?_
    simp only [stale, hr, update_apply]
    split
    · next he => simp [he]
    · next he => simp [he]
  · show s.stage.Fact A ops.log.blocks c.disk _ _ _
    rw [hstage, hdisk]
    refine ⟨hfact.1, fun y hy hmem => ?_⟩
    rw [update_of_ne fun he => hmem ((hblocks y).2 (.inr he))]
    exact hfact.2 y hy fun hmem' => hmem ((hblocks y).2 (.inl hmem'))
  · show A.Fits (headBlocks (c.disk A.start))
    rw [hdisk]
    exact h.head
  · show ∀ x, _ → recovered A c.disk x = prev x
    rw [hdisk]
    exact h.durable
  · unfold FileSys.Duty
    rw [hr]
    exact ⟨hcom, passed, hok⟩

theorem logWrite (hstep : s.step A (.logWrite t b) = some s') :
    s'.Inv A e (update content (s.cache.bc.buf b).blockno (s.cache.bc.buf b).data) prev := by
  obtain ⟨hguard, hstep⟩ := ite_none_right_eq_some.1 hstep
  obtain ⟨hfree, hu, hx⟩ := hguard
  split at hstep
  · next ops hops =>
    have hmove := ops_move hops
    obtain ⟨c, hc, rfl⟩ := map_eq_some_iff.1 hstep
    cases hmove with
    | absorbed _ _ ht hmem =>
      obtain ⟨hr, hcom, passed, hok⟩ := h.idle_of_op hfree ht
      rw [if_pos hmem] at hc
      cases hc
      have hcoh := h.coherent
      simp only [stage, hr] at hcoh
      refine h.log_write hr hcoh rfl hu rfl rfl hx (.inl hmem) (fun y => ⟨.inl, ?_⟩) h.fits hcom hok
      rintro (hy | rfl)
      · exact hy
      · exact hmem
    | logged _ _ ht hnew hmax hsize =>
      obtain ⟨hr, hcom, passed, hok⟩ := h.idle_of_op hfree ht
      rw [if_neg hnew] at hc
      have hcoh := h.coherent
      simp only [stage, hr] at hcoh
      obtain ⟨hcoh', hpin⟩ := hcoh.bpin hc
      have hok' := hok.step (ops_move hops)
      obtain ⟨-, hc'⟩ := bpin_eq hc
      -- pinning leaves the buffer's block and data alone
      have hblock : (c.bc.buf b).blockno = (s.cache.bc.buf b).blockno := by
        simp [hc', Bcache.bpin]
      have hdata : (c.bc.buf b).data = (s.cache.bc.buf b).data := by
        simp [hc', Bcache.bpin]
      refine h.log_write (t := t) hr hcoh' (by rw [hc']) ?_ hblock hdata hx (.inr hpin)
        (fun y => ?_) ?_ hcom hok'
      · rw [hc']
        exact hu
      · simp
      refine ⟨?_, fun y hy => ?_, ?_, ?_⟩
      · rw [nodup_append]
        refine ⟨h.fits.nodup, nodup_singleton _, fun y hy z hz => ?_⟩
        obtain rfl := mem_singleton.1 hz
        rintro rfl
        exact hnew hy
      · rcases mem_append.1 hy with hy | hy
        · exact h.fits.home y hy
        · rw [mem_singleton.1 hy]
          exact hx
      · rw [length_append, length_singleton]
        omega
      · rw [length_append, length_singleton]
        exact hmax
  · cases hstep

end

end FileSys.Inv

end

end Xv6.Fs
