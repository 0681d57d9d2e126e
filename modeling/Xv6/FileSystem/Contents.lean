import Xv6.FileSystem.Install
import Xv6.FileSystem.Lru

set_option autoImplicit false

/-! # A plain array of blocks

From a file system at rest, as the recovery leaves it, every run of operations, readers, commits and
evictions looks to its clients like runs on an array of blocks: `log_write` sets a block of the
array, and `bread` returns it. -/

namespace Xv6.Fs

open Option Structures FileSys

variable {T : Type} [DecidableEq T]

/-- No operation, commit or change is under way, and the log is empty. -/
structure FileSys.Rest (A : LogArea) (s : FileSys T) : Prop where
  cache : s.cache.Ok
  valid : ∀ b, (s.cache.bc.buf b).dev = ROOTDEV → (s.cache.bc.buf b).valid = true →
    (s.cache.bc.buf b).data = s.cache.disk (s.cache.bc.buf b).blockno
  ops : s.ops = {}
  runner : s.runner = none
  clean : ∀ b, s.dirty b = false
  head : headBlocks (s.cache.disk A.start) = []

/-- Empty buffers in front of a disk. -/
def FileSys.start (disk : BlockNo → Block) : FileSys T :=
  { cache := Cache.start disk, ops := {}, runner := none, dirty := fun _ => false }

omit [DecidableEq T] in
theorem start_rest {A : LogArea} {disk : BlockNo → Block} (h : headBlocks (disk A.start) = []) :
    (FileSys.start disk : FileSys T).Rest A :=
  ⟨start_ok disk, fun _ _ => nofun, rfl, rfl, fun _ => rfl, h⟩

def noteWrite (s : FileSys T) : FsAct T → (BlockNo → Block) → BlockNo → Block
  | .logWrite _ b, content =>
    Function.update content (s.cache.bc.buf b).blockno (s.cache.bc.buf b).data
  | _, content => content

/-- What is safe on the disk after the step. -/
def noteSafe (s : FileSys T) (content : BlockNo → Block) :
    FsAct T → (BlockNo → Block) → BlockNo → Block
  | .run, prev => if s.commits then content else prev
  | _, prev => prev

section

variable {A : LogArea} {s s' : FileSys T} {e : Env} {content prev : BlockNo → Block} {a : FsAct T}
  {r : Runner T}

omit [DecidableEq T] in
theorem FileSys.Rest.inv (h : s.Rest A) (e : Env) : s.Inv A e s.cache.disk s.cache.disk := by
  have hstage : s.stage = .commit := by simp only [stage, h.runner]
  have hblocks : s.ops.log.blocks = [] := by rw [h.ops]
  have hstale : ∀ b, ¬s.stale e b := by
    intro b
    simp [stale, h.clean b, h.runner]
  refine ⟨⟨h.cache, fun b hdev hvalid _ => ?_, fun _ _ _ => rfl, ?_, fun b hst => absurd hst (hstale b)⟩,
    fun r hr => ?_, fun r g hr => ?_, ?_, ?_, ?_, fun x _ => recovered_nil h.head, ?_⟩
  · rw [h.valid b hdev hvalid]
    unfold LogArea.view
    split <;> rfl
  · rw [hstage, hblocks]
    rintro _ ⟨⟩
  · cases h.runner.symm.trans hr
  · cases h.runner.symm.trans hr
  · rw [hstage]
    exact ⟨h.head, fun _ _ _ => rfl⟩
  · rw [hblocks]
    exact LogArea.Fits.nil
  · rw [h.head]
    exact LogArea.Fits.nil
  · unfold FileSys.Duty
    rw [h.runner, h.ops]
    exact ⟨rfl, fun _ => [], start_ops_ok⟩

/-- **Every step keeps the invariant**, and outside the recovery the content is what `log_write`
    makes it. -/
theorem FileSys.Inv.step (h : s.Inv A e content prev) (hstep : s.step A a = some s') :
    ∃ e' content' prev', s'.Inv A e' content' prev' ∧
      (s.stage.recovering = false → content' = noteWrite s a content) ∧
      prev' = noteSafe s content a prev := by
  cases a with
  | call ca => exact ⟨e, content, prev, h.call hstep, fun _ => rfl, rfl⟩
  | beginOp t => exact ⟨e, content, prev, h.beginOp hstep, fun _ => rfl, rfl⟩
  | logWrite t b => exact ⟨e, _, prev, h.logWrite hstep, fun _ => rfl, rfl⟩
  | endOp t =>
    obtain ⟨e', hinv⟩ := h.endOp hstep
    exact ⟨e', content, prev, hinv, fun _ => rfl, rfl⟩
  | run =>
    obtain ⟨e', content', hinv, hsame⟩ := h.run hstep
    exact ⟨e', content', _, hinv, hsame, rfl⟩

theorem exec_eq {cmd : Cmd} {body : List Cmd} (h : s.exec r cmd body = some s') :
    (∃ reg, s'.runner = some { r with body := body, reg := reg }) ∧ s'.dirty = s.dirty ∧
      (s'.cache = s.cache ∨ ∃ ca, s.cache.step ca = some s'.cache) := by
  unfold exec at h
  split at h
  · next ca hact =>
    obtain ⟨c', hc, rfl⟩ := map_eq_some_iff.1 h
    exact ⟨⟨_, rfl⟩, rfl, .inr ⟨ca, hc⟩⟩
  dsimp only at h
  obtain ⟨-, ⟨⟩⟩ := ite_none_right_eq_some.1 h
  exact ⟨⟨_, rfl⟩, rfl, .inl rfl⟩

theorem advance_eq (h : s.advance A r = some s') : (s'.runner = none ∨
        ∃ body, s'.runner = some { r with stage := r.stage.next s.ops.log.blocks, body := body }) ∧
      s'.cache = s.cache := by
  unfold advance at h
  dsimp only at h
  split at h
  · obtain ⟨ops, -, rfl⟩ := map_eq_some_iff.1 h
    exact ⟨.inr ⟨_, rfl⟩, rfl⟩
  · cases h
    exact ⟨.inr ⟨_, rfl⟩, rfl⟩
  · obtain ⟨ops, -, rfl⟩ := map_eq_some_iff.1 h
    exact ⟨.inl rfl, rfl⟩
  · cases h
    exact ⟨.inl rfl, rfl⟩
  · cases h
    exact ⟨.inr ⟨_, rfl⟩, rfl⟩

theorem run_eq (h : s.step A .run = some s') : ∃ r, s.runner = some r ∧
      ((∃ cmd body, r.body = cmd :: body ∧ s.exec r cmd body = some s') ∨
        r.body = [] ∧ s.advance A r = some s') := by
  simp only [step] at h
  split at h
  · next r hr =>
    refine ⟨r, hr, ?_⟩
    split at h
    · next cmd body hbody => exact .inl ⟨cmd, body, hbody, h⟩
    · next hbody => exact .inr ⟨hbody, h⟩
  · cases h

theorem cache_of_step (hstep : s.step A a = some s') :
    s'.cache = s.cache ∨ ∃ ca, s.cache.step ca = some s'.cache := by
  cases a with
  | call ca =>
    simp only [step] at hstep
    split at hstep
    · split at hstep
      · obtain ⟨c', hc, rfl⟩ := map_eq_some_iff.1 hstep
        exact .inr ⟨ca, hc⟩
      · cases hstep
    · cases hstep
  | beginOp t | endOp t =>
    simp only [step] at hstep
    split at hstep
    · obtain ⟨ops, -, rfl⟩ := map_eq_some_iff.1 hstep
      exact .inl rfl
    · cases hstep
  | logWrite t b =>
    simp only [step] at hstep
    split at hstep
    · split at hstep
      · obtain ⟨c', hc, rfl⟩ := map_eq_some_iff.1 hstep
        split at hc
        · exact .inl (some.inj hc).symm
        · exact .inr ⟨_, hc⟩
      · cases hstep
    · cases hstep
  | run =>
    obtain ⟨r, -, ⟨cmd, body, -, hexec⟩ | ⟨-, hadv⟩⟩ := run_eq hstep
    · exact (exec_eq hexec).2.2
    · exact .inl (advance_eq hadv).2

theorem recovering_of_step (hstep : s.step A a = some s') (h : s.stage.recovering = false) :
    s'.stage.recovering = false := by
  cases a with
  | call ca | logWrite t b =>
    simp only [step] at hstep
    split at hstep
    · split at hstep
      · obtain ⟨c', -, rfl⟩ := map_eq_some_iff.1 hstep
        exact h
      · cases hstep
    · cases hstep
  | beginOp t =>
    simp only [step] at hstep
    split at hstep
    · obtain ⟨ops, -, rfl⟩ := map_eq_some_iff.1 hstep
      exact h
    · cases hstep
  | endOp t =>
    simp only [step] at hstep
    split at hstep
    · obtain ⟨ops, -, rfl⟩ := map_eq_some_iff.1 hstep
      unfold stage
      by_cases hcom : ops.log.committing = true
      · simp [hcom, Stage.recovering]
      · simp only [hcom]
        exact h
    · cases hstep
  | run =>
    obtain ⟨r, hr, ⟨cmd, body, -, hexec⟩ | ⟨-, hadv⟩⟩ := run_eq hstep
    · obtain ⟨⟨reg, hr'⟩, -, -⟩ := exec_eq hexec
      simpa only [stage, hr, hr'] using h
    obtain ⟨hr' | ⟨body, hr'⟩, -⟩ := advance_eq hadv
    · simp only [stage, hr']
      rfl
    · simp only [stage, hr', Stage.recovering_next]
      simpa only [stage, hr] using h

theorem FileSys.Rest.run {s₀ : FileSys T} {tr : List (FsAct T)} (h₀ : s₀.Rest A)
    (hrun : runs (FileSys.step A) s₀ tr = some s) :
    s.stage.recovering = false ∧ ∃ e prev,
      s.Inv A e (history (FileSys.step A) noteWrite s₀ s₀.cache.disk tr) prev := by
  refine runs_invariant
    (fun s content => s.stage.recovering = false ∧ ∃ e prev, s.Inv A e content prev) hrun
    ⟨by simp only [stage, h₀.runner, Stage.recovering], Env.enter [], _, h₀.inv _⟩ ?_
  rintro s a s' content hstep ⟨hrec, e, prev, hinv⟩
  obtain ⟨e', content', prev', hinv', hcontent, -⟩ := hinv.step hstep
  rw [hcontent hrec] at hinv'
  exact ⟨recovering_of_step hstep hrec, e', prev', hinv'⟩

end

/-- **The file system is an array of blocks.** The three steps of `bread` that its caller sees:
    `bget` gives a buffer for the block; the buffer stays with the block as long as a thread refers
    to it; and at the end the buffer holds what the last `log_write` to the block has put there, or
    what was on the disk at the start if there was none. -/
theorem bread_latest {A : LogArea} {s₀ s : FileSys T} {tr : List (FsAct T)} (h₀ : s₀.Rest A)
    (hrun : runs (FileSys.step A) s₀ tr = some s) :
    (∀ t x s', s.step A (.call (.bget t x)) = some s' →
      ∃ b, ⟨t, b, .waiting⟩ ∈ s'.cache.uses ∧ (s'.cache.bc.buf b).dev = ROOTDEV ∧
        (s'.cache.bc.buf b).blockno = x) ∧
    (∀ a s', s.step A a = some s' → ∀ u ∈ s.cache.uses,
      (s'.cache.bc.buf u.buf).blockno = (s.cache.bc.buf u.buf).blockno) ∧
    (∀ t b s', s.step A (.call (.fill t b)) = some s' → A.has (s.cache.bc.buf b).blockno = false →
      (s'.cache.bc.buf b).data =
        history (FileSys.step A) noteWrite s₀ s₀.cache.disk tr (s.cache.bc.buf b).blockno) := by
  obtain ⟨hrec, e, prev, hinv⟩ := h₀.run hrun
  have hok := hinv.coherent.ok
  refine ⟨fun t x s' hstep => ?_, fun a s' hstep u hu => ?_, fun t b s' hstep hx => ?_⟩
  · have hinv' := hinv.call hstep
    simp only [step, CacheAct.client] at hstep
    split at hstep
    · obtain ⟨c', hc, rfl⟩ := map_eq_some_iff.1 hstep
      obtain ⟨b, bc, -, huse, hblock⟩ := bget_use hok hc
      exact ⟨b, huse, hinv'.coherent.ok.dev_of_use huse, hblock⟩
    · cases hstep
  · rcases cache_of_step hstep with hsame | ⟨ca, hc⟩
    · rw [hsame]
    · exact hok.block_of_use hc hu
  have hinv' := hinv.call hstep
  obtain ⟨hguard, hstep⟩ := ite_none_right_eq_some.1 hstep
  obtain ⟨c', hc, rfl⟩ := map_eq_some_iff.1 hstep
  have hlocked : ⟨t, b, .locked⟩ ∈ s.cache.uses := by
    simp only [Cache.step] at hc
    split at hc
    · next hu => exact hu
    · cases hc
  have huse : ⟨t, b, .ready⟩ ∈ c'.uses := by
    simp only [Cache.step, if_pos hlocked] at hc
    cases hc
    exact List.mem_cons_self ..
  have hblock := hok.block_of_use hc hlocked
  -- nobody else can have changed the buffer
  have hclean : ¬s.stale e b := by
    intro hst
    obtain ⟨t', hu'⟩ := hinv.coherent.held b hst
    have hsame := hok.holder_unique hlocked rfl hu' rfl rfl
    cases congrArg Use.phase hsame
  have hview := hinv'.coherent.view b (hinv'.coherent.ok.dev_of_use huse)
    (hinv'.coherent.ok.valid _ huse rfl) hclean
  rw [hview]
  rw [hblock, LogArea.view_home hx]

/-- The log of a disk that `mkfs` has made. -/
def mkfsArea : LogArea := ⟨2, LOGSIZE, by decide, by decide⟩

/-- One thread writes a block in an operation, another one reads it without an operation. -/
def writeThenRead : List (FsAct Nat) :=
  [.beginOp 0, .call (.bget 0 50), .call (.acquire 0 0), .call (.fill 0 0),
    .call (.store 0 0 fun _ => 7), .logWrite 0 0, .call (.bget 1 50), .call (.release 0 0),
    .call (.unref 0 0), .call (.acquire 1 0)]

theorem bread_latest_written : ∃ s s',
    runs (FileSys.step mkfsArea) (FileSys.start fun _ _ => 0) writeThenRead = some s ∧
      s.step mkfsArea (.call (.fill 1 0)) = some s' ∧ (s'.cache.bc.buf 0).data 5 = 7 := by
  have hsome : ((runs (step mkfsArea) (start fun _ _ => 0) writeThenRead).bind
      fun s => s.step mkfsArea (.call (.fill 1 0))).isSome = true := by decide +kernel
  have hblock : (runs (step mkfsArea) (start fun _ _ => 0) writeThenRead).map
      (fun s => (s.cache.bc.buf 0).blockno) = some 50 := by decide +kernel
  obtain ⟨s', hs'⟩ := isSome_iff_exists.1 hsome
  obtain ⟨s, hs, hfill⟩ := bind_eq_some_iff.1 hs'
  rw [hs] at hblock
  have h50 : (s.cache.bc.buf 0).blockno = 50 := some.inj hblock
  have hdata := (bread_latest (start_rest rfl) hs).2.2 1 0 s' hfill (by rw [h50]; rfl)
  refine ⟨s, s', hs, hfill, ?_⟩
  rw [hdata, h50]
  decide +kernel

end Xv6.Fs
