import Xv6.FileSystem.Transactions

set_option autoImplicit false

/-! # The commit and the recovery keep the invariant

The commands of the thread that commits or recovers. Between two writes to the disk nothing changes
but the cache. Each write has its own reason to keep what a recovery would leave: a block of the log
is written while the header is empty; a home block is written while the header names it; the header
is cleared when all home blocks are up to date. Only the header written by the commit changes it,
and it makes the content of all blocks safe at once. -/

namespace Xv6.Fs

open Bool Function List Option Structures Stage LogArea FileSys Env

variable {T : Type} [DecidableEq T]

section

variable {A : LogArea} {blocks : List BlockNo} {disk content prev : BlockNo → Block} {w : Bool}
  {stage : Stage} {tail : Nat}

theorem getD_mem (h : tail < blocks.length) : blocks.getD tail 0 ∈ blocks := by
  rw [getD_eq_getElem?_getD, getElem?_eq_getElem h, getD_some]
  exact getElem_mem h

theorem Stage.Fact.targets (hf : A.Fits blocks) (h : stage.Fact A blocks disk content prev w) :
    stage.target A blocks .log ≠ stage.target A blocks .home := by
  have hloop : ∀ tail, tail < blocks.length → A.slot tail ≠ blocks.getD tail 0 := by
    intro tail hlt
    have hsize := hf.size
    exact (ne_of_has (hf.home _ (getD_mem hlt)) (has_slot (by omega))).symm
  have hstart : A.start ≠ A.start + 1 := by
    intro heq
    have hone : A.start + 1 - A.start = 1 := by rw [BitVec.add_comm, BitVec.add_sub_cancel]
    rw [← heq, BitVec.sub_self] at hone
    exact absurd hone (by decide)
  cases stage with
  | writeLog tail | install recovering tail => exact hloop tail h.1
  | commit | commitHead | readHead | clear | clearHead | finish => exact hstart

/-! ## Which command stands where -/

theorem Stage.memmove_mem {dst src : Reg} (h : .memmove dst src ∈ stage.code A blocks) :
    (∃ tail, stage = .writeLog tail ∧ dst = .log ∧ src = .home) ∨
      ∃ recovering tail, stage = .install recovering tail ∧ dst = .home ∧ src = .log := by
  cases stage with
  | install recovering tail => cases recovering <;> simpa using h
  | writeLog tail => simpa using h
  | commitHead | clearHead | readHead | commit | clear | finish =>
    simp at h

theorem Stage.putHead_mem (h : .putHead ∈ stage.code A blocks) :
    stage = .commitHead ∨ ∃ recovering, stage = .clearHead recovering := by
  cases stage with
  | install recovering tail => cases recovering <;> simp at h
  | commitHead | clearHead => simp
  | writeLog | readHead | commit | clear | finish => simp at h

theorem Stage.getHead_mem (h : .getHead ∈ stage.code A blocks) : stage = .readHead := by
  cases stage with
  | install recovering tail => cases recovering <;> simp at h
  | readHead => rfl
  | writeLog | commitHead | clearHead | commit | clear | finish =>
    simp at h

theorem Stage.bwrite_mem {g : Reg} (h : .bwrite g ∈ stage.code A blocks) :
    (g = .log ∧ ((∃ tail, stage = .writeLog tail) ∨ stage = .commitHead ∨
      ∃ recovering, stage = .clearHead recovering)) ∨
      g = .home ∧ ∃ recovering tail, stage = .install recovering tail := by
  cases stage with
  | install recovering tail => cases recovering <;> simpa using h
  | writeLog | commitHead | clearHead => simpa using h
  | readHead | commit | clear | finish => simp at h

theorem Stage.bunpin_mem {g : Reg} (h : .bunpin g ∈ stage.code A blocks) :
    g = .home ∧ ∃ tail, stage = .install false tail := by
  cases stage with
  | install recovering tail =>
    cases recovering with
    | true => simp at h
    | false => simpa using h
  | writeLog | commitHead | clearHead | readHead | commit | clear | finish =>
    simp at h

end

/-! ## The commands -/

section

variable {A : LogArea} {s s' : FileSys T} {e e' : Env} {content content' prev prev' : BlockNo → Block}
  {a : CacheAct T} {c' : Cache T} {b : BufIdx} {r r' : Runner T} {cmd : Cmd} {body : List Cmd}
  {g : Reg} {st : Stage}

omit [DecidableEq T] in
theorem stale_iff (hr : s.runner = some r) :
    s.stale e b ↔ s.dirty b = true ∨ ∃ g, e.loaded = some g ∧ b = r.reg g := by
  simp [stale, hr]

omit [DecidableEq T] in
theorem Env.next_quiet (hact : s.act r cmd = some a) (hq : a.quiet = true)
    (h : e.next cmd = some e') : e'.loaded = e.loaded ∧ e'.written = e.written := by
  cases cmd with
  | bget | acquire | fill | unref =>
    obtain ⟨-, rfl⟩ := shift_eq h
    exact ⟨rfl, rfl⟩
  | release g =>
    simp only [next] at h
    split at h
    · obtain ⟨-, rfl⟩ := shift_eq h
      exact ⟨rfl, rfl⟩
    · cases h
  | memmove | putHead | bwrite | bunpin =>
    cases hact
    cases hq
  | getHead => cases hact

/-- The program goes on behind the command with `r`, and the invariant holds. -/
abbrev FileSys.Executes (A : LogArea) (s : FileSys T) (e : Env) (cmd : Cmd) (c' : Cache T) (r : Runner T)
    (content prev : BlockNo → Block) : Prop :=
  ∃ e', e.next cmd = some e' ∧ FileSys.Inv A { s with cache := c', runner := some r } e' content prev

namespace FileSys.Inv

section

omit [DecidableEq T]

theorem stage_eq (hr : s.runner = some r) : s.stage = r.stage := by
  simp only [stage, hr]

section

variable (h : s.Inv A e content prev)
include h

theorem dirty_held (hd : s.dirty b = true) : ∃ t, ⟨t, b, .ready⟩ ∈ s.cache.uses :=
  h.coherent.held b (.inl hd)

theorem ready_clean (hr : s.runner = some r) (hg : e.ready g)
    (hl : e.loaded = none) : ¬s.stale e (r.reg g) := by
  rw [stale_iff hr]
  rintro (hd | ⟨g', hg', -⟩)
  · cases hd.symm.trans ((h.runner r hr).clean g _ hg rfl)
  · cases hl.symm.trans hg'

theorem ready_data (hr : s.runner = some r) (hg : e.ready g) (hl : e.loaded = none) :
    (s.cache.bc.buf (r.reg g)).data =
      A.view content s.cache.disk (r.stage.target A s.ops.log.blocks g) := by
  have huse := (h.runner r hr).use g _ hg
  rw [← (h.runner r hr).block g _ hg]
  exact h.coherent.view _ (h.coherent.ok.dev_of_use huse) (h.coherent.ok.valid _ huse rfl)
    (h.ready_clean hr hg hl)

theorem of_exec (hr : s.runner = some r) (hst : r.stage = st) (hstage : r'.stage = r.stage)
    (hrunner : r'.Ok A c' s.dirty s.ops.log.blocks e')
    (hcoh : Coherent A c' (fun b => s.dirty b = true ∨ ∃ g, e'.loaded = some g ∧ b = r'.reg g) content'
      (st.pending s.ops.log.blocks e'.written))
    (hgoal : ∀ g, e'.loaded = some g →
      st.Goal content' prev' s.ops.log.blocks (c'.bc.buf (r'.reg g)).data)
    (hfact : st.Fact A s.ops.log.blocks c'.disk content' prev' e'.written)
    (hhead : A.Fits (headBlocks (c'.disk A.start)))
    (hdurable : ∀ x, A.has x = false → recovered A c'.disk x = prev' x) :
    FileSys.Inv A { s with cache := c', runner := some r' } e' content' prev' := by
  subst hst
  refine ⟨?_, fun r₀ hr₀ => ?_, fun r₀ g hr₀ hg => ?_, ?_, h.fits, hhead, hdurable, ?_⟩
  · rw [stage_eq rfl, hstage]
    exact hcoh.congr_stale fun b => stale_iff rfl
  · cases hr₀
    exact hrunner
  · cases hr₀
    rw [hstage]
    exact hgoal g hg
  · rw [stage_eq rfl, hstage]
    exact hfact
  · have hduty := h.duty
    simp only [FileSys.Duty, hr] at hduty
    simp only [FileSys.Duty, hstage]
    exact hduty

end

end

section

variable (h : s.Inv A e content prev) (hr : s.runner = some r)
include h hr

theorem exec_quiet
    (hbody : r.body = cmd :: body) (hact : s.act r cmd = some a) (hc : s.cache.step a = some c')
    (hq : a.quiet = true) :
    s.Executes A e cmd c' { r with body := body, reg := s.regs r cmd } content prev := by
  have hrun := h.runner r hr
  have hok := h.coherent.ok
  have hfact := h.fact
  rw [stage_eq hr] at hfact
  obtain ⟨e', hnext, hrun'⟩ :=
    hrun.exec hok (fun b hd => h.dirty_held hd) (hfact.targets h.fits) hbody hact hc
  obtain ⟨hloaded, hwritten⟩ := next_quiet hact hq hnext
  have hdisk := (disk_pins_of_quiet hc hq).1
  -- the pointer to a loaded buffer is not set anew
  have hregs : ∀ g, e.loaded = some g → s.regs r cmd g = r.reg g := by
    intro g hg
    cases cmd with
    | bget g' x =>
      obtain ⟨hp, -⟩ := shift_eq hnext
      have hne : g ≠ g' := by
        rintro rfl
        cases hp.symm.trans (hrun.loads g hg)
      cases hget : s.cache.bc.bget ROOTDEV x with
      | none => simp only [regs, hget]
      | some p => simp only [regs, hget, update_of_ne hne]
    | acquire | fill | release | unref | memmove | putHead | getHead | bwrite | bunpin => rfl
  have hcoh := h.coherent
  rw [stage_eq hr] at hcoh
  refine ⟨e', hnext, h.of_exec hr rfl rfl hrun' ?_ (fun g hg => ?_) ?_ ?_ ?_⟩
  · rw [hwritten]
    refine (hcoh.quiet hc hq fun t b ha => ?_).congr_stale fun b => ?_
    · subst ha
      cases cmd with
      | release g =>
        cases hact
        obtain ⟨hl, hnext⟩ := ite_none_right_eq_some.1 hnext
        obtain ⟨hp, -⟩ := shift_eq hnext
        rw [stale_iff hr]
        rintro (hd | ⟨g', hg', heq⟩)
        · cases hd.symm.trans (hrun.clean g _ hp rfl)
        · have hne : g ≠ g' := fun he => hl (he ▸ hg')
          exact hrun.apart (hfact.targets h.fits) hne hp (hrun.loads g' hg') heq
      | bget | acquire | fill | unref | memmove | putHead | bwrite | bunpin =>
        cases some.inj hact
      | getHead => cases hact
    rw [stale_iff hr, hloaded]
    refine or_congr_right (exists_congr fun g => and_congr_right fun hg => ?_)
    show b = s.regs r cmd g ↔ _
    rw [hregs g hg]
  · rw [hloaded] at hg
    show r.stage.Goal _ _ _ (c'.bc.buf (s.regs r cmd g)).data
    have huse := hrun.use g _ (hrun.loads g hg)
    rw [hregs g hg, hok.data_of_use hc huse rfl fun d ha => ?_]
    · exact h.goal r g hr hg
    · subst ha
      cases hq
  · rw [hdisk, hwritten]
    exact hfact
  · rw [hdisk]
    exact h.head
  · rw [hdisk]
    exact h.durable

theorem exec_store {d : Block}
    (hbody : r.body = cmd :: body) (hact : s.act r cmd = some (.store r.thread (r.reg g) d))
    (hc : s.cache.step (.store r.thread (r.reg g) d) = some c') (hl : e.loaded = none)
    (hnext : e.next cmd = some { e with loaded := some g }) (hregs : s.regs r cmd = r.reg)
    (hgoal : r.stage.Goal content prev s.ops.log.blocks d) :
    s.Executes A e cmd c' { r with body := body, reg := s.regs r cmd } content prev := by
  have hfact := h.fact
  rw [stage_eq hr] at hfact
  obtain ⟨e', hnext', hrun'⟩ := (h.runner r hr).exec h.coherent.ok (fun b hd => h.dirty_held hd)
    (hfact.targets h.fits) hbody hact hc
  cases hnext.symm.trans hnext'
  have hcoh := h.coherent.store hc
  rw [stage_eq hr] at hcoh
  obtain ⟨-, hc'⟩ := store_eq hc
  have hdisk : c'.disk = s.cache.disk := by rw [hc']
  refine ⟨_, hnext, h.of_exec hr rfl rfl hrun' (hcoh.congr_stale fun b => ?_) (fun g' hg' => ?_) ?_ ?_ ?_⟩
  · rw [stale_iff hr, hl]
    simp [hregs]
  · cases hg'
    rw [hregs, hc']
    simpa using hgoal
  · rw [hdisk]
    exact hfact
  · rw [hdisk]
    exact h.head
  · rw [hdisk]
    exact h.durable

theorem exec_memmove {dst src : Reg} (hbody : r.body = .memmove dst src :: body) (hc : s.cache.step
      (.store r.thread (r.reg dst) (s.cache.bc.buf (r.reg src)).data) = some c') :
    s.Executes A e (.memmove dst src) c' { r with body := body } content prev := by
  have hrun := h.runner r hr
  have hcheck := hrun.check
  rw [hbody] at hcheck
  obtain ⟨e', hnext, -⟩ := Env.check_cons hcheck
  have hfact := h.fact
  rw [stage_eq hr] at hfact
  obtain ⟨hg, hnext⟩ := ite_none_right_eq_some.1 hnext
  refine h.exec_store hr hbody rfl hc hg.2.2.2.1 (by simp only [Env.next, if_pos hg]) rfl ?_
  rw [h.ready_data hr hg.2.1 hg.2.2.2.1]
  have hsize := h.fits.size
  rcases memmove_mem (hrun.code _ (hbody ▸ mem_cons_self ..)) with
    ⟨tail, hst, rfl, rfl⟩ | ⟨recovering, tail, hst, rfl, rfl⟩
  · -- the buffer of a logged block holds its content
    rw [hst] at hfact ⊢
    have hhome := h.fits.home _ (getD_mem hfact.1)
    exact view_home hhome
  -- the buffer of a block of the log holds what the log says of the home block
  rw [hst] at hfact ⊢
  have hlt := hfact.1
  show A.view content s.cache.disk (A.slot tail) = prev (s.ops.log.blocks.getD tail 0)
  rw [← h.durable _ (h.fits.home _ (getD_mem hlt)), recovered_getD hfact.2.1 h.fits hlt]
  exact view_log (has_slot (by omega))

theorem exec_putHead (hbody : r.body = .putHead :: body)
    (hc : s.cache.step (.store r.thread (r.reg .log)
      (writeHead s.ops.log.blocks (s.cache.bc.buf (r.reg .log)).data)) = some c') :
    s.Executes A e .putHead c' { r with body := body } content prev := by
  have hrun := h.runner r hr
  have hcheck := hrun.check
  rw [hbody] at hcheck
  obtain ⟨e', hnext, -⟩ := Env.check_cons hcheck
  obtain ⟨hg, hnext⟩ := ite_none_right_eq_some.1 hnext
  refine h.exec_store hr hbody rfl hc hg.2.1 (by simp only [Env.next, if_pos hg]) rfl ?_
  rcases putHead_mem (hrun.code _ (hbody ▸ mem_cons_self ..)) with
    hst | ⟨recovering, hst⟩
  all_goals
    rw [hst]
    exact headBlocks_writeHead h.fits.max

theorem bwrite_ready (hbody : r.body = .bwrite g :: body) (hst : r.stage = st)
    (hc : s.cache.step (.bwrite r.thread (r.reg g)) = some c') :
    e.next (.bwrite g) = some { e with loaded := none, written := true } ∧
      (∀ b, s.dirty b = true ∨ (∃ g', (none : Option Reg) = some g' ∧ b = r.reg g') ↔
        s.stale e b ∧ b ≠ r.reg g) ∧
      (s.cache.bc.buf (r.reg g)).blockno = st.target A s.ops.log.blocks g ∧
      st.Goal content prev s.ops.log.blocks (s.cache.bc.buf (r.reg g)).data ∧
      Runner.Ok A c' s.dirty s.ops.log.blocks { r with body := body }
        { e with loaded := none, written := true } ∧
      st.Fact A s.ops.log.blocks s.cache.disk content prev false ∧
      Coherent A s.cache (s.stale e) content (st.pending s.ops.log.blocks false) := by
  subst hst
  have hrun := h.runner r hr
  have hfact := h.fact
  have hcoh := h.coherent
  rw [stage_eq hr] at hfact hcoh
  obtain ⟨e', hnext, hrun'⟩ := hrun.exec h.coherent.ok (fun b hd => h.dirty_held hd)
    (hfact.targets h.fits) hbody rfl hc
  obtain ⟨hg, hnext⟩ := ite_none_right_eq_some.1 hnext
  obtain ⟨hready, hl, hw⟩ := id hg
  cases hnext
  rw [hw] at hfact hcoh
  refine ⟨if_pos hg, fun b => ?_, hrun.block g _ hready, h.goal r g hr hl, hrun', hfact, hcoh⟩
  rw [stale_iff hr, hl]
  constructor
  · rintro (hd | ⟨g', hg', -⟩)
    · refine ⟨.inl hd, ?_⟩
      rintro rfl
      cases hd.symm.trans (hrun.clean g _ hready rfl)
    · cases hg'
  rintro ⟨hd | ⟨g', hg', rfl⟩, hne⟩
  · exact .inl hd
  · cases hg'
    exact absurd rfl hne

theorem exec_writeLog {tail : Nat}
    (hbody : r.body = .bwrite .log :: body) (hst : r.stage = .writeLog tail)
    (hc : s.cache.step (.bwrite r.thread (r.reg .log)) = some c') :
    s.Executes A e (.bwrite .log) c' { r with body := body } content prev := by
  obtain ⟨hnext, hstale, hblock, hgoal, hrun', ⟨hlt, hhead, hwithin, hcopied⟩, hcoh⟩ :=
    h.bwrite_ready hr hbody hst hc
  have hsize : tail + 1 < A.size := by
    have := h.fits.size
    omega
  have hlog : A.has (s.cache.bc.buf (r.reg .log)).blockno = true := hblock ▸ has_slot hsize
  have hdisk : c'.disk = update s.cache.disk (A.slot tail)
      (content (s.ops.log.blocks.getD tail 0)) := by
    rw [(bwrite_eq hc).2, hblock, hgoal]
    rfl
  have hstart : c'.disk A.start = s.cache.disk A.start := by
    rw [hdisk, update_of_ne (slot_ne_start hsize).symm]
  refine ⟨_, hnext, h.of_exec hr hst rfl hrun' ?_ nofun ?_ ?_ fun x hx => ?_⟩
  · exact (hcoh.bwrite_log hc hlog).congr_stale hstale
  · refine ⟨hlt, hstart ▸ hhead, hwithin, fun i hi hil => ?_⟩
    rw [hdisk]
    by_cases he : i = tail
    · rw [he, update_self]
    have hne : A.slot i ≠ A.slot tail := by
      intro heq
      have := h.fits.size
      exact he (slot_inj (by omega) hsize heq)
    rw [update_of_ne hne]
    refine hcopied i ?_ hil
    simp only [toNat_true, toNat_false] at hi ⊢
    omega
  · rw [hstart]
    exact h.head
  · rw [hdisk, recovered_slot hsize hhead hx]
    exact h.durable x hx

theorem exec_commitHead (hbody : r.body = .bwrite .log :: body) (hst : r.stage = .commitHead)
    (hc : s.cache.step (.bwrite r.thread (r.reg .log)) = some c') :
    s.Executes A e (.bwrite .log) c' { r with body := body } content content := by
  obtain ⟨hnext, hstale, hblock, hgoal, hrun', ⟨-, -, hcopied⟩, hcoh⟩ := h.bwrite_ready hr hbody hst hc
  have hlog : A.has (s.cache.bc.buf (r.reg .log)).blockno = true := hblock ▸ A.has_start
  have hdisk : c'.disk = update s.cache.disk A.start (s.cache.bc.buf (r.reg .log)).data := by
    rw [(bwrite_eq hc).2, hblock]
    rfl
  have hhead : headBlocks (c'.disk A.start) = s.ops.log.blocks := by
    rw [hdisk, update_self]
    exact hgoal
  refine ⟨_, hnext, h.of_exec hr hst rfl hrun' ?_ nofun ?_ (hhead ▸ h.fits) fun x hx => ?_⟩
  · exact (hcoh.bwrite_log hc hlog).congr_stale hstale
  · exact ⟨hhead, fun _ _ _ => rfl⟩
  -- logged blocks are taken from the log, the others are up to date at home
  unfold recovered
  rw [hhead]
  split
  · next hmem =>
    have hidx := idxOf_lt_length_of_mem hmem
    have hsize := h.fits.size
    have hne : A.slot (s.ops.log.blocks.idxOf x) ≠ A.start := slot_ne_start (by omega)
    rw [hdisk, update_of_ne hne, hcopied _ hidx hidx]
    congr 1
    rw [getD_eq_getElem?_getD, getElem?_eq_getElem hidx, getD_some, getElem_idxOf]
  next hmem =>
  rw [hdisk, update_of_ne (ne_of_has hx A.has_start)]
  exact hcoh.home x hx hmem

theorem exec_clearHead {recovering : Bool}
    (hbody : r.body = .bwrite .log :: body) (hst : r.stage = .clearHead recovering)
    (hc : s.cache.step (.bwrite r.thread (r.reg .log)) = some c') :
    s.Executes A e (.bwrite .log) c' { r with body := body } content prev := by
  obtain ⟨hnext, hstale, hblock, hgoal, hrun', ⟨hempty, hwithin, -⟩, hcoh⟩ := h.bwrite_ready hr hbody hst hc
  have hlog : A.has (s.cache.bc.buf (r.reg .log)).blockno = true := hblock ▸ A.has_start
  have hdisk : c'.disk = update s.cache.disk A.start (s.cache.bc.buf (r.reg .log)).data := by
    rw [(bwrite_eq hc).2, hblock]
    rfl
  have hhead : headBlocks (c'.disk A.start) = [] := by
    rw [hdisk, update_self, ← hempty]
    exact hgoal
  refine ⟨_, hnext, h.of_exec hr hst rfl hrun' ?_ nofun ?_ (hhead ▸ LogArea.Fits.nil) fun x hx => ?_⟩
  · exact (hcoh.bwrite_log hc hlog).congr_stale hstale
  · exact ⟨hempty, hwithin, fun _ => hhead⟩
  · rw [recovered_nil hhead, hdisk, update_of_ne (ne_of_has hx A.has_start), hcoh.home x hx not_mem_nil]
    exact hwithin x hx not_mem_nil

theorem exec_install {recovering : Bool} {tail : Nat} (hbody : r.body = .bwrite .home :: body)
    (hst : r.stage = .install recovering tail)
    (hc : s.cache.step (.bwrite r.thread (r.reg .home)) = some c') :
    ∃ e' content', e.next (.bwrite .home) = some e' ∧
      FileSys.Inv A { s with cache := c', runner := some { r with body := body } } e'
      content' prev ∧ (recovering = false → content' = content) := by
  obtain ⟨hnext, hstale, hblock, hgoal, hrun', ⟨hlt, hhead, hwithin⟩, hcoh⟩ := h.bwrite_ready hr hbody hst hc
  have hdata : (s.cache.bc.buf (r.reg .home)).data = prev (s.ops.log.blocks.getD tail 0) := hgoal
  have hmem := getD_mem hlt
  have hhome := h.fits.home _ hmem
  have hdrop : s.ops.log.blocks.drop tail =
      s.ops.log.blocks.getD tail 0 :: s.ops.log.blocks.drop (tail + 1) := by
    rw [drop_eq_getElem_cons hlt, getD_eq_getElem?_getD, getElem?_eq_getElem hlt, getD_some]
  have hdisk : c'.disk = update s.cache.disk (s.ops.log.blocks.getD tail 0)
      (prev (s.ops.log.blocks.getD tail 0)) := by
    rw [(bwrite_eq hc).2, hblock, hdata]
    rfl
  have hstart : c'.disk A.start = s.cache.disk A.start := by
    rw [hdisk, update_of_ne (ne_of_has hhome A.has_start).symm]
  have hblock' : (s.cache.bc.buf (r.reg .home)).blockno = s.ops.log.blocks.getD tail 0 := hblock
  have hcoh' : Coherent A c' (fun b => s.stale e b ∧ b ≠ r.reg .home)
      (update content (s.cache.bc.buf (r.reg .home)).blockno (s.cache.bc.buf (r.reg .home)).data)
      (pending s.ops.log.blocks true (.install recovering tail)) := by
    refine hcoh.bwrite_home hc (hblock'.symm ▸ hhome) (fun y hy => ?_) fun y hy hne => ?_
    · cases recovering with
      | true => cases hy
      | false =>
        simp only [pending, toNat_true, toNat_false, Nat.add_zero] at hy ⊢
        rw [hdrop]
        exact mem_cons_of_mem _ hy
    cases recovering with
    | true => cases hy
    | false =>
      simp only [pending, toNat_true, toNat_false, Nat.add_zero] at hy ⊢
      rw [hdrop] at hy
      exact (mem_cons.1 hy).resolve_left (hblock' ▸ hne)
  rw [hdata, hblock'] at hcoh'
  refine ⟨_, update content (s.ops.log.blocks.getD tail 0)
    (prev (s.ops.log.blocks.getD tail 0)), hnext,
    h.of_exec hr hst rfl hrun' ?_ nofun ?_ ?_ fun x hx => ?_, ?_⟩
  · exact hcoh'.congr_stale hstale
  · refine ⟨hlt, hstart ▸ hhead, fun x hx hnot => ?_⟩
    by_cases he : x = s.ops.log.blocks.getD tail 0
    · rw [he, update_self]
    rw [update_of_ne he]
    refine hwithin x hx ?_
    cases recovering with
    | false => exact not_mem_nil
    | true =>
      simp only [if_true, toNat_true, toNat_false, Nat.add_zero] at hnot ⊢
      rw [hdrop]
      exact fun hx' => (mem_cons.1 hx').elim he hnot
  · rw [hstart]
    exact h.head
  · rw [hdisk, recovered_home h.head (hhead.symm ▸ hmem)]
    exact h.durable x hx
  · rintro rfl
    rw [← hwithin _ hhome not_mem_nil, update_eq_self]

theorem exec_bunpin
    (hbody : r.body = .bunpin g :: body) (hc : s.cache.step (.bunpin (r.reg g)) = some c') :
    s.Executes A e (.bunpin g) c' { r with body := body } content prev := by
  have hrun := h.runner r hr
  have hfact := h.fact
  have hcoh := h.coherent
  rw [stage_eq hr] at hfact hcoh
  obtain ⟨e', hnext, hrun'⟩ := hrun.exec h.coherent.ok (fun b hd => h.dirty_held hd)
    (hfact.targets h.fits) hbody rfl hc
  obtain ⟨hg, hnext⟩ := ite_none_right_eq_some.1 hnext
  obtain ⟨hready, hw⟩ := id hg
  cases hnext
  obtain ⟨rfl, tail, hst⟩ := bunpin_mem (hrun.code _ (hbody ▸ mem_cons_self ..))
  have hblock := hrun.block .home _ hready
  rw [hst] at hfact hcoh hblock
  have hnot : (s.cache.bc.buf (r.reg .home)).blockno ∉
      pending s.ops.log.blocks e.written (.install false tail) := by
    have hnodup := h.fits.nodup
    rw [← take_append_drop (tail + 1) s.ops.log.blocks] at hnodup
    rw [hblock]
    simp only [pending, hw, toNat_true, target]
    intro hmem
    refine (nodup_append.1 hnodup).2.2 _ ?_ _ hmem rfl
    rw [getD_eq_getElem?_getD, getElem?_eq_getElem hfact.1, getD_some]
    exact mem_take_iff_getElem.2 ⟨tail, by have := hfact.1; omega, rfl⟩
  have hcache := bunpin_eq hc
  have hdisk : c'.disk = s.cache.disk := by rw [hcache]
  refine ⟨_, if_pos hg, h.of_exec hr hst rfl hrun' ?_ (fun g' hg' => ?_) ?_ ?_ ?_⟩
  · exact (hcoh.bunpin hc hnot).congr_stale fun b => (stale_iff hr).symm
  · rw [← hst]
    have huse := hrun.use g' _ (hrun.loads g' hg')
    rw [h.coherent.ok.data_of_use hc huse rfl nofun]
    exact h.goal r g' hr hg'
  · rw [hdisk]
    exact hfact
  · rw [hdisk]
    exact h.head
  · rw [hdisk]
    exact h.durable

omit [DecidableEq T] in
theorem exec_getHead (hbody : r.body = .getHead :: body) :
    ∃ e', e.next .getHead = some e' ∧ FileSys.Inv A
      { s with
        ops := { s.ops with
          log := { s.ops.log with blocks := headBlocks (s.cache.bc.buf (r.reg .log)).data } }
        runner := some { r with body := body } } e' content prev := by
  have hrun := h.runner r hr
  have hcheck := hrun.check
  rw [hbody] at hcheck
  obtain ⟨e', hnext, hcheck'⟩ := check_cons hcheck
  have hst := getHead_mem (hrun.code _ (hbody ▸ mem_cons_self ..))
  obtain ⟨hg, hnext⟩ := ite_none_right_eq_some.1 hnext
  obtain ⟨hready, hl, -⟩ := id hg
  cases hnext
  have hdata : (s.cache.bc.buf (r.reg .log)).data = s.cache.disk A.start := by
    rw [h.ready_data hr hready hl, hst]
    exact view_log A.has_start
  have hcoh := h.coherent
  rw [stage_eq hr, hst] at hcoh
  refine ⟨{ e with written := true }, if_pos hg, ?_, fun r₀ hr₀ => ?_, fun r₀ g hr₀ hg => ?_, ?_, ?_,
    h.head, h.durable, ?_⟩
  · rw [stage_eq rfl, hst]
    refine hcoh.congr_stale fun b => ?_
    rw [stale_iff rfl, stale_iff hr]
  · cases hr₀
    have hcode := hrun.code
    have hblock := hrun.block
    rw [hst] at hcode hblock
    refine ⟨hcheck', fun cmd hcmd => ?_, hrun.use, fun g p hp => ?_, hrun.clean, hrun.loads⟩
    · show cmd ∈ r.stage.code A _
      rw [hst]
      exact hcode cmd (hbody ▸ mem_cons_of_mem _ hcmd)
    show _ = r.stage.target A _ g
    rw [hst, hblock g p hp]
    cases g <;> rfl
  · cases hl.symm.trans hg
  · rw [stage_eq rfl, hst]
    intro _
    rw [hdata]
  · show A.Fits (headBlocks _)
    rw [hdata]
    exact h.head
  · have hduty := h.duty
    simp only [FileSys.Duty, hr, hst] at hduty
    simp only [FileSys.Duty, hst]
    exact hduty

end

/-! ## From part to part -/

omit [DecidableEq T] in
theorem enter {ops : Ops T} (stage : Stage) (h : s.Inv A e content prev) (hr : s.runner = some r)
    (hbody : r.body = [])
    (hpend : stage.pending ops.log.blocks (stage.code A ops.log.blocks).isEmpty =
      r.stage.pending s.ops.log.blocks true)
    (hfact : stage.Fact A ops.log.blocks s.cache.disk content prev
      (stage.code A ops.log.blocks).isEmpty)
    (hfits : A.Fits ops.log.blocks)
    (hduty : FileSys.Duty
      { s with
        ops := ops
        runner := some { r with stage := stage, body := stage.code A ops.log.blocks } }) :
    ∃ e', FileSys.Inv A
      { s with
        ops := ops
        runner := some { r with stage := stage, body := stage.code A ops.log.blocks } } e' content
      prev := by
  have hcheck := (h.runner r hr).check
  rw [hbody] at hcheck
  obtain ⟨-, hl, hw⟩ := Env.check_nil hcheck
  have hcoh := h.coherent
  rw [stage_eq hr, hw, ← hpend] at hcoh
  refine ⟨Env.enter (stage.code A ops.log.blocks), ?_, fun r₀ hr₀ => ?_, nofun, ?_, hfits, h.head,
    h.durable, hduty⟩
  · rw [stage_eq rfl]
    refine hcoh.congr_stale fun b => ?_
    rw [stale_iff rfl, stale_iff hr, hl]
    simp [Env.enter]
  · cases hr₀
    exact ⟨Env.check_code A _ stage, fun _ hcmd => hcmd, nofun, nofun, nofun, nofun⟩
  · rw [stage_eq rfl]
    exact hfact

end FileSys.Inv

end

theorem Stage.recovering_next (blocks : List BlockNo) (stage : Stage) :
    (stage.next blocks).recovering = stage.recovering := by
  cases stage with
  | clear | clearHead | finish => rfl
  | commit | writeLog | commitHead | readHead | install =>
    simp only [next]
    split <;> rfl

theorem Stage.Fact.next {A : LogArea} {blocks : List BlockNo} {disk content prev : BlockNo → Block}
    {stage : Stage} (hclear : ∀ recovering, stage ≠ .clear recovering)
    (hfact : stage.Fact A blocks disk content prev true)
    (hread : stage = .readHead → A.Within blocks content prev) :
    (stage.next blocks).Fact A blocks disk content prev
        ((stage.next blocks).code A blocks).isEmpty ∧
      (stage.next blocks).pending blocks ((stage.next blocks).code A blocks).isEmpty =
        stage.pending blocks true := by
  cases stage with
  | commit =>
    obtain ⟨hhead, hwithin⟩ := hfact
    by_cases hpos : blocks.length > 0
    · rw [show Stage.next blocks .commit = .writeLog 0 from if_pos hpos]
      exact ⟨⟨hpos, hhead, hwithin, fun i hi => absurd hi (Nat.not_lt_zero i)⟩, rfl⟩
    · obtain rfl := length_eq_zero_iff.1 (Nat.eq_zero_of_not_pos hpos)
      exact ⟨⟨rfl, hwithin, hhead⟩, rfl⟩
  | writeLog tail =>
    obtain ⟨hlt, hhead, hwithin, hcopied⟩ := hfact
    by_cases hpos : tail + 1 < blocks.length
    · rw [show Stage.next blocks (.writeLog tail) = .writeLog (tail + 1) from if_pos hpos]
      exact ⟨⟨hpos, hhead, hwithin, hcopied⟩, rfl⟩
    rw [show Stage.next blocks (.writeLog tail) = .commitHead from if_neg hpos]
    refine ⟨⟨hhead, hwithin, fun i hi hil => hcopied i ?_ hil⟩, rfl⟩
    simp only [toNat_true]
    omega
  | commitHead =>
    obtain ⟨hhead, hwithin⟩ := hfact
    by_cases hpos : 0 < blocks.length
    · rw [show Stage.next blocks .commitHead = .install false 0 from if_pos hpos]
      exact ⟨⟨hpos, hhead, hwithin⟩, rfl⟩
    · obtain rfl := length_eq_zero_iff.1 (Nat.eq_zero_of_not_pos hpos)
      exact ⟨hwithin, rfl⟩
  | readHead =>
    by_cases hpos : 0 < blocks.length
    · rw [show Stage.next blocks .readHead = .install true 0 from if_pos hpos]
      exact ⟨⟨hpos, hfact rfl, hread rfl⟩, rfl⟩
    · obtain rfl := length_eq_zero_iff.1 (Nat.eq_zero_of_not_pos hpos)
      exact ⟨hread rfl, rfl⟩
  | install recovering tail =>
    obtain ⟨hlt, hhead, hwithin⟩ := hfact
    by_cases hpos : tail + 1 < blocks.length
    · rw [show Stage.next blocks (.install recovering tail) = .install recovering (tail + 1) from
        if_pos hpos]
      cases recovering <;> exact ⟨⟨hpos, hhead, hwithin⟩, rfl⟩
    rw [show Stage.next blocks (.install recovering tail) = .clear recovering from if_neg hpos]
    have hdrop : blocks.drop (tail + 1) = [] := drop_eq_nil_of_le (by omega)
    cases recovering with
    | false => exact ⟨hwithin, hdrop.symm⟩
    | true =>
      simp only [if_true, toNat_true, hdrop] at hwithin
      exact ⟨hwithin, rfl⟩
  | clear recovering => exact absurd rfl (hclear recovering)
  | clearHead recovering =>
    obtain ⟨hempty, hwithin, hhead⟩ := hfact
    exact ⟨⟨hempty, hwithin, hhead rfl⟩, rfl⟩
  | finish recovering => exact ⟨hfact, rfl⟩

section

variable {A : LogArea} {s s' : FileSys T} {e : Env} {content prev : BlockNo → Block} {r : Runner T}

namespace FileSys.Inv

theorem advance (h : s.Inv A e content prev) (hr : s.runner = some r) (hbody : r.body = [])
    (hstep : s.advance A r = some s') : ∃ e', s'.Inv A e' content prev := by
  have hcheck := (h.runner r hr).check
  rw [hbody] at hcheck
  obtain ⟨-, hl, hw⟩ := check_nil hcheck
  have hfact := h.fact
  have hcoh := h.coherent
  have hduty := h.duty
  rw [stage_eq hr, hw] at hfact hcoh
  simp only [FileSys.Duty, hr] at hduty
  have hstale : ∀ ops b, FileSys.stale { s with ops := ops, runner := none } e b ↔ s.stale e b := by
    intro ops b
    simp [FileSys.stale, hl]
  -- the parts that change nothing but the part
  have hgo : (∀ recovering, r.stage ≠ .clear recovering) → ∃ e', FileSys.Inv A { s with
        runner := some { r with
          stage := r.stage.next s.ops.log.blocks
          body := (r.stage.next s.ops.log.blocks).code A s.ops.log.blocks } } e' content prev := by
    intro hclear
    -- at boot the array is what is on the disk
    have hread : r.stage = .readHead → A.Within s.ops.log.blocks content prev := by
      intro hst x hx hnot
      rw [hst] at hfact hcoh
      have hhead : headBlocks (s.cache.disk A.start) = s.ops.log.blocks := hfact rfl
      rw [← h.durable x hx, ← hcoh.home x hx not_mem_nil]
      unfold recovered
      rw [hhead, if_neg hnot]
    obtain ⟨hfact', hpend'⟩ := hfact.next hclear hread
    refine h.enter _ hr hbody hpend' hfact' h.fits ?_
    simp only [FileSys.Duty, recovering_next]
    exact hduty
  unfold FileSys.advance at hstep
  dsimp only at hstep
  split at hstep
  · next hst =>
    obtain ⟨ops, hops, rfl⟩ := map_eq_some_iff.1 hstep
    have hmove := ops_move hops
    cases hmove with
    | clear hcom =>
      rw [hst] at hduty hfact ⊢
      obtain ⟨-, passed, hok⟩ := hduty
      refine h.enter (.clearHead false) hr hbody ?_ ⟨rfl, hfact, (by simp)⟩ LogArea.Fits.nil ?_
      · rw [hst]
        rfl
      · exact ⟨hcom, _, hok.step (ops_move hops)⟩
  · next hst =>
    cases hstep
    rw [hst] at hduty hfact ⊢
    refine h.enter (.clearHead true) hr hbody ?_ ⟨rfl, hfact, (by simp)⟩ LogArea.Fits.nil hduty
    rw [hst]
    rfl
  · next hst =>
    obtain ⟨ops, hops, rfl⟩ := map_eq_some_iff.1 hstep
    have hmove := ops_move hops
    cases hmove with
    | finish hcom hempty =>
      rw [hst] at hduty hfact hcoh
      obtain ⟨-, passed, hok⟩ := hduty
      refine ⟨e, ?_, (by simp), (by simp), ?_, h.fits, h.head, h.durable, rfl, _, hok.step (ops_move hops)⟩
      · show Coherent A s.cache _ content s.ops.log.blocks
        rw [hempty]
        exact hcoh.congr_stale (hstale _)
      show _ ∧ A.Within s.ops.log.blocks content prev
      rw [hempty]
      exact ⟨hfact.2.2, hfact.2.1⟩
  · next hst =>
    cases hstep
    rw [hst] at hduty hfact hcoh
    obtain ⟨hops, hout, hcom⟩ := hduty
    refine ⟨e, ?_, (by simp), (by simp), ?_, h.fits, h.head, h.durable, hcom, fun _ => [], ?_⟩
    · show Coherent A s.cache _ content s.ops.log.blocks
      rw [hfact.1]
      exact hcoh.congr_stale (hstale _)
    · show _ ∧ A.Within s.ops.log.blocks content prev
      rw [hfact.1]
      exact ⟨hfact.2.2, hfact.2.1⟩
    refine ⟨?_, ?_, (by simp), fun _ _ => hfact.1, fun _ => hops⟩
    · show s.ops.ops.Nodup
      rw [hops]
      exact nodup_nil
    show s.ops.log.outstanding = s.ops.ops.length
    rw [hops, hout]
    rfl
  · next hclear₁ hclear₂ hfinish₁ hfinish₂ =>
    cases hstep
    refine hgo fun recovering => ?_
    cases recovering with
    | false => exact hclear₁
    | true => exact hclear₂

end FileSys.Inv

/-- The next step writes the header of the commit. -/
def FileSys.commits (s : FileSys T) : Bool :=
  match s.runner with
  | some ⟨_, .commitHead, .bwrite _ :: _, _⟩ => true
  | _ => false

namespace FileSys.Inv

omit [DecidableEq T] in
theorem commits_eq_false {cmd : Cmd} {body : List Cmd} (hr : s.runner = some r)
    (hbody : r.body = cmd :: body) (h : (∀ g, cmd ≠ .bwrite g) ∨ r.stage ≠ .commitHead) :
    s.commits = false := by
  obtain ⟨t, stage, body', reg⟩ := r
  cases hbody
  unfold commits
  rw [hr]
  split
  · next heq =>
    cases heq
    rcases h with h | h
    · exact absurd rfl (h _)
    · exact absurd rfl h
  · rfl

omit [DecidableEq T] in
theorem commits_nil (hr : s.runner = some r) (hbody : r.body = []) : s.commits = false := by
  obtain ⟨t, stage, body', reg⟩ := r
  cases hbody
  unfold commits
  rw [hr]
  cases stage <;> rfl

/-- The array of safe blocks changes with the header of the commit only, and the content does not
    change in a commit. -/
theorem exec {cmd : Cmd} {body : List Cmd} (h : s.Inv A e content prev) (hr : s.runner = some r)
    (hbody : r.body = cmd :: body) (hstep : s.exec r cmd body = some s') :
    ∃ e' content', e.next cmd = some e' ∧ s'.Inv A e' content' (if s.commits then content else prev) ∧
      (r.stage.recovering = false → content' = content) := by
  -- only the header of the commit changes what is safe
  have hkeep : (∃ e', e.next cmd = some e' ∧ s'.Inv A e' content prev) →
      (∀ g, cmd ≠ .bwrite g) ∨ r.stage ≠ .commitHead → ∃ e' content', e.next cmd = some e' ∧
        s'.Inv A e' content' (if s.commits then content else prev) ∧
        (r.stage.recovering = false → content' = content) := by
    rintro ⟨e', hnext, hinv⟩ hnot
    rw [commits_eq_false hr hbody hnot]
    exact ⟨e', content, hnext, hinv, fun _ => rfl⟩
  cases hact : s.act r cmd with
  | none =>
    cases cmd with
    | getHead =>
      unfold FileSys.exec at hstep
      rw [hact] at hstep
      obtain ⟨-, ⟨⟩⟩ := ite_none_right_eq_some.1 hstep
      exact hkeep (h.exec_getHead hr hbody) (.inl nofun)
    | bget | acquire | fill | release | unref | memmove | putHead | bwrite | bunpin =>
      cases hact
  | some a =>
    unfold FileSys.exec at hstep
    rw [hact] at hstep
    obtain ⟨c', hc, rfl⟩ := map_eq_some_iff.1 hstep
    have hmem : cmd ∈ r.stage.code A s.ops.log.blocks :=
      (h.runner r hr).code cmd (hbody ▸ mem_cons_self ..)
    cases cmd with
    | getHead => cases hact
    | bget | acquire | fill | release | unref =>
      have hq : a.quiet = true := by
        cases hact
        rfl
      exact hkeep (h.exec_quiet hr hbody hact hc hq) (.inl nofun)
    | memmove dst src =>
      cases hact
      exact hkeep (h.exec_memmove hr hbody hc) (.inl nofun)
    | putHead =>
      cases hact
      exact hkeep (h.exec_putHead hr hbody hc) (.inl nofun)
    | bunpin g =>
      cases hact
      exact hkeep (h.exec_bunpin hr hbody hc) (.inl nofun)
    | bwrite g =>
      cases hact
      rcases bwrite_mem hmem with
        ⟨rfl, ⟨tail, hst⟩ | hst | ⟨recovering, hst⟩⟩ | ⟨rfl, recovering, tail, hst⟩
      · exact hkeep (h.exec_writeLog hr hbody hst hc) (.inr (by rw [hst]; nofun))
      · obtain ⟨e', hnext, hinv⟩ := h.exec_commitHead hr hbody hst hc
        refine ⟨e', content, hnext, ?_, fun _ => rfl⟩
        have hcommits : s.commits = true := by
          obtain ⟨t, stage, body', reg⟩ := r
          cases hbody
          cases hst
          simp [FileSys.commits, hr]
        rw [hcommits]
        exact hinv
      · exact hkeep (h.exec_clearHead hr hbody hst hc) (.inr (by rw [hst]; nofun))
      obtain ⟨e', content', hnext, hinv, hsame⟩ := h.exec_install hr hbody hst hc
      rw [commits_eq_false hr hbody (.inr (by rw [hst]; nofun))]
      refine ⟨e', content', hnext, hinv, fun hrec => hsame ?_⟩
      rw [hst] at hrec
      exact hrec

theorem run (h : s.Inv A e content prev) (hstep : s.step A .run = some s') :
    ∃ e' content', s'.Inv A e' content' (if s.commits then content else prev) ∧
      (s.stage.recovering = false → content' = content) := by
  simp only [step] at hstep
  split at hstep
  · next r hr =>
    rw [stage_eq hr]
    split at hstep
    · next cmd body hbody =>
      obtain ⟨e', content', -, hinv⟩ := h.exec hr hbody hstep
      exact ⟨e', content', hinv⟩
    next hbody =>
    obtain ⟨e', hinv⟩ := h.advance hr hbody hstep
    rw [commits_nil hr hbody]
    exact ⟨e', content, hinv, fun _ => rfl⟩
  · cases hstep

end FileSys.Inv

end

end Xv6.Fs
