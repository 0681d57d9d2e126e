import Xv6.FileSystem.Contents

set_option autoImplicit false

/-! # Recovery

At boot one thread alone recovers, in front of empty buffers. It never waits: the two buffers that
it needs are free, and so are their locks (`Solo`). So the recovery comes to an end, and leaves the
file system at rest with the blocks that `recovered` says; if it does not come to its end, the next
one starts from a disk with the same `recovered` blocks. -/

namespace Xv6.Fs

open Function List Structures Stage

variable {T : Type} [DecidableEq T]

section

variable {A : LogArea} {disk : BlockNo → Block} {t : T}

omit [DecidableEq T] in
theorem boot_inv (h : A.Fits (headBlocks (disk A.start))) :
    (FileSys.boot A t disk).Inv A (Env.enter (Stage.readHead.code A [])) disk (recovered A disk) := by
  refine ⟨⟨start_ok disk, fun _ _ => nofun, fun _ _ _ => rfl, nofun, ?_⟩, fun r hr => ?_, nofun, nofun,
    LogArea.Fits.nil, h, fun _ _ => rfl, rfl, rfl, rfl⟩
  · rintro b (hd | ⟨r, g, -, hg, -⟩)
    · cases hd
    · cases hg
  · cases hr
    exact ⟨Env.check_code A [] .readHead, fun _ hcmd => hcmd, nofun, nofun, nofun, nofun⟩

end

/-! ## One thread alone -/

/-- The only references to buffers are those of the thread's pointers. -/
structure Solo (c : Cache T) (r : Runner T) (e : Env) : Prop where
  pins : ∀ b, c.pins b = 0
  nodup : c.uses.Nodup
  only : ∀ u ∈ c.uses, ∃ g p, e.phase g = some p ∧ u = ⟨r.thread, r.reg g, p⟩

section

variable {A : LogArea} {s s' : FileSys T} {e e' : Env} {content prev : BlockNo → Block} {r : Runner T}
  {c c' : Cache T} {cmd : Cmd} {body : List Cmd} {g : Reg} {p q : Phase} {a : CacheAct T}

namespace Solo

omit [DecidableEq T] in
theorem of_nil (h : Solo c r e) (hp : ∀ g, e.phase g = none) : c.uses = [] := by
  refine List.eq_nil_iff_forall_not_mem.2 fun u hu => ?_
  obtain ⟨g, p, hg, -⟩ := h.only u hu
  cases (hp g).symm.trans hg

omit [DecidableEq T] in
theorem exists_free (h : Solo c r e) (hok : c.Ok) : ∃ b, (c.bc.buf b).refcnt = 0 := by
  have hcard : ({r.reg .log, r.reg .home} : Finset BufIdx).card < (Finset.univ : Finset BufIdx).card :=
    Nat.lt_of_le_of_lt Finset.card_le_two (by decide)
  obtain ⟨b, -, hb⟩ := Finset.exists_mem_notMem_of_card_lt_card hcard
  simp only [Finset.mem_insert, Finset.mem_singleton, not_or] at hb
  refine ⟨b, ?_⟩
  rw [hok.table.refcnt, h.pins]
  refine List.countP_eq_zero.2 fun u hu hu' => ?_
  obtain ⟨g, p, -, rfl⟩ := h.only u hu
  cases g with
  | log => exact hb.1 (of_decide_eq_true hu').symm
  | home => exact hb.2 (of_decide_eq_true hu').symm

theorem move (h : Solo c r e) (hp : e.phase g = some p)
    (hapart : ∀ g' p', g' ≠ g → e.phase g' = some p' → r.reg g' ≠ r.reg g)
    (hpins : c'.pins = c.pins)
    (huses : c'.uses = ⟨r.thread, r.reg g, q⟩ :: c.uses.erase ⟨r.thread, r.reg g, p⟩) :
    Solo c' { r with body := body } { e with phase := update e.phase g (some q) } := by
  -- no other reference is to this buffer
  have hother : ∀ u ∈ c.uses.erase ⟨r.thread, r.reg g, p⟩, ∃ g' p', g' ≠ g ∧ e.phase g' = some p' ∧
      u = ⟨r.thread, r.reg g', p'⟩ := by
    intro u hu
    obtain ⟨hne, hmem⟩ := (Nodup.mem_erase_iff h.nodup).1 hu
    obtain ⟨g', p', hg', rfl⟩ := h.only u hmem
    refine ⟨g', p', ?_, hg', rfl⟩
    rintro rfl
    cases hp.symm.trans hg'
    exact hne rfl
  refine ⟨fun b => hpins ▸ h.pins b, ?_, fun u hu => ?_⟩
  · rw [huses]
    refine List.nodup_cons.2 ⟨fun hmem => ?_, h.nodup.erase _⟩
    obtain ⟨g', p', hne, hg', heq⟩ := hother _ hmem
    exact hapart g' p' hne hg' (congrArg Use.buf heq).symm
  rw [huses] at hu
  rcases mem_cons.1 hu with rfl | hu
  · exact ⟨g, q, update_self .., rfl⟩
  · obtain ⟨g', p', hne, hg', rfl⟩ := hother u hu
    exact ⟨g', p', (update_of_ne hne ..).trans hg', rfl⟩

theorem drop (h : Solo c r e) (hp : e.phase g = some p) (hpins : c'.pins = c.pins)
    (huses : c'.uses = c.uses.erase ⟨r.thread, r.reg g, p⟩) :
    Solo c' { r with body := body } { e with phase := update e.phase g none } := by
  refine ⟨fun b => hpins ▸ h.pins b, huses ▸ h.nodup.erase _, fun u hu => ?_⟩
  rw [huses] at hu
  obtain ⟨hne, hmem⟩ := (Nodup.mem_erase_iff h.nodup).1 hu
  obtain ⟨g', p', hg', rfl⟩ := h.only u hmem
  have hg : g' ≠ g := by
    rintro rfl
    cases hp.symm.trans hg'
    exact hne rfl
  exact ⟨g', p', (update_of_ne hg ..).trans hg', rfl⟩

omit [DecidableEq T] in
theorem still (h : Solo c r e) (hpins : c'.pins = c.pins) (huses : c'.uses = c.uses)
    (hphase : e'.phase = e.phase) : Solo c' { r with body := body } e' := by
  refine ⟨fun b => hpins ▸ h.pins b, huses ▸ h.nodup, fun u hu => ?_⟩
  rw [hphase]
  exact h.only u (huses ▸ hu)

section

variable (h : Solo s.cache r e) (hinv : s.Inv A e content prev) (hr : s.runner = some r)
    (hrec : r.stage.recovering = true)
include h hinv hr hrec

theorem exec (hbody : r.body = cmd :: body) (hnext : e.next cmd = some e')
    (hstep : s.exec r cmd body = some s') :
    ∃ reg, s'.runner = some { r with body := body, reg := reg } ∧
      Solo s'.cache { r with body := body, reg := reg } e' := by
  have hrun := hinv.runner r hr
  have hfact := hinv.fact
  rw [FileSys.Inv.stage_eq hr] at hfact
  have hapart : ∀ g, (∃ p, e.phase g = some p) → ∀ g' p', g' ≠ g → e.phase g' = some p' →
      r.reg g' ≠ r.reg g :=
    fun g ⟨p, hp⟩ g' p' hne hp' => hrun.apart (hfact.targets hinv.fits) hne hp' hp
  cases hact : s.act r cmd with
  | none =>
    cases cmd with
    | getHead =>
      unfold FileSys.exec at hstep
      rw [hact] at hstep
      obtain ⟨-, ⟨⟩⟩ := Option.ite_none_right_eq_some.1 hstep
      obtain ⟨-, ⟨⟩⟩ := Option.ite_none_right_eq_some.1 hnext
      exact ⟨r.reg, rfl, h.still rfl rfl rfl⟩
    | bget | acquire | fill | release | unref | memmove | putHead | bwrite | bunpin =>
      cases hact
  | some a =>
    unfold FileSys.exec at hstep
    rw [hact] at hstep
    obtain ⟨c', hc, rfl⟩ := Option.map_eq_some_iff.1 hstep
    refine ⟨s.regs r cmd, rfl, ?_⟩
    cases cmd with
    | bget g x =>
      obtain ⟨e₁, hnext₁, hrun'⟩ := hrun.exec hinv.coherent.ok (fun b hd => hinv.dirty_held hd)
        (hfact.targets hinv.fits) hbody hact hc
      cases hnext.symm.trans hnext₁
      obtain ⟨hp, rfl⟩ := Env.shift_eq hnext
      cases hact
      obtain ⟨b, bc, hget, -, -⟩ := bget_use hinv.coherent.ok hc
      have hregs : s.regs r (.bget g x) = update r.reg g b := by
        simp only [FileSys.regs, hget]
      rw [hregs] at hrun' ⊢
      simp only [Cache.step, hget] at hc
      cases hc
      have hkeep : ∀ {g'}, (∃ p, e.phase g' = some p) → g' ≠ g := by
        rintro g' ⟨p, hp'⟩ rfl
        cases hp.symm.trans hp'
      refine ⟨h.pins, List.nodup_cons.2 ⟨fun hmem => ?_, h.nodup⟩, fun u hu => ?_⟩
      · -- the other pointer is to another buffer
        obtain ⟨g', p', hg', heq⟩ := h.only _ hmem
        have hne := hkeep ⟨p', hg'⟩
        have hg'' : update e.phase g (some .waiting) g' = some p' :=
          (update_of_ne hne ..).trans hg'
        refine hrun'.apart (hfact.targets hinv.fits) hne hg'' (update_self ..) ?_
        show update r.reg g b g' = update r.reg g b g
        rw [update_self, update_of_ne hne]
        exact (congrArg Use.buf heq).symm
      rcases mem_cons.1 hu with rfl | hu
      · refine ⟨g, .waiting, update_self .., ?_⟩
        simp
      obtain ⟨g', p', hg', rfl⟩ := h.only u hu
      have hne := hkeep ⟨p', hg'⟩
      refine ⟨g', p', (update_of_ne hne ..).trans hg', ?_⟩
      simp [update_of_ne hne]
    | acquire g | fill g =>
      cases hact
      obtain ⟨hp, rfl⟩ := Env.shift_eq hnext
      obtain ⟨-, ⟨⟩⟩ := Option.ite_none_right_eq_some.1 hc
      exact h.move hp (hapart g ⟨_, hp⟩) rfl rfl
    | release g =>
      cases hact
      simp only [Env.next] at hnext
      split at hnext
      · obtain ⟨hp, rfl⟩ := Env.shift_eq hnext
        obtain ⟨-, ⟨⟩⟩ := Option.ite_none_right_eq_some.1 hc
        exact h.move hp (hapart g ⟨_, hp⟩) rfl rfl
      · cases hnext
    | unref g =>
      cases hact
      obtain ⟨hp, rfl⟩ := Env.shift_eq hnext
      obtain ⟨-, ⟨⟩⟩ := Option.ite_none_right_eq_some.1 hc
      exact h.drop hp rfl rfl
    | memmove dst src | putHead =>
      cases hact
      obtain ⟨-, rfl⟩ := store_eq hc
      obtain ⟨-, ⟨⟩⟩ := Option.ite_none_right_eq_some.1 hnext
      exact h.still rfl rfl rfl
    | bwrite g =>
      cases hact
      obtain ⟨-, rfl⟩ := bwrite_eq hc
      obtain ⟨-, ⟨⟩⟩ := Option.ite_none_right_eq_some.1 hnext
      exact h.still rfl rfl rfl
    | bunpin g =>
      -- the recovery has not pinned anything
      obtain ⟨-, tail, hst⟩ := bunpin_mem (hrun.code _ (hbody ▸ mem_cons_self ..))
      rw [hst] at hrec
      cases hrec
    | getHead => cases hact

theorem progress (hbody : r.body = cmd :: body) : ∃ s', s.exec r cmd body = some s' := by
  have hrun := hinv.runner r hr
  have hok := hinv.coherent.ok
  have hfact := hinv.fact
  rw [FileSys.Inv.stage_eq hr] at hfact
  have hcheck := hrun.check
  rw [hbody] at hcheck
  obtain ⟨e', hnext, -⟩ := Env.check_cons hcheck
  have hcache : ∀ {a}, s.act r cmd = some a → (∃ c', s.cache.step a = some c') →
      ∃ s', s.exec r cmd body = some s' := by
    rintro a hact ⟨c', hc⟩
    exact ⟨_, by simp only [FileSys.exec, hact, hc]; rfl⟩
  have hready : ∀ {g a}, e.ready g → s.act r cmd = some a →
      (∀ hu : ⟨r.thread, r.reg g, .ready⟩ ∈ s.cache.uses, ∃ c', s.cache.step a = some c') →
      ∃ s', s.exec r cmd body = some s' :=
    fun hg hact hstep => hcache hact (hstep (hrun.use _ _ hg))
  cases cmd with
  | bget g x =>
    obtain ⟨order, hring, hall⟩ := hok.table.ring
    obtain ⟨b, hfree⟩ := h.exists_free hok
    obtain ⟨⟨b', bc⟩, hget⟩ := Option.isSome_iff_exists.1 (bget_isSome (x := x) hring hall hfree)
    exact hcache rfl ⟨_, by simp only [Cache.step, hget]; rfl⟩
  | acquire g =>
    obtain ⟨hp, -⟩ := Env.shift_eq hnext
    have howner : s.cache.owner (r.reg g) = none := by
      by_contra hne
      obtain ⟨t, ht⟩ := Option.ne_none_iff_exists'.1 hne
      obtain ⟨u, hu, hb, hholds, -⟩ := (hok.owner _ t).1 ht
      obtain ⟨g', p', hg', rfl⟩ := h.only u hu
      by_cases he : g' = g
      · subst he
        cases hp.symm.trans hg'
        cases hholds
      · exact hrun.apart (hfact.targets hinv.fits) he hg' hp hb
    exact hcache rfl ⟨_, if_pos ⟨hrun.use g _ hp, howner⟩⟩
  | fill g | unref g =>
    obtain ⟨hp, -⟩ := Env.shift_eq hnext
    exact hcache rfl ⟨_, if_pos (hrun.use g _ hp)⟩
  | release g =>
    simp only [Env.next] at hnext
    split at hnext
    · obtain ⟨hp, -⟩ := Env.shift_eq hnext
      exact hcache rfl ⟨_, if_pos (hrun.use g _ hp)⟩
    · cases hnext
  | memmove dst src | putHead | bwrite g =>
    simp only [Env.next] at hnext
    split at hnext
    · next hg => exact hready hg.1 rfl fun hu => ⟨_, if_pos hu⟩
    · cases hnext
  | bunpin g =>
    obtain ⟨-, tail, hst⟩ := bunpin_mem (hrun.code _ (hbody ▸ mem_cons_self ..))
    rw [hst] at hrec
    cases hrec
  | getHead =>
    obtain ⟨hg, hnext⟩ := Option.ite_none_right_eq_some.1 hnext
    have hdata := hinv.ready_data hr hg.1 hg.2.1
    have hst := getHead_mem (hrun.code _ (hbody ▸ mem_cons_self ..))
    rw [hst] at hdata
    have hmax : headCount (s.cache.bc.buf (r.reg .log)).data ≤ LOGSIZE := by
      rw [hdata]
      show headCount (A.view content s.cache.disk A.start) ≤ LOGSIZE
      rw [LogArea.view_log A.has_start]
      have hle := hinv.head.max
      simp only [headBlocks, length_map, length_take, length_finRange] at hle
      have hword : LOGSIZE < NWORD - 1 := by decide
      omega
    exact ⟨_, if_pos hmax⟩

end

end Solo

end

/-! ## To the end -/

/-- The parts that are left of the recovery, at most. -/
def Stage.left : Stage → Nat
  | .readHead => LOGSIZE + 5
  | .install _ tail => LOGSIZE + 4 - tail
  | .clear _ => 3
  | .clearHead _ => 2
  | .finish _ => 1
  | _ => 0

/-- The commands that are left, at most. -/
def Runner.left (r : Runner T) : Nat := r.stage.left * 20 + r.body.length

/-- A recovery at work, which will leave the blocks `prev`. -/
structure FileSys.Recovers (A : LogArea) (s : FileSys T) (prev : BlockNo → Block) (r : Runner T) :
    Prop where
  runner : s.runner = some r
  recovering : r.stage.recovering = true
  clean : ∀ b, s.dirty b = false
  inv : ∃ e content, s.Inv A e content prev ∧ Solo s.cache r e

def FileSys.Recovered (A : LogArea) (s : FileSys T) (prev : BlockNo → Block) : Prop :=
  s.Rest A ∧ ∀ x, A.has x = false → s.cache.disk x = prev x

section

variable {A : LogArea} {s s' : FileSys T} {prev : BlockNo → Block} {r : Runner T} {disk : BlockNo → Block}
  {t : T}

theorem Stage.code_length (A : LogArea) (blocks : List BlockNo) (stage : Stage) :
    (stage.code A blocks).length < 20 := by
  cases stage with
  | install recovering tail => cases recovering <;> simp
  | commit | writeLog | commitHead | readHead | clear | clearHead | finish =>
    simp

theorem Stage.left_next {blocks : List BlockNo} {content prev : BlockNo → Block} {w : Bool}
    {stage : Stage} (hrec : stage.recovering = true) (hf : A.Fits blocks)
    (hfact : stage.Fact A blocks disk content prev w)
    (hfinish : ∀ recovering, stage ≠ .finish recovering) :
    (stage.next blocks).left < stage.left := by
  have hmax := hf.max
  cases stage with
  | readHead =>
    simp only [next]
    split <;> simp [left]
  | install recovering tail =>
    have hlt := hfact.1
    simp only [next]
    split <;> simp only [left] <;> omega
  | clear | clearHead => simp [next, left]
  | finish recovering => exact absurd rfl (hfinish recovering)
  | commit | writeLog | commitHead => cases hrec

omit [DecidableEq T] in
theorem boot_recovers (h : A.Fits (headBlocks (disk A.start))) :
    ∃ r, (FileSys.boot A t disk).Recovers A (recovered A disk) r :=
  ⟨_, rfl, rfl, fun _ => rfl, _, disk, boot_inv h, fun _ => rfl, nodup_nil, nofun⟩

namespace FileSys.Recovers

section

variable (h : s.Recovers A prev r)
include h

omit [DecidableEq T] in
theorem finish (hbody : r.body = []) (hst : r.stage = .finish true) :
    FileSys.Recovered A { s with runner := none } prev := by
  obtain ⟨e, content, hinv, -⟩ := h.inv
  have hfact := hinv.fact
  have hcoh := hinv.coherent
  have hduty := hinv.duty
  have hcheck := (hinv.runner r h.runner).check
  rw [hbody] at hcheck
  obtain ⟨-, hl, -⟩ := Env.check_nil hcheck
  rw [FileSys.Inv.stage_eq h.runner, hst] at hfact hcoh
  simp only [FileSys.Duty, h.runner, hst] at hduty
  obtain ⟨hblocks, hwithin, hhead⟩ := hfact
  obtain ⟨hops, hout, hcom⟩ := hduty
  have hhome : ∀ x, A.has x = false → s.cache.disk x = content x := fun x hx =>
    hcoh.home x hx not_mem_nil
  refine ⟨⟨hcoh.ok, fun b hdev hvalid => ?_, ?_, rfl, h.clean, hhead⟩, fun x hx => ?_⟩
  · have hclean : ¬s.stale e b := by
      rw [stale_iff h.runner, h.clean, hl]
      simp
    rw [hcoh.view b hdev hvalid hclean]
    cases hx : A.has (s.cache.bc.buf b).blockno with
    | true => rw [LogArea.view_log hx]
    | false => rw [LogArea.view_home hx, hhome _ hx]
  · calc s.ops = ⟨⟨s.ops.log.outstanding, s.ops.log.committing, s.ops.log.blocks⟩, s.ops.ops⟩ := rfl
      _ = {} := by rw [hops, hout, hcom, hblocks]
  · exact (hhome x hx).trans (hwithin x hx not_mem_nil)

theorem advance (hst : r.stage ≠ .finish true) : ∃ ops, s.advance A r = some { s with
      ops := ops
      runner := some { r with
        stage := r.stage.next s.ops.log.blocks
        body := (r.stage.next s.ops.log.blocks).code A ops.log.blocks } } := by
  have hrec := h.recovering
  unfold FileSys.advance
  cases hs : r.stage with
  | readHead | install recovering tail | clearHead recovering => exact ⟨s.ops, rfl⟩
  | clear recovering =>
    rw [hs] at hrec
    obtain rfl : recovering = true := hrec
    exact ⟨{ s.ops with log := s.ops.log.clear }, rfl⟩
  | finish recovering =>
    rw [hs] at hrec
    obtain rfl : recovering = true := hrec
    exact absurd hs hst
  | commit | writeLog | commitHead =>
    rw [hs] at hrec
    cases hrec

/-- **The recovery takes a step and comes nearer to its end, or ends.** -/
theorem step : ∃ s', s.step A .run = some s' ∧
      ((∃ r', s'.Recovers A prev r' ∧ r'.left < r.left) ∨ s'.Recovered A prev) := by
  obtain ⟨e, content, hinv, hsolo⟩ := h.inv
  cases hbody : r.body with
  | cons cmd body =>
    obtain ⟨s', hs'⟩ := hsolo.progress hinv h.runner h.recovering hbody
    have hstep : s.step A .run = some s' := by simp only [FileSys.step, h.runner, hbody, hs']
    have hne : r.stage ≠ .commitHead := by
      intro hst
      have hrec := h.recovering
      rw [hst] at hrec
      cases hrec
    obtain ⟨e', content', hnext, hinv', -⟩ := hinv.exec h.runner hbody hs'
    rw [FileSys.Inv.commits_eq_false h.runner hbody (.inr hne)] at hinv'
    obtain ⟨reg, hr', hsolo'⟩ := hsolo.exec hinv h.runner h.recovering hbody hnext hs'
    refine ⟨s', hstep, .inl ⟨_, ⟨hr', h.recovering, fun b => ?_, e', content', hinv', hsolo'⟩, ?_⟩⟩
    · rw [(exec_eq hs').2.1]
      exact h.clean b
    · simp only [Runner.left, hbody, length_cons]
      omega
  | nil =>
    have hadv : ∀ {s'}, s.advance A r = some s' → s.step A .run = some s' := by
      intro s' hs'
      simp only [FileSys.step, h.runner, hbody, hs']
    by_cases hst : r.stage = .finish true
    · refine ⟨{ s with runner := none }, hadv ?_, .inr (h.finish hbody hst)⟩
      simp only [FileSys.advance, hst]
    obtain ⟨ops, hs'⟩ := h.advance hst
    have hcheck := (hinv.runner r h.runner).check
    rw [hbody] at hcheck
    have hnil := hsolo.of_nil (Env.check_nil hcheck).1
    obtain ⟨e', hinv'⟩ := hinv.advance h.runner hbody hs'
    refine ⟨_, hadv hs', .inl ⟨_, ⟨rfl, ?_, h.clean, e', content, hinv', hsolo.pins, ?_, ?_⟩, ?_⟩⟩
    · exact (recovering_next ..).trans h.recovering
    · exact hsolo.nodup
    · show ∀ u ∈ s.cache.uses, _
      rw [hnil]
      exact forall_mem_nil _
    have hfact := hinv.fact
    rw [FileSys.Inv.stage_eq h.runner] at hfact
    have hleft := left_next h.recovering hinv.fits hfact fun recovering hs => ?_
    · have hlen := code_length A ops.log.blocks (r.stage.next s.ops.log.blocks)
      simp only [Runner.left, hbody, length_nil]
      omega
    have hrec := h.recovering
    rw [hs] at hrec hst
    obtain rfl : recovering = true := hrec
    exact hst rfl

theorem ends : ∃ n s', runs (FileSys.step A) s (List.replicate n .run) = some s' ∧ s'.Recovered A prev := by
  obtain ⟨n, hn⟩ : ∃ n, r.left = n := ⟨_, rfl⟩
  -- induction on the commands that are left
  induction n using Nat.strongRecOn generalizing s r with
  | ind n ih =>
    obtain ⟨s₁, hs₁, ⟨r₁, h₁, hlt⟩ | hdone⟩ := h.step
    · obtain ⟨m, s', hs', hend⟩ := ih r₁.left (hn ▸ hlt) h₁ rfl
      refine ⟨m + 1, s', ?_, hend⟩
      simp only [replicate_succ, runs, hs₁]
      exact hs'
    · refine ⟨1, s₁, ?_, hdone⟩
      simp only [replicate_succ, replicate_zero, runs, hs₁]

theorem runs_durable {n : Nat} (hrun : runs (FileSys.step A) s (List.replicate n .run) = some s') :
    A.Fits (headBlocks (s'.cache.disk A.start)) ∧
      ∀ x, A.has x = false → recovered A s'.cache.disk x = prev x := by
  induction n generalizing s r with
  | zero =>
    cases hrun
    obtain ⟨e, content, hinv, -⟩ := h.inv
    exact ⟨hinv.head, hinv.durable⟩
  | succ n ih =>
    obtain ⟨s₁, hs₁, ⟨r₁, h₁, -⟩ | ⟨hrest, hhome⟩⟩ := h.step
    all_goals simp only [replicate_succ, runs, hs₁] at hrun
    · exact ih h₁ hrun
    -- there is nothing left to run
    cases n with
    | zero =>
      cases hrun
      refine ⟨hrest.head ▸ LogArea.Fits.nil, fun x hx => ?_⟩
      rw [recovered_nil hrest.head]
      exact hhome x hx
    | succ n =>
      simp only [replicate_succ, runs, FileSys.step, hrest.runner] at hrun
      cases hrun

end

end FileSys.Recovers

end

end Xv6.Fs
