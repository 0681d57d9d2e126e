import Xv6.FileSystem.Recovery

set_option autoImplicit false

/-! # Crashes

The calls of `log_write` fall into groups: a group is closed when the last operation ends, and its
commit begins. After a crash anywhere and a recovery, which may itself be broken off by crashes any
number of times, the home blocks are those after a number of closed groups. All groups whose commit
has returned are among them, and at most the one that is being committed is not. -/

namespace Xv6.Fs

open Function List Option Structures FileSys

variable {T : Type} [DecidableEq T]

/-- A call of `log_write`, with the number of the operation. -/
structure Write where
  op : Nat
  block : BlockNo
  data : Block

def applyWrites (ws : List Write) (disk : BlockNo → Block) : BlockNo → Block :=
  ws.foldl (fun disk w => update disk w.block w.data) disk

/-- The groups that are closed, how many of them have been committed by an `end_op` that has
    returned, the group that is open, the number of each thread's operation and the number of
    operations. -/
structure Groups (T : Type) where
  closed : List (List Write) := []
  returned : Nat := 0
  current : List Write := []
  op : T → Nat := fun _ => 0
  next : Nat := 0

/-- The thread leaves `commit`. -/
def FileSys.ends (s : FileSys T) : Bool :=
  match s.runner with
  | some ⟨_, .finish false, [], _⟩ => true
  | _ => false

def noteGroup (s : FileSys T) : FsAct T → Groups T → Groups T
  | .beginOp t, h => { h with op := update h.op t h.next, next := h.next + 1 }
  | .logWrite t b, h =>
    { h with
      current := h.current ++ [⟨h.op t, (s.cache.bc.buf b).blockno, (s.cache.bc.buf b).data⟩] }
  | .endOp _, h =>
    if s.ops.log.outstanding - 1 = 0 then
      { h with closed := h.closed ++ [h.current], current := [] }
    else h
  | .run, h => if s.ends then { h with returned := h.closed.length } else h
  | .call _, h => h

/-- The disk after recoveries that have been broken off after so many steps. -/
def crashes (A : LogArea) (t : T) : (BlockNo → Block) → List Nat → Option (BlockNo → Block)
  | disk, [] => some disk
  | disk, k :: ks =>
    match runs (FileSys.step A) (FileSys.boot A t disk) (List.replicate k .run) with
    | some s => crashes A t s.cache.disk ks
    | none => none

/-! ## Groups -/

section

variable {A : LogArea} {s s' : FileSys T} {e : Env} {content prev disk : BlockNo → Block} {a : FsAct T}
  {h : Groups T}

theorem applyWrites_append (ws : List Write) (w : Write) :
    applyWrites (ws ++ [w]) disk = update (applyWrites ws disk) w.block w.data := by
  simp [applyWrites]

/-- The numbers of the operations. -/
structure Groups.Numbered (h : Groups T) (ops : List T) : Prop where
  begun : ∀ t ∈ ops, h.op t < h.next
  old : ∀ w ∈ h.closed.flatten ++ h.current, w.op < h.next
  ended : ∀ w ∈ h.closed.flatten, ∀ t ∈ ops, w.op ≠ h.op t

/-- The groups and the two arrays: all calls make up the content, and the safe blocks are those
    after the first `k` groups; before a commit these are all closed groups. -/
structure Groups.Ok (A : LogArea) (disk : BlockNo → Block) (s : FileSys T)
    (content prev : BlockNo → Block) (h : Groups T) (k : Nat) : Prop where
  content : content = applyWrites (h.closed.flatten ++ h.current) disk
  returned : h.returned ≤ k
  closed : k ≤ h.closed.length
  safe : ∀ x, A.has x = false → prev x = applyWrites (h.closed.take k).flatten disk x
  idle : s.runner = none → k = h.closed.length
  busy : s.runner ≠ none → h.current = []
  numbered : h.Numbered s.ops.ops

theorem run_ends (hstep : s.step A .run = some s') (hrec : s.stage.recovering = false) :
    s'.ops.ops = s.ops.ops ∧
      (s.ends = false ∧ s'.runner ≠ none ∨
        s.ends = true ∧ s'.runner = none ∧ s.stage = .finish false) := by
  obtain ⟨r, hr, ⟨cmd, body, hbody, hexec⟩ | ⟨hbody, hadv⟩⟩ := run_eq hstep
  · obtain ⟨t, stage, body', reg⟩ := r
    cases hbody
    refine ⟨?_, .inl ⟨?_, ?_⟩⟩
    · unfold exec at hexec
      split at hexec
      · obtain ⟨c', -, rfl⟩ := map_eq_some_iff.1 hexec
        rfl
      dsimp only at hexec
      obtain ⟨-, ⟨⟩⟩ := ite_none_right_eq_some.1 hexec
      rfl
    · unfold ends
      rw [hr]
      cases stage with
      | finish recovering => cases recovering <;> rfl
      | commit | writeLog | commitHead | readHead | install | clear | clearHead => rfl
    · obtain ⟨⟨reg', hr'⟩, -⟩ := exec_eq hexec
      rw [hr']
      nofun
  · rw [FileSys.Inv.stage_eq hr] at hrec ⊢
    obtain ⟨t, stage, body', reg⟩ := r
    cases hbody
    unfold ends
    rw [hr]
    cases stage with
    | finish recovering =>
      obtain rfl : recovering = false := hrec
      obtain ⟨ops, hops, rfl⟩ := map_eq_some_iff.1 hadv
      cases ops_move hops
      exact ⟨rfl, .inr ⟨rfl, rfl, rfl⟩⟩
    | clear recovering =>
      obtain rfl : recovering = false := hrec
      obtain ⟨ops, hops, rfl⟩ := map_eq_some_iff.1 hadv
      cases ops_move hops
      exact ⟨rfl, .inl ⟨rfl, nofun⟩⟩
    | commit | writeLog | commitHead | readHead | install | clearHead =>
      cases hadv
      exact ⟨rfl, .inl ⟨rfl, nofun⟩⟩

namespace Groups.Ok

variable {k : Nat}

section

variable (hg : h.Ok A disk s content prev k)
include hg

omit [DecidableEq T] in
theorem congr (hrunner : s'.runner = s.runner)
    (hops : s'.ops.ops = s.ops.ops) : h.Ok A disk s' content prev k :=
  ⟨hg.content, hg.returned, hg.closed, hg.safe, fun hr => hg.idle (hrunner ▸ hr),
    fun hr => hg.busy (hrunner ▸ hr), hops ▸ hg.numbered⟩

theorem beginOp {t : T} (hstep : s.step A (.beginOp t) = some s') :
    (noteGroup s (.beginOp t) h).Ok A disk s' content prev k := by
  obtain ⟨-, hstep⟩ := ite_none_right_eq_some.1 hstep
  obtain ⟨ops, hops, rfl⟩ := map_eq_some_iff.1 hstep
  cases ops_move hops with
  | beginOp _ hnew =>
    refine ⟨hg.content, hg.returned, hg.closed, hg.safe, hg.idle, hg.busy, ?_, fun w hw => ?_,
      fun w hw t' ht' => ?_⟩
    · intro t' ht'
      show update h.op t h.next t' < h.next + 1
      rcases mem_cons.1 ht' with rfl | ht'
      · rw [update_self]
        exact Nat.lt_succ_self _
      have hne : t' ≠ t := fun he => hnew (he ▸ ht')
      rw [update_of_ne hne]
      exact Nat.lt_succ_of_lt (hg.numbered.begun t' ht')
    · exact Nat.lt_succ_of_lt (hg.numbered.old w hw)
    -- the operation has a number of its own
    have hlt := hg.numbered.old w (mem_append_left _ hw)
    show w.op ≠ update h.op t h.next t'
    rcases mem_cons.1 ht' with rfl | ht'
    · rw [update_self]
      exact Nat.ne_of_lt hlt
    have hne : t' ≠ t := fun he => hnew (he ▸ ht')
    rw [update_of_ne hne]
    exact hg.numbered.ended w hw t' ht'

theorem logWrite {t : T} {b : BufIdx}
    (hinv : s.Inv A e content prev) (hstep : s.step A (.logWrite t b) = some s') :
    (noteGroup s (.logWrite t b) h).Ok A disk s' (noteWrite s (.logWrite t b) content) prev k := by
  obtain ⟨hguard, hstep⟩ := ite_none_right_eq_some.1 hstep
  split at hstep
  · next ops hops =>
    obtain ⟨c', -, rfl⟩ := map_eq_some_iff.1 hstep
    have hmove : t ∈ s.ops.ops ∧ ops.ops = s.ops.ops := by
      cases ops_move hops with
      | absorbed _ _ ht | logged _ _ ht => exact ⟨ht, rfl⟩
    obtain ⟨hr, -⟩ := hinv.idle_of_op hguard.1 hmove.1
    refine ⟨?_, hg.returned, hg.closed, hg.safe, hg.idle, fun hne => absurd hr hne, ?_, ?_, ?_⟩
    · show update content _ _ = applyWrites (h.closed.flatten ++ (h.current ++ _)) disk
      rw [← append_assoc, applyWrites_append, ← hg.content]
    · show ∀ t ∈ ops.ops, _
      rw [hmove.2]
      exact hg.numbered.begun
    · intro w hw
      rcases mem_append.1 hw with hw | hw
      · exact hg.numbered.old w (mem_append_left _ hw)
      rcases mem_append.1 hw with hw | hw
      · exact hg.numbered.old w (mem_append_right _ hw)
      · rw [mem_singleton.1 hw]
        exact hg.numbered.begun t hmove.1
    · show ∀ w ∈ h.closed.flatten, ∀ t ∈ ops.ops, _
      rw [hmove.2]
      exact hg.numbered.ended
  · cases hstep

theorem endOp {t : T} (hinv : s.Inv A e content prev) (hstep : s.step A (.endOp t) = some s') :
    (noteGroup s (.endOp t) h).Ok A disk s' content prev k := by
  obtain ⟨hfree, hstep⟩ := ite_none_right_eq_some.1 hstep
  obtain ⟨ops, hops, rfl⟩ := map_eq_some_iff.1 hstep
  cases ops_move hops with
  | endOp _ ht hidle =>
    obtain ⟨hr, -, passed, hok⟩ := hinv.idle_of_op hfree ht
    have hk := hg.idle hr
    have hsub : ∀ t' ∈ s.ops.ops.erase t, t' ∈ s.ops.ops := fun t' => mem_of_mem_erase
    by_cases hlast : s.ops.log.outstanding - 1 = 0
    · -- no operation is left when the group is closed
      have hnone : s.ops.ops.erase t = [] := by
        have hlen := length_erase_of_mem ht
        have hout := hok.outstanding
        exact length_eq_zero_iff.1 (by omega)
      simp only [noteGroup, hlast, if_true, decide_true, hnone]
      refine ⟨?_, hg.returned, ?_, fun x hx => ?_, nofun, fun _ => rfl, nofun, ?_, nofun⟩
      · simpa using hg.content
      · simp [hk]
      · rw [hg.safe x hx, take_append_of_le_length (Nat.le_of_eq hk)]
      · simpa using hg.numbered.old
    simp only [noteGroup, hlast, if_false, decide_false, Bool.false_eq_true]
    exact ⟨hg.content, hg.returned, hg.closed, hg.safe, hg.idle, hg.busy,
      fun t' ht' => hg.numbered.begun t' (hsub t' ht'), hg.numbered.old,
      fun w hw t' ht' => hg.numbered.ended w hw t' (hsub t' ht')⟩

theorem run (hinv : s.Inv A e content prev)
    (hrec : s.stage.recovering = false) (hstep : s.step A .run = some s') :
    ∃ k, (noteGroup s .run h).Ok A disk s' content (if s.commits then content else prev) k := by
  obtain ⟨r, hr, -⟩ := run_eq hstep
  have hcur : h.current = [] := hg.busy (by rw [hr]; nofun)
  have hcontent : content = applyWrites h.closed.flatten disk := by
    rw [hg.content, hcur, append_nil]
  obtain ⟨hops, ⟨hends, hr'⟩ | ⟨hends, hr', hst⟩⟩ := run_ends hstep hrec
  · simp only [noteGroup, hends, Bool.false_eq_true, if_false]
    by_cases hcom : s.commits = true
    · -- the header makes all closed groups safe
      rw [hcom]
      refine ⟨h.closed.length, hg.content, hg.returned.trans hg.closed, le_refl _, fun x _ => ?_,
        fun hnone => absurd hnone hr', fun _ => hcur, hops ▸ hg.numbered⟩
      rw [take_length, if_pos rfl, hcontent]
    rw [if_neg hcom]
    exact ⟨k, hg.content, hg.returned, hg.closed, hg.safe, fun hnone => absurd hnone hr',
      fun _ => hcur, hops ▸ hg.numbered⟩
  have hcom : s.commits = false := by
    obtain ⟨t, stage, body, reg⟩ := r
    rw [FileSys.Inv.stage_eq hr] at hst
    cases hst
    simp [commits, hr]
  have hfact := hinv.fact
  rw [hst] at hfact
  simp only [noteGroup, hends, if_true, hcom]
  refine ⟨h.closed.length, hg.content, le_refl _, le_refl _, fun x hx => ?_, fun _ => rfl,
    fun _ => hcur, ?_⟩
  · rw [take_length, if_neg (by decide), ← hfact.2.1 x hx not_mem_nil, hcontent]
  · rw [hops]
    exact ⟨hg.numbered.begun, hg.numbered.old, hg.numbered.ended⟩

end

end Groups.Ok

theorem Groups.Ok.step {k : Nat} (hg : h.Ok A disk s content prev k) (hinv : s.Inv A e content prev)
    (hrec : s.stage.recovering = false) (hstep : s.step A a = some s') :
    ∃ e' content' prev' k', s'.Inv A e' content' prev' ∧
      (noteGroup s a h).Ok A disk s' content' prev' k' := by
  obtain ⟨e', content', prev', hinv', hcontent, hprev⟩ := hinv.step hstep
  obtain rfl := hcontent hrec
  refine ⟨e', noteWrite s a content, prev', ?_⟩
  subst hprev
  cases a with
  | call ca =>
    refine ⟨k, hinv', ?_⟩
    simp only [step] at hstep
    split at hstep
    · split at hstep
      · obtain ⟨c', -, rfl⟩ := map_eq_some_iff.1 hstep
        exact hg.congr rfl rfl
      · cases hstep
    · cases hstep
  | beginOp t => exact ⟨k, hinv', hg.beginOp hstep⟩
  | logWrite t b => exact ⟨k, hinv', hg.logWrite hinv hstep⟩
  | endOp t => exact ⟨k, hinv', hg.endOp hinv hstep⟩
  | run =>
    obtain ⟨k', hg'⟩ := hg.run hinv hrec hstep
    exact ⟨k', hinv', hg'⟩

theorem FileSys.Rest.groups {s₀ : FileSys T} {tr : List (FsAct T)} (h₀ : s₀.Rest A)
    (hrun : runs (FileSys.step A) s₀ tr = some s) :
    s.stage.recovering = false ∧ ∃ e content prev k, s.Inv A e content prev ∧
      Groups.Ok A s₀.cache.disk s content prev (history (FileSys.step A) noteGroup s₀ {} tr) k := by
  refine runs_invariant (fun s h => s.stage.recovering = false ∧ ∃ e content prev k,
    s.Inv A e content prev ∧ Groups.Ok A s₀.cache.disk s content prev h k) hrun ?_ ?_
  · refine ⟨by simp only [stage, h₀.runner, Stage.recovering], Env.enter [], _, _, 0,
      h₀.inv _, rfl, le_refl _, le_refl _, fun _ _ => rfl, fun _ => rfl, fun _ => rfl, ?_, by simp, by simp⟩
    rw [h₀.ops]
    simp
  · rintro s a s' h hstep ⟨hrec, e, content, prev, k, hinv, hg⟩
    exact ⟨recovering_of_step hstep hrec, hg.step hinv hrec hstep⟩

theorem crashes_durable {t : T} {ks : List Nat} {d : BlockNo → Block} {prev : BlockNo → Block}
    (hfits : A.Fits (headBlocks (disk A.start)))
    (hprev : ∀ x, A.has x = false → recovered A disk x = prev x)
    (hd : crashes A t disk ks = some d) :
    A.Fits (headBlocks (d A.start)) ∧ ∀ x, A.has x = false → recovered A d x = prev x := by
  induction ks generalizing disk with
  | nil =>
    cases hd
    exact ⟨hfits, hprev⟩
  | cons k ks ih =>
    unfold crashes at hd
    split at hd
    · next s hrun =>
      obtain ⟨r, hrec⟩ := boot_recovers (t := t) hfits
      obtain ⟨hfits', hprev'⟩ := hrec.runs_durable hrun
      exact ih hfits' (fun x hx => (hprev' x hx).trans (hprev x hx)) hd
    · cases hd

end

/-- **Crash safety.** After any run from rest, a crash, any number of recoveries that are broken
    off, and one that is not, the file system is at rest and the home blocks are those after the
    first `k` closed groups. These are all the groups whose commit has returned and maybe the last
    one, and they hold nothing of an operation that has not called `end_op`. -/
theorem crash_safe {A : LogArea} {s₀ s : FileSys T} {tr : List (FsAct T)} (h₀ : s₀.Rest A)
    (hrun : runs (FileSys.step A) s₀ tr = some s) {t : T} {ks : List Nat} {d : BlockNo → Block}
    (hcrash : crashes A t s.cache.disk ks = some d) :
    ∃ n s', runs (FileSys.step A) (FileSys.boot A t d) (List.replicate n .run) = some s' ∧
      s'.Rest A ∧
      ∃ k, (history (FileSys.step A) noteGroup s₀ {} tr).returned ≤ k ∧
        k ≤ (history (FileSys.step A) noteGroup s₀ {} tr).closed.length ∧
        (∀ x, A.has x = false → s'.cache.disk x =
          applyWrites ((history (FileSys.step A) noteGroup s₀ {} tr).closed.take k).flatten
            s₀.cache.disk x) ∧
        ∀ w ∈ ((history (FileSys.step A) noteGroup s₀ {} tr).closed.take k).flatten,
          ∀ t ∈ s.ops.ops, w.op ≠ (history (FileSys.step A) noteGroup s₀ {} tr).op t := by
  obtain ⟨-, e, content, prev, k, hinv, hg⟩ := h₀.groups hrun
  obtain ⟨hfits, hprev⟩ := crashes_durable hinv.head hinv.durable hcrash
  obtain ⟨r, hrec⟩ := boot_recovers (t := t) hfits
  obtain ⟨n, s', hs', hrest, hhome⟩ := hrec.ends
  refine ⟨n, s', hs', hrest, k, hg.returned, hg.closed, fun x hx => ?_, fun w hw t ht => ?_⟩
  · rw [hhome x hx, hprev x hx, hg.safe x hx]
  · obtain ⟨ws, hws, hw⟩ := mem_flatten.1 hw
    exact hg.numbered.ended w (mem_flatten.2 ⟨ws, mem_of_mem_take hws, hw⟩) t ht

/-- An operation writes a block; its commit has written the header and installs the block. -/
def commitHalfway : List (FsAct Nat) :=
  [.beginOp 0, .call (.bget 0 50), .call (.acquire 0 0), .call (.fill 0 0),
    .call (.store 0 0 fun _ => 7), .logWrite 0 0, .call (.release 0 0), .call (.unref 0 0),
    .endOp 0] ++ List.replicate 25 .run

theorem crash_safe_halfway : ∃ s d,
    runs (FileSys.step mkfsArea) (FileSys.start fun _ _ => 0) commitHalfway = some s ∧
      crashes mkfsArea 0 s.cache.disk [9] = some d ∧
      ∃ n s', runs (FileSys.step mkfsArea) (FileSys.boot mkfsArea 0 d) (List.replicate n .run) =
        some s' ∧ s'.Rest mkfsArea := by
  have hsome : ((runs (step mkfsArea) (start fun _ _ => 0) commitHalfway).bind
      fun s => crashes mkfsArea 0 s.cache.disk [9]).isSome = true := by decide +kernel
  obtain ⟨d, hd⟩ := isSome_iff_exists.1 hsome
  obtain ⟨s, hs, hcrash⟩ := bind_eq_some_iff.1 hd
  obtain ⟨n, s', hs', hrest, -⟩ := crash_safe (start_rest rfl) hs hcrash
  exact ⟨s, d, hs, hcrash, n, s', hs', hrest⟩

end Xv6.Fs
