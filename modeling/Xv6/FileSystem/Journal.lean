import Xv6.FileSystem.Runner

set_option autoImplicit false

/-! # The journal on the disk

What the blocks of the log mean: `recovered` is the array of home blocks that a recovery would
leave, with the blocks that the header names taken from the log. It changes in one place only, when
the commit writes the header. `FileSys.Inv` is the invariant of the file system. It has two ghost
arrays, the content of the blocks after all calls of `log_write` so far (`content`) and the content
that is safe on the disk (`prev`), and says for each part of the commit and of the recovery how far
the disk has come from the one to the other (`Stage.Fact`). -/

namespace Xv6.Fs

open Function List Structures LogArea

/-! ## The area of the log -/

namespace LogArea

variable {A : LogArea} {i j : Nat} {x : BlockNo}

theorem has_start (A : LogArea) : A.has A.start = true := by
  simpa [has] using A.pos

theorem slot_sub (h : i + 1 < A.size) : (A.slot i - A.start).toNat = i + 1 := by
  have hsmall := A.isInt
  have hsub : A.slot i - A.start = BitVec.ofNat 32 (i + 1) := by
    unfold slot
    rw [BitVec.add_comm, BitVec.add_sub_cancel]
  rw [hsub, BitVec.toNat_ofNat]
  exact Nat.mod_eq_of_lt (by omega)

theorem has_slot (h : i + 1 < A.size) : A.has (A.slot i) = true := by
  unfold has
  rw [slot_sub h]
  exact decide_eq_true h

theorem slot_ne_start (h : i + 1 < A.size) : A.slot i ≠ A.start := by
  intro heq
  have hsub := slot_sub h
  simp [heq] at hsub

theorem slot_inj (hi : i + 1 < A.size) (hj : j + 1 < A.size) (h : A.slot i = A.slot j) : i = j := by
  have hsub := slot_sub hi
  rw [h, slot_sub hj] at hsub
  omega

theorem ne_of_has {y : BlockNo} (hx : A.has x = false) (hy : A.has y = true) : x ≠ y := by
  rintro rfl
  cases hx.symm.trans hy

/-- What may stand in the header. -/
structure Fits (A : LogArea) (l : List BlockNo) : Prop where
  nodup : l.Nodup
  home : ∀ x ∈ l, A.has x = false
  size : l.length < A.size
  max : l.length ≤ LOGSIZE

theorem Fits.nil : A.Fits [] := ⟨nodup_nil, nofun, A.pos, Nat.zero_le _⟩

end LogArea

/-! ## The header -/

theorem headCount_writeHead {l : List BlockNo} {d : Block} (h : l.length ≤ LOGSIZE) :
    headCount (writeHead l d) = l.length := by
  have hsize : LOGSIZE = 30 := rfl
  have hint : (BitVec.ofNat 32 l.length).toInt = l.length := by
    rw [BitVec.toInt_ofNat']
    exact Int.bmod_eq_of_le (by omega) (by omega)
  simp [headCount, writeHead, hint]

theorem headBlocks_writeHead {l : List BlockNo} {d : Block} (h : l.length ≤ LOGSIZE) :
    headBlocks (writeHead l d) = l := by
  have hsize : LOGSIZE < NWORD - 1 := by decide
  have hlen : (headBlocks (writeHead l d)).length = l.length := by
    simp only [headBlocks, length_map, length_take, length_finRange, headCount_writeHead h]
    omega
  refine ext_getElem hlen fun i hi hi' => ?_
  simp [headBlocks, writeHead, Fin.succ_ne_zero, getElem?_eq_getElem hi']

/-! ## What a recovery leaves -/

/-- The home blocks after a recovery from this disk. -/
def recovered (A : LogArea) (disk : BlockNo → Block) (x : BlockNo) : Block :=
  if x ∈ headBlocks (disk A.start) then disk (A.slot ((headBlocks (disk A.start)).idxOf x)) else disk x

section

variable {A : LogArea} {disk : BlockNo → Block} {x y : BlockNo} {d : Block} {blocks : List BlockNo}
  {tail : Nat}

theorem recovered_nil (h : headBlocks (disk A.start) = []) : recovered A disk x = disk x := by
  simp [recovered, h]

theorem recovered_getD (hhead : headBlocks (disk A.start) = blocks) (hf : A.Fits blocks)
    (h : tail < blocks.length) : recovered A disk (blocks.getD tail 0) = disk (A.slot tail) := by
  have hget : blocks.getD tail 0 = blocks[tail] := by
    rw [getD_eq_getElem?_getD, getElem?_eq_getElem h, Option.getD_some]
  unfold recovered
  rw [hhead, hget, if_pos (getElem_mem h), Nodup.idxOf_getElem hf.nodup]

theorem idxOf_lt_size (hf : A.Fits (headBlocks (disk A.start))) (hx : x ∈ headBlocks (disk A.start)) :
    (headBlocks (disk A.start)).idxOf x + 1 < A.size := by
  have hidx := idxOf_lt_length_of_mem hx
  have hsize := hf.size
  omega

theorem recovered_slot (h : tail + 1 < A.size) (hhead : headBlocks (disk A.start) = [])
    (hx : A.has x = false) :
    recovered A (update disk (A.slot tail) d) x = recovered A disk x := by
  have hstart : update disk (A.slot tail) d A.start = disk A.start :=
    update_of_ne (slot_ne_start h).symm ..
  rw [recovered_nil (hstart ▸ hhead), recovered_nil hhead, update_of_ne (ne_of_has hx (has_slot h))]

theorem recovered_home (hf : A.Fits (headBlocks (disk A.start))) (hy : y ∈ headBlocks (disk A.start)) :
    recovered A (update disk y d) x = recovered A disk x := by
  have hhome := hf.home y hy
  have hstart : update disk y d A.start = disk A.start :=
    update_of_ne (ne_of_has hhome A.has_start).symm ..
  unfold recovered
  rw [hstart]
  split
  · next hx =>
    rw [update_of_ne]
    exact (ne_of_has hhome (has_slot (idxOf_lt_size hf hx))).symm
  next hx =>
  rw [update_of_ne]
  rintro rfl
  exact hx hy

end

/-! ## The invariant -/

/-- The array of home blocks differs from `prev` in `blocks` only. -/
def LogArea.Within (A : LogArea) (blocks : List BlockNo) (content prev : BlockNo → Block) : Prop :=
  ∀ x, A.has x = false → x ∉ blocks → content x = prev x

/-- The first `k` of the blocks are in the log. -/
def LogArea.Copied (A : LogArea) (disk content : BlockNo → Block) (blocks : List BlockNo)
    (k : Nat) : Prop :=
  ∀ i, i < k → i < blocks.length → disk (A.slot i) = content (blocks.getD i 0)

namespace Stage

/-- How far the disk is; `written` says whether the block of this part has been written. -/
def Fact (A : LogArea) (blocks : List BlockNo) (disk content prev : BlockNo → Block)
    (written : Bool) : Stage → Prop
  | .commit => headBlocks (disk A.start) = [] ∧ A.Within blocks content prev
  | .writeLog tail =>
    tail < blocks.length ∧ headBlocks (disk A.start) = [] ∧ A.Within blocks content prev ∧
      A.Copied disk content blocks (tail + written.toNat)
  | .commitHead =>
    if written then headBlocks (disk A.start) = blocks ∧ A.Within [] content prev
    else headBlocks (disk A.start) = [] ∧ A.Within blocks content prev ∧
      A.Copied disk content blocks blocks.length
  | .readHead => written = true → headBlocks (disk A.start) = blocks
  | .install recovering tail =>
    tail < blocks.length ∧ headBlocks (disk A.start) = blocks ∧
      A.Within (if recovering then blocks.drop (tail + written.toNat) else []) content prev
  | .clear _ => A.Within [] content prev
  | .clearHead _ =>
    blocks = [] ∧ A.Within [] content prev ∧ (written = true → headBlocks (disk A.start) = [])
  | .finish _ => blocks = [] ∧ A.Within [] content prev ∧ headBlocks (disk A.start) = []

/-- The blocks that may differ on the disk. -/
def pending (blocks : List BlockNo) (written : Bool) : Stage → List BlockNo
  | .commit | .writeLog _ | .commitHead => blocks
  | .install false tail => blocks.drop (tail + written.toNat)
  | _ => []

/-- What is in the buffer of this part once it has been changed. -/
def Goal (content prev : BlockNo → Block) (blocks : List BlockNo) : Stage → Block → Prop
  | .writeLog tail, d => d = content (blocks.getD tail 0)
  | .install _ tail, d => d = prev (blocks.getD tail 0)
  | .commitHead, d | .clearHead _, d => headBlocks d = blocks
  | _, _ => True

end Stage

variable {T : Type} [DecidableEq T]

namespace FileSys

/-- The part that the commit is in; at other times all is as before the commit. -/
def stage (s : FileSys T) : Stage :=
  match s.runner with
  | none => .commit
  | some r => r.stage

/-- The buffer has been changed and neither passed to `log_write` nor written. -/
def stale (s : FileSys T) (e : Env) (b : BufIdx) : Prop :=
  s.dirty b = true ∨ ∃ r g, s.runner = some r ∧ e.loaded = some g ∧ b = r.reg g

/-- Who is at work: nobody but clients, the commit, or the recovery. -/
def Duty (s : FileSys T) : Prop :=
  match s.runner with
  | none => s.ops.log.committing = false ∧ ∃ passed, s.ops.Ok passed
  | some r =>
    if r.stage.recovering then
      s.ops.ops = [] ∧ s.ops.log.outstanding = 0 ∧ s.ops.log.committing = false
    else s.ops.log.committing = true ∧ ∃ passed, s.ops.Ok passed

structure Inv (A : LogArea) (s : FileSys T) (e : Env) (content prev : BlockNo → Block) : Prop where
  coherent : Coherent A s.cache (s.stale e) content (s.stage.pending s.ops.log.blocks e.written)
  runner : ∀ r, s.runner = some r → r.Ok A s.cache s.dirty s.ops.log.blocks e
  goal : ∀ r g, s.runner = some r → e.loaded = some g →
    r.stage.Goal content prev s.ops.log.blocks (s.cache.bc.buf (r.reg g)).data
  fact : s.stage.Fact A s.ops.log.blocks s.cache.disk content prev e.written
  fits : A.Fits s.ops.log.blocks
  head : A.Fits (headBlocks (s.cache.disk A.start))
  durable : ∀ x, A.has x = false → recovered A s.cache.disk x = prev x
  duty : s.Duty

end FileSys

end Xv6.Fs
