import Xv6.Files.Content
import Xv6.Structures.Runs

set_option autoImplicit false

/-! # The offset of an open file

The threads of any processes that share one `struct file` of type `FD_INODE`, in `fileread` and
`filewrite`. The offset `f->off` belongs to the file, but the lock that protects it is the one of
the inode: it is passed to `readi` or `writei` and then raised, which are three accesses, between
`ilock` and `iunlock`. `filewrite` does this once for each chunk. The inode can be changed through
other files while its lock is free, and user memory at any time. -/

namespace Xv6.Files

open BitVec Function Option Structures

/-- The calls between `ilock` and `iunlock`: of `fileread`, or of a turn of `filewrite`'s loop. -/
inductive Io
  | read (addr : Nat) (n : Int)
  | chunk (addr : Nat) (n i n1 : Int)
deriving DecidableEq

inductive Pc
  | idle
  /-- The test of `filewrite`'s loop. -/
  | loop (addr : Nat) (n i : Int)
  | beginOp (addr : Nat) (n i n1 : Int)
  | ilock (k : Io)
  /-- `readi` or `writei`. -/
  | io (k : Io)
  /-- `f->off += r` before its load, and before its store. -/
  | load (k : Io) (r : Int)
  | store (k : Io) (r : Int) (v : BitVec 32)
  | iunlock (k : Io) (r : Int)
  | endOp (addr : Nat) (n i n1 r : Int)
  | ret (r : Int)
deriving DecidableEq

/-- The open file with its inode, the user memory `M` and the threads `T`. -/
structure Open (T M : Type) where
  readable : Bool
  writable : Bool
  off : BitVec 32
  content : List Byte
  lock : Option T
  mem : M
  pc : T → Pc

inductive Act (T M : Type)
  | fileread (t : T) (addr : Nat) (n : Int)
  | filewrite (t : T) (addr : Nat) (n : Int)
  | run (t : T)
  /-- User memory changes. -/
  | user (mem : M)
  /-- The inode is changed through another file. -/
  | other (c : List Byte)

def MAXOPBLOCKS : Nat := 10

/-- The longest chunk of `filewrite`. -/
def maxChunk : Int := ((MAXOPBLOCKS - 1 - 1 - 2) / 2 * BSIZE : Nat)

/-- The user memory of a thread: a copy says how much of it was done and whether all of it was. -/
structure Copies (T M : Type) where
  copyout : T → M → Nat → List Byte → M × Bool
  copyin : T → M → Nat → Nat → List Byte × Bool

variable {T M : Type} [DecidableEq T]

namespace Open

def at_ (s : Open T M) (t : T) (pc : Pc) : Open T M := { s with pc := update s.pc t pc }

/-- The `readi` or `writei` that the thread makes, and its result. -/
def doIo (u : Copies T M) (s : Open T M) (t : T) : Io → Open T M × Int
  | .read addr n =>
    let (mem, r) := readi (u.copyout t) s.content s.mem addr s.off.toNat (n % 2 ^ 32).toNat
    ({ s with mem := mem }, r)
  | .chunk addr _ i n1 =>
    let (c, r) := writei (u.copyin t s.mem) s.content (addr + i.toNat) s.off.toNat (n1 % 2 ^ 32).toNat
    ({ s with content := c }, r)

/-- The next step of a thread; `none` if it has to wait for the lock. -/
def run (u : Copies T M) (s : Open T M) (t : T) : Option (Open T M) :=
  match s.pc t with
  | .idle => none
  | .loop addr n i =>
    if i < n then some (s.at_ t (.beginOp addr n i (if n - i > maxChunk then maxChunk else n - i)))
    else some (s.at_ t (.ret (if i = n then n else -1)))
  | .beginOp addr n i n1 => some (s.at_ t (.ilock (.chunk addr n i n1)))
  | .ilock k => if s.lock = none then some { s.at_ t (.io k) with lock := some t } else none
  | .io k =>
    let (s, r) := s.doIo u t k
    some (s.at_ t (if r > 0 then .load k r else .iunlock k r))
  | .load k r => some (s.at_ t (.store k r (s.off + BitVec.ofInt 32 r)))
  | .store k r v => some { s.at_ t (.iunlock k r) with off := v }
  | .iunlock k r =>
    let pc := match k with
      | .read _ _ => .ret r
      | .chunk addr n i n1 => .endOp addr n i n1 r
    some { s.at_ t pc with lock := none }
  | .endOp addr n i n1 r =>
    -- an error from `writei` ends the loop
    if r ≠ n1 then some (s.at_ t (.ret (if i = n then n else -1)))
    else some (s.at_ t (.loop addr n (i + r)))
  | .ret _ => some (s.at_ t .idle)

def step (u : Copies T M) (s : Open T M) : Act T M → Option (Open T M)
  | .fileread t addr n =>
    if s.pc t = .idle then
      some (s.at_ t (if s.readable then .ilock (.read addr n) else .ret (-1)))
    else none
  | .filewrite t addr n =>
    if s.pc t = .idle then
      some (s.at_ t (if s.writable then .loop addr n 0 else .ret (-1)))
    else none
  | .run t => s.run u t
  | .user mem => some { s with mem := mem }
  | .other c => if s.lock = none then some { s with content := c } else none

end Open

/-- The ranges that the successful reads and chunk writes have used, as offset and length. -/
def noteRange (u : Copies T M) (s : Open T M) (a : Act T M) (h : List (Nat × Nat)) : List (Nat × Nat) :=
  match a with
  | .run t =>
    match s.pc t with
    | .io k =>
      let r := (s.doIo u t k).2
      if r > 0 then h ++ [(s.off.toNat, r.toNat)] else h
    | _ => h
  | _ => h

/-! ## Ranges one after the other -/

/-- The ranges follow each other from `a` to `b`. -/
def Consecutive : Nat → List (Nat × Nat) → Nat → Prop
  | a, [], b => a = b
  | a, (x, r) :: l, b => x = a ∧ 0 < r ∧ Consecutive (a + r) l b

variable {b n off : Nat} {l : List (Nat × Nat)} {c : List Byte}

theorem Consecutive.concat {a r : Nat} (h : Consecutive a l b) (hr : 0 < r) :
    Consecutive a (l ++ [(b, r)]) (b + r) := by
  induction l generalizing a with
  | nil =>
    obtain rfl : a = b := h
    exact ⟨rfl, hr, rfl⟩
  | cons p l ih => exact ⟨h.1, h.2.1, ih h.2.2⟩

theorem Consecutive.start_le {a : Nat} (h : Consecutive a l b) : ∀ p, p ∈ l → a ≤ p.1 := by
  induction l generalizing a with
  | nil => exact nofun
  | cons p l ih =>
    intro q hq
    rcases List.mem_cons.1 hq with rfl | hq
    · exact Nat.le_of_eq h.1.symm
    · have := ih h.2.2 q hq
      omega

theorem Consecutive.pairwise {a : Nat} (h : Consecutive a l b) : l.Pairwise fun p q => p.1 + p.2 ≤ q.1 := by
  induction l generalizing a with
  | nil => exact .nil
  | cons p l ih =>
    refine .cons (fun q hq => ?_) (ih h.2.2)
    have hx : p.1 = a := h.1
    exact hx ▸ h.2.2.start_le q hq

/-! ## The number of bytes -/

theorem readiFrom_tot {M : Type} (copyout : M → Nat → List Byte → M × Bool) (c : List Byte) (fuel : Nat)
    (mem : M) (dst off rest tot : Nat) :
    (readiFrom copyout c fuel mem dst off rest tot).2 = 2 ^ 32 - 1 ∨
      (readiFrom copyout c fuel mem dst off rest tot).2 ≤ tot + rest := by
  fun_induction readiFrom copyout c fuel mem dst off rest tot with
  | case1 => exact .inr (Nat.le_add_right _ _)
  | case2 => exact .inr (Nat.le_add_right _ _)
  | case3 fuel mem dst off rest tot =>
    have := piece_le off rest
    omega
  | case4 => exact .inl rfl

theorem writeiFrom_tot (copyin : Nat → Nat → List Byte × Bool) (fuel : Nat) (c : List Byte)
    (src off rest tot : Nat) : (writeiFrom copyin fuel c src off rest tot).2.2 ≤ tot + rest := by
  fun_induction writeiFrom copyin fuel c src off rest tot with
  | case3 fuel c src off rest tot =>
    have := piece_le off rest
    omega
  | _ => exact Nat.le_add_right _ _

theorem toInt_toNat (hn : n < 2 ^ 32) (h : 0 < toInt n) : (toInt n).toNat = n := by
  unfold toInt at h ⊢
  rw [toInt_eq_toNat_cond, toNat_ofNat, Nat.mod_eq_of_lt hn] at h ⊢
  split at h
  · next hlt =>
    rw [if_pos hlt]
    omega
  · omega

theorem sum_lt (hoff : off < 2 ^ 32) (hn : n < 2 ^ 32) (h : ¬ (off + n) % 2 ^ 32 < off) : off + n < 2 ^ 32 := by
  omega

theorem readi_range {M : Type} {copyout : M → Nat → List Byte → M × Bool} {mem : M}
    {dst : Nat} (hoff : off < 2 ^ 32) (hn : n < 2 ^ 32)
    (h : 0 < (readi copyout c mem dst off n).2) :
    off + (readi copyout c mem dst off n).2.toNat < 2 ^ 32 := by
  unfold readi at h ⊢
  split at h
  · exact absurd h (by simp)
  next hc =>
  rw [if_neg hc]
  have hsum := sum_lt hoff hn fun hlt => hc (.inr hlt)
  generalize hn' : (if off + n > c.length then c.length - off else n) = n' at h ⊢
  have hle : n' ≤ n := by
    rw [← hn']
    split <;> omega
  dsimp only at h ⊢
  rcases readiFrom_tot copyout c n' mem dst off n' 0 with htot | htot
  · rw [htot] at h
    exact absurd h (by decide)
  · rw [toInt_toNat (by omega) h]
    omega

theorem writei_range {copyin : Nat → Nat → List Byte × Bool} {src : Nat}
    (hoff : off < 2 ^ 32) (hn : n < 2 ^ 32) (h : 0 < (writei copyin c src off n).2) :
    off + (writei copyin c src off n).2.toNat < 2 ^ 32 := by
  unfold writei at h ⊢
  split at h
  · exact absurd h (by simp)
  next hc =>
  rw [if_neg hc]
  split at h
  · exact absurd h (by simp)
  next hc' =>
  rw [if_neg hc']
  have hsum := sum_lt hoff hn fun hlt => hc (.inr hlt)
  have htot := writeiFrom_tot copyin n c src off n 0
  generalize writeiFrom copyin n c src off n 0 = res at h htot ⊢
  obtain ⟨c', off', tot⟩ := res
  dsimp only at h htot ⊢
  rw [toInt_toNat (by omega) h]
  omega

theorem mod_lt_toNat (n : Int) : (n % 2 ^ 32).toNat < 2 ^ 32 := by omega

variable {u : Copies T M} {s s' : Open T M} {t : T} {k : Io}

omit [DecidableEq T] in
theorem Open.doIo_range (h : 0 < (s.doIo u t k).2) : s.off.toNat + (s.doIo u t k).2.toNat < 2 ^ 32 := by
  cases k with
  | read addr n =>
    change 0 < (readi (u.copyout t) s.content s.mem addr s.off.toNat (n % 2 ^ 32).toNat).2 at h
    exact readi_range s.off.isLt (mod_lt_toNat n) h
  | chunk addr n i n1 =>
    exact writei_range s.off.isLt (mod_lt_toNat n1) h

omit [DecidableEq T] in
theorem Open.doIo_kept : (s.doIo u t k).1.off = s.off ∧ (s.doIo u t k).1.lock = s.lock ∧
    (s.doIo u t k).1.pc = s.pc := by
  cases k with
  | read addr n | chunk addr n i n1 => exact ⟨rfl, rfl, rfl⟩

/-! ## The invariant -/

/-- Between `ilock` and `iunlock`. -/
def Pc.locked : Pc → Bool
  | .io _ | .load _ _ | .store _ _ _ | .iunlock _ _ => true
  | _ => false

/-- The offset, once the thread that is at `pc` has raised it. -/
def Pc.raised (off : BitVec 32) : Pc → BitVec 32
  | .load _ r => off + BitVec.ofInt 32 r
  | .store _ _ v => v
  | _ => off

/-- The offset, once the thread that has the lock has raised it. -/
def Open.reached (s : Open T M) : BitVec 32 :=
  match s.lock with
  | none => s.off
  | some t => (s.pc t).raised s.off

/-- The ranges go on from the first offset to the one that is reached. -/
structure Shares (s : Open T M) (start : Nat) (h : List (Nat × Nat)) : Prop where
  lock : ∀ t, (s.pc t).locked = true ↔ s.lock = some t
  ranges : Consecutive start h s.reached.toNat

variable {start : Nat} {h : List (Nat × Nat)} {a : Act T M}

omit [DecidableEq T] in
theorem Open.reached_eq (hlock : s.lock = some t) : s.reached = (s.pc t).raised s.off := by
  unfold Open.reached
  rw [hlock]

variable {pc : Pc}

section

variable (hs : Shares s start h)
include hs

theorem Shares.outside (hp : (s.pc t).locked = false)
    (hq : pc.locked = false) : Shares (s.at_ t pc) start h := by
  have hpcs : ∀ t', (s.at_ t pc).pc t' = if t' = t then pc else s.pc t' := fun _ => update_apply ..
  have hlock := hs.lock
  have hreach : (s.at_ t pc).reached = s.reached := by grind [Open.reached, Open.at_]
  exact ⟨by grind [Open.at_], hreach ▸ hs.ranges⟩

theorem Shares.inside {h' : List (Nat × Nat)} (pc : Pc) (hp : (s.pc t).locked = true)
    (hq : pc.locked = true) (hlock : s'.lock = s.lock) (hpc : s'.pc = update s.pc t pc)
    (hr : Consecutive start h' (pc.raised s'.off).toNat) : Shares s' start h' := by
  have hl := (hs.lock t).1 hp
  have hpcs : ∀ t', s'.pc t' = if t' = t then pc else s.pc t' := fun t' => by rw [hpc, update_apply]
  refine ⟨by grind [hs.lock], ?_⟩
  rw [Open.reached_eq (hlock.trans hl), hpc, update_self]
  exact hr

theorem Shares.take (hfree : s.lock = none) (hq : pc.locked = true)
    (hr : pc.raised s.off = s.off) : Shares { s.at_ t pc with lock := some t } start h := by
  have hpcs : ∀ t', (s.at_ t pc).pc t' = if t' = t then pc else s.pc t' := fun _ => update_apply ..
  have hreach : { s.at_ t pc with lock := some t }.reached = s.reached := by grind [Open.reached, Open.at_]
  exact ⟨by grind [hs.lock], hreach ▸ hs.ranges⟩

theorem Shares.drop (hp : (s.pc t).locked = true)
    (hq : pc.locked = false) (hr : (s.pc t).raised s.off = s.off) :
    Shares { s.at_ t pc with lock := none } start h := by
  have hpcs : ∀ t', (s.at_ t pc).pc t' = if t' = t then pc else s.pc t' := fun _ => update_apply ..
  have hl := (hs.lock t).1 hp
  have hreach : { s.at_ t pc with lock := none }.reached = s.reached := by grind [Open.reached, Open.at_]
  exact ⟨by grind [hs.lock], hreach ▸ hs.ranges⟩

end

theorem Shares.io (hs : Shares s start h) (hpc : s.pc t = .io k) : Shares ((s.doIo u t k).1.at_ t
        (if (s.doIo u t k).2 > 0 then .load k (s.doIo u t k).2 else .iunlock k (s.doIo u t k).2)) start
      (if (s.doIo u t k).2 > 0 then h ++ [(s.off.toNat, (s.doIo u t k).2.toNat)] else h) := by
  have hp : (s.pc t).locked = true := by rw [hpc]; rfl
  have hb := hs.ranges
  rw [Open.reached_eq ((hs.lock t).1 hp), hpc] at hb
  obtain ⟨hoff, hlock, hpcs⟩ := Open.doIo_kept (u := u) (s := s) (t := t) (k := k)
  have hrange := Open.doIo_range (u := u) (s := s) (t := t) (k := k)
  generalize s.doIo u t k = res at hoff hlock hpcs hrange ⊢
  obtain ⟨s', r⟩ := res
  have hmoves : ∀ pc, (s'.at_ t pc).pc = update s.pc t pc := fun pc => by
    rw [← show s'.pc = s.pc from hpcs]
    rfl
  by_cases hr : r > 0
  · rw [if_pos hr, if_pos hr]
    have hsum : (s.off + BitVec.ofInt 32 r).toNat = s.off.toNat + r.toNat := by
      have hlt := hrange hr
      obtain ⟨n, rfl⟩ := Int.eq_ofNat_of_zero_le (Int.le_of_lt hr)
      rw [ofInt_natCast, toNat_add, toNat_ofNat]
      simp only [Int.toNat_natCast] at hlt ⊢
      omega
    refine hs.inside (.load k r) hp rfl hlock (hmoves _) ?_
    change Consecutive start _ (s'.off + BitVec.ofInt 32 r).toNat
    rw [hoff, hsum]
    exact hb.concat (by omega)
  · rw [if_neg hr, if_neg hr]
    refine hs.inside (.iunlock k r) hp rfl hlock (hmoves _) ?_
    change Consecutive start _ s'.off.toNat
    rw [hoff]
    exact hb

theorem Shares.run (hs : Shares s start h) (hrun : s.run u t = some s') :
    Shares s' start (noteRange u s (.run t) h) := by
  unfold Open.run at hrun
  simp only [noteRange]
  cases hpc : s.pc t with rw [hpc] at hrun
  | idle => cases hrun
  | io k =>
    cases hrun
    exact hs.io hpc
  | loop addr n i | endOp addr n i n1 r =>
    dsimp only at hrun
    split at hrun <;> cases hrun <;> exact hs.outside (by rw [hpc]; rfl) rfl
  | beginOp addr n i n1 | ret r =>
    cases hrun
    exact hs.outside (by rw [hpc]; rfl) rfl
  | ilock k =>
    obtain ⟨hfree, ⟨⟩⟩ := ite_none_right_eq_some.1 hrun
    exact hs.take hfree rfl rfl
  | load k r | store k r v =>
    cases hrun
    have hp : (s.pc t).locked = true := by rw [hpc]; rfl
    have hb := hs.ranges
    rw [Open.reached_eq ((hs.lock t).1 hp), hpc] at hb
    exact hs.inside _ hp (by rfl) rfl rfl hb
  | iunlock k r =>
    cases hrun
    refine hs.drop (by rw [hpc]; rfl) ?_ (by rw [hpc]; rfl)
    cases k <;> rfl

theorem Shares.step (hs : Shares s start h) (hstep : s.step u a = some s') :
    Shares s' start (noteRange u s a h) := by
  cases a with
  | run t => exact hs.run hstep
  | fileread t addr n | filewrite t addr n =>
    obtain ⟨hidle, ⟨⟩⟩ := ite_none_right_eq_some.1 hstep
    exact hs.outside (by rw [hidle]; rfl) (by split <;> rfl)
  | user mem =>
    cases hstep
    exact ⟨hs.lock, hs.ranges⟩
  | other c =>
    obtain ⟨-, ⟨⟩⟩ := ite_none_right_eq_some.1 hstep
    exact ⟨hs.lock, hs.ranges⟩

/-- The file after `sys_open`, or at any time when no call is under way. -/
def Open.Idle (s : Open T M) : Prop := s.lock = none ∧ ∀ t, s.pc t = .idle

/-- **The threads that share an open file read and write one range after the other.** In every run
    of `fileread` and `filewrite` calls the ranges of the successful reads and chunk writes follow
    each other from the first offset on, so that they are disjoint and leave nothing out; and
    whenever the inode's lock is free the offset is where the last one ends. -/
theorem shared_offset {s₀ : Open T M} {tr : List (Act T M)} (hidle : s₀.Idle)
    (hrun : runs (Open.step u) s₀ tr = some s) :
    ∃ e, Consecutive s₀.off.toNat (history (Open.step u) (noteRange u) s₀ [] tr) e ∧
      (history (Open.step u) (noteRange u) s₀ [] tr).Pairwise (fun p q => p.1 + p.2 ≤ q.1) ∧
      (s.lock = none → s.off.toNat = e) := by
  have hinit : Shares s₀ s₀.off.toNat [] := by
    refine ⟨fun t => ?_, ?_⟩
    · rw [hidle.2 t, hidle.1]
      exact ⟨nofun, nofun⟩
    unfold Open.reached
    rw [hidle.1]
    rfl
  have hs := runs_invariant (fun s h => Shares s s₀.off.toNat h) hrun hinit fun _ _ _ _ hstep hs =>
    hs.step hstep
  refine ⟨_, hs.ranges, hs.ranges.pairwise, fun hfree => ?_⟩
  unfold Open.reached
  rw [hfree]

/-- Memory that takes everything and gives zeros. -/
def zeroCopies : Copies Bool Unit where
  copyout _ mem _ _ := (mem, true)
  copyin _ _ _ n := (List.replicate n 0, true)

/-- One thread writes four bytes and then another reads, twice, three bytes at a time. -/
def shareTwo : List (Act Bool Unit) :=
  List.flatten [[.filewrite true 0 4, .fileread false 0 3], List.replicate 9 (.run true),
    List.replicate 6 (.run false), [.fileread false 0 3], List.replicate 5 (.run false)]

def tenBytes : Open Bool Unit := ⟨true, true, 0, List.replicate 10 7, none, (), fun _ => .idle⟩

theorem shared_offset_two : tenBytes.Idle ∧
    history (Open.step zeroCopies) (noteRange zeroCopies) tenBytes [] shareTwo = [(0, 4), (4, 3), (7, 3)] ∧
    ∃ s, runs (Open.step zeroCopies) tenBytes shareTwo = some s ∧ ∃ e,
      Consecutive 0 (history (Open.step zeroCopies) (noteRange zeroCopies) tenBytes [] shareTwo) e ∧
      s.lock = none ∧ s.off.toNat = e := by
  have hidle : tenBytes.Idle := ⟨rfl, fun _ => rfl⟩
  have hlock : (runs (Open.step zeroCopies) tenBytes shareTwo).map (·.lock) = some none := by decide +kernel
  obtain ⟨s, hs, hfree⟩ := map_eq_some_iff.1 hlock
  obtain ⟨e, hcons, -, hoff⟩ := shared_offset hidle hs
  exact ⟨hidle, by decide +kernel, s, hs, e, hcons, hfree, hoff hfree⟩

end Xv6.Files
