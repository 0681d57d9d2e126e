import Xv6.Files.Content
import Xv6.Structures.Runs

set_option autoImplicit false

/-! # The table of inodes in memory

`iget`, `idup`, `ilock`, `iunlock`, `iput`, `ialloc` and `iupdate` of `fs.c`, by any number of
threads. What is done under `itable.lock`, or with the buffer of an inode block locked, is one step;
`iput` of the last reference to an inode without links gives `itable.lock` back while it frees the
inode, and its steps there are taken one by one.

The callers answer for this: a function is called with an inode to which the caller has a reference,
and the lock where the function needs it; and who has the lock keeps a reference and calls `iupdate`
after every change, before `iunlock`. References are counted in `refs`, whoever keeps them: a
thread, an open file or a process, which may pass them on. -/

namespace Xv6.Itable

open Function List Option Structures

/-- The entries. -/
abbrev NINODE : Nat := 50

/-- `struct dinode`, which is also what the table has of it. -/
structure Dinode where
  type : BitVec 16
  major : BitVec 16
  minor : BitVec 16
  nlink : BitVec 16
  size : BitVec 32
  addrs : Fin (Files.NDIRECT + 1) → BitVec 32
deriving DecidableEq

/-- An inode after `memset`. -/
def Dinode.zero : Dinode := ⟨0, 0, 0, 0, 0, fun _ => 0⟩

/-- Device and inode number. -/
abbrev Key : Type := BitVec 32 × BitVec 32

/-- `struct inode`; the sleep lock is given by the thread that has it. -/
structure Entry (T : Type) where
  key : Key
  ref : Nat
  lock : Option T
  valid : Bool
  din : Dinode

abbrev Slot : Type := Fin NINODE

/-- Where a thread is, if it is in the middle of a function. -/
inductive Pc
  | idle
  /-- `ilock` with the lock, before the inode is read from the disk. -/
  | load (e : Slot)
  /-- `iput` of the last reference to an inode without links: before `itrunc`, its `iupdate`, and so
      on. -/
  | trunc (e : Slot)
  | truncUpdate (e : Slot)
  | clear (e : Slot)
  | clearUpdate (e : Slot)
  | invalidate (e : Slot)
  | unlock (e : Slot)
  | drop (e : Slot)
  /-- The loop of `ialloc`, and its `iget`. -/
  | scan (dev : BitVec 32) (type : BitVec 16) (inum : BitVec 32)
  | get (k : Key)
deriving DecidableEq

structure State (T : Type) where
  table : Slot → Entry T
  /-- The inodes on the disk, as last logged. -/
  disk : Key → Dinode
  pc : T → Pc
  refs : List (T × Slot)

inductive Act (T : Type)
  | iget (t : T) (k : Key)
  | idup (t : T) (e : Slot)
  /-- A reference is passed on. -/
  | give (t t' : T) (e : Slot)
  | ilock (t : T) (e : Slot)
  /-- A change of the fields. -/
  | modify (t : T) (e : Slot) (din : Dinode)
  | iupdate (t : T) (e : Slot)
  | iunlock (t : T) (e : Slot)
  | iput (t : T) (e : Slot)
  | ialloc (t : T) (dev : BitVec 32) (type : BitVec 16)
  /-- The next step of a function. -/
  | run (t : T)

variable {T : Type} [DecidableEq T]

namespace State

variable (s : State T)

def at_ (t : T) (pc : Pc) : State T := { s with pc := Function.update s.pc t pc }

def set (e : Slot) (x : Entry T) : State T := { s with table := Function.update s.table e x }

/-- The number of references to an entry. -/
def count (e : Slot) : Nat := s.refs.countP fun r => decide (r.2 = e)

/-- The loop of `iget`: the entry of the inode, and the first empty one. -/
def find (k : Key) : Option Slot :=
  (List.finRange NINODE).find? fun e => decide (0 < (s.table e).ref ∧ (s.table e).key = k)

def empty : Option Slot :=
  (List.finRange NINODE).find? fun e => decide ((s.table e).ref = 0)

/-- One more reference to an entry, for `t`. -/
def addRef (t : T) (e : Slot) : State T :=
  { s.set e { s.table e with ref := (s.table e).ref + 1 } with refs := (t, e) :: s.refs }

/-- `iget`; `none` is the panic when the table is full. -/
def iget (t : T) (k : Key) : Option (State T) :=
  match s.find k with
  | some e => some (s.addRef t e)
  | none =>
    match s.empty with
    | some e =>
      some { s.set e { s.table e with key := k, ref := 1, valid := false } with
        refs := (t, e) :: s.refs }
    | none => none

/-- `ip->ref--`. -/
def dropRef (t : T) (e : Slot) : State T :=
  { s.set e { s.table e with ref := (s.table e).ref - 1 } with refs := s.refs.erase (t, e) }

/-- `iupdate`. -/
def update (e : Slot) : State T :=
  { s with disk := Function.update s.disk (s.table e).key (s.table e).din }

/-- The next step of a function; `none` is a panic. -/
def run (ninodes : Nat) (s : State T) (t : T) : Option (State T) :=
  match s.pc t with
  | .idle => none
  | .load e =>
    let din := s.disk (s.table e).key
    if din.type = 0 then none
    else some ((s.set e { s.table e with valid := true, din := din }).at_ t .idle)
  | .trunc e =>
    let din := { (s.table e).din with size := 0, addrs := fun _ => 0 }
    some ((s.set e { s.table e with din := din }).at_ t (.truncUpdate e))
  | .truncUpdate e => some ((s.update e).at_ t (.clear e))
  | .clear e =>
    let din := { (s.table e).din with type := 0 }
    some ((s.set e { s.table e with din := din }).at_ t (.clearUpdate e))
  | .clearUpdate e => some ((s.update e).at_ t (.invalidate e))
  | .invalidate e => some ((s.set e { s.table e with valid := false }).at_ t (.unlock e))
  | .unlock e => some ((s.set e { s.table e with lock := none }).at_ t (.drop e))
  | .drop e => some ((s.dropRef t e).at_ t .idle)
  | .scan dev type inum =>
    if inum.toNat < ninodes then
      if (s.disk (dev, inum)).type = 0 then
        some ({ s with
          disk := Function.update s.disk (dev, inum) { Dinode.zero with type := type } }.at_ t
          (.get (dev, inum)))
      else some (s.at_ t (.scan dev type (inum + 1)))
    else none
  | .get k => (s.at_ t .idle).iget t k

/-- A step of a thread, if it is possible. -/
def step (ninodes : Nat) (s : State T) : Act T → Option (State T)
  | .iget t k => if s.pc t = .idle then s.iget t k else none
  | .idup t e => if s.pc t = .idle then some (s.addRef t e) else none
  | .give t t' e =>
    if s.pc t = .idle then some { s with refs := (t', e) :: s.refs.erase (t, e) } else none
  | .ilock t e =>
    if s.pc t = .idle ∧ (s.table e).lock = none then
      some ((s.set e { s.table e with lock := some t }).at_ t
        (if (s.table e).valid then .idle else .load e))
    else none
  | .modify t e din =>
    if s.pc t = .idle then some (s.set e { s.table e with din := din }) else none
  | .iupdate t e => if s.pc t = .idle then some (s.update e) else none
  | .iunlock t e =>
    if s.pc t = .idle then some (s.set e { s.table e with lock := none }) else none
  | .iput t e =>
    if s.pc t = .idle then
      if (s.table e).ref = 1 ∧ (s.table e).valid = true ∧ (s.table e).din.nlink = 0 then
        -- `acquiresleep`
        if (s.table e).lock = none then
          some ((s.set e { s.table e with lock := some t }).at_ t (.trunc e))
        else none
      else some (s.dropRef t e)
    else none
  | .ialloc t dev type => if s.pc t = .idle then some (s.at_ t (.scan dev type 1)) else none
  | .run t => s.run ninodes t

end State

/-- Which entries have been changed since the last `iupdate`. -/
def note (_ : State T) (a : Act T) (changed : Slot → Bool) : Slot → Bool :=
  match a with
  | .modify _ e _ => Function.update changed e true
  | .iupdate _ e => Function.update changed e false
  | _ => changed

/-- What the callers answer for. -/
def promises (s : State T) (a : Act T) (changed : Slot → Bool) : Prop :=
  match a with
  | .iget _ _ | .run _ => True
  | .idup t e | .ilock t e => (t, e) ∈ s.refs
  -- who has the lock keeps a reference
  | .give t _ e | .iput t e =>
    (t, e) ∈ s.refs ∧ ((s.table e).lock = some t → 1 < s.refs.count (t, e))
  | .modify t e din => (s.table e).lock = some t ∧ din.type ≠ 0
  | .iupdate t e => (s.table e).lock = some t
  | .iunlock t e => (s.table e).lock = some t ∧ changed e = false
  | .ialloc _ _ type => type ≠ 0

instance promises.decidable (s : State T) (a : Act T) (changed : Slot → Bool) :
    Decidable (promises s a changed) := by
  cases a <;> dsimp only [promises] <;> infer_instance

/-! ## The invariant -/

/-- The entry whose lock the thread has where it is. -/
def Pc.locks : Pc → Option Slot
  | .load e | .trunc e | .truncUpdate e | .clear e | .clearUpdate e | .invalidate e | .unlock e => some e
  | _ => none

/-- Where the thread that has the lock of an entry is, if it is in a function on that entry. -/
def State.stage (s : State T) (e : Slot) : Pc :=
  match (s.table e).lock with
  | some t => if (s.pc t).locks = some e then s.pc t else .idle
  | none => .idle

/-- What holds of an entry with references, for the inode `d` on the disk: it is valid from the end
    of `ilock` to the end of `iput`, it has a type until `iput` clears it, the inode on the disk has
    one until `iput` writes it back, and the two are the same unless a change is still to be
    written. -/
structure Entry.Fits (e : Slot) (x : Entry T) (d : Dinode) (st : Pc) (changed : Bool) : Prop where
  unread : st = .load e ∨ st = .unlock e → x.valid = false
  onDisk : x.valid = true → st ≠ .invalidate e → d.type ≠ 0
  typed : x.valid = true → st ≠ .clearUpdate e → st ≠ .invalidate e → x.din.type ≠ 0
  same : x.valid = true → changed = false → st = .idle → x.din = d
  changed : changed = true → x.lock ≠ none ∧ st = .idle

structure Ok (s : State T) (ch : Slot → Bool) : Prop where
  refs : ∀ e, (s.table e).ref = s.count e
  unique : ∀ e e', 0 < (s.table e).ref → 0 < (s.table e').ref →
    (s.table e).key = (s.table e').key → e = e'
  holder : ∀ e t, (s.table e).lock = some t → (t, e) ∈ s.refs
  locks : ∀ t e, (s.pc t).locks = some e → (s.table e).lock = some t
  drops : ∀ t e, s.pc t = .drop e → (t, e) ∈ s.refs ∧ (s.table e).lock ≠ some t
  types : ∀ t dev type inum, s.pc t = .scan dev type inum → type ≠ 0
  clean : ∀ e, (s.table e).ref = 0 → ch e = false
  fits : ∀ e, 0 < (s.table e).ref → (s.table e).Fits e (s.disk (s.table e).key) (s.stage e) (ch e)

variable {s s' : State T} {t t' : T} {e e' : Slot} {k : Key} {ninodes : Nat} {ch : Slot → Bool}

variable {pc : Pc} {disk : Key → Dinode} {x : Entry T} {din : Dinode} {a : Act T}

attribute [local grind] Pc.locks State.stage State.count Entry.Fits

section

omit [DecidableEq T]

theorem Ok.ref_pos (hs : Ok s ch) (h : (t, e) ∈ s.refs) : 0 < (s.table e).ref := by
  rw [hs.refs]
  exact countP_pos_iff.2 ⟨_, h, by simp⟩

/-- A step in which only references come or go, and a thread that has no lock where it is may move
    on. -/
theorem Ok.recount {n : Slot → Nat} (hs : Ok s ch)
    (htable : ∀ e, s'.table e = { s.table e with ref := n e })
    (hrefs : ∀ e, n e = s'.count e) (hpos : ∀ e, 0 < n e → 0 < (s.table e).ref)
    (hdisk : s'.disk = s.disk)
    (hpc : ∀ t, s'.pc t = s.pc t ∨ (s.pc t).locks = none ∧ (s'.pc t).locks = none ∧
    (∀ e, s'.pc t ≠ .drop e) ∧
      ∀ dev type inum, s'.pc t = .scan dev type inum → type ≠ 0)
    (hkeep : ∀ t e, (s.table e).lock = some t ∨ s'.pc t = .drop e → (t, e) ∈ s'.refs) :
    Ok s' ch := by
  have hstage : ∀ e, s'.stage e = s.stage e := by grind
  refine ⟨?_, ?_, ?_, ?_, fun t e h => ?_, ?_, fun e hzero => ?_, fun e hr => ?_⟩
  · grind
  · grind [hs.unique]
  · grind
  · grind [hs.locks]
  · have := hs.drops t e
    grind
  · grind [hs.types]
  · -- who has changed an entry has its lock, and so a reference
    have hf := hs.fits e
    have hc := hs.clean e
    have hmem := hkeep
    have hcount : s'.count e = 0 := by grind
    have hnone : ∀ t, (t, e) ∉ s'.refs := fun t hm => by
      have := countP_eq_zero.1 hcount _ hm
      simp at this
    cases hl : (s.table e).lock with
    | none => grind
    | some t => exact absurd (hkeep t e (.inl hl)) (hnone t)
  · have hf := hs.fits e (hpos e (by grind))
    rw [hstage, hdisk, htable e]
    exact ⟨hf.unread, hf.onDisk, hf.typed, hf.same, hf.changed⟩

theorem set_ref (s : State T) (e e' : Slot) (n : Nat) :
    (s.set e { s.table e with ref := n }).table e' =
    { s.table e' with ref := if e' = e then n else (s.table e').ref } := by
  simp only [State.set, update_apply]
  split <;> simp_all

theorem key_update {table : Slot → Entry T} (hx : x.key = (table e).key) (e' : Slot) :
    (update table e x e').key = (table e').key := by
  by_cases he : e' = e
  · rw [he, update_self, hx]
  · rw [update_of_ne he]

theorem find_some (h : s.find k = some e) : 0 < (s.table e).ref ∧ (s.table e).key = k := by
  have := find?_some h
  simpa using this

theorem find_none (h : s.find k = none) (e : Slot) (hpos : 0 < (s.table e).ref) :
    (s.table e).key ≠ k :=
  fun hk => of_decide_eq_false (Bool.eq_false_iff.2 (find?_eq_none.1 h e (mem_finRange e)))
    ⟨hpos, hk⟩

theorem empty_some (h : s.empty = some e) : (s.table e).ref = 0 := by
  have := find?_some h
  simpa using this

theorem Ok.addRef (hs : Ok s ch) (hpos : 0 < (s.table e).ref) : Ok (s.addRef t e) ch := by
  refine hs.recount (set_ref s e · _) (fun e' => ?_) (by grind) rfl
    (fun _ => .inl rfl) fun t' e' h => ?_
  · have := hs.refs e'
    grind [State.addRef]
  · exact mem_cons_of_mem _ (h.elim (hs.holder e' t') fun h => (hs.drops t' e' h).1)

/-- An entry without references becomes that of an inode which has none. -/
theorem Ok.recycle (hs : Ok s ch) (hzero : (s.table e).ref = 0)
    (hnone : ∀ e', 0 < (s.table e').ref → (s.table e').key ≠ k)
    (htable : ∀ e', s'.table e' =
      if e' = e then { s.table e with key := k, ref := 1, valid := false } else s.table e')
    (hrefs : s'.refs = (t, e) :: s.refs) (hpc : s'.pc = s.pc) (hdisk : s'.disk = s.disk) :
    Ok s' ch := by
  have hfree : (s.table e).lock = none := by
    cases hl : (s.table e).lock with
    | none => rfl
    | some t' =>
      have := hs.ref_pos (hs.holder e t' hl)
      omega
  have hstage : ∀ e', s'.stage e' = s.stage e' := by grind
  refine ⟨fun e' => ?_, ?_, ?_, ?_, fun t' e' h => ?_, hpc ▸ hs.types, ?_, fun e' hr => ?_⟩
  · have := hs.refs e'
    grind
  · grind [hs.unique]
  · grind [hs.holder]
  · grind [hs.locks]
  · have := hs.drops t' e'
    grind
  · grind [hs.clean]
  · have hf := hs.fits e'
    have hc := hs.clean e
    by_cases he : e' = e
    · constructor <;> grind
    · grind

theorem Ok.iget (hs : Ok s ch) (h : s.iget t k = some s') : Ok s' ch := by
  unfold State.iget at h
  split at h
  · next e hfind =>
    cases h
    exact hs.addRef (find_some hfind).1
  next hfind =>
  split at h
  · next e hempty =>
    cases h
    exact hs.recycle (empty_some hempty) (find_none hfind) (update_apply _ _ _) rfl rfl rfl
  · cases h

/-- `ialloc` takes an inode that is free on the disk: no entry in use has it, unless it is about to
    be marked as not read. -/
theorem Ok.alloc (hs : Ok s ch) (hfree : (s.disk k).type = 0) (htype : din.type ≠ 0) :
    Ok { s with disk := update s.disk k din } ch := by
  refine ⟨hs.refs, hs.unique, hs.holder, hs.locks, hs.drops, hs.types, hs.clean, fun e hr => ?_⟩
  have hf := hs.fits e hr
  change (s.table e).Fits e (update s.disk k din (s.table e).key) (s.stage e) (ch e)
  by_cases hk : (s.table e).key = k
  · rw [hk] at hf ⊢
    rw [update_self]
    exact ⟨hf.unread, fun _ _ => htype, hf.typed,
      fun hv _ hst => absurd hfree (hf.onDisk hv (by simp [hst])), hf.changed⟩
  · rw [update_of_ne hk]
    exact hf

theorem iget_key (h : s.iget t k = some s') (hpos : 0 < (s.table e).ref) :
    (s'.table e).key = (s.table e).key := by
  unfold State.iget at h
  split at h
  · cases h
    exact key_update (by rfl) e
  split at h
  · next e' hempty =>
    cases h
    have hne : e ≠ e' := by
      rintro rfl
      have := empty_some hempty
      omega
    exact congrArg Entry.key (update_of_ne hne ..)
  · cases h

end

/-- A step in which a thread works on an entry whose lock it has, takes or gives back. -/
theorem Ok.own {ch' : Slot → Bool} (hs : Ok s ch) (hmem : (t, e) ∈ s.refs)
    (htable : ∀ e', s'.table e' = if e' = e then x else s.table e')
    (hpcs : ∀ t', s'.pc t' = if t' = t then pc else s.pc t') (hrefs : s'.refs = s.refs)
    (hdisk : ∀ k, k ≠ (s.table e).key → s'.disk k = s.disk k) (hch : ∀ e', e' ≠ e → ch' e' = ch e')
    (hx : x = { s.table e with lock := x.lock, valid := x.valid, din := x.din })
    (hlock : (s.table e).lock = none ∨ (s.table e).lock = some t)
    (hxlock : x.lock = none ∨ x.lock = some t)
    (hin : (s.pc t).locks = none ∨ (s.pc t).locks = some e)
    (hpc : pc.locks = some e ∧ x.lock = some t ∨ pc = .drop e ∧ x.lock = none ∨ pc = .idle)
    (hfits : x.Fits e (s'.disk x.key) (if pc.locks = some e then pc else .idle) (ch' e)) :
    Ok s' ch' := by
  have hpos := hs.ref_pos hmem
  have hkeys : ∀ e', (s'.table e').ref = (s.table e').ref ∧
    (s'.table e').key = (s.table e').key := by grind -ring -linarith -order
  have hstage : s'.stage e = if pc.locks = some e then pc else .idle := by
    grind -ring -linarith -order [hs.locks]
  -- the other entries are as before, and so is what their holders do with them
  have hother : ∀ e', e' ≠ e → s'.stage e' = s.stage e' := by grind -ring -linarith -order
  refine ⟨?_, ?_, ?_, ?_, ?_, ?_, ?_, fun e' hr => ?_⟩
  · grind -ring -linarith -order [hs.refs]
  · grind -ring -linarith -order [hs.unique]
  · grind -ring -linarith -order [hs.holder]
  · grind -ring -linarith -order [hs.locks]
  · grind -ring -linarith -order [hs.drops]
  · grind -ring -linarith -order [hs.types]
  · grind -ring -linarith -order [hs.clean]
  · have hf := hs.fits e'
    have huniq := hs.unique e' e
    grind -ring -linarith -order

/-- The reference that goes is not the one that a lock rests on. -/
theorem Ok.dropRef (hs : Ok s ch) (hmem : (t, e) ∈ s.refs)
    (hlock : (s.table e).lock = some t → 1 < s.refs.count (t, e))
    (hpc : s.pc t = .idle ∨ s.pc t = .drop e) : Ok ((s.dropRef t e).at_ t .idle) ch := by
  have hpcs : ∀ t', ((s.dropRef t e).at_ t .idle).pc t' = if t' = t then .idle else s.pc t' :=
    fun _ => update_apply ..
  refine hs.recount (set_ref s e · _) (fun e' => ?_) (fun e' => ?_) rfl (by grind) fun t' e' h => ?_
  · have hcount := hs.refs e'
    rw [State.count, (perm_cons_erase hmem).countP_eq, countP_cons] at hcount
    grind [State.dropRef, State.at_]
  · have := hs.ref_pos hmem
    grind
  · change (t', e') ∈ s.refs.erase (t, e)
    have hholder := hs.holder e' t'
    have hdrops := hs.drops t' e'
    grind [count_pos_iff, count_erase_self]

theorem Ok.give (hs : Ok s ch) (hmem : (t, e) ∈ s.refs)
    (hlock : (s.table e).lock = some t → 1 < s.refs.count (t, e))
    (hidle : s.pc t = .idle) : Ok { s with refs := (t', e) :: s.refs.erase (t, e) } ch := by
  refine hs.recount (fun _ => rfl) (fun e' => ?_) (fun _ h => h) rfl
    (fun _ => .inl rfl) fun t'' e' h => ?_
  · have hcount := hs.refs e'
    rw [State.count, (perm_cons_erase hmem).countP_eq, countP_cons] at hcount
    rw [hcount, State.count, countP_cons]
  · change (t'', e') ∈ (t', e) :: s.refs.erase (t, e)
    have hholder := hs.holder e' t''
    have hdrops := hs.drops t'' e'
    grind [count_pos_iff, count_erase_self]

/-- A thread that has no lock where it is moves on. -/
theorem Ok.move (hs : Ok s ch) (hold : (s.pc t).locks = none) (hnew : pc.locks = none)
    (hdrop : ∀ e, pc ≠ .drop e)
    (htype : ∀ dev type inum, pc = .scan dev type inum → type ≠ 0) : Ok (s.at_ t pc) ch := by
  have hpcs : ∀ t', (s.at_ t pc).pc t' = if t' = t then pc else s.pc t' := fun _ => update_apply ..
  refine hs.recount (fun _ => rfl) hs.refs (fun _ h => h) rfl (by grind) fun t' e h => ?_
  have hdrops := hs.drops t' e
  have hholder := hs.holder e t'
  change (t', e) ∈ s.refs
  grind

section

variable {old : Pc} (hs : Ok s ch) (hold : s.pc t = old) (hl : old.locks = some e)
include hs hold hl

/-- A step inside a function on an entry whose lock the thread has. -/
theorem Ok.inside (htable : ∀ e', s'.table e' = if e' = e then x else s.table e')
    (hpcs : s'.pc = update s.pc t pc)
    (hrefs : s'.refs = s.refs) (hdisk : ∀ k, k ≠ (s.table e).key → s'.disk k = s.disk k)
    (hx : x = { s.table e with valid := x.valid, din := x.din })
    (hpc : pc.locks = some e ∨ pc = .idle)
    (hfits : (s.table e).Fits e (s.disk (s.table e).key) old (ch e) →
      x.Fits e (s'.disk (s.table e).key) pc (ch e)) : Ok s' ch := by
  subst hold
  have hlk := hs.locks t e hl
  have hmem := hs.holder e t hlk
  have hstage : s.stage e = s.pc t := by grind
  refine hs.own hmem htable (fun t' => by rw [hpcs, update_apply]) hrefs hdisk (fun _ _ => rfl)
    (by rw [hx]) (.inr hlk)
    (.inr (by rw [hx]; exact hlk)) (.inr hl) (by grind) ?_
  have hf := hfits (hstage ▸ hs.fits e (hs.ref_pos hmem))
  have hkey : x.key = (s.table e).key := by rw [hx]
  grind

theorem Ok.sets {v : Bool} (hpc : pc.locks = some e ∨ pc = .idle)
    (hfits : (s.table e).Fits e (s.disk (s.table e).key) old (ch e) →
      { s.table e with valid := v, din := din }.Fits e (s.disk (s.table e).key) pc (ch e)) :
    Ok ((s.set e { s.table e with valid := v, din := din }).at_ t pc) ch :=
  hs.inside hold hl (update_apply _ _ _) rfl rfl (fun _ _ => rfl) rfl hpc hfits

theorem Ok.writes (hpc : pc.locks = some e)
    (hfits : (s.table e).Fits e (s.disk (s.table e).key) old (ch e) →
    (s.table e).Fits e (s.table e).din pc (ch e)) :
    Ok ((s.update e).at_ t pc) ch := by
  refine hs.inside (x := s.table e) hold hl (fun e' => ?_) rfl rfl (fun _ hk =>
    update_of_ne hk ..) rfl (.inl hpc) fun hf => ?_
  · change s.table e' = if e' = e then s.table e else s.table e'
    grind
  · change (s.table e).Fits e (update s.disk _ _ _) pc (ch e)
    rw [update_self]
    exact hfits hf

end

theorem Ok.run (hs : Ok s ch) (h : s.run ninodes t = some s') : Ok s' ch := by
  unfold State.run at h
  generalize hpc : s.pc t = pc at h
  cases pc with
  | idle => cases h
  | load e =>
    obtain ⟨htype, ⟨⟩⟩ := ite_none_left_eq_some.1 h
    exact hs.sets hpc rfl (.inr rfl) fun hf => by constructor <;> grind -ring -linarith -order
  | trunc e | clear e | invalidate e =>
    cases h
    exact hs.sets hpc rfl (.inl rfl) fun hf => by constructor <;> grind -ring -linarith -order
  | truncUpdate e | clearUpdate e =>
    cases h
    exact hs.writes hpc rfl rfl fun hf => by constructor <;> grind -ring -linarith -order
  | unlock e =>
    cases h
    have hl : (s.pc t).locks = some e := by rw [hpc]; rfl
    have hlk := hs.locks t e hl
    have hmem := hs.holder e t hlk
    have hf := hs.fits e (hs.ref_pos hmem)
    have hstage : s.stage e = .unlock e := by grind -ring -linarith -order
    refine hs.own hmem (update_apply _ _ _) (update_apply _ _ _) rfl (fun _ _ => rfl)
      (fun _ _ => rfl) rfl (.inr hlk)
      (.inl rfl) (.inr hl) (.inr (.inl ⟨rfl, rfl⟩)) ?_
    constructor <;> grind -ring -linarith -order
  | drop e =>
    cases h
    obtain ⟨hmem, hlock⟩ := hs.drops t e hpc
    exact hs.dropRef hmem (fun h => absurd h hlock) (.inr hpc)
  | scan dev type inum =>
    have hlocks : (s.pc t).locks = none := by rw [hpc]; rfl
    have htype := hs.types t dev type inum hpc
    obtain ⟨-, h⟩ := ite_none_right_eq_some.1 h
    split at h
    · next hfree =>
      cases h
      have hok : Ok { s with
          disk := update s.disk (dev, inum) { Dinode.zero with type := type } } ch :=
        hs.alloc hfree htype
      exact hok.move hlocks rfl (by simp) (by simp)
    · cases h
      exact hs.move hlocks rfl (by simp) (by rintro _ _ _ ⟨⟩; exact htype)
  | get k =>
    have hlocks : (s.pc t).locks = none := by rw [hpc]; rfl
    exact (hs.move hlocks rfl (by simp) (by simp)).iget h

section

variable (hs : Ok s ch) (hidle : s.pc t = .idle)
include hs hidle

theorem Ok.takes (hmem : (t, e) ∈ s.refs) (hfree : (s.table e).lock = none)
    (hpc : pc = .trunc e ∨ pc = if (s.table e).valid then .idle else .load e) :
    Ok ((s.set e { s.table e with lock := some t }).at_ t pc) ch := by
  have hf := hs.fits e (hs.ref_pos hmem)
  have hstage : s.stage e = .idle := by grind -ring -linarith -order
  refine hs.own hmem (update_apply _ _ _) (update_apply _ _ _) rfl (fun _ _ => rfl)
    (fun _ _ => rfl) rfl (.inl hfree)
    (.inr rfl) (by grind -ring -linarith -order) (by grind -ring -linarith) ?_
  constructor <;> grind -ring -linarith -order [State.at_, State.set]

/-- The thread that has the lock, and is not in a function, changes the entry, the disk or what is
    noted. -/
theorem Ok.owner {ch' : Slot → Bool} (hlk : (s.table e).lock = some t)
    (htable : ∀ e', s'.table e' = if e' = e then x else s.table e') (hpcs : s'.pc = s.pc)
    (hrefs : s'.refs = s.refs)
    (hdisk : ∀ k, k ≠ (s.table e).key → s'.disk k = s.disk k) (hch : ∀ e', e' ≠ e → ch' e' = ch e')
    (hx : x = { s.table e with lock := x.lock, valid := x.valid, din := x.din })
    (hxlock : x.lock = none ∨ x.lock = some t)
    (hfits : (s.table e).Fits e (s.disk (s.table e).key) .idle (ch e) →
      x.Fits e (s'.disk (s.table e).key) .idle (ch' e)) : Ok s' ch' := by
  have hmem := hs.holder e t hlk
  have hstage : s.stage e = .idle := by grind
  have hmoved : ∀ t', s'.pc t' = if t' = t then .idle else s.pc t' := by grind
  refine hs.own hmem htable hmoved hrefs hdisk hch (by rw [hx]) (.inr hlk) hxlock (by grind)
    (.inr (.inr rfl)) ?_
  have hkey : x.key = (s.table e).key := by rw [hx]
  have hf := hfits (hstage ▸ hs.fits e (hs.ref_pos hmem))
  grind

end

theorem Ok.step (hs : Ok s ch) (hp : promises s a ch) (h : s.step ninodes a = some s') :
    Ok s' (note s a ch) := by
  cases a with
  | run t => exact hs.run h
  | iget t k =>
    simp only [State.step] at h
    split at h
    · exact hs.iget h
    · cases h
  | idup t e =>
    obtain ⟨-, ⟨⟩⟩ := ite_none_right_eq_some.1 h
    exact hs.addRef (hs.ref_pos hp)
  | give t t' e =>
    obtain ⟨hidle, ⟨⟩⟩ := ite_none_right_eq_some.1 h
    exact hs.give hp.1 hp.2 hidle
  | ilock t e =>
    obtain ⟨⟨hidle, hfree⟩, ⟨⟩⟩ := ite_none_right_eq_some.1 h
    exact hs.takes hidle hp hfree (.inr rfl)
  | modify t e din =>
    obtain ⟨hidle, ⟨⟩⟩ := ite_none_right_eq_some.1 h
    refine hs.owner hidle hp.1 (update_apply _ _ _) rfl rfl (fun _ _ => rfl)
      (fun _ he => update_of_ne he ..) rfl
      (.inr hp.1) fun hf => ?_
    have hnote : note s (.modify t e din) ch e = true := update_self ..
    rw [hnote]
    exact ⟨by simp, hf.onDisk, fun _ _ _ => hp.2, by simp, fun _ => ⟨by simp [hp.1], rfl⟩⟩
  | iupdate t e =>
    obtain ⟨hidle, ⟨⟩⟩ := ite_none_right_eq_some.1 h
    refine hs.owner (x := s.table e) hidle hp (fun e' => ?_) rfl rfl
      (fun _ hk => update_of_ne hk ..)
      (fun _ he => update_of_ne he ..) rfl (.inr hp) fun hf => ?_
    · change s.table e' = if e' = e then s.table e else s.table e'
      grind
    · change (s.table e).Fits e (update s.disk _ _ _) _ (update ch e false e)
      rw [update_self, update_self]
      constructor <;> grind
  | iunlock t e =>
    obtain ⟨hidle, ⟨⟩⟩ := ite_none_right_eq_some.1 h
    refine hs.owner hidle hp.1 (update_apply _ _ _) rfl rfl (fun _ _ => rfl) (fun _ _ => rfl) rfl
      (.inl rfl) fun hf => ?_
    exact ⟨by simp, hf.onDisk, hf.typed, hf.same, fun hc => nomatch hc.symm.trans hp.2⟩
  | iput t e =>
    obtain ⟨hidle, h⟩ := ite_none_right_eq_some.1 h
    split at h
    · obtain ⟨hfree, ⟨⟩⟩ := ite_none_right_eq_some.1 h
      exact hs.takes hidle hp.1 hfree (.inl rfl)
    cases h
    have hpc : (s.dropRef t e).at_ t .idle = s.dropRef t e := by
      rw [State.at_, update_eq_self_iff.2 hidle.symm]
    exact hpc ▸ hs.dropRef hp.1 hp.2 (.inl hidle)
  | ialloc t dev type =>
    obtain ⟨hidle, ⟨⟩⟩ := ite_none_right_eq_some.1 h
    have hlocks : (s.pc t).locks = none := by rw [hidle]; rfl
    exact hs.move hlocks rfl (by simp) (by rintro _ _ _ ⟨⟩; exact hp)

/-! ## Runs -/

theorem run_key (h : s.run ninodes t = some s') (hpos : 0 < (s.table e).ref) :
    (s'.table e).key = (s.table e).key := by
  unfold State.run at h
  generalize s.pc t = pc at h
  cases pc with
  | idle => cases h
  | load e' =>
    obtain ⟨-, ⟨⟩⟩ := ite_none_left_eq_some.1 h
    exact key_update (by rfl) e
  | trunc e' | clear e' | invalidate e' | unlock e' | drop e' =>
    cases h
    exact key_update (by rfl) e
  | truncUpdate e' | clearUpdate e' =>
    cases h
    rfl
  | scan dev type inum =>
    obtain ⟨-, h⟩ := ite_none_right_eq_some.1 h
    split at h <;> cases h <;> rfl
  | get k =>
    have hpos' : 0 < ((s.at_ t .idle).table e).ref := hpos
    have hkey := iget_key h hpos'
    exact hkey

theorem step_key (h : s.step ninodes a = some s') (hpos : 0 < (s.table e).ref) :
    (s'.table e).key = (s.table e).key := by
  cases a with
  | run t => exact run_key h hpos
  | iget t k =>
    simp only [State.step] at h
    split at h
    · exact iget_key h hpos
    · cases h
  | idup t e' | ilock t e' | modify t e' din | iunlock t e' =>
    obtain ⟨-, ⟨⟩⟩ := ite_none_right_eq_some.1 h
    exact key_update (by rfl) e
  | give t t' e' | iupdate t e' | ialloc t dev type =>
    obtain ⟨-, ⟨⟩⟩ := ite_none_right_eq_some.1 h
    rfl
  | iput t e' =>
    simp only [State.step] at h
    split at h
    · split at h
      · obtain ⟨-, ⟨⟩⟩ := ite_none_right_eq_some.1 h
        exact key_update (by rfl) e
      · cases h
        exact key_update (by rfl) e
    · cases h

/-- After `iinit`, with any inodes on the disk. -/
def State.start (disk : Key → Dinode) : State T where
  table := fun _ => ⟨(0, 0), 0, none, false, .zero⟩
  disk := disk
  pc := fun _ => .idle
  refs := []

omit [DecidableEq T] in
theorem Ok.start (disk : Key → Dinode) : Ok (State.start disk : State T) fun _ => false :=
  ⟨fun _ => rfl, nofun, nofun, nofun, nofun, nofun, fun _ _ => rfl, nofun⟩

/-- **The table in any run whose callers keep their promises.** At most one entry with references is
    for an inode; `ref` is the number of references; no step gives an entry with references to
    another inode; and an entry with references that is valid and not locked is as on the disk. -/
theorem itable_runs {disk : Key → Dinode} {tr : List (Act T)}
    (hp : Along (State.step ninodes) note promises (State.start disk) (fun _ => false) tr)
    (hrun : runs (State.step ninodes) (State.start disk) tr = some s) :
    (∀ e e', 0 < (s.table e).ref → 0 < (s.table e').ref →
      (s.table e).key = (s.table e').key → e = e') ∧
    (∀ e, (s.table e).ref = s.count e) ∧
    (∀ a s', s.step ninodes a = some s' → ∀ e, 0 < (s.table e).ref →
      (s'.table e).key = (s.table e).key) ∧
    (∀ e, 0 < (s.table e).ref → (s.table e).lock = none → (s.table e).valid = true →
      (s.table e).din = s.disk (s.table e).key) := by
  have hs := hp.invariant Ok hrun (.start disk) fun _ _ _ _ h hp hs => hs.step hp h
  refine ⟨hs.unique, hs.refs, fun a s' h e hpos => step_key h hpos, fun e hpos hl hv => ?_⟩
  have hf := hs.fits e hpos
  have hstage : s.stage e = .idle := by rw [State.stage, hl]
  refine hf.same hv (Bool.eq_false_iff.2 fun hc => (hf.changed hc).1 hl) hstage

/-- A disk full of files with one link. -/
def files : Key → Dinode := fun _ => { Dinode.zero with type := 2, nlink := 1 }

/-- A thread drops a second reference to inode 1 while it has the lock, as `dirlink` does on `.`,
    and takes the last link and the last reference from it; while it frees the inode, another takes
    it again. -/
def takenAgain : List (Act Bool) :=
  List.flatten [[.iget true (1, 1), .ilock true 0, .run true, .iget true (1, 1), .iput true 0,
    .modify true 0 { files (1, 1) with nlink := 0 }, .iupdate true 0, .iunlock true 0,
      .iput true 0],
    List.replicate 4 (.run true), [.ialloc false 1 2, .run false, .run false],
    List.replicate 3 (.run true), [.ilock false 0, .run false, .iunlock false 0]]

theorem itable_runs_taken : ∃ s, runs (State.step 200) (State.start files) takenAgain = some s ∧
    (s.table 0).ref = 1 ∧ s.count 0 = 1 ∧ (s.table 0).valid = true ∧
    (s.table 0).din = s.disk (s.table 0).key := by
  have hp : Along (State.step 200) note promises (State.start files)
    (fun _ => false) takenAgain := by decide +kernel
  have hentry : (runs (State.step 200) (State.start files) takenAgain).map
      (fun s => ((s.table 0).ref, (s.table 0).lock, (s.table 0).valid)) =
        some (1, none, true) := by decide +kernel
  obtain ⟨s, hs, heq⟩ := map_eq_some_iff.1 hentry
  obtain ⟨href, hrest⟩ := Prod.mk.inj heq
  obtain ⟨hlock, hvalid⟩ := Prod.mk.inj hrest
  obtain ⟨-, hrefs, -, hsame⟩ := itable_runs hp hs
  exact ⟨s, hs, href, by rw [← hrefs, href], hvalid, hsame 0 (by omega) hlock hvalid⟩

/-- An inode is read into entry 1 and given up, and changed later through entry 0. -/
def leftBehind : List (Act Unit) :=
  [.iget () (1, 1), .iget () (1, 2), .ilock () 1, .run (), .iunlock () 1, .iput () 1, .iput () 0,
    .iget () (1, 2), .ilock () 0, .run (), .modify () 0 { files (1, 2) with nlink := 2 },
      .iupdate () 0,
    .iunlock () 0]

/-- `iput` does not clear `valid` when it drops the last reference: an entry without references can
    be valid and unlocked and not as on the disk. -/
theorem leftBehind_stale :
    Along (State.step 200) note promises (State.start files) (fun _ => false) leftBehind ∧
    ∃ s, runs (State.step 200) (State.start files) leftBehind = some s ∧ (s.table 1).lock = none ∧
      (s.table 1).valid = true ∧ (s.table 1).ref = 0 ∧
        (s.table 1).din ≠ s.disk (s.table 1).key := by
  have hentry : (runs (State.step 200) (State.start files) leftBehind).map
      (fun s => ((s.table 1).lock, (s.table 1).valid, (s.table 1).ref,
        decide ((s.table 1).din = s.disk (s.table 1).key))) =
          some (none, true, 0, false) := by decide +kernel
  obtain ⟨s, hs, heq⟩ := map_eq_some_iff.1 hentry
  obtain ⟨hlock, hrest⟩ := Prod.mk.inj heq
  obtain ⟨hvalid, hrest⟩ := Prod.mk.inj hrest
  obtain ⟨href, hne⟩ := Prod.mk.inj hrest
  exact ⟨by decide +kernel, s, hs, hlock, hvalid, href, of_decide_eq_false hne⟩

end Xv6.Itable
