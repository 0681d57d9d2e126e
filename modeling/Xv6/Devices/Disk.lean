import Xv6.Structures.Fifo
import Xv6.Structures.Runs

set_option autoImplicit false

/-! # The disk driver (`virtio_disk.c`)

Driver and device share the descriptors, the available ring and the used ring. A request takes three
descriptors, which `virtio_disk_rw` links into a chain; it makes the chain available, sleeps until
`virtio_disk_intr` has found it in the used ring, and frees the three descriptors.

The driver works with `vdisk_lock` held, but the device does not: each step of the driver that the
device can see is a step of its own, and the device may come in between any two. A thread that
sleeps may wake up at any time, which includes the wakeups of the source. The device takes the
chains that are available one after the other and completes them in any order; to complete one it
writes status 0 through the chain's third descriptor and appends the head of the chain to the used
ring. What it transfers is left out. -/

namespace Xv6.Virtio

open Function Structures

abbrev NUM : Nat := 8

def BSIZE : Nat := 1024

def VRING_DESC_F_NEXT : BitVec 16 := 1
def VRING_DESC_F_WRITE : BitVec 16 := 2
def VIRTIO_BLK_T_IN : BitVec 32 := 0
def VIRTIO_BLK_T_OUT : BitVec 32 := 1

/-- The memory to which a descriptor can point: `disk.ops[i]`, the data of a buffer, or
    `disk.info[i].status`. -/
inductive Dma (B : Type)
  | null
  | op (i : Fin NUM)
  | data (b : B)
  | status (i : Fin NUM)

/-- `struct virtq_desc`. -/
structure Desc (B : Type) where
  addr : Dma B := .null
  len : BitVec 32 := 0
  flags : BitVec 16 := 0
  next : BitVec 16 := 0

/-- `struct virtio_blk_req`; `reserved` is always 0. -/
structure Req where
  type : BitVec 32 := 0
  sector : BitVec 64 := 0

/-- An element of `disk.info`. -/
structure Info (B : Type) where
  b : Option B := none
  status : BitVec 8 := 0

/-- `struct disk`; `deviceIdx` and `deviceRing` are `disk.used->idx` and the `id`s in
    `disk.used->ring`, which the device writes. -/
structure Disk (B : Type) where
  desc : Fin NUM → Desc B
  availIdx : BitVec 16
  availRing : Fin NUM → Fin NUM
  deviceIdx : BitVec 16
  deviceRing : Fin NUM → Fin NUM
  free : Fin NUM → Bool
  usedIdx : BitVec 16
  info : Fin NUM → Info B
  ops : Fin NUM → Req

variable {B : Type}

/-! ## Descriptors -/

/-- The first free descriptor, marked non-free. -/
def allocDesc (d : Disk B) : Option (Disk B × Fin NUM) :=
  match (List.finRange NUM).find? d.free with
  | some i => some ({ d with free := update d.free i false }, i)
  | none => none

def freeDesc (d : Disk B) (i : Nat) : Except String (Disk B) :=
  if h : i < NUM then
    if d.free ⟨i, h⟩ then .error "free_desc 2"
    else .ok { d with desc := update d.desc ⟨i, h⟩ {}, free := update d.free ⟨i, h⟩ true }
  else .error "free_desc 1"

/-- The loop of `free_chain`. It frees a descriptor in every turn, so that after `NUM` turns the
    next one panics. -/
def freeChainFrom : Nat → Disk B → Nat → Except String (Disk B)
  | 0, _, _ => .error "free_desc 2"
  | n + 1, d, i =>
    if h : i < NUM then do
      let flag := (d.desc ⟨i, h⟩).flags
      let nxt := (d.desc ⟨i, h⟩).next
      let d ← freeDesc d i
      if flag &&& VRING_DESC_F_NEXT ≠ 0 then freeChainFrom n d nxt.toNat else .ok d
    else .error "free_desc 1"

def freeChain (d : Disk B) (i : Nat) : Except String (Disk B) := freeChainFrom NUM d i

/-- Three descriptors, or none of them. -/
def alloc3Desc (d : Disk B) : Except String (Disk B × Option (Fin NUM × Fin NUM × Fin NUM)) :=
  match allocDesc d with
  | none => .ok (d, none)
  | some (d, i0) =>
    match allocDesc d with
    | none => do
        let d ← freeDesc d i0
        .ok (d, none)
    | some (d, i1) =>
      match allocDesc d with
      | none => do
          let d ← freeDesc d i0
          let d ← freeDesc d i1
          .ok (d, none)
      | some (d, i2) => .ok (d, some (i0, i1, i2))

/-! ## Requests -/

/-- A request: its buffer, its direction and its descriptors. -/
structure Chain (B : Type) where
  b : B
  write : Bool
  i0 : Fin NUM
  i1 : Fin NUM
  i2 : Fin NUM
deriving DecidableEq

@[simp] def Chain.descs (c : Chain B) : List (Fin NUM) := [c.i0, c.i1, c.i2]

/-- Format the descriptors, record the buffer and put the head into the available ring. -/
def format (blockno : B → BitVec 32) (d : Disk B) (c : Chain B) : Disk B :=
  let sector : BitVec 32 := blockno c.b * BitVec.ofNat 32 (BSIZE / 512)
  let op : Req := ⟨if c.write then VIRTIO_BLK_T_OUT else VIRTIO_BLK_T_IN, sector.zeroExtend 64⟩
  let flags : BitVec 16 := if c.write then 0 else VRING_DESC_F_WRITE
  let desc := update d.desc c.i0 ⟨.op c.i0, 16, VRING_DESC_F_NEXT, BitVec.ofNat 16 c.i1⟩
  let desc := update desc c.i1
    ⟨.data c.b, BitVec.ofNat 32 BSIZE, flags ||| VRING_DESC_F_NEXT, BitVec.ofNat 16 c.i2⟩
  let desc := update desc c.i2 ⟨.status c.i0, 1, VRING_DESC_F_WRITE, 0⟩
  { d with
    ops := update d.ops c.i0 op
    desc := desc
    info := update d.info c.i0 ⟨some c.b, 0xff⟩
    availRing := update d.availRing (slot NUM d.availIdx) c.i0 }

/-- Where a thread is in `virtio_disk_rw`. -/
inductive Pc (B : Type)
  | idle
  /-- Before `alloc3_desc`. -/
  | alloc (b : B) (write : Bool)
  /-- Asleep on `disk.free[0]`. -/
  | sleepFree (b : B) (write : Bool)
  /-- With three descriptors. -/
  | format (c : Chain B)
  /-- Before `disk.avail->idx += 1`. -/
  | publish (c : Chain B)
  /-- Before the test of `b->disk`. -/
  | check (c : Chain B)
  /-- Asleep on the buffer. -/
  | sleepDisk (c : Chain B)
deriving DecidableEq

/-- The driver, its threads `T` and interrupt handlers `C`, and the device: how far it has looked in
    the available ring, and the chains it works on. -/
structure State (T B C : Type) where
  disk : Disk B
  busy : B → Bool
  pc : T → Pc B
  lock : Option (T ⊕ C)
  lastAvail : BitVec 16
  taken : List (Fin NUM)

inductive Act (T B C : Type)
  /-- The thread calls `virtio_disk_rw` and takes the lock. -/
  | call (t : T) (b : B) (write : Bool)
  | alloc (t : T)
  | format (t : T)
  | publish (t : T)
  | check (t : T)
  /-- A thread that sleeps wakes up and takes the lock again. -/
  | wake (t : T)
  /-- `virtio_disk_intr` takes the lock. -/
  | intr (k : C)
  /-- One turn of its loop, or its end. -/
  | handle (k : C)
  /-- The device takes the next chain from the available ring. -/
  | take
  /-- The device completes a chain. -/
  | complete (h : Fin NUM)

variable {T C : Type} [DecidableEq T] [DecidableEq B] [DecidableEq C]

/-- The buffer on which a thread works, which it has locked. -/
def Pc.buf : Pc B → Option B
  | .idle => none
  | .alloc b _ | .sleepFree b _ => some b
  | .format c | .publish c | .check c | .sleepDisk c => some c.b

namespace State

def at_ (s : State T B C) (t : T) (pc : Pc B) : State T B C := { s with pc := update s.pc t pc }

/-- The third descriptor of a chain. -/
def statusDesc (d : Disk B) (h : Fin NUM) : Desc B :=
  d.desc (Fin.ofNat NUM (d.desc (Fin.ofNat NUM (d.desc h).next.toNat)).next.toNat)

/-- The device's writes for a chain that it completes. -/
def deviceWrites (d : Disk B) (h : Fin NUM) : Disk B :=
  let d := match (statusDesc d h).addr with
    | .status i => { d with info := update d.info i { d.info i with status := 0 } }
    | _ => d
  { d with deviceRing := update d.deviceRing (slot NUM d.deviceIdx) h, deviceIdx := d.deviceIdx + 1 }

/-- A step, if it can be taken: the next state, or a panic. -/
def next (blockno : B → BitVec 32) (s : State T B C) : Act T B C → Option (Except String (State T B C))
  | .call t b w =>
    match s.pc t, s.lock with
    | .idle, none => some (.ok { s.at_ t (.alloc b w) with lock := some (.inl t) })
    | _, _ => none
  | .alloc t =>
    match s.pc t with
    | .alloc b w =>
      match alloc3Desc s.disk with
      | .error e => some (.error e)
      | .ok (d, none) => some (.ok { s.at_ t (.sleepFree b w) with disk := d, lock := none })
      | .ok (d, some (i0, i1, i2)) => some (.ok { s.at_ t (.format ⟨b, w, i0, i1, i2⟩) with disk := d })
    | _ => none
  | .format t =>
    match s.pc t with
    | .format c =>
      some (.ok { s.at_ t (.publish c) with
        disk := Virtio.format blockno s.disk c, busy := update s.busy c.b true })
    | _ => none
  | .publish t =>
    match s.pc t with
    | .publish c => some (.ok { s.at_ t (.check c) with
        disk := { s.disk with availIdx := s.disk.availIdx + 1 } })
    | _ => none
  | .check t =>
    match s.pc t with
    | .check c =>
      if s.busy c.b then some (.ok { s.at_ t (.sleepDisk c) with lock := none })
      else
        let d := { s.disk with info := update s.disk.info c.i0 { s.disk.info c.i0 with b := none } }
        match freeChain d c.i0 with
        | .error e => some (.error e)
        | .ok d => some (.ok { s.at_ t .idle with disk := d, lock := none })
    | _ => none
  | .wake t =>
    match s.pc t, s.lock with
    | .sleepFree b w, none => some (.ok { s.at_ t (.alloc b w) with lock := some (.inl t) })
    | .sleepDisk c, none => some (.ok { s.at_ t (.check c) with lock := some (.inl t) })
    | _, _ => none
  | .intr k =>
    match s.lock with
    | none => some (.ok { s with lock := some (.inr k) })
    | some _ => none
  | .handle k =>
    if s.lock = some (.inr k) then
      if s.disk.usedIdx ≠ s.disk.deviceIdx then
        let id := s.disk.deviceRing (slot NUM s.disk.usedIdx)
        if (s.disk.info id).status ≠ 0 then some (.error "virtio_disk_intr status")
        else
          match (s.disk.info id).b with
          | none => some (.error "null buffer")
          | some b => some (.ok { s with
              busy := update s.busy b false
              disk := { s.disk with usedIdx := s.disk.usedIdx + 1 } })
      else some (.ok { s with lock := none })
    else none
  | .take =>
    if s.lastAvail ≠ s.disk.availIdx then
      some (.ok { s with
        lastAvail := s.lastAvail + 1
        taken := s.disk.availRing (slot NUM s.lastAvail) :: s.taken })
    else none
  | .complete h =>
    if h ∈ s.taken then
      some (.ok { s with disk := deviceWrites s.disk h, taken := s.taken.erase h })
    else none

end State

end Xv6.Virtio
