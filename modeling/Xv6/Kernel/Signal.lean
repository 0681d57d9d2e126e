import Xv6.Kernel.Proc

set_option autoImplicit false

/-! # Signals and the user registers of one process (trap.c, proc.c)

The functions of trap.c and proc.c that work on the signal state of one process and on the
registers in its trapframes, as functions on `Proc`. They are the critical sections of the kernel's
code: the frames of `Xv6.Kernel.Code` put the locking around them. -/

namespace Xv6

open Function

/-! ## Constants (signal.h) -/

def SIG_DFL : BitVec 64 := 0
def SIG_IGN : BitVec 64 := 1
def SIGKILL : Fin NUMOFSIGNALS := 9
def SIGSTOP : Fin NUMOFSIGNALS := 17
def SIGCONT : Fin NUMOFSIGNALS := 19

/-- `1 << i`. -/
def sigBit (i : Fin NUMOFSIGNALS) : BitVec 32 := 1#32 <<< i.val

/-! ## Sending and testing -/

variable (p : Proc)

/-- The pending set that `kill(pid, signum)` leaves: the number itself is or-ed in. -/
def killPending (signum : BitVec 32) : Proc :=
  { p with pendingsignals := p.pendingsignals ||| signum }

/-- The test of `signal_handler`, `(pendingsignals & 1 << i) & !(signalmask & 1 << i)`: the second
    operand of the outer `&` is a truth value, `0` or `1`. -/
def sigDeliverable (i : Fin NUMOFSIGNALS) : Bool :=
  (p.pendingsignals &&& sigBit i) &&& (if p.signalmask &&& sigBit i = 0 then 1#32 else 0#32) ≠ 0

/-- `p->pendingsignals ^ (1 << i)`. -/
def xorPending (i : Fin NUMOFSIGNALS) : Proc :=
  { p with pendingsignals := p.pendingsignals ^^^ sigBit i }

/-- What `signal_handler` does with signal `i` once the test has passed. -/
inductive SigAction where
  | ignore | sigkill | sigcont | sigstop | user
  deriving DecidableEq, Repr

/-- The chain of `else if`s of `signal_handler`. -/
def sigActionOf (i : Fin NUMOFSIGNALS) : SigAction :=
  if p.signalhandlers i = SIG_IGN then .ignore
  else if p.signalhandlers i = SIG_DFL then .sigkill
  else if i = SIGKILL then .sigkill
  else if i = SIGCONT then .sigcont
  else if i = SIGSTOP then .sigstop
  else .user

/-! ## Delivering to a user handler -/

/-- The address of the kernel stack of a slot (`KSTACK`). -/
def kstack (t : ThreadRef) : Nat := TRAMPOLINE - ((t.p.val + 1) * NTHREAD + t.i.val) * 2 * PGSIZE

/-- The kernel's own mappings (`kvmmake`, `proc_mapstacks`). -/
def kernelMapped (a : Nat) : Bool :=
  (0x10000000 ≤ a && a < 0x10002000) || (0x0c000000 ≤ a && a < 0x0c400000) ||
  (0x80000000 ≤ a && a < 0x80000000 + 128 * 1024 * 1024) || (TRAMPOLINE ≤ a && a < MAXVA) ||
  (List.finRange NPROC).any fun p => (List.finRange NTHREAD).any fun i =>
    kstack ⟨p, i⟩ ≤ a && a < kstack ⟨p, i⟩ + PGSIZE

/-- A little-endian number of the given bytes. -/
def leNat : List (BitVec 8) → Nat
  | [] => 0
  | b :: bs => b.toNat + 256 * leNat bs

/-- What the code reads without having written it: the parts of `tmp_action` a failed `copyin`
    leaves uninitialised, and kernel memory at a user-chosen address. -/
structure Junk where
  handler : BitVec 64 := 0
  mask : BitVec 32 := 0
  byte : Nat → BitVec 8 := fun _ => 0

/-- `copyout(pagetable, va, (void *)src, n)` with a source that is a kernel address taken from the
    user: `none` is the kernel page fault. -/
def copyoutFrom (um : UserMem) (va src : Nat) (junk : Nat → BitVec 8) : Nat → Option UserMem
  | 0 => some um
  | n + 1 =>
    match um va with
    | none => some um
    | some _ =>
      if kernelMapped src then
        copyoutFrom (update um va (some (junk src))) (va + 1) (src + 1) junk n
      else none

/-- The bytes between `sigretBEG` and `sigretEND`: `li a7, 24; ecall`, the first compressed. -/
def sigretStub : List (BitVec 8) := [0xe1, 0x48, 0x73, 0x00, 0x00, 0x00]

/-- `signalhandler_user` for thread `i` and signal `n`; `none` is a page fault in the kernel. -/
def signalhandlerUser (i : TIdx) (n : Fin NUMOFSIGNALS) (junk : Junk) : Option Proc :=
  let handler := ((copyin p.umem (p.signalhandlers n).toNat 8).map
    fun bs => BitVec.ofNat 64 (leNat bs)).getD junk.handler
  let mask := ((copyin p.umem (p.signalmasks n).toNat 4).map
    fun bs => BitVec.ofNat 32 (leNat bs)).getD junk.mask
  let sp := p.frames i .sp
  let newSp := sp - BitVec.ofNat 64 sizeofTrapframe
  match copyoutFrom p.umem newSp.toNat sp.toNat junk.byte 8 with
  | none => none
  | some um =>
    let stubSp := sp - BitVec.ofNat 64 sigretStub.length
    let tf := p.frames i
    let tf := update tf Reg.epc handler
    let tf := update tf Reg.sp stubSp
    let tf := update tf Reg.a0 (BitVec.ofNat 64 n.val)
    let tf := update tf Reg.ra stubSp
    some
      { p with
        signalmaskOrigin := p.signalmask
        signalmask := mask
        handlingSignal := true
        umem := (copyout um stubSp.toNat sigretStub).1
        frames := update p.frames i tf
        pendingsignals := p.pendingsignals ^^^ sigBit n }

/-! ## The system calls on signals -/

/-- `sigret_proc`. -/
def sigretProc (i : TIdx) : Proc :=
  { p with
    handlingSignal := false
    frames := update p.frames i p.backup
    signalmask := p.signalmaskOrigin }

/-- `sigprocmask_proc`: the new process; the old mask is the return value. -/
def sigprocmaskProc (newmask : BitVec 32) : Proc :=
  { p with signalmask := newmask }

/-- `p->signalhandlers[n]` as compiled: the two entries past the table are the first words of
    `signalmasks`, which follows it in `struct proc`. -/
def handlerAt (n : Nat) : BitVec 64 :=
  if h : n < NUMOFSIGNALS then p.signalhandlers ⟨n, h⟩
  else if n = 32 then p.signalmasks 1 ++ p.signalmasks 0
  else p.signalmasks 3 ++ p.signalmasks 2

/-- `p->signalmasks[n]` as compiled: the two entries past the table are the halves of
    `user_trap_frame_backup`. -/
def maskAt (n : Nat) : BitVec 32 :=
  if h : n < NUMOFSIGNALS then p.signalmasks ⟨n, h⟩
  else if n = 32 then p.userTrapFrameBackup.extractLsb' 0 32
  else p.userTrapFrameBackup.extractLsb' 32 32

/-- `p->signalhandlers[n] = v` as compiled. -/
def setHandlerAt (n : Nat) (v : BitVec 64) : Proc :=
  if h : n < NUMOFSIGNALS then { p with signalhandlers := update p.signalhandlers ⟨n, h⟩ v }
  else
    let k : Fin NUMOFSIGNALS := if n = 32 then 0 else 2
    { p with
      signalmasks := update (update p.signalmasks k (v.extractLsb' 0 32)) (k + 1)
        (v.extractLsb' 32 32) }

/-- `p->signalmasks[n] = v` as compiled. -/
def setMaskAt (n : Nat) (v : BitVec 32) : Proc :=
  if h : n < NUMOFSIGNALS then { p with signalmasks := update p.signalmasks ⟨n, h⟩ v }
  else if n = 32 then
    { p with userTrapFrameBackup := p.userTrapFrameBackup.extractLsb' 32 32 ++ v }
  else { p with userTrapFrameBackup := v ++ p.userTrapFrameBackup.extractLsb' 0 32 }

/-- The bytes of a number of `n` bytes, little-endian. -/
def leBytes : Nat → Nat → List (BitVec 8)
  | 0, _ => []
  | n + 1, v => BitVec.ofNat 8 v :: leBytes n (v / 256)

/-- The first half of `sigaction_proc`: the old action is copied out. `pad` is the uninitialised
    padding of the structure. -/
def sigactionOld (n oldact pad : Nat) : Proc × Bool :=
  if oldact = 0 then (p, true)
  else
    let r := copyout p.umem oldact
      (leBytes 8 (handlerAt p n).toNat ++ leBytes 4 (maskAt p n).toNat ++ leBytes 4 pad)
    ({ p with umem := r.1 }, r.2)

/-- The second half: the new action is copied in. -/
def sigactionNew (n act : Nat) : Proc × Int :=
  if act = 0 then (p, 0)
  else if n = SIGKILL.val ∨ n = SIGSTOP.val then (p, -1)
  else
    match copyin p.umem act 16 with
    | none => (p, -1)
    | some bs =>
      (setMaskAt (setHandlerAt p n (BitVec.ofNat 64 (leNat (bs.take 8)))) n
        (BitVec.ofNat 32 (leNat ((bs.drop 8).take 4))), 0)

/-- `sigaction_proc`. -/
def sigactionProc (signum : Int) (act oldact pad : Nat) : Proc × Int :=
  if signum > 33 ∨ signum < 0 then (p, -1)
  else
    let r := sigactionOld p signum.toNat oldact pad
    if r.2 = false then (r.1, -1) else sigactionNew r.1 signum.toNat act

/-- `make_dfl_signal`. -/
def makeDflSignal : Proc :=
  { p with signalhandlers := fun i => if p.signalhandlers i ≠ SIG_IGN then SIG_DFL else p.signalhandlers i }

/-! ## The accesses to one process that leave its thread table alone -/

/-- What `exec` commits: the new user memory and the registers the new program starts with. -/
structure Image where
  umem : UserMem := fun _ => none
  entry : BitVec 64 := 0
  sp : BitVec 64 := 0
  argc : Nat := 0

/-- One atomic access to the registers, the signal state or the user memory of a process. -/
inductive ProcAct where
  /-- `uservec`: the registers of the interrupted user code. What that code has stored to its
      memory since it was entered is taken over at the same moment. -/
  | saveUser (i : TIdx) (regs : Trapframe) (stores : UserMem)
  /-- `t->trapframe->epc += 4`. -/
  | skipEcall (i : TIdx)
  /-- `t->trapframe->a0 = v`. -/
  | setA0 (i : TIdx) (v : Int)
  /-- The copy to `user_trap_frame_backup` in `usertrapret`. -/
  | backup (i : TIdx)
  | kill (signum : BitVec 32)
  | deliver (i : TIdx) (n : Fin NUMOFSIGNALS) (junk : Junk)
  | sigret (i : TIdx)
  | sigprocmask (mask : BitVec 32)
  | sigaction (signum : Int) (act oldact pad : Nat)
  | freeze (b : Bool)
  | xorPending (n : Fin NUMOFSIGNALS)
  /-- The resume branch of `sigstop_handler`. -/
  | thaw
  | makeDfl
  | execCommit (i : TIdx) (img : Image)
  /-- `copyout` of one `int` to user memory. -/
  | copyoutInt (addr : Nat) (v : BitVec 32)
  /-- Any change of user memory, by a system call that the model leaves open. -/
  | setUmem (um : UserMem)
  /-- `p->killed = 1`. -/
  | setKilled

def ProcAct.apply : ProcAct → Proc → Proc
  | .saveUser i regs stores, p =>
    { p with
      frames := update p.frames i regs
      umem := fun a => (p.umem a).map fun b => (stores a).getD b }
  | .skipEcall i, p =>
    { p with
      frames := update p.frames i
        (update (p.frames i) .epc (p.frames i .epc + 4)) }
  | .setA0 i v, p =>
    { p with
      frames := update p.frames i (update (p.frames i) .a0 (BitVec.ofInt 64 v)) }
  | .backup i, p => { p with backup := p.frames i }
  | .kill signum, p => killPending p signum
  | .deliver i n junk, p => (signalhandlerUser p i n junk).getD p
  | .sigret i, p => sigretProc p i
  | .sigprocmask mask, p => sigprocmaskProc p mask
  | .sigaction signum act oldact pad, p => (sigactionProc p signum act oldact pad).1
  | .freeze b, p => { p with freeze := b }
  | .xorPending n, p => Xv6.xorPending p n
  | .thaw, p => Xv6.xorPending (Xv6.xorPending { p with freeze := false } SIGSTOP) SIGCONT
  | .makeDfl, p => makeDflSignal p
  | .execCommit i img, p =>
    { p with
      pagetable := some ⟨p.trapframepointer⟩
      umem := img.umem
      frames := update p.frames i
        (update (update (update (p.frames i) .a1 img.sp) .epc img.entry)
          .sp img.sp) }
  | .copyoutInt addr v, p => { p with umem := (copyout p.umem addr (intBytes v)).1 }
  | .setUmem um, p => { p with umem := um }
  | .setKilled, p => { p with killed := true }

end Xv6
