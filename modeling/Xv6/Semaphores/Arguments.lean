import Xv6.Kernel.Code

set_option autoImplicit false

/-! # The arguments of the semaphore calls

A user passes any 64-bit number to `bsem_free`, `bsem_down` and `bsem_up`. The system calls hand it
on to functions that take an `int`, and these use it as an index without looking at it. So numbers
that differ by a multiple of `2 ^ 32` name the same semaphore, and most numbers name memory outside
the table (where this model stops, `Frame.bsemWild`).

A call is followed through all the frames it can get to, whatever it sees of the rest of the kernel
between its steps (`Visits`); so the result is about any interleaving with other calls. -/

namespace Xv6

open Machine

/-- The three calls that take a descriptor. -/
inductive BsemCall where
  | free | down | up
  deriving DecidableEq

/-- `SYS_bsem_free`, `SYS_bsem_down` and `SYS_bsem_up`. -/
def BsemCall.number : BsemCall → Nat
  | .free => 30
  | .down => 31
  | .up => 32

/-- The call with an argument of 64 bits; the functions take an `int`. -/
def BsemCall.syscall (arg : BitVec 64) : BsemCall → Syscall
  | .free => .bsemFree (arg.setWidth 32).toInt
  | .down => .bsemDown (arg.setWidth 32).toInt
  | .up => .bsemUp (arg.setWidth 32).toInt

def BsemCall.frame (me : ThreadRef) (arg : BitVec 64) (call : BsemCall) : Frame :=
  syscallFrame me (call.syscall arg)

theorem BsemCall.decode_eq (call : BsemCall) {r : Trapframe} (h : (argint r .a7).toNat = call.number) :
    decode r = call.syscall (r .a0) := by
  rw [decode, h]
  cases call <;> rfl

/-- The frames that a call which starts with `f` can get to, and whether it has changed memory by
    then. Every step may see any state of the kernel. -/
inductive Visits (f : Frame) : Bool → Frame → Prop where
  | entry : Visits f false f
  | goto (v : KView) {acted : Bool} {g k : Frame} (h : Visits f acted g)
      (hcode : kernel.code v g = .goto k) : Visits f acted k
  | acquire (v : KView) {acted : Bool} {g k : Frame} {l : Lock} (h : Visits f acted g)
      (hcode : kernel.code v g = .acquire l k) : Visits f acted k
  | release (v : KView) {acted : Bool} {g k : Frame} {l : Lock} (h : Visits f acted g)
      (hcode : kernel.code v g = .release l k) : Visits f acted k
  | act (v : KView) {acted : Bool} {g k : Frame} {a : Act} (h : Visits f acted g)
      (hcode : kernel.code v g = .act a k) : Visits f true k
  | back (v : KView) {acted : Bool} {g g' k : Frame} (r : Int) (h : Visits f acted g)
      (hcode : kernel.code v g = .call g' k) : Visits f acted (resumeFrame k r)

/-- The step stays within the table, and changes memory only if the argument is a descriptor that is
    allocated. What it calls, to sleep and to wake up others, it calls only after such a change. -/
def Harmless (arg : BitVec 64) (v : KView) (acted : Bool) : KInstr → Prop
  | .goto _ | .ret _ => True
  | .acquire l _ | .release l _ => ∃ d, l = .bsem d
  | .act a _ => ∃ d x, a = .bsem d x ∧ d.val = arg.toNat ∧ (v.mem.bsems d).descriptor ≠ -1
  | .call _ _ => acted = true
  | .panic msg => msg ≠ "Bsems"
  | _ => False

section

variable {me : ThreadRef} {d : BIdx} {arg : BitVec 64} {acted : Bool} {f : Frame} {v : KView}

/-- The frames of a call for the entry `d`. -/
inductive AtEntry (me : ThreadRef) (d : BIdx) : Bool → Frame → Prop where
  | free (acted : Bool) (pc : BsemFreePc) : AtEntry me d acted (.bsemFree d pc)
  | down (acted : Bool) (pc : BsemDownPc) (h : pc = .sleep → acted = true) :
      AtEntry me d acted (.bsemDown me d pc)
  | up (acted : Bool) (pc : BsemUpPc) (h : pc = .wake → acted = true) : AtEntry me d acted (.bsemUp d pc)

/-- The instruction leads to frames of the call. -/
def Stays (me : ThreadRef) (d : BIdx) (acted : Bool) : KInstr → Prop
  | .goto k | .acquire _ k | .release _ k => AtEntry me d acted k
  | .act _ k => AtEntry me d true k
  | .call _ k => ∀ r, AtEntry me d acted (resumeFrame k r)
  | _ => True

section

variable (hd : d.val = arg.toNat)
include hd

theorem bsemFree_step (pc : BsemFreePc) :
    Harmless arg v acted (bsemFreeCode v d pc) ∧ Stays me d acted (bsemFreeCode v d pc) := by
  cases pc with
  | acquire | release => exact ⟨⟨d, rfl⟩, .free _ _⟩
  | test =>
    simp only [bsemFreeCode]
    split
    · exact ⟨trivial, .free _ _⟩
    · next h => exact ⟨⟨d, _, rfl, hd, fun hfree => h (.inl hfree)⟩, .free _ _⟩
  | done => exact ⟨trivial, trivial⟩

theorem bsemDown_step (pc : BsemDownPc) (h : pc = .sleep → acted = true) :
    Harmless arg v acted (bsemDownCode v me d pc) ∧ Stays me d acted (bsemDownCode v me d pc) := by
  cases pc with
  | acquire | slept | release => exact ⟨⟨d, rfl⟩, .down _ _ nofun⟩
  | test =>
    simp only [bsemDownCode]
    split
    · exact ⟨trivial, .down _ _ nofun⟩
    next hfree =>
    split
    · exact ⟨⟨d, _, rfl, hd, hfree⟩, .down _ _ nofun⟩
    split
    · exact ⟨fun hmsg => absurd hmsg (by decide), trivial⟩
    · exact ⟨⟨d, _, rfl, hd, hfree⟩, .down _ _ fun _ => rfl⟩
  | sleep => exact ⟨h rfl, fun _ => .down _ _ nofun⟩
  | done => exact ⟨trivial, trivial⟩

theorem bsemUp_step (pc : BsemUpPc) (h : pc = .wake → acted = true) :
    Harmless arg v acted (bsemUpCode v d pc) ∧ Stays me d acted (bsemUpCode v d pc) := by
  cases pc with
  | acquire | release => exact ⟨⟨d, rfl⟩, .up _ _ nofun⟩
  | test =>
    simp only [bsemUpCode]
    split
    · exact ⟨trivial, .up _ _ nofun⟩
    · next hfree => exact ⟨⟨d, _, rfl, hd, hfree⟩, .up _ _ fun _ => rfl⟩
  | wake => exact ⟨h rfl, fun _ => .up _ _ nofun⟩
  | done => exact ⟨trivial, trivial⟩

theorem AtEntry.step (h : AtEntry me d acted f) (v : KView) :
    Harmless arg v acted (kernel.code v f) ∧ Stays me d acted (kernel.code v f) := by
  cases h with
  | free pc => exact bsemFree_step hd pc
  | down pc h => exact bsemDown_step hd pc h
  | up pc h => exact bsemUp_step hd pc h

theorem AtEntry.visits (hf : AtEntry me d false f) {g : Frame}
    (h : Visits f acted g) : AtEntry me d acted g := by
  induction h with
  | entry => exact hf
  | goto v _ hcode ih | acquire v _ hcode ih | release v _ hcode ih | act v _ hcode ih =>
    have hstep := (ih.step hd v).2
    rw [hcode] at hstep
    exact hstep
  | back v r _ hcode ih =>
    have hstep := (ih.step hd v).2
    rw [hcode] at hstep
    exact hstep r

end

theorem BsemCall.frame_entry (call : BsemCall) (h : bsemIdx (arg.setWidth 32).toInt = some d) :
    AtEntry me d false (call.frame me arg) := by
  cases call with
  | free =>
    rw [BsemCall.frame, BsemCall.syscall, syscallFrame, h]
    exact .free _ _
  | down =>
    rw [BsemCall.frame, BsemCall.syscall, syscallFrame, h]
    exact .down _ _ nofun
  | up =>
    rw [BsemCall.frame, BsemCall.syscall, syscallFrame, h]
    exact .up _ _ nofun

theorem BsemCall.frame_wild (call : BsemCall) (h : bsemIdx (arg.setWidth 32).toInt = none) :
    call.frame me arg = .bsemWild := by
  cases call <;> rw [BsemCall.frame, BsemCall.syscall, syscallFrame, h] <;> rfl

theorem bsemIdx_small (h : arg.toNat < MAX_BSEM) : bsemIdx (arg.setWidth 32).toInt = some ⟨arg.toNat, h⟩ := by
  have hlt : arg.toNat < 128 := h
  have htrunc : (arg.setWidth 32).toNat = arg.toNat := by
    rw [BitVec.toNat_setWidth]
    omega
  have hint : (arg.setWidth 32).toInt = arg.toNat := by
    rw [BitVec.toInt_eq_toNat_cond, htrunc, if_pos (by omega)]
  rw [hint, bsemIdx, dif_pos ⟨Int.natCast_nonneg _, Int.ofNat_lt.2 h⟩]
  rfl

/-- What a call sees when all entries are allocated and free to be taken. -/
def allocatedView : KView where
  mem := { bootMem with bsems := fun _ => { descriptor := 0, value := 1 } }
  regs := { noff := 0, intena := false, intr := false }
  holding := fun _ => false
  cpu := 0
  inp := {}

theorem BsemCall.reaches_act (call : BsemCall) (h : bsemIdx (arg.setWidth 32).toInt = some d) :
    ∃ f x k, Visits (call.frame me arg) false f ∧ kernel.code allocatedView f = .act (.bsem d x) k := by
  cases call with
  | free | down | up =>
    rw [BsemCall.frame, BsemCall.syscall, syscallFrame, h]
    exact ⟨_, _, _, .acquire allocatedView .entry rfl, rfl⟩

/-- **A semaphore call stays within the table, and changes something only where its argument is an
    allocated descriptor, exactly for the arguments that are less than `MAX_BSEM` as 64-bit
    numbers.** -/
theorem bsem_argument_iff (me : ThreadRef) (call : BsemCall) (arg : BitVec 64) :
    (∀ acted f, Visits (call.frame me arg) acted f → ∀ v, Harmless arg v acted (kernel.code v f)) ↔
      arg.toNat < MAX_BSEM := by
  constructor
  · intro hall
    cases hidx : bsemIdx (arg.setWidth 32).toInt with
    | none =>
      have hentry := hall false _ .entry allocatedView
      rw [call.frame_wild hidx] at hentry
      exact absurd rfl hentry
    | some d =>
      obtain ⟨f, x, k, hvisits, hcode⟩ : ∃ f x k, Visits (call.frame me arg) false f ∧
          kernel.code allocatedView f = .act (.bsem d x) k := call.reaches_act hidx
      have hact := hall false f hvisits allocatedView
      rw [hcode] at hact
      obtain ⟨d', x', heq, hd', -⟩ := hact
      rw [← hd']
      exact d'.isLt
  intro hlt acted f hvisits v
  have hd : (⟨arg.toNat, hlt⟩ : BIdx).val = arg.toNat := rfl
  have hentry : AtEntry me _ false (call.frame me arg) := call.frame_entry (bsemIdx_small hlt)
  exact ((hentry.visits hd hvisits).step hd v).1

end

/-- The number `2 ^ 32` frees semaphore 0, and 128 is outside the table. -/
theorem bsem_argument_aliases : BsemCall.free.frame ⟨0, 0⟩ 0x100000000 = .bsemFree 0 .acquire ∧
      kernel.code allocatedView (.bsemFree 0 .test) = .act (.bsem 0 .free) (.bsemFree 0 .release) ∧
      BsemCall.up.frame ⟨0, 0⟩ 128 = .bsemWild :=
  ⟨rfl, rfl, rfl⟩

end Xv6
