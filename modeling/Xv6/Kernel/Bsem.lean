import Xv6.Kernel.Proc

set_option autoImplicit false

/-! # Binary semaphores (proc.c)

The table `Bsems` and what the critical sections of the four system calls do to one of its entries.
An entry is allocated if its `descriptor` is not `-1`; `value` is `1` if it can be taken, and
`threads` lists the threads that have gone to sleep waiting for it. -/

namespace Xv6

/-! ## The line of waiting threads -/

/-- `remove_current_thread`: the first entry that holds the thread. -/
def removeCurrentThread (threads : Fin NUM_OF_THREADS → Option ThreadRef) (me : ThreadRef) :
    Fin NUM_OF_THREADS → Option ThreadRef :=
  match (List.finRange NUM_OF_THREADS).find? fun i => threads i = some me with
  | some i => Function.update threads i none
  | none => threads

/-- `place_thread_in_line`: the first empty entry; `none` is the panic. -/
def placeThreadInLine (threads : Fin NUM_OF_THREADS → Option ThreadRef) (me : ThreadRef) :
    Option (Fin NUM_OF_THREADS → Option ThreadRef) :=
  ((List.finRange NUM_OF_THREADS).find? fun i => threads i = none).map fun i =>
    Function.update threads i (some me)

/-! ## The table -/

/-- One round of `initsems`. -/
def initsem (b : Bsem) : Bsem := { b with descriptor := -1, value := 1 }

/-- `initsems`, on the zeroed table. -/
def initsems : BIdx → Bsem := fun _ => initsem {}

/-- The entry that `Bsems[descriptor]` names. -/
def bsemIdx (descriptor : Int) : Option BIdx :=
  if h : 0 ≤ descriptor ∧ descriptor < MAX_BSEM then some ⟨descriptor.toNat, by omega⟩ else none

/-! ## The critical sections -/

/-- What the system calls do to an entry while they hold its lock. -/
inductive BsemAct where
  /-- `bsem_alloc` takes the entry `d`. -/
  | alloc (d : BIdx)
  | free
  /-- The branch of `bsem_down` that gets the semaphore. -/
  | take (me : ThreadRef)
  /-- The branch of `bsem_down` that has to wait. -/
  | place (me : ThreadRef)
  | up

def BsemAct.apply : BsemAct → Bsem → Bsem
  | .alloc d, b => { b with value := 1, descriptor := (d.val : Int) }
  | .free, b => { b with descriptor := -1 }
  | .take me, b =>
    { b with currentThread := some me, threads := removeCurrentThread b.threads me, value := 0 }
  | .place me, b => { b with threads := (placeThreadInLine b.threads me).getD b.threads }
  | .up, b => { b with currentThread := none, value := 1 }

end Xv6
