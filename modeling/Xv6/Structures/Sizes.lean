import Mathlib.Algebra.Order.BigOperators.Ring.Finset

set_option autoImplicit false

/-! # Sizes of tables

An index into a table of fixed size may be written as a numeral because the table is not empty. -/

namespace Structures

instance neZero_8 : NeZero 8 := ⟨by decide⟩

instance neZero_32 : NeZero 32 := ⟨by decide⟩

instance neZero_64 : NeZero 64 := ⟨by decide⟩

instance neZero_128 : NeZero 128 := ⟨by decide⟩

end Structures
