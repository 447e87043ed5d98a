import Mathlib.Data.Nat.Init

/-! # Literal indices

A literal of `Fin n` rests on `n` not being zero. For the sizes of the tables that are written as literals the
fact has a name, and a module that opens `Index` takes it by that name.
-/

namespace Index

scoped instance neZero_one : @NeZero ℕ Zero.ofOfNat0 1 := ⟨by decide⟩

scoped instance neZero_two : @NeZero ℕ Zero.ofOfNat0 2 := ⟨by decide⟩

scoped instance neZero_three : @NeZero ℕ Zero.ofOfNat0 3 := ⟨by decide⟩

scoped instance neZero_eight : @NeZero ℕ Zero.ofOfNat0 8 := ⟨by decide⟩

scoped instance neZero_thirtyTwo : @NeZero ℕ Zero.ofOfNat0 32 := ⟨by decide⟩

scoped instance neZero_sixtyFour : @NeZero ℕ Zero.ofOfNat0 64 := ⟨by decide⟩

end Index
