import Mathlib.Algebra.Group.Int.Defs
import Mathlib.Algebra.Ring.Nat
import Mathlib.Tactic.Common

/-!
# Machine arithmetic

The result of an operation on machine integers is a value of its type, or the operation overflows:
a build that checks it stops there, and any other keeps the low bits.  A cast (`asU64` and its
like) keeps the low bits in every build.
-/

namespace Checked

def asU64 (n : Int) : Nat := (n % 2 ^ 64).toNat

def asU32 (n : Nat) : Nat := n % 2 ^ 32

def asI64 (n : Int) : Int := n.bmod (2 ^ 64)

def asI32 (n : Int) : Int := n.bmod (2 ^ 32)

section
variable (checks : Bool)

def u64 (n : Int) : Option Nat :=
  if 0 ≤ n ∧ n < 2 ^ 64 then some n.toNat else if checks then none else some (asU64 n)

def i64 (n : Int) : Option Int :=
  if -2 ^ 63 ≤ n ∧ n < 2 ^ 63 then some n else if checks then none else some (asI64 n)

def i32 (n : Int) : Option Int :=
  if -2 ^ 31 ≤ n ∧ n < 2 ^ 31 then some n else if checks then none else some (asI32 n)

variable {checks}

theorem u64_of {n : Int} {m : Nat} (h : n = m) (hless : m < 2 ^ 64) : u64 checks n = some m := by
  subst h
  rw [u64, if_pos (by omega), Int.toNat_natCast]

theorem i64_of {n : Int} (hleast : -2 ^ 63 ≤ n) (hless : n < 2 ^ 63) : i64 checks n = some n :=
  if_pos ⟨hleast, hless⟩

theorem i32_of {n : Int} (hleast : -2 ^ 31 ≤ n) (hless : n < 2 ^ 31) : i32 checks n = some n :=
  if_pos ⟨hleast, hless⟩

end

/-- Without checks there is a result. -/
theorem i32_unchecked (n : Int) : ∃ m, i32 false n = some m := by
  unfold i32
  split
  · exact ⟨n, rfl⟩
  · exact ⟨asI32 n, rfl⟩

theorem asU64_of {n : Int} {m : Nat} (h : n = m) (hless : m < 2 ^ 64) : asU64 n = m := by
  subst h
  rw [asU64, Int.emod_eq_of_lt (by omega) (by omega), Int.toNat_natCast]

theorem asU32_of {n : Nat} (h : n < 2 ^ 32) : asU32 n = n := Nat.mod_eq_of_lt h

theorem asI64_of {n : Int} (hleast : -2 ^ 63 ≤ n) (hless : n < 2 ^ 63) : asI64 n = n :=
  Int.bmod_eq_of_le (by omega) (by omega)

theorem asI32_of {n : Int} (hleast : -2 ^ 31 ≤ n) (hless : n < 2 ^ 31) : asI32 n = n :=
  Int.bmod_eq_of_le (by omega) (by omega)

/-- A step without overflow. -/
theorem bind_of {α β : Type} {x : Option α} {a : α} (h : x = some a) (f : α → Option β) :
    (x >>= f) = f a := by
  rw [h]
  rfl

end Checked
