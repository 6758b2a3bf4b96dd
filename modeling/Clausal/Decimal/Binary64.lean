/-!
# Binary floating point numbers

A number is its 64 bits: a sign, eleven bits of exponent and 52 bits of fraction. A finite number
is `± coefficient * 2 ^ exponent`.
-/
namespace Clausal

structure Binary64 where
  bits : UInt64
  deriving DecidableEq, Repr

namespace Binary64

/-- All bits but the sign. -/
def magnitude (x : Binary64) : Nat := x.bits.toNat % Nat.pow 2 63

def isNegative (x : Binary64) : Bool := Nat.pow 2 63 ≤ x.bits.toNat

def ofMagnitude (negative : Bool) (magnitude : Nat) : Binary64 :=
  ⟨UInt64.ofNat ((if negative then Nat.pow 2 63 else 0) + magnitude)⟩

/-- The magnitude of the infinities; those above it are not numbers. -/
def infiniteMagnitude : Nat := 0x7FF * Nat.pow 2 52

def nan (negative : Bool) : Binary64 := ofMagnitude negative (infiniteMagnitude + Nat.pow 2 51)

def infinity (negative : Bool) : Binary64 := ofMagnitude negative infiniteMagnitude

def isNaN (x : Binary64) : Bool := infiniteMagnitude < x.magnitude

def isInfinite (x : Binary64) : Bool := x.magnitude = infiniteMagnitude

def biasedExponent (x : Binary64) : Nat := x.magnitude / Nat.pow 2 52

def fraction (x : Binary64) : Nat := x.magnitude % Nat.pow 2 52

def coefficient (x : Binary64) : Nat :=
  if x.biasedExponent = 0 then x.fraction else Nat.pow 2 52 + x.fraction

/-- The power of two that one unit of the coefficient stands for, plus 1074. -/
def scale (x : Binary64) : Nat := x.biasedExponent - 1

/-- The rank in the order that runs from the negative not-a-numbers over minus zero and zero to
the positive not-a-numbers. -/
def rank (x : Binary64) : Int :=
  if x.isNegative then -(x.magnitude : Int) - 1 else x.magnitude

theorem rank_injective {x y : Binary64} (h : x.rank = y.rank) : x = y := by
  obtain ⟨a⟩ := x
  obtain ⟨b⟩ := y
  have ha := a.toNat_lt
  have hb := b.toNat_lt
  simp only [rank, isNegative, magnitude, Nat.pow_eq, decide_eq_true_eq] at h
  congr 1
  apply UInt64.toNat.inj
  split at h <;> split at h <;> omega

end Binary64

end Clausal
