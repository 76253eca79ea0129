import Mathlib.Tactic

/-!
A linear order with a value on which every comparison is false.

The floating-point numbers of a programming language are compared so: `<`, `≤` and `==` are
those of the numbers, and all of them fail when one of the two values is not a number.  `<` is
still irreflexive and transitive; what is lost is that one of `a ≤ b` and `b < a` holds,
`le_iff_not_lt` being true of numbers only.
-/

/-- The values of `P`, and one that is not a number. -/
inductive WithNaN (P : Type*) where
  | number (p : P)
  | nan
  deriving DecidableEq, Repr

namespace WithNaN

variable {P : Type*} [LinearOrder P]

instance : LT (WithNaN P) where
  lt
    | number a, number b => a < b
    | _, _ => False

instance : LE (WithNaN P) where
  le
    | number a, number b => a ≤ b
    | _, _ => False

/-- Equality as the language decides it: `nan == nan` is false. -/
instance : BEq (WithNaN P) where
  beq
    | number a, number b => a == b
    | _, _ => false

instance : DecidableLT (WithNaN P)
  | number a, number b => inferInstanceAs (Decidable (a < b))
  | number _, nan | nan, _ => inferInstanceAs (Decidable False)

instance : DecidableLE (WithNaN P)
  | number a, number b => inferInstanceAs (Decidable (a ≤ b))
  | number _, nan | nan, _ => inferInstanceAs (Decidable False)

@[simp] lemma number_lt_number {a b : P} : number a < number b ↔ a < b := Iff.rfl
@[simp] lemma number_le_number {a b : P} : number a ≤ number b ↔ a ≤ b := Iff.rfl
@[simp] lemma not_nan_lt (a : WithNaN P) : ¬ nan < a := id
@[simp] lemma not_nan_le (a : WithNaN P) : ¬ nan ≤ a := id

@[simp] lemma not_lt_nan (a : WithNaN P) : ¬ a < nan := by cases a <;> exact id
@[simp] lemma not_le_nan (a : WithNaN P) : ¬ a ≤ nan := by cases a <;> exact id

lemma lt_irrefl' (a : WithNaN P) : ¬ a < a := by
  cases a with
  | number a => exact lt_irrefl a
  | nan => exact id

lemma lt_trans' {a b c : WithNaN P} (hab : a < b) (hbc : b < c) : a < c := by
  cases a with
  | nan => exact absurd hab (not_nan_lt b)
  | number a =>
      cases b with
      | nan => exact absurd hab (not_lt_nan _)
      | number b =>
          cases c with
          | nan => exact absurd hbc (not_lt_nan _)
          | number c => exact lt_trans hab hbc

/-- Two numbers of which neither is less than the other are the same. -/
lemma eq_of_not_lt {a b : WithNaN P} (ha : a ≠ nan) (hb : b ≠ nan) (hab : ¬ a < b)
    (hba : ¬ b < a) : a = b := by
  cases a with
  | nan => exact absurd rfl ha
  | number a =>
      cases b with
      | nan => exact absurd rfl hb
      | number b => exact congrArg number (le_antisymm (not_lt.mp hba) (not_lt.mp hab))

/-- Among numbers `≤` is the negation of `<` the other way round. -/
lemma le_iff_not_lt {a b : WithNaN P} (ha : a ≠ nan) (hb : b ≠ nan) : a ≤ b ↔ ¬ b < a := by
  cases a with
  | nan => exact absurd rfl ha
  | number a =>
      cases b with
      | nan => exact absurd rfl hb
      | number b => exact not_lt.symm

end WithNaN
