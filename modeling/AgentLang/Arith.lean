/-!
# Integers of the language

Every value of the language is a 64-bit signed integer. Addition,
subtraction and multiplication wrap around; division rounds toward zero
and is undefined when the quotient is not a value of the language, that
is, for a zero divisor and for the least integer divided by -1.

A literal is a run of decimal digits, leading zeros included, and denotes
an integer only up to the largest one.
-/

namespace AgentLang

/-- The arithmetic operators. -/
inductive BinOp where
  | add | sub | mul | div
deriving Repr, DecidableEq

/-- How an operator is written. -/
def BinOp.text : BinOp → String
  | add => "+"
  | sub => "-"
  | mul => "*"
  | div => "/"

/-- The quotient rounded toward zero, if it is an integer of the language. -/
def quotient? (a b : Int64) : Option Int64 :=
  if b = 0 ∨ (a = Int64.minValue ∧ b = -1) then none else some (a / b)

/-- The result of an operator, `none` where it is undefined. -/
def BinOp.apply? : BinOp → Int64 → Int64 → Option Int64
  | add, a, b => some (a + b)
  | sub, a, b => some (a - b)
  | mul, a, b => some (a * b)
  | div, a, b => quotient? a b

/-- The natural number that a run of decimal digits denotes. -/
def naturalOfDigits (digits : String) : Nat :=
  Nat.ofDigitChars 10 digits.toList 0

/-- The integer that a literal denotes, if it is not too large. -/
def integerOfDigits? (digits : String) : Option Int64 :=
  let n := naturalOfDigits digits
  if n ≤ 9223372036854775807 then some (Int64.ofNat n) else none

/-- An integer in decimal, with a sign if it is negative. -/
def renderInteger (v : Int64) : String := toString v.toInt

end AgentLang
