import AgentLang.Parser

/-!
# Parsing expressions

```text
expr    := product (("+" | "-") product)*
product := atom (("*" | "/") atom)*
atom    := ident | number
```

An expression that lacks an operand gives up with the error at hand, and
the parser stands at the token that should have been the operand. Who
asked for the expression decides how to go on.
-/

namespace AgentLang

namespace Parser

/-- A name or a literal. A token that is neither is left unread. -/
def atom (p : Parser) : Except SyntaxError Expr × Parser :=
  match p.current.kind with
  | .ident name => (.ok (.ident name p.current.span), p.advance)
  | .number digits =>
    match integerOfDigits? digits with
    | some value => (.ok (.number value p.current.span), p.advance)
    | none => (.error (.integerOutOfRange digits p.current.span), p)
  | found => (.error (.expectedAtom found p.current.span), p)

theorem remaining_atom_le (p : Parser) : p.atom.2.remaining ≤ p.remaining := by
  unfold atom
  split
  · exact remaining_advance_le p
  · split
    · exact remaining_advance_le p
    · exact Nat.le_refl _
  · exact Nat.le_refl _

/-! ## Chains of operators -/

/-- Operators that bind alike, and what stands between them. -/
structure Chain where
  /-- The operator that a token is, if it is one of them. -/
  op? : TokenKind → Option BinOp
  operand : Parser → Except SyntaxError Expr × Parser
  op?_eof : op? .eof = none
  remaining_operand_le : ∀ p : Parser, (operand p).2.remaining ≤ p.remaining

namespace Chain

variable (c : Chain)

theorem remaining_advance_lt {p : Parser} {op : BinOp} (h : c.op? p.current.kind = some op) :
    p.advance.remaining < p.remaining :=
  Parser.remaining_advance_lt fun he => by simp [he, c.op?_eof] at h

theorem remaining_operand_lt {p q : Parser} {op : BinOp} {r : Except SyntaxError Expr}
    (h : c.op? p.current.kind = some op) (hq : c.operand p.advance = (r, q)) :
    q.remaining < p.remaining := by
  have hle := c.remaining_operand_le p.advance
  rw [hq] at hle
  exact Nat.lt_of_le_of_lt hle (c.remaining_advance_lt h)

/-- The operands after `left`, each joined to what stands before it. -/
def rest (left : Expr) (p : Parser) : Except SyntaxError Expr × Parser :=
  match _ : c.op? p.current.kind with
  | none => (.ok left, p)
  | some op =>
    match _ : c.operand p.advance with
    | (.error e, q) => (.error e, q)
    | (.ok right, q) => rest (.join op left right) q
termination_by p.remaining
decreasing_by exact c.remaining_operand_lt ‹_› ‹_›

/-- Operands with operators between them. Chains associate to the left. -/
def parse (p : Parser) : Except SyntaxError Expr × Parser :=
  match c.operand p with
  | (.error e, q) => (.error e, q)
  | (.ok left, q) => c.rest left q

section Equations

variable {c} {p q : Parser} {op : BinOp} {left right : Expr} {e : SyntaxError}

theorem rest_of_none (h : c.op? p.current.kind = none) : c.rest left p = (.ok left, p) := by
  rw [rest]
  split
  · rfl
  · next op hop => simp [h] at hop

theorem rest_of_error (hop : c.op? p.current.kind = some op)
    (h : c.operand p.advance = (.error e, q)) : c.rest left p = (.error e, q) := by
  rw [rest]
  split
  · next hnone => simp [hop] at hnone
  · split
    · next e' q' hq => rw [← hq, h]
    · next right q' hq => simp [h] at hq

theorem rest_of_ok (hop : c.op? p.current.kind = some op)
    (h : c.operand p.advance = (.ok right, q)) :
    c.rest left p = c.rest (.join op left right) q := by
  rw [rest]
  split
  · next hnone => simp [hop] at hnone
  · next op' hop' =>
    obtain rfl := Option.some.inj (hop.symm.trans hop')
    split
    · next e r hr => simp [h] at hr
    · next right' r hr =>
      obtain ⟨hx, rfl⟩ := Prod.mk.inj (h.symm.trans hr)
      obtain rfl := Except.ok.inj hx
      rfl

theorem parse_of_error (h : c.operand p = (.error e, q)) : c.parse p = (.error e, q) := by
  simp only [parse, h]

theorem parse_of_ok (h : c.operand p = (.ok left, q)) : c.parse p = c.rest left q := by
  simp only [parse, h]

end Equations

theorem remaining_rest_le (left : Expr) (p : Parser) :
    (c.rest left p).2.remaining ≤ p.remaining := by
  fun_induction c.rest left p with
  | case1 => exact Nat.le_refl _
  | case2 left p op hop e q hq => exact Nat.le_of_lt (c.remaining_operand_lt hop hq)
  | case3 left p op hop right q hq ih =>
    exact Nat.le_trans ih (Nat.le_of_lt (c.remaining_operand_lt hop hq))

theorem remaining_parse_le (p : Parser) : (c.parse p).2.remaining ≤ p.remaining := by
  have hle := c.remaining_operand_le p
  unfold parse
  split
  · next e q hq => rw [hq] at hle; exact hle
  · next left q hq =>
    rw [hq] at hle
    exact Nat.le_trans (c.remaining_rest_le left q) hle

end Chain

/-! ## Products and sums -/

/-- The operator of a product, if the token is one. -/
def productOp? : TokenKind → Option BinOp
  | .symbol .star => some .mul
  | .symbol .slash => some .div
  | _ => none

/-- The operator of a sum, if the token is one. -/
def sumOp? : TokenKind → Option BinOp
  | .symbol .plus => some .add
  | .symbol .minus => some .sub
  | _ => none

/-- Atoms with `*` and `/` between them. -/
def atoms : Chain where
  op? := productOp?
  operand := atom
  op?_eof := rfl
  remaining_operand_le := remaining_atom_le

/-- The factors after `left`, each joined to what stands before it. -/
def factors (left : Expr) (p : Parser) : Except SyntaxError Expr × Parser := atoms.rest left p

/-- A chain of `*` and `/`, which bind tighter than `+` and `-`. -/
def product (p : Parser) : Except SyntaxError Expr × Parser := atoms.parse p

/-- Products with `+` and `-` between them. -/
def products : Chain where
  op? := sumOp?
  operand := product
  op?_eof := rfl
  remaining_operand_le := atoms.remaining_parse_le

/-- The summands after `left`, each joined to what stands before it. -/
def summands (left : Expr) (p : Parser) : Except SyntaxError Expr × Parser :=
  products.rest left p

/-- A chain of `+` and `-`. -/
def expression (p : Parser) : Except SyntaxError Expr × Parser := products.parse p

theorem remaining_expression_le (p : Parser) :
    p.expression.2.remaining ≤ p.remaining := products.remaining_parse_le p

end Parser

end AgentLang
