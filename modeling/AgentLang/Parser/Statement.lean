import AgentLang.Parser.Expression

/-!
# Parsing statements

```text
block     := (statement ";")*
statement := ("?" | "+" | "!") term
term      := ident "(" [expr ("," expr)*] ")"
```

A statement that fails is reported and skipped, so that a block yields
every other statement in it.
-/

namespace AgentLang

namespace Parser

/-- The arguments after the first, each after a comma. -/
def moreArgs (p : Parser) : Except SyntaxError (List Expr) × Parser :=
  if p.sees .comma then
    match _ : p.advance.expression with
    | (.error e, q) => (.error e, q)
    | (.ok arg, q) =>
      match q.moreArgs with
      | (.error e, r) => (.error e, r)
      | (.ok args, r) => (.ok (arg :: args), r)
  else (.ok [], p)
termination_by p.remaining
decreasing_by
  have h1 := remaining_advance_lt_of_sees ‹_›
  have h2 := remaining_expression_le p.advance
  rw [‹p.advance.expression = _›] at h2
  exact Nat.lt_of_le_of_lt h2 h1

/-- The arguments between the parentheses of a term. -/
def args (p : Parser) : Except SyntaxError (List Expr) × Parser :=
  if p.sees .rparen then (.ok [], p)
  else
    match p.expression with
    | (.error e, q) => (.error e, q)
    | (.ok arg, q) =>
      match q.moreArgs with
      | (.error e, r) => (.error e, r)
      | (.ok args, r) => (.ok (arg :: args), r)

/-- A name and its parenthesised arguments. -/
def term (p : Parser) : Except SyntaxError Term × Parser :=
  let name := p.identifier
  match (name.2.expect (.symbol .lparen)).args with
  | (.error e, q) => (.error e, q)
  | (.ok args, q) =>
    let r := q.expect (.symbol .rparen)
    (.ok ⟨name.1, args, name.1.span.merge r.previous⟩, r)

/-- The kind of statement that a token opens. -/
def stmtKind? : TokenKind → Option StmtKind
  | .symbol .query => some .query
  | .symbol .plus => some .update
  | .symbol .bang => some .invoke
  | _ => none

/-- One statement, its `;` not included. -/
def statement (p : Parser) : Except SyntaxError Stmt × Parser :=
  match stmtKind? p.current.kind with
  | none => (.error (.expectedStatement p.current.kind p.current.span), p)
  | some kind =>
    match p.advance.term with
    | (.error e, q) => (.error e, q)
    | (.ok term, q) => (.ok ⟨kind, term, p.current.span.merge q.previous⟩, q)

/-- The `;` after a statement. One that is missing before a `}` is reported
without reading the brace, which belongs to the block. -/
def statementEnd (p : Parser) : Parser :=
  if p.sees .rbrace then p.report (p.mismatch (.symbol .semi))
  else p.expect (.symbol .semi)

theorem remaining_moreArgs_le (p : Parser) : p.moreArgs.2.remaining ≤ p.remaining := by
  fun_induction moreArgs p with
  | case1 p h e q hq =>
    have h1 := remaining_advance_lt_of_sees h
    have h2 := remaining_expression_le p.advance
    rw [hq] at h2
    exact Nat.le_of_lt (Nat.lt_of_le_of_lt h2 h1)
  | case2 p h arg q hq e r hr ih =>
    have h1 := remaining_advance_lt_of_sees h
    have h2 := remaining_expression_le p.advance
    rw [hq] at h2
    rw [hr] at ih
    exact Nat.le_trans ih (Nat.le_of_lt (Nat.lt_of_le_of_lt h2 h1))
  | case3 p h arg q hq args r hr ih =>
    have h1 := remaining_advance_lt_of_sees h
    have h2 := remaining_expression_le p.advance
    rw [hq] at h2
    rw [hr] at ih
    exact Nat.le_trans ih (Nat.le_of_lt (Nat.lt_of_le_of_lt h2 h1))
  | case4 => exact Nat.le_refl _

theorem remaining_args_le (p : Parser) : p.args.2.remaining ≤ p.remaining := by
  have he := remaining_expression_le p
  unfold args
  split
  · exact Nat.le_refl _
  · split
    · next e q hq => rw [hq] at he; exact he
    · next arg q hq =>
      rw [hq] at he
      have hm := remaining_moreArgs_le q
      split
      · next e r hr => rw [hr] at hm; exact Nat.le_trans hm he
      · next as r hr => rw [hr] at hm; exact Nat.le_trans hm he

theorem remaining_term_le (p : Parser) : p.term.2.remaining ≤ p.remaining := by
  have ha := remaining_args_le (p.identifier.2.expect (.symbol .lparen))
  simp only [remaining_expect, remaining_identifier] at ha
  simp only [term]
  split
  · next e q hq => rw [hq] at ha; simp only at ha ⊢; omega
  · next as q hq =>
    rw [hq] at ha
    simp only [remaining_expect] at ha ⊢
    omega

/-- A statement either is refused at its first token, with nothing read, or
reads at least that token. -/
theorem statement_cases (p : Parser) :
    p.statement = (.error (.expectedStatement p.current.kind p.current.span), p) ∨
      p.statement.2.remaining < p.remaining := by
  cases hk : stmtKind? p.current.kind with
  | none => exact .inl (by simp [statement, hk])
  | some kind =>
    right
    have hlt : p.advance.remaining < p.remaining :=
      remaining_advance_lt fun he => by simp [he, stmtKind?] at hk
    have ht := remaining_term_le p.advance
    simp only [statement, hk]
    split
    · next e q hq => rw [hq] at ht; exact Nat.lt_of_le_of_lt ht hlt
    · next t q hq => rw [hq] at ht; exact Nat.lt_of_le_of_lt ht hlt

theorem remaining_statementEnd_le (p : Parser) :
    p.statementEnd.remaining ≤ p.remaining := by
  unfold statementEnd
  split <;> simp

/-- The statements of a block, up to its `}` or the end of the file. -/
def block (p : Parser) : List Stmt × Parser :=
  if p.atBlockEnd then ([], p)
  else
    match _ : p.statement with
    | (.ok stmt, q) =>
      let rest := q.statementEnd.block
      (stmt :: rest.1, rest.2)
    | (.error e, q) => (q.report e).recover.block
termination_by p.remaining
decreasing_by
  all_goals rename_i hend hs
  · have hlt : q.remaining < p.remaining := by
      rcases statement_cases p with h | h
      · simp [hs] at h
      · simpa [hs] using h
    exact Nat.lt_of_le_of_lt (remaining_statementEnd_le q) hlt
  · rcases statement_cases p with h | h
    · rw [hs] at h
      obtain rfl : q = p := (Prod.mk.inj h).2
      exact remaining_recover_lt (p := q.report e) (by simpa using hend)
    · rw [hs] at h
      exact Nat.lt_of_le_of_lt (remaining_recover_le _) (by simpa using h)

theorem remaining_block_le (p : Parser) : p.block.2.remaining ≤ p.remaining := by
  fun_induction block p with
  | case1 => exact Nat.le_refl _
  | case2 p hend stmt q hs rest ih =>
    have hq : q.remaining ≤ p.remaining := by
      rcases statement_cases p with h | h
      · simp [hs] at h
      · simpa [hs] using Nat.le_of_lt h
    exact Nat.le_trans ih (Nat.le_trans (remaining_statementEnd_le q) hq)
  | case3 p hend e q hs ih =>
    have hq : q.remaining ≤ p.remaining := by
      rcases statement_cases p with h | h
      · rw [hs] at h
        exact Nat.le_of_eq (congrArg remaining (Prod.mk.inj h).2)
      · simpa [hs] using Nat.le_of_lt h
    exact Nat.le_trans ih
      (Nat.le_trans (remaining_recover_le _) (by simpa using hq))

end Parser

end AgentLang
