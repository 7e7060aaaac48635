import AgentLang.Proofs.FirstError
import AgentLang.Proofs.Reading
import AgentLang.Proofs.Recovery

/-!
# Damaged bodies

A body can be damaged in three ways from which the parser recovers without a trace:
stray tokens up to a `;` where a statement is due, a statement that lacks an operand, up
to its `;`, and a last statement without its `;`. However often a source without errors
is damaged so, the agent is the same, and there is one error for each damage, at the
token where the damage shows (`damage_reported_once`).

`Damaged` says which tokens come out of the damages, in terms of the grammar, and every
source without errors is a place to start from (`Damaged.undamaged`). The parser is
followed through the tokens themselves (`Parser.Facing`), since an error has the span of
one of them. Where a production reads what it should, the kinds of the tokens are enough
(`Parser.At`), and as tokens are read in order the ones that are left are known
(`Parser.Facing.of_at`).
-/

open scoped Computability

namespace AgentLang

open Grammar

/-! ## Damages -/

/-- A damage, with the token where it shows. -/
inductive Damage where
  /-- Tokens that start no statement; the first of them. -/
  | stray (first : Token)
  /-- A statement without an operand; what stands in its place. -/
  | gap (found : Token)
  /-- A last statement without its `;`; what closes the block. -/
  | unended (close : Token)
deriving Repr, DecidableEq

/-- The error of finding the token where an operand is due. -/
def Token.refusal (t : Token) : SyntaxError :=
  match t.kind with
  | .number digits => .integerOutOfRange digits t.span
  | found => .expectedAtom found t.span

def Damage.error : Damage → SyntaxError
  | stray first => .expectedStatement first.kind first.span
  | gap found => found.refusal
  | unended close => .unexpectedToken (.symbol .semi) close.kind close.span

/-- A name, or a number that is not too large. -/
def TokenKind.IsOperand : TokenKind → Prop
  | ident _ => True
  | number digits => naturalOfDigits digits ≤ 9223372036854775807
  | _ => False

/-- The tokens reach to their only `;`, and no `}` is among them. -/
inductive ToSemicolon : List Token → Prop
  | semi {t : Token} : t.kind = .symbol .semi → ToSemicolon [t]
  | skip {t : Token} {ts : List Token} : t.kind ≠ .symbol .semi → t.kind ≠ .symbol .rbrace →
      ToSemicolon ts → ToSemicolon (t :: ts)

theorem ToSemicolon.ne_rbrace {t : Token} {ts : List Token} (h : ToSemicolon (t :: ts)) :
    t.kind ≠ .symbol .rbrace := by
  cases h with
  | semi hsemi => simp [hsemi]
  | skip _ hbrace _ => exact hbrace

namespace Grammar

/-- The start of a statement, through its opening parenthesis. -/
def opening : Language TokenKind :=
  (sym .query + sym .plus + sym .bang) * ident * sym .lparen

def operator : Language TokenKind := sym .plus + sym .minus + sym .star + sym .slash

/-- Arguments up to a point where an operand is due: at their start, after a comma or
after an operator. -/
def operandDue : Language TokenKind := (expr * sym .comma)∗ * optional (expr * operator)

/-- A name with its parameters, through the opening brace. -/
def heading : Language TokenKind :=
  ident * optional (sym .lparen * params * sym .rparen) * sym .lbrace

/-- The start of a plan or handler. -/
def memberHead : Language TokenKind := (key .on + key .plan) * heading

end Grammar

/-- The tokens are those of a body, up to the `}` that closes it, after some damages. -/
inductive DamagedBody (close : Token) : List TokenKind → List Token → List Damage → Prop
  | intact : DamagedBody close [] [] []
  | statement {st ts : List Token} {semi : Token} {ks : List TokenKind} {ds : List Damage} :
      st.map Token.kind ∈ Grammar.statement → semi.kind = .symbol .semi →
      DamagedBody close ks ts ds →
      DamagedBody close (st.map Token.kind ++ .symbol .semi :: ks) (st ++ semi :: ts) ds
  | stray {t : Token} {junk ts : List Token} {ks : List TokenKind} {ds : List Damage} :
      (∀ kind : StmtKind, t.kind ≠ .symbol kind.symbol) → ToSemicolon (t :: junk) →
      DamagedBody close ks ts ds →
      DamagedBody close ks (t :: junk ++ ts) (.stray t :: ds)
  | gap {t : Token} {head args junk ts : List Token} {ks : List TokenKind} {ds : List Damage} :
      head.map Token.kind ∈ opening → args.map Token.kind ∈ operandDue →
      InRange (args.map Token.kind) → ¬t.kind.IsOperand →
      (args = [] → t.kind ≠ .symbol .rparen) → ToSemicolon (t :: junk) →
      DamagedBody close ks ts ds →
      DamagedBody close ks (head ++ (args ++ (t :: junk ++ ts))) (.gap t :: ds)
  | unended {st : List Token} : st.map Token.kind ∈ Grammar.statement →
      DamagedBody close (st.map Token.kind ++ [.symbol .semi]) st [.unended close]

/-- The tokens are those of some items, after some damages to their bodies. -/
inductive DamagedItems : List TokenKind → List Token → List Damage → Prop
  | done : DamagedItems [] [] []
  | belief {bs ts : List Token} {ks : List TokenKind} {ds : List Damage} :
      bs.map Token.kind ∈ Grammar.belief → DamagedItems ks ts ds →
      DamagedItems (bs.map Token.kind ++ ks) (bs ++ ts) ds
  | member {head body ts : List Token} {close : Token} {kb ks : List TokenKind}
      {db ds : List Damage} : head.map Token.kind ∈ memberHead → close.kind = .symbol .rbrace →
      DamagedBody close kb body db → DamagedItems ks ts ds →
      DamagedItems (head.map Token.kind ++ (kb ++ .symbol .rbrace :: ks))
        (head ++ (body ++ close :: ts)) (db ++ ds)

/-- The tokens are those of an agent, after some damages to its bodies. -/
inductive Damaged : List TokenKind → List Token → List Damage → Prop
  | agent {head body : List Token} {close : Token} {ks : List TokenKind} {ds : List Damage} :
      head.map Token.kind ∈ key .agent * heading → close.kind = .symbol .rbrace →
      DamagedItems ks body ds →
      Damaged (head.map Token.kind ++ (ks ++ [.symbol .rbrace])) (head ++ (body ++ [close])) ds

namespace Parser

/-! ## Known tokens -/

/-- The parser stands before these tokens, with these errors. -/
structure Facing (p : Parser) (ts : List Token) (es : List SyntaxError) : Prop where
  unread : p.unread = ts
  errors : p.errors = es

section Facing

variable {p q : Parser} {t : Token} {ts rest : List Token} {es es' : List SyntaxError}

theorem Facing.at (h : p.Facing ts es) : p.At (ts.map Token.kind) es :=
  ⟨congrArg _ h.unread, h.errors⟩

theorem Facing.current (h : p.Facing (t :: ts) es) : p.current = t := by
  simp [Parser.current, h.unread]

theorem Facing.advance (h : p.Facing (t :: ts) es) : p.advance.Facing ts es :=
  ⟨by simp [Parser.advance, h.unread], by rw [errors_advance, h.errors]⟩

theorem Facing.report (h : p.Facing ts es) (e : SyntaxError) : (p.report e).Facing ts (es ++ [e]) :=
  ⟨h.unread, congrArg (· ++ [e]) h.errors⟩

theorem Facing.expect_sym {s : Symbol} (h : p.Facing (t :: ts) es) (ht : t.kind = .symbol s) :
    (p.expect (.symbol s)).Facing ts es := by
  rw [Parser.expect, h.current, ht, if_pos (by simp [Expected.admits])]
  exact h.advance

/-- The kinds of what is left tell which tokens are left. -/
theorem Facing.of_at (h : p.Facing (ts ++ rest) es) (hq : p.Onward q)
    (hat : q.At (rest.map Token.kind) es') : q.Facing rest es' := by
  obtain ⟨read, hread⟩ := hq.exists_unread.1
  rw [h.unread] at hread
  have hlength : rest.length = q.unread.length := by
    simpa [kinds] using congrArg List.length hat.kinds.symm
  exact ⟨(List.append_inj' hread hlength).2.symm, hat.errors⟩

theorem Facing.not_atBlockEnd (h : p.Facing (t :: ts) es) (hbrace : t.kind ≠ .symbol .rbrace)
    (heof : t.kind ≠ .eof) : p.atBlockEnd = false := by
  simp [atBlockEnd, atEnd, Parser.sees, h.current, hbrace, heof]

/-- Skipping goes through the `;`. -/
theorem recover_facing (hts : ToSemicolon ts) :
    ∀ {p : Parser}, (∀ t ∈ ts, t.kind ≠ .eof) → p.Facing (ts ++ rest) es →
      p.recover.Facing rest es := by
  induction hts with
  | semi hsemi =>
      intro p _ h
      rw [List.singleton_append] at h
      have hend := h.not_atBlockEnd (by simp [hsemi]) (by simp [hsemi])
      rw [recover, if_neg (by simp [hend]), if_pos (by simp [sees, h.current, hsemi])]
      exact h.advance
  | skip hsemi hbrace _ ih =>
      intro p heof h
      rw [List.forall_mem_cons] at heof
      rw [List.cons_append] at h
      have hend := h.not_atBlockEnd hbrace heof.1
      rw [recover, if_neg (by simp [hend]), if_neg (by simp [sees, h.current, hsemi])]
      exact ih heof.2 h.advance

end Facing

/-! ## Missing operands -/

section Gap

variable {p q : Parser} {k : TokenKind} {ks rest : List TokenKind} {es : List SyntaxError}
  {op : BinOp} {left : Expr} {e : SyntaxError}

theorem atom_gap (h : p.At (k :: rest) es) (hk : ¬k.IsOperand) :
    p.atom = (.error p.current.refusal, p) := by
  rw [← h.current] at hk
  unfold atom Token.refusal
  cases hkind : p.current.kind with
  | ident name => simp [hkind, TokenKind.IsOperand] at hk
  | number digits =>
      have hnone : integerOfDigits? digits = none := by
        rw [Option.eq_none_iff_forall_ne_some]
        intro value hvalue
        rw [hkind] at hk
        exact hk (integerOfDigits?_eq_some.mp hvalue).1
      simp only [hnone]
  | keyword w => rfl
  | symbol s => rfl
  | unknown run => rfl
  | eof => rfl

theorem product_gap (h : p.At (k :: rest) es) (hk : ¬k.IsOperand) :
    p.product = (.error p.current.refusal, p) := Chain.parse_of_error (atom_gap h hk)

theorem expression_gap (h : p.At (k :: rest) es) (hk : ¬k.IsOperand) :
    p.expression = (.error p.current.refusal, p) := Chain.parse_of_error (product_gap h hk)

/-- A product that ends with its operator. -/
theorem product_gap_after {x : Expr} (hc : x.canonical = true) (hs : x.sumFree = true)
    (hop : op.isSum = false) (hks : ks ∈ x.phrases)
    (h : p.At (ks ++ .symbol op.symbol :: k :: rest) es) (hk : ¬k.IsOperand) :
    ∃ q : Parser, p.product = (.error q.current.refusal, q) ∧ q.At (k :: rest) es := by
  obtain ⟨x', q, hproduct, -, hq⟩ := product_at hc hs hks h
  refine ⟨q.advance, ?_, hq.advance⟩
  rw [hproduct]
  exact Chain.rest_of_error (hq.current ▸ productOp?_symbol hop) (atom_gap hq.advance hk)

/-- A sum that ends with the operator of a product, which belongs to the last summand. -/
theorem sum_gap_after {op' : BinOp} {x y : Expr} {span : Span}
    (hc : (Expr.binary op' x y span).canonical = true) (hop' : op'.isSum = true)
    (hop : op.isSum = false) (hks : ks ∈ (Expr.binary op' x y span).phrases)
    (h : p.At (ks ++ .symbol op.symbol :: k :: rest) es) (hk : ¬k.IsOperand) :
    ∃ q : Parser, p.expression = (.error q.current.refusal, q) ∧ q.At (k :: rest) es := by
  simp only [Expr.canonical, hop', Bool.and_eq_true, if_true, Bool.not_eq_true'] at hc
  obtain ⟨-, ⟨kl, hl, -, rfl, rfl⟩, kr, hr, rfl⟩ := hks
  simp only [List.append_assoc, List.cons_append, List.nil_append] at h
  obtain ⟨hproduct, hsum⟩ := sumOp?_symbol hop'
  obtain ⟨x', q, hexpr, -, hq⟩ := expression_at hc.1.1 hproduct hl h
  obtain ⟨r, hright, hr⟩ := product_gap_after hc.1.2 (Expr.sumFree_of_canonical hc.1.2 hc.2) hop
    hr hq.advance hk
  refine ⟨r, ?_, hr⟩
  rw [hexpr]
  exact Chain.rest_of_error (hq.current ▸ hsum) hright

/-- An expression that ends with an operator. -/
theorem expression_gap_after {x : Expr} (hc : x.canonical = true) (op : BinOp)
    (hks : ks ∈ x.phrases) (h : p.At (ks ++ .symbol op.symbol :: k :: rest) es)
    (hk : ¬k.IsOperand) :
    ∃ q : Parser, p.expression = (.error q.current.refusal, q) ∧ q.At (k :: rest) es := by
  cases hop : op.isSum with
  | true =>
      obtain ⟨hproduct, hsum⟩ := sumOp?_symbol hop
      obtain ⟨x', q, hexpr, -, hq⟩ := expression_at hc hproduct hks h
      refine ⟨q.advance, ?_, hq.advance⟩
      rw [hexpr]
      exact Chain.rest_of_error (hq.current ▸ hsum) (product_gap hq.advance hk)
  | false =>
      cases hx : x.isSum with
      | false =>
          obtain ⟨q, hproduct, hq⟩ := product_gap_after hc (Expr.sumFree_of_canonical hc hx) hop
            hks h hk
          exact ⟨q, Chain.parse_of_error hproduct, hq⟩
      | true =>
          cases x with
          | ident name span => cases hx
          | number value span => cases hx
          | binary op' left right span => exact sum_gap_after hc hx hop hks h hk

/-- One or more arguments. -/
def someArgs (p : Parser) : Except SyntaxError (List Expr) × Parser :=
  match p.expression with
  | (.error e, q) => (.error e, q)
  | (.ok arg, q) =>
    match q.moreArgs with
    | (.error e, r) => (.error e, r)
    | (.ok args, r) => (.ok (arg :: args), r)

theorem args_eq_someArgs (h : p.sees .rparen = false) : p.args = p.someArgs := by
  rw [args, if_neg (by simp [h])]
  rfl

theorem moreArgs_eq_someArgs (h : p.sees .comma = true) : p.moreArgs = p.advance.someArgs := by
  rw [moreArgs, if_pos h, someArgs]
  split
  · next e q hq => simp only [hq]
  · next arg q hq =>
    split
    · next e r hr => simp only [hq, hr]
    · next args r hr => simp only [hq, hr]

theorem exists_operator {ks : List TokenKind} (h : ks ∈ operator) :
    ∃ op : BinOp, ks = [.symbol op.symbol] := by
  rcases h with ((rfl | rfl) | rfl) | rfl
  · exact ⟨.add, rfl⟩
  · exact ⟨.sub, rfl⟩
  · exact ⟨.mul, rfl⟩
  · exact ⟨.div, rfl⟩

/-- Arguments fail at the first token that is not the operand that is due. -/
theorem someArgs_gap {parts : List (List TokenKind)} (hk : ¬k.IsOperand) :
    ∀ {p : Parser} {last : List TokenKind}, (∀ part ∈ parts, part ∈ expr * sym .comma) →
      last ∈ optional (expr * operator) → InRange (parts.flatten ++ last) →
      p.At (parts.flatten ++ last ++ k :: rest) es →
      ∃ q : Parser, p.someArgs = (.error q.current.refusal, q) ∧ q.At (k :: rest) es := by
  induction parts with
  | nil =>
      intro p last _ hlast hr h
      rcases hlast with rfl | ⟨ke, hke, ko, hko, rfl⟩
      · exact ⟨p, by simp only [someArgs, expression_gap h hk], h⟩
      · obtain ⟨op, rfl⟩ := exists_operator hko
        simp only [List.flatten_nil, List.nil_append, inRange_append] at hr
        obtain ⟨x, hx, hphrase⟩ := exists_expr hke hr.1
        simp only [List.flatten_nil, List.nil_append, List.append_assoc,
          List.singleton_append] at h
        obtain ⟨q, hexpr, hq⟩ := expression_gap_after hx.canonical op hphrase h hk
        exact ⟨q, by simp only [someArgs, hexpr], hq⟩
  | cons part parts ih =>
      intro p last hparts hlast hr h
      obtain ⟨hpart, hrest⟩ := List.forall_mem_cons.mp hparts
      obtain ⟨ke, hke, -, rfl, rfl⟩ := hpart
      simp only [List.flatten_cons, List.append_assoc, inRange_append] at hr
      obtain ⟨x, hx, hphrase⟩ := exists_expr hke hr.1
      simp only [List.flatten_cons, List.append_assoc, List.singleton_append] at h
      obtain ⟨x', q, hexpr, -, hq⟩ := expression_complete hx.canonical ⟨rfl, rfl⟩ hphrase h
      obtain ⟨r, hargs, hr'⟩ := ih hrest hlast (inRange_append.mpr hr.2.2)
        (by simpa using hq.advance)
      rw [← moreArgs_eq_someArgs (by simp [hq.sees])] at hargs
      exact ⟨r, by simp only [someArgs, hexpr, hargs], hr'⟩

/-- Arguments start with an operand. -/
theorem operandDue_head (h : ks ∈ operandDue) (s : Symbol) :
    ks = [] ∨ ∃ k tail, ks = k :: tail ∧ k ≠ .symbol s := by
  obtain ⟨-, ⟨parts, rfl, hparts⟩, last, hlast, rfl⟩ := h
  have hexpr : Avoids (.symbol s) expr := (avoids_atom s).mul.mul
  cases parts with
  | nil =>
      rcases hlast with rfl | hlast
      · exact .inl rfl
      · exact .inr (hexpr.mul last hlast)
  | cons part parts =>
      obtain ⟨k, tail, rfl, hne⟩ := hexpr.mul part (hparts part List.mem_cons_self)
      exact .inr ⟨k, _, rfl, hne⟩

theorem args_gap (hks : ks ∈ operandDue) (hr : InRange ks) (hk : ¬k.IsOperand)
    (hclose : ks = [] → k ≠ .symbol .rparen) (h : p.At (ks ++ k :: rest) es) :
    ∃ q : Parser, p.args = (.error q.current.refusal, q) ∧ q.At (k :: rest) es := by
  have hsees : p.sees .rparen = false := by
    rcases operandDue_head hks .rparen with rfl | ⟨k', tail, rfl, hne⟩
    · rw [List.nil_append] at h
      simpa [h.sees] using hclose rfl
    · rw [List.cons_append] at h
      simpa [h.sees] using hne
  rw [args_eq_someArgs hsees]
  obtain ⟨-, ⟨parts, rfl, hparts⟩, last, hlast, rfl⟩ := hks
  exact someArgs_gap hk hparts hlast hr h

theorem statement_gap {head : List TokenKind} (hhead : head ∈ opening) (hks : ks ∈ operandDue)
    (hr : InRange ks) (hk : ¬k.IsOperand) (hclose : ks = [] → k ≠ .symbol .rparen)
    (h : p.At (head ++ (ks ++ k :: rest)) es) :
    p.atBlockEnd = false ∧
      ∃ q : Parser, p.statement = (.error q.current.refusal, q) ∧ q.At (k :: rest) es := by
  obtain ⟨-, ⟨kk, hkk, -, ⟨name, rfl⟩, rfl⟩, -, rfl, rfl⟩ := hhead
  obtain ⟨kind, rfl⟩ : ∃ kind : StmtKind, kk = [.symbol kind.symbol] := by
    rcases hkk with (rfl | rfl) | rfl
    · exact ⟨.query, rfl⟩
    · exact ⟨.update, rfl⟩
    · exact ⟨.invoke, rfl⟩
  simp only [List.append_assoc, List.singleton_append] at h
  obtain ⟨q, hargs, hq⟩ := args_gap hks hr hk hclose h.advance.identifier.2.expect_sym
  refine ⟨?_, q, statement_error (by rw [h.current, stmtKind?_symbol]) hargs, hq⟩
  rw [atBlockEnd, h.sees, atEnd, h.current]
  cases kind <;> rfl

end Gap

/-! ## Blocks -/

section Block

variable {p q : Parser} {t : Token} {ts rest : List Token} {es : List SyntaxError}

theorem block_done (h : p.Facing (t :: rest) es) (ht : t.kind = .symbol .rbrace) :
    p.block = ([], p) := by
  rw [block, if_pos (by simp [atBlockEnd, sees, h.current, ht])]

/-- A statement is read as what it is, up to the tokens after it. -/
theorem statement_facing {s : Stmt} {st : List Token} (hsay : ∀ e ∈ s.term.args, e.Sayable)
    (hst : st.map Token.kind ∈ s.phrases) (h : p.Facing (st ++ rest) es) :
    p.atBlockEnd = false ∧
      ∃ s' q, p.statement = (.ok s', q) ∧ s'.erase = s.erase ∧ q.Facing rest es := by
  have hat := h.at
  rw [List.map_append] at hat
  obtain ⟨hend, s', q, hs, herase, hq⟩ := statement_at hsay hst hat
  exact ⟨hend, s', q, hs, herase, h.of_at (p.onward_statement.of_eq hs) hq⟩

/-- At these tokens a statement fails with the error of the damage, and leaves the
tokens `junk` to be skipped. -/
def FailsAt (d : Damage) (before junk : List Token) : Prop :=
  ∀ ⦃p : Parser⦄ ⦃rest : List Token⦄ ⦃es : List SyntaxError⦄,
    p.Facing (before ++ (junk ++ rest)) es →
      p.atBlockEnd = false ∧
        ∃ q : Parser, p.statement = (.error d.error, q) ∧ q.Facing (junk ++ rest) es

theorem failsAt_stray {junk : List Token} (ht : ∀ kind : StmtKind, t.kind ≠ .symbol kind.symbol)
    (hjunk : ToSemicolon (t :: junk)) (heof : t.kind ≠ .eof) :
    FailsAt (.stray t) [] (t :: junk) := by
  intro p rest es h
  have hnone : stmtKind? p.current.kind = none := by
    rw [h.current, Option.eq_none_iff_forall_ne_some]
    exact fun kind hkind => ht kind (stmtKind?_eq_some hkind)
  refine ⟨h.not_atBlockEnd hjunk.ne_rbrace heof, p, ?_, h⟩
  rw [statement_refused hnone, h.current]
  rfl

theorem failsAt_gap {head args junk : List Token} (hhead : head.map Token.kind ∈ opening)
    (hargs : args.map Token.kind ∈ operandDue) (hr : InRange (args.map Token.kind))
    (ht : ¬t.kind.IsOperand) (hempty : args = [] → t.kind ≠ .symbol .rparen) :
    FailsAt (.gap t) (head ++ args) (t :: junk) := by
  intro p rest es h
  have hat := h.at
  simp only [List.append_assoc, List.map_append, List.cons_append, List.map_cons] at hat
  obtain ⟨hend, q, hs, hq⟩ := statement_gap hhead hargs hr ht
    (fun hnil => hempty (List.map_eq_nil_iff.mp hnil)) hat
  have hfacing : q.Facing (t :: junk ++ rest) es :=
    h.of_at (p.onward_statement.of_eq hs) (by simpa using hq)
  refine ⟨hend, q, ?_, hfacing⟩
  rw [hs, hfacing.current]
  rfl

end Block

/-! ### Bodies -/

/-- The tokens `ks` are written for some statements, and in their place `ts` is parsed to
the same statements, with an error for each damage. -/
structure BodyOf (close : Token) (ks : List TokenKind) (ts : List Token) (ds : List Damage)
    (stmts : List Stmt) : Prop where
  sayable : ∀ s ∈ stmts, ∀ e ∈ s.term.args, e.Sayable
  phrase : ks ∈ blockPhrases stmts
  parsed : ∀ {p : Parser} {rest : List Token} {es : List SyntaxError},
    p.Facing (ts ++ close :: rest) es →
      p.block.1.map Stmt.erase = stmts.map Stmt.erase ∧
        p.block.2.Facing (close :: rest) (es ++ ds.map Damage.error)

section Body

variable {close t : Token} {ks : List TokenKind} {ts : List Token} {ds : List Damage}
  {stmts : List Stmt} {s : Stmt} {st : List Token}

theorem BodyOf.intact (hclose : close.kind = .symbol .rbrace) : BodyOf close [] [] [] [] := by
  refine ⟨List.forall_mem_nil _, rfl, fun h => ?_⟩
  rw [block_done h hclose]
  exact ⟨rfl, by rwa [List.map_nil, List.append_nil]⟩

theorem BodyOf.statement {semi : Token} (hsay : ∀ e ∈ s.term.args, e.Sayable)
    (hst : st.map Token.kind ∈ s.phrases) (hsemi : semi.kind = .symbol .semi)
    (h : BodyOf close ks ts ds stmts) :
    BodyOf close (st.map Token.kind ++ .symbol .semi :: ks) (st ++ semi :: ts) ds
      (s :: stmts) := by
  refine ⟨List.forall_mem_cons.mpr ⟨hsay, h.sayable⟩, ?_, fun {p rest es} hp => ?_⟩
  · rw [List.append_cons]
    exact Language.append_mem_mul (Language.append_mem_mul hst rfl) h.phrase
  · rw [List.append_assoc, List.cons_append] at hp
    obtain ⟨hend, s', q, hs, herase, hq⟩ := statement_facing hsay hst hp
    have hnext : q.statementEnd.Facing (ts ++ close :: rest) es := by
      rw [statementEnd, if_neg (by simp [sees, hq.current, hsemi])]
      exact hq.expect_sym hsemi
    obtain ⟨herases, hfacing⟩ := h.parsed hnext
    rw [block_step hend hs]
    exact ⟨by simp [herase, herases], hfacing⟩

/-- What fails and is skipped leaves no trace but its error. -/
theorem BodyOf.skip {d : Damage} {before junk : List Token} (hfails : FailsAt d before junk)
    (hjunk : ToSemicolon junk) (heof : ∀ t ∈ junk, t.kind ≠ .eof)
    (h : BodyOf close ks ts ds stmts) :
    BodyOf close ks (before ++ (junk ++ ts)) (d :: ds) stmts := by
  refine ⟨h.sayable, h.phrase, fun {p rest es} hp => ?_⟩
  rw [List.append_assoc, List.append_assoc] at hp
  obtain ⟨hend, q, hs, hq⟩ := hfails hp
  rw [block_failed hend hs, List.map_cons, List.append_cons]
  exact h.parsed (recover_facing hjunk heof (hq.report _))

theorem BodyOf.unended (hsay : ∀ e ∈ s.term.args, e.Sayable)
    (hst : st.map Token.kind ∈ s.phrases) (hclose : close.kind = .symbol .rbrace) :
    BodyOf close (st.map Token.kind ++ [.symbol .semi]) st [.unended close] [s] := by
  refine ⟨List.forall_mem_singleton.mpr hsay, ?_, fun {p rest es} hp => ?_⟩
  · rw [blockPhrases, List.map_singleton, List.prod_singleton]
    exact Language.append_mem_mul hst rfl
  · obtain ⟨hend, s', q, hs, herase, hq⟩ := statement_facing hsay hst hp
    have hnext : q.statementEnd.Facing (close :: rest)
        (es ++ [(Damage.unended close).error]) := by
      rw [statementEnd, if_pos (by simp [sees, hq.current, hclose]), mismatch, hq.current]
      exact hq.report _
    rw [block_step hend hs, block_done hnext hclose]
    exact ⟨by simp [herase], hnext⟩

end Body

end Parser

theorem DamagedBody.exists_bodyOf {close : Token} {ks : List TokenKind} {ts : List Token}
    {ds : List Damage} (h : DamagedBody close ks ts ds) (hclose : close.kind = .symbol .rbrace) :
    InRange ks → (∀ t ∈ ts, t.kind ≠ .eof) → ∃ stmts, Parser.BodyOf close ks ts ds stmts := by
  induction h with
  | intact => exact fun _ _ => ⟨[], .intact hclose⟩
  | statement hst hsemi _ ih =>
      intro hr heof
      rw [List.append_cons, inRange_append, inRange_append] at hr
      obtain ⟨s, hsay, hphrase⟩ := exists_statement hst hr.1.1
      obtain ⟨stmts, hbody⟩ := ih hr.2 fun t ht => heof t (by simp [ht])
      exact ⟨s :: stmts, hbody.statement hsay hphrase hsemi⟩
  | stray ht hjunk _ ih =>
      intro hr heof
      obtain ⟨heof, heof'⟩ := List.forall_mem_append.mp heof
      obtain ⟨stmts, hbody⟩ := ih hr heof'
      have hfails := Parser.failsAt_stray ht hjunk (heof _ List.mem_cons_self)
      exact ⟨stmts, hbody.skip hfails hjunk heof⟩
  | gap hhead hargs hr ht hempty hjunk _ ih =>
      intro hrange heof
      simp only [List.forall_mem_append] at heof
      obtain ⟨stmts, hbody⟩ := ih hrange heof.2.2.2
      have hskip := hbody.skip (Parser.failsAt_gap hhead hargs hr ht hempty) hjunk heof.2.2.1
      rw [List.append_assoc] at hskip
      exact ⟨stmts, hskip⟩
  | unended hst =>
      intro hr _
      obtain ⟨s, hsay, hphrase⟩ := exists_statement hst (inRange_append.mp hr).1
      exact ⟨[s], .unended hsay hphrase hclose⟩

/-! ## Items -/

/-- What is written of a name with its parameters. -/
def headingPhrases (name : String) (params : List Param) : Language TokenKind :=
  word (.ident name) * paramPhrases params * sym .lbrace

theorem exists_heading {K : Language TokenKind} {ks : List TokenKind} (h : ks ∈ K * heading)
    (hr : InRange ks) : ∃ name params, ks ∈ K * headingPhrases name params := by
  obtain ⟨kk, hkk, -, ⟨-, ⟨-, ⟨name, rfl⟩, kp, hkp, rfl⟩, -, rfl, rfl⟩, rfl⟩ := h
  simp only [inRange_append] at hr
  obtain ⟨params, hparams⟩ := exists_params hkp hr.2.1.2
  exact ⟨name, params, Language.append_mem_mul hkk
    (Language.append_mem_mul (Language.append_mem_mul rfl hparams) rfl)⟩

/-- What is written of a member before its body. -/
def Member.headPhrases (m : Member) : Language TokenKind :=
  key m.kind.opener * headingPhrases m.name.name m.params

theorem exists_memberHead {ks : List TokenKind} (h : ks ∈ memberHead) (hr : InRange ks) :
    ∃ m : Member, ks ∈ m.headPhrases := by
  obtain ⟨name, params, hheading⟩ := exists_heading h hr
  rw [add_mul] at hheading
  rcases hheading with hhead | hhead
  · exact ⟨⟨.handler, ⟨name, .nowhere⟩, params, [], .nowhere⟩, hhead⟩
  · exact ⟨⟨.plan, ⟨name, .nowhere⟩, params, [], .nowhere⟩, hhead⟩

namespace Parser

/-- The tokens `ks` are written for some items, and in their place `ts` is parsed to the
same items, with an error for each damage. -/
structure ItemsOf (ks : List TokenKind) (ts : List Token) (ds : List Damage)
    (items : List Item) : Prop where
  sayable : ∀ item ∈ items, item.Sayable
  phrase : ks ∈ itemPhrases items
  start : ∀ t ∈ ts.head?, t.kind ≠ .symbol .semi
  parsed : ∀ {p : Parser} {close : Token} {rest : List Token} {es : List SyntaxError},
    close.kind = .symbol .rbrace → p.Facing (ts ++ close :: rest) es →
      p.items.1.map Item.erase = items.map Item.erase ∧
        p.items.2.Facing (close :: rest) (es ++ ds.map Damage.error)

section Items

variable {close : Token} {kb ks : List TokenKind} {ts : List Token} {ds db : List Damage}
  {items : List Item} {b : Belief} {m : Member}

theorem ItemsOf.done : ItemsOf [] [] [] [] := by
  refine ⟨List.forall_mem_nil _, rfl, nofun, fun {p close rest es} hclose h => ?_⟩
  rw [items_stop (by rw [h.current, hclose])]
  exact ⟨rfl, by rwa [List.map_nil, List.append_nil]⟩

/-- A belief is followed by an item or by the end of the body. -/
theorem ItemsOf.next (h : ItemsOf ks ts ds items) (hclose : close.kind = .symbol .rbrace)
    (rest : List Token) :
    ∃ t tail, ts ++ close :: rest = t :: tail ∧ t.kind ≠ .symbol .semi := by
  cases ts with
  | nil => exact ⟨close, rest, rfl, by simp [hclose]⟩
  | cons t ts => exact ⟨t, _, rfl, h.start t rfl⟩

/-- Tokens that start with the first token of a phrase. -/
theorem start_of_avoids {L : Language TokenKind} {bs : List Token}
    (hL : Avoids (.symbol .semi) L) (hbs : bs.map Token.kind ∈ L) :
    ∀ t ∈ (bs ++ ts).head?, t.kind ≠ .symbol .semi := by
  obtain ⟨k, tail, hmap, hne⟩ := hL _ hbs
  obtain ⟨t, bs, rfl, rfl, -⟩ := List.map_eq_cons_iff.mp hmap
  intro u hu
  obtain rfl : t = u := by simpa using hu
  exact hne

theorem ItemsOf.belief {bs : List Token} (hb : b.Sayable) (hbs : bs.map Token.kind ∈ b.phrases)
    (h : ItemsOf ks ts ds items) :
    ItemsOf (bs.map Token.kind ++ ks) (bs ++ ts) ds (.belief b :: items) := by
  refine ⟨List.forall_mem_cons.mpr ⟨hb, h.sayable⟩, Language.append_mem_mul hbs h.phrase, ?_,
    fun {p close rest es} hclose hp => ?_⟩
  · exact start_of_avoids (avoids_belief nofun) (Belief.phrases_le hb hbs)
  · rw [List.append_assoc] at hp
    obtain ⟨t, tail, heq, ht⟩ := h.next hclose rest
    have hat := hp.at
    rw [List.map_append, heq, List.map_cons] at hat
    obtain ⟨hcurrent, herase, hq⟩ := belief_at hb ht hbs hat
    rw [← List.map_cons, ← heq] at hq
    obtain ⟨herases, hfacing⟩ := h.parsed hclose (hp.of_at p.onward_belief hq)
    rw [items_belief hcurrent]
    exact ⟨by simp [Item.erase, herase, herases], hfacing⟩

/-- A name with its parameters is read as such, up to the tokens after the brace. -/
theorem heading_facing {w : Keyword} {name : String} {params : List Param} {head rest : List Token}
    {es : List SyntaxError} {p : Parser}
    (hhead : head.map Token.kind ∈ key w * headingPhrases name params)
    (h : p.Facing (head ++ rest) es) :
    p.current.kind = .keyword w ∧ p.advance.identifier.1.name = name ∧
      p.advance.identifier.2.params.1.map Param.erase = params.map Param.erase ∧
      (p.advance.identifier.2.params.2.expect (.symbol .lbrace)).Facing rest es := by
  obtain ⟨-, rfl, -, ⟨-, ⟨-, rfl, kp, hkp, rfl⟩, -, rfl, rfl⟩, hkinds⟩ := hhead
  have hat := h.at
  rw [List.map_append, ← hkinds] at hat
  simp only [List.append_assoc, List.cons_append, List.nil_append] at hat
  obtain ⟨hname, hparams⟩ := hat.advance.identifier
  obtain ⟨hps, hopen⟩ := params_at hkp hparams
  have honward : p.Onward (p.advance.identifier.2.params.2.expect (.symbol .lbrace)) :=
    ((p.onward_advance.trans (onward_expect _ .identifier)).trans (onward_params _)).trans
      (onward_expect _ (.symbol .lbrace))
  exact ⟨hat.current, hname, hps, h.of_at honward hopen.expect_sym⟩

/-- A plan or handler, from its opening word through the `}` of its body. -/
theorem member_facing {head body rest : List Token} {es : List SyntaxError} {p : Parser}
    (hhead : head.map Token.kind ∈ m.headPhrases) (hclose : close.kind = .symbol .rbrace)
    (hbody : BodyOf close kb body db m.body) (h : p.Facing (head ++ (body ++ close :: rest)) es) :
    p.current.kind = .keyword m.kind.opener ∧
      (p.advance.member m.kind).1.erase = m.erase ∧
      (p.advance.member m.kind).2.Facing rest (es ++ db.map Damage.error) := by
  obtain ⟨hcurrent, hname, hps, hopen⟩ := heading_facing hhead h
  obtain ⟨hstmts, hend⟩ := hbody.parsed hopen
  refine ⟨hcurrent, ?_, hend.expect_sym hclose⟩
  simp [member, Member.erase, hname, hps, hstmts, Ident.erase]

theorem ItemsOf.member {head body : List Token} (hhead : head.map Token.kind ∈ m.headPhrases)
    (hclose : close.kind = .symbol .rbrace) (hbody : BodyOf close kb body db m.body)
    (h : ItemsOf ks ts ds items) :
    ItemsOf (head.map Token.kind ++ (kb ++ .symbol .rbrace :: ks)) (head ++ (body ++ close :: ts))
      (db ++ ds) (.member m :: items) := by
  have hstart : Avoids (.symbol .semi) m.headPhrases := .mul (.word nofun)
  refine ⟨List.forall_mem_cons.mpr ⟨hbody.sayable, h.sayable⟩, ?_,
    start_of_avoids hstart hhead, fun {p close' rest es} hclose' hp => ?_⟩
  · obtain ⟨ko, hko, kh, hkh, hkinds⟩ := hhead
    have hmember : ko ++ (kh ++ kb ++ [.symbol .rbrace]) ∈ m.phrases :=
      Language.append_mem_mul hko
        (Language.append_mem_mul (Language.append_mem_mul hkh hbody.phrase) rfl)
    have hks : _ ∈ itemPhrases (.member m :: items) := Language.append_mem_mul hmember h.phrase
    simpa [← hkinds] using hks
  · simp only [List.append_assoc, List.cons_append] at hp
    obtain ⟨hcurrent, herase, hq⟩ := member_facing hhead hclose hbody hp
    obtain ⟨herases, hfacing⟩ := h.parsed hclose' hq
    rw [items_member m.kind hcurrent, List.map_append, ← List.append_assoc]
    exact ⟨by simp [Item.erase, herase, herases], hfacing⟩

end Items

end Parser

theorem DamagedItems.exists_itemsOf {ks : List TokenKind} {ts : List Token} {ds : List Damage}
    (h : DamagedItems ks ts ds) :
    InRange ks → (∀ t ∈ ts, t.kind ≠ .eof) → ∃ items, Parser.ItemsOf ks ts ds items := by
  induction h with
  | done => exact fun _ _ => ⟨[], .done⟩
  | belief hbs _ ih =>
      intro hr heof
      rw [inRange_append] at hr
      obtain ⟨b, hb, hphrase⟩ := exists_belief hbs hr.1
      obtain ⟨items, hitems⟩ := ih hr.2 (List.forall_mem_append.mp heof).2
      exact ⟨.belief b :: items, hitems.belief hb hphrase⟩
  | member hhead hclose hdamaged _ ih =>
      intro hr heof
      rw [List.append_cons, inRange_append, inRange_append, inRange_append] at hr
      simp only [List.forall_mem_append, List.forall_mem_cons] at heof
      obtain ⟨m, hm⟩ := exists_memberHead hhead hr.1
      obtain ⟨stmts, hbody⟩ := hdamaged.exists_bodyOf hclose hr.2.1.1 heof.2.1
      obtain ⟨items, hitems⟩ := ih hr.2.2 heof.2.2.2
      exact ⟨_, hitems.member (m := { m with body := stmts }) hm hclose hbody⟩

/-! ## Agents -/

theorem Damaged.exists_agent {ks : List TokenKind} {ts : List Token} {ds : List Damage}
    (h : Damaged ks ts ds) (hr : InRange ks) (heof : ∀ t ∈ ts, t.kind ≠ .eof) :
    ∃ a : Agent, a.Sayable ∧ ks ∈ a.phrases ∧
      ∀ {p : Parser}, p.Facing ts [] →
        p.agent.1.erase = a.erase ∧ p.agent.2.Facing [] (ds.map Damage.error) := by
  obtain ⟨hhead, hclose, hdamaged⟩ := h
  simp only [inRange_append] at hr
  simp only [List.forall_mem_append] at heof
  obtain ⟨name, params, hheading⟩ := exists_heading hhead hr.1
  obtain ⟨items, hitems⟩ := hdamaged.exists_itemsOf hr.2.1 heof.2.1
  refine ⟨.ofItems ⟨name, .nowhere⟩ params items .nowhere, Agent.ofItems_sayable hitems.sayable,
    ⟨items, rfl, rfl, ?_⟩, fun {p} hp => ?_⟩
  · have hclosed : _ ∈ itemPhrases items * sym .rbrace :=
      Language.append_mem_mul hitems.phrase rfl
    have hks := Language.append_mem_mul hheading hclosed
    simpa only [headingPhrases, Agent.ofItems, mul_assoc] using hks
  · obtain ⟨hcurrent, hname, hps, hopen⟩ := Parser.heading_facing hheading hp
    obtain ⟨herases, hend⟩ := hitems.parsed hclose hopen
    have hkey : p.expect (.keyword .agent) = p.advance := by
      rw [Parser.expect, hcurrent, if_pos (by simp [Expected.admits])]
    rw [Parser.agent, hkey]
    refine ⟨?_, hend.expect_sym hclose⟩
    simp [Agent.ofItems, Agent.erase, hname, hps, Ident.erase, map_erase_beliefs,
      map_erase_members, herases]

theorem Parser.Facing.parseUnit {p : Parser} {es : List SyntaxError}
    (h : p.agent.2.Facing [] es) : p.parseUnit = p.agent := by
  simp [Parser.parseUnit, atEnd, Parser.current, h.unread]

/-! ## Undamaged sources -/

section Undamaged

variable {L M : Language TokenKind} {ts : List Token} {close : Token}

theorem exists_of_map_mem_mul (h : ts.map Token.kind ∈ L * M) :
    ∃ us vs, ts = us ++ vs ∧ us.map Token.kind ∈ L ∧ vs.map Token.kind ∈ M := by
  obtain ⟨ks, hks, ls, hls, hkinds⟩ := h
  obtain ⟨us, vs, rfl, rfl, rfl⟩ := List.map_eq_append_iff.mp hkinds.symm
  exact ⟨us, vs, rfl, hks, hls⟩

theorem exists_of_map_mem_word {k : TokenKind} (h : ts.map Token.kind ∈ word k) :
    ∃ t : Token, t.kind = k ∧ ts = [t] := by
  obtain ⟨t, rfl, ht⟩ := List.map_eq_singleton_iff.mp h
  exact ⟨t, ht, rfl⟩

theorem tokens_kstar_induction {P : List Token → Prop} (h : ts.map Token.kind ∈ L∗) (nil : P [])
    (append : ∀ us vs, us.map Token.kind ∈ L → P vs → P (us ++ vs)) : P ts := by
  obtain ⟨parts, hkinds, hparts⟩ := h
  induction parts generalizing ts with
  | nil =>
      obtain rfl := List.map_eq_nil_iff.mp hkinds
      exact nil
  | cons part parts ih =>
      obtain ⟨us, vs, rfl, rfl, hvs⟩ := List.map_eq_append_iff.mp hkinds
      obtain ⟨hus, hparts⟩ := List.forall_mem_cons.mp hparts
      exact append us vs hus (ih hvs hparts)

theorem DamagedBody.undamaged (h : ts.map Token.kind ∈ (Grammar.statement * sym .semi)∗) :
    DamagedBody close (ts.map Token.kind) ts [] := by
  refine tokens_kstar_induction (P := fun ts => DamagedBody close (ts.map Token.kind) ts []) h
    .intact (fun us vs hus hvs => ?_)
  obtain ⟨st, tail, rfl, hst, htail⟩ := exists_of_map_mem_mul hus
  obtain ⟨semi, hsemi, rfl⟩ := exists_of_map_mem_word htail
  simpa [hsemi] using hvs.statement hst hsemi

theorem member_eq :
    Grammar.member = Grammar.belief +
      memberHead * ((Grammar.statement * sym .semi)∗ * sym .rbrace) := by
  simp only [Grammar.member, Grammar.procedure, memberHead, heading, add_mul, mul_assoc, add_assoc]

theorem agent_eq : Grammar.agent = key .agent * heading * (Grammar.member∗ * sym .rbrace) := by
  simp only [Grammar.agent, heading, mul_assoc]

theorem DamagedItems.undamaged (h : ts.map Token.kind ∈ Grammar.member∗) :
    DamagedItems (ts.map Token.kind) ts [] := by
  refine tokens_kstar_induction (P := fun ts => DamagedItems (ts.map Token.kind) ts []) h
    .done (fun us vs hus hvs => ?_)
  rw [member_eq] at hus
  rcases hus with hbelief | hmember
  · simpa using hvs.belief hbelief
  · obtain ⟨head, tail, rfl, hhead, htail⟩ := exists_of_map_mem_mul hmember
    obtain ⟨body, last, rfl, hbody, hlast⟩ := exists_of_map_mem_mul htail
    obtain ⟨close, hclose, rfl⟩ := exists_of_map_mem_word hlast
    simpa [hclose] using DamagedItems.member hhead hclose (.undamaged hbody) hvs

/-- A source without errors comes out of no damage. -/
theorem Damaged.undamaged {source : String} (h : (parse source).2 = []) :
    Damaged (tokenKinds source) (lex source).tokens [] := by
  have hagent : (lex source).tokens.map Token.kind ∈ Grammar.agent :=
    Agent.phrases_le (parse_sayable source) (tokenKinds_mem_phrases h)
  rw [agent_eq] at hagent
  obtain ⟨head, tail, hlex, hhead, htail⟩ := exists_of_map_mem_mul hagent
  obtain ⟨body, last, rfl, hbody, hlast⟩ := exists_of_map_mem_mul htail
  obtain ⟨close, hclose, rfl⟩ := exists_of_map_mem_word hlast
  simpa [tokenKinds, hlex, hclose] using Damaged.agent hhead hclose (.undamaged hbody)

end Undamaged

/-! ## One error for each damage -/

/-- Damages to the bodies of a source without errors leave its agent as it is, and each
of them is reported once, in order. -/
theorem damage_reported_once {source source' : String} {ds : List Damage}
    (h : (parse source).2 = []) (hd : Damaged (tokenKinds source) (lex source').tokens ds) :
    (parse source').1.erase = (parse source).1.erase ∧
      (parse source').2 = ds.map Damage.error := by
  have hr := Agent.phrases_le_inRange _ (tokenKinds_mem_phrases h)
  have heof : ∀ t ∈ (lex source').tokens, t.kind ≠ .eof :=
    fun t ht => ne_eof_of_mem_tokenKinds _ (List.mem_map_of_mem ht)
  obtain ⟨a, ha, hks, hparsed⟩ := hd.exists_agent hr heof
  obtain ⟨herase, hfacing⟩ := hparsed (p := .ofSource source') ⟨rfl, rfl⟩
  rw [parse, hfacing.parseUnit, herase, (parse_of_mem_phrases ha hks).1]
  exact ⟨rfl, hfacing.errors⟩

/-- A plan whose only statement is `!c()`. -/
def unscratched : String := "agent A{plan p{!c();}}"

/-- The plan of `unscratched` with a word and a call without its argument before the
statement, which lacks its `;`. -/
def scratched : String := "agent A{plan p{x;!b(;!c()}}"

/-- A token on the first line. -/
def Token.onFirstLine (kind : TokenKind) (start stop : Nat) : Token :=
  ⟨kind, ⟨⟨start, 1, .ofNat (start + 1)⟩, ⟨stop, 1, .ofNat (stop + 1)⟩⟩⟩

def scratches : List Damage :=
  [.stray (.onFirstLine (.ident "x") 15 16), .gap (.onFirstLine (.symbol .semi) 20 21),
    .unended (.onFirstLine (.symbol .rbrace) 25 26)]

theorem scratched_body :
    DamagedBody (.onFirstLine (.symbol .rbrace) 25 26)
      [.symbol .bang, .ident "c", .symbol .lparen, .symbol .rparen, .symbol .semi]
      [.onFirstLine (.ident "x") 15 16, .onFirstLine (.symbol .semi) 16 17,
        .onFirstLine (.symbol .bang) 17 18, .onFirstLine (.ident "b") 18 19,
        .onFirstLine (.symbol .lparen) 19 20, .onFirstLine (.symbol .semi) 20 21,
        .onFirstLine (.symbol .bang) 21 22, .onFirstLine (.ident "c") 22 23,
        .onFirstLine (.symbol .lparen) 23 24, .onFirstLine (.symbol .rparen) 24 25]
      scratches := by
  have hopening : [.symbol .bang, .ident "b", .symbol .lparen] ∈ opening :=
    ⟨_, ⟨_, .inr rfl, _, ⟨_, rfl⟩, rfl⟩, _, rfl, rfl⟩
  have hdue : [] ∈ operandDue := ⟨[], Language.nil_mem_kstar _, [], .inl rfl, rfl⟩
  have hstatement : [.symbol .bang, .ident "c", .symbol .lparen, .symbol .rparen] ∈
      Grammar.statement :=
    ⟨_, .inr rfl, _, ⟨_, ⟨_, ⟨_, ⟨_, rfl⟩, _, rfl, rfl⟩, _, .inl rfl, rfl⟩, _, rfl, rfl⟩, rfl⟩
  have hunended := @DamagedBody.unended (.onFirstLine (.symbol .rbrace) 25 26)
    [.onFirstLine (.symbol .bang) 21 22, .onFirstLine (.ident "c") 22 23,
      .onFirstLine (.symbol .lparen) 23 24, .onFirstLine (.symbol .rparen) 24 25] hstatement
  have hgap := @DamagedBody.gap _ (.onFirstLine (.symbol .semi) 20 21)
    [.onFirstLine (.symbol .bang) 17 18, .onFirstLine (.ident "b") 18 19,
      .onFirstLine (.symbol .lparen) 19 20] [] [] _ _ _ hopening hdue nofun id nofun (.semi rfl)
    hunended
  exact @DamagedBody.stray _ (.onFirstLine (.ident "x") 15 16)
    [.onFirstLine (.symbol .semi) 16 17] _ _ _ nofun (.skip nofun nofun (.semi rfl)) hgap

theorem scratched_damaged : Damaged (tokenKinds unscratched) (lex scratched).tokens scratches := by
  have hunscratched : tokenKinds unscratched =
      [.keyword .agent, .ident "A", .symbol .lbrace, .keyword .plan, .ident "p", .symbol .lbrace,
        .symbol .bang, .ident "c", .symbol .lparen, .symbol .rparen, .symbol .semi,
        .symbol .rbrace, .symbol .rbrace] := by
    decide +kernel
  have hscratched : (lex scratched).tokens =
      [.onFirstLine (.keyword .agent) 0 5, .onFirstLine (.ident "A") 6 7,
        .onFirstLine (.symbol .lbrace) 7 8, .onFirstLine (.keyword .plan) 8 12,
        .onFirstLine (.ident "p") 13 14, .onFirstLine (.symbol .lbrace) 14 15,
        .onFirstLine (.ident "x") 15 16, .onFirstLine (.symbol .semi) 16 17,
        .onFirstLine (.symbol .bang) 17 18, .onFirstLine (.ident "b") 18 19,
        .onFirstLine (.symbol .lparen) 19 20, .onFirstLine (.symbol .semi) 20 21,
        .onFirstLine (.symbol .bang) 21 22, .onFirstLine (.ident "c") 22 23,
        .onFirstLine (.symbol .lparen) 23 24, .onFirstLine (.symbol .rparen) 24 25,
        .onFirstLine (.symbol .rbrace) 25 26, .onFirstLine (.symbol .rbrace) 26 27] := by
    decide +kernel
  have hheading (name : String) : [.ident name, .symbol .lbrace] ∈ heading :=
    ⟨_, ⟨_, ⟨name, rfl⟩, _, .inl rfl, rfl⟩, _, rfl, rfl⟩
  have hitems := @DamagedItems.member
    [.onFirstLine (.keyword .plan) 8 12, .onFirstLine (.ident "p") 13 14,
      .onFirstLine (.symbol .lbrace) 14 15] _ [] _ _ [] _ []
    ⟨_, .inr rfl, _, hheading "p", rfl⟩ rfl scratched_body .done
  rw [hunscratched, hscratched]
  exact @Damaged.agent
    [.onFirstLine (.keyword .agent) 0 5, .onFirstLine (.ident "A") 6 7,
      .onFirstLine (.symbol .lbrace) 7 8] _ (.onFirstLine (.symbol .rbrace) 26 27) _ _
    ⟨_, rfl, _, hheading "A", rfl⟩ rfl hitems

theorem scratches_reported :
    (parse scratched).1.erase = (parse unscratched).1.erase ∧
      (parse scratched).2 = scratches.map Damage.error :=
  damage_reported_once (by decide +kernel) scratched_damaged

end AgentLang
