import AgentLang.Proofs.Lookahead

/-!
# Tokens are read in order

Whatever a production makes of its tokens, and however it goes on after an error, it
takes them from the front of what is unread, one after the other, and puts none back
(`Parser.Onward`). So the parser at any point of a unit stands somewhere in the tokens
of its source (`Parser.Onward.exists_unread`).
-/

namespace AgentLang

namespace Parser

/-- `q` stands in the tokens of `p`, at its place or behind it. -/
def Onward (p q : Parser) : Prop := q.stream <:+ p.stream

section Onward

variable {p q r : Parser} {α : Type}

theorem Onward.refl (p : Parser) : p.Onward p := List.suffix_refl _

theorem Onward.trans (h : p.Onward q) (h' : q.Onward r) : p.Onward r := List.IsSuffix.trans h' h

theorem Onward.of_eq {s : α × Parser} {x : α} (h : p.Onward s.2) (hs : s = (x, q)) :
    p.Onward q := by
  subst hs
  exact h

/-- What was read in between. -/
theorem Onward.exists_unread (h : p.Onward q) :
    (∃ ts, p.unread = ts ++ q.unread) ∧ q.eof = p.eof := by
  obtain ⟨ts, hts⟩ := h
  rw [stream, stream, ← List.append_assoc] at hts
  obtain ⟨hunread, heof⟩ := List.append_inj' hts rfl
  exact ⟨⟨ts, hunread.symm⟩, (Token.mk.inj (List.cons.inj heof).1).2⟩

end Onward

theorem onward_advance (p : Parser) : p.Onward p.advance := by
  unfold Onward stream advance
  split
  · next h => simp [h]
  · next t ts h =>
    rw [h]
    exact List.suffix_cons t _

@[simp] theorem stream_expect (p : Parser) (e : Expected) :
    (p.expect e).stream = p.advance.stream := by
  unfold expect
  split
  · rfl
  · unfold advance
    split <;> simp_all [report, stream]

theorem onward_report (p : Parser) (e : SyntaxError) : p.Onward (p.report e) := .refl p

theorem onward_expect (p : Parser) (e : Expected) : p.Onward (p.expect e) := by
  rw [Onward, stream_expect]
  exact p.onward_advance

theorem onward_recover (p : Parser) : p.Onward p.recover := by
  fun_induction recover p with
  | case1 p => exact .refl p
  | case2 p => exact p.onward_advance
  | case3 p _ _ ih => exact p.onward_advance.trans ih

/-! ## Expressions -/

theorem onward_atom (p : Parser) : p.Onward p.atom.2 := by
  unfold atom
  split
  · exact p.onward_advance
  · split
    · exact p.onward_advance
    · exact .refl p
  · exact .refl p

section Chain

variable {c : Chain} (hoperand : ∀ p : Parser, p.Onward (c.operand p).2)
include hoperand

theorem Chain.onward_rest (left : Expr) (p : Parser) : p.Onward (c.rest left p).2 := by
  fun_induction c.rest left p with
  | case1 left p => exact .refl p
  | case2 left p op hop e q hq => exact p.onward_advance.trans ((hoperand p.advance).of_eq hq)
  | case3 left p op hop right q hq ih =>
      exact (p.onward_advance.trans ((hoperand p.advance).of_eq hq)).trans ih

theorem Chain.onward_parse (p : Parser) : p.Onward (c.parse p).2 := by
  unfold parse
  split
  · next e q hq => exact (hoperand p).of_eq hq
  · next left q hq => exact ((hoperand p).of_eq hq).trans (onward_rest hoperand left q)

end Chain

theorem onward_product (p : Parser) : p.Onward p.product.2 := Chain.onward_parse onward_atom p

theorem onward_expression (p : Parser) : p.Onward p.expression.2 :=
  Chain.onward_parse onward_product p

/-! ## Statements -/

theorem onward_moreArgs (p : Parser) : p.Onward p.moreArgs.2 := by
  fun_induction moreArgs p with
  | case1 p hcomma e q hq => exact p.onward_advance.trans (p.advance.onward_expression.of_eq hq)
  | case2 p hcomma arg q hq e r hr ih =>
      exact (p.onward_advance.trans (p.advance.onward_expression.of_eq hq)).trans (ih.of_eq hr)
  | case3 p hcomma arg q hq args r hr ih =>
      exact (p.onward_advance.trans (p.advance.onward_expression.of_eq hq)).trans (ih.of_eq hr)
  | case4 p => exact .refl p

theorem onward_args (p : Parser) : p.Onward p.args.2 := by
  unfold args
  split
  · exact .refl p
  · split
    · next e q hq => exact p.onward_expression.of_eq hq
    · next arg q hq =>
      have harg := p.onward_expression.of_eq hq
      split
      · next e r hr => exact harg.trans (q.onward_moreArgs.of_eq hr)
      · next args r hr => exact harg.trans (q.onward_moreArgs.of_eq hr)

theorem onward_term (p : Parser) : p.Onward p.term.2 := by
  have hopen := (p.onward_expect .identifier).trans
    (onward_expect (p.expect .identifier) (.symbol .lparen))
  simp only [term]
  split
  · next e q hq => exact hopen.trans ((onward_args _).of_eq hq)
  · next args q hq => exact (hopen.trans ((onward_args _).of_eq hq)).trans (q.onward_expect _)

theorem onward_statement (p : Parser) : p.Onward p.statement.2 := by
  unfold statement
  split
  · exact .refl p
  · split
    · next e q hq => exact p.onward_advance.trans (p.advance.onward_term.of_eq hq)
    · next t q hq => exact p.onward_advance.trans (p.advance.onward_term.of_eq hq)

theorem onward_statementEnd (p : Parser) : p.Onward p.statementEnd := by
  unfold statementEnd
  split
  · exact p.onward_report _
  · exact p.onward_expect _

theorem onward_block (p : Parser) : p.Onward p.block.2 := by
  fun_induction block p with
  | case1 p => exact .refl p
  | case2 p hend stmt q hs rest ih =>
      exact ((p.onward_statement.of_eq hs).trans q.onward_statementEnd).trans ih
  | case3 p hend e q hs ih =>
      exact (((p.onward_statement.of_eq hs).trans (q.onward_report e)).trans
        (onward_recover _)).trans ih

/-! ## Declarations -/

section Element

variable {α : Type} (element : Element α) (h : ∀ p : Parser, p.Onward (element.read p).2)
include h

theorem Element.onward_more (p : Parser) : p.Onward (element.more p).2 := by
  fun_induction element.more p with
  | case1 p hcomma first rest ih => exact (p.onward_advance.trans (h p.advance)).trans ih
  | case2 p => exact .refl p

theorem Element.onward_list (p : Parser) : p.Onward (element.list p).2 :=
  (h p).trans (element.onward_more h _)

end Element

theorem onward_param (p : Parser) : p.Onward p.param.2 :=
  ((p.onward_expect .identifier).trans (onward_expect _ _)).trans (onward_expect _ _)

theorem onward_params (p : Parser) : p.Onward p.params.2 := by
  unfold params
  split
  · split
    · exact p.onward_advance.trans (onward_expect _ _)
    · exact (p.onward_advance.trans (parameter.onward_list onward_param _)).trans
        (onward_expect _ _)
  · exact .refl p

theorem onward_beliefAtom (p : Parser) : p.Onward p.beliefAtom.2 := by
  unfold beliefAtom
  split
  · next value q hq => exact p.onward_atom.of_eq hq
  · next e q hq =>
    exact ((p.onward_atom.of_eq hq).trans (q.onward_report e)).trans (onward_advance _)

theorem onward_beliefInit (p : Parser) : p.Onward p.beliefInit.2 := by
  unfold beliefInit
  split
  · exact .refl p
  · exact initialValue.onward_list onward_beliefAtom p

theorem onward_belief (p : Parser) : p.Onward p.belief.2 := by
  have hhead := ((p.onward_expect (.keyword .bel)).trans (onward_expect _ .identifier)).trans
    (onward_expect _ (.symbol .lparen))
  have hclose := (hhead.trans (onward_beliefInit _)).trans (onward_expect _ (.symbol .rparen))
  simp only [belief]
  split
  · exact hclose.trans (onward_advance _)
  · exact hclose

theorem onward_member (kind : MemberKind) (p : Parser) : p.Onward (p.member kind).2 :=
  ((((p.onward_expect .identifier).trans (onward_params _)).trans (onward_expect _ _)).trans
    (onward_block _)).trans (onward_expect _ _)

theorem onward_items (p : Parser) : p.Onward p.items.2 := by
  fun_induction items p with
  | case1 p hk first rest ih => exact p.onward_belief.trans ih
  | case2 p hk first rest ih => exact (p.onward_advance.trans (onward_member _ _)).trans ih
  | case3 p hk first rest ih => exact (p.onward_advance.trans (onward_member _ _)).trans ih
  | case4 p => exact .refl p

end Parser

end AgentLang
