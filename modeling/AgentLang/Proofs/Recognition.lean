import AgentLang.Parser.Unit
import AgentLang.Proofs.Grammar

/-!
# What the parser reads

A parser that comes out of a production without a new error has read a phrase
of the tree that the production returns (`Parser.Parses`). Errors are only ever
added, so the phrases of consecutive productions can be put together, and a
mismatch that was reported anywhere settles the matter for all of them.

Whatever the errors are, the trees that come out are sayable: precedence and
the range of literals do not depend on a source without mistakes.
-/

namespace AgentLang

open Grammar

namespace Parser

/-- The kinds of the tokens still to be read. -/
def kinds (p : Parser) : List TokenKind := p.unread.map Token.kind

/-- `q` came out of `p`, and unless it has new errors, by reading a phrase. -/
structure Parses (p : Parser) (L : Language TokenKind) (q : Parser) : Prop where
  errors : p.errors <+: q.errors
  phrase : q.errors = p.errors → ∃ ks ∈ L, p.kinds = ks ++ q.kinds

theorem kinds_of_current {p : Parser} {k : TokenKind} (h : p.current.kind = k)
    (hk : k ≠ .eof) : p.kinds = k :: p.advance.kinds := by
  unfold current at h
  unfold kinds advance
  split at h
  · exact absurd h.symm hk
  · next t ts hu => simp [hu, h]

@[simp] theorem errors_advance (p : Parser) : p.advance.errors = p.errors := by
  unfold advance
  split <;> rfl

section Parses

variable {p q r : Parser} {L M : Language TokenKind}

theorem Parses.refl (p : Parser) : p.Parses 1 p :=
  ⟨List.prefix_refl _, fun _ => ⟨[], rfl, rfl⟩⟩

theorem Parses.trans (h : p.Parses L q) (h' : q.Parses M r) : p.Parses (L * M) r := by
  refine ⟨h.errors.trans h'.errors, fun heq => ?_⟩
  have hq : q.errors = p.errors :=
    (h.errors.eq_of_length_le (heq ▸ h'.errors.length_le)).symm
  obtain ⟨ks, hks, hp⟩ := h.phrase hq
  obtain ⟨ms, hms, hq'⟩ := h'.phrase (heq.trans hq.symm)
  exact ⟨ks ++ ms, Language.append_mem_mul hks hms, by rw [hp, hq', List.append_assoc]⟩

theorem Parses.mono (h : p.Parses L q) (hle : L ≤ M) : p.Parses M q :=
  ⟨h.errors, fun heq => by
    obtain ⟨ks, hks, hp⟩ := h.phrase heq
    exact ⟨ks, hle hks, hp⟩⟩

/-- Once an error is reported nothing is left to show. -/
theorem Parses.of_report (e : SyntaxError) (h : p.errors <+: q.errors)
    (h' : (q.report e).errors <+: r.errors) : p.Parses 0 r := by
  have hlt : p.errors.length < r.errors.length := by
    have := h.length_le
    have := h'.length_le
    simp only [report, List.length_append, List.length_singleton] at this
    omega
  refine ⟨h.trans ((List.prefix_append _ _).trans h'), fun heq => ?_⟩
  rw [heq] at hlt
  exact absurd hlt (Nat.lt_irrefl _)

theorem Parses.of_zero (h : p.Parses 0 q) : p.Parses L q :=
  h.mono bot_le

theorem Parses.advance {k : TokenKind} (h : p.current.kind = k) (hk : k ≠ .eof) :
    p.Parses (word k) p.advance :=
  ⟨by simp, fun _ => ⟨[k], rfl, kinds_of_current h hk⟩⟩

theorem Parses.advance_sees {s : Symbol} (h : p.sees s = true) :
    p.Parses (sym s) p.advance :=
  .advance (by simpa [sees] using h) (by simp)

end Parses

theorem parses_expect {p : Parser} {e : Expected} {L : Language TokenKind}
    (h : e.admits p.current.kind = true → [p.current.kind] ∈ L) :
    p.Parses L (p.expect e) := by
  unfold expect
  split
  · next hadmits =>
    have hne : p.current.kind ≠ .eof := by
      intro heof
      rw [heof] at hadmits
      cases e <;> cases hadmits
    exact ⟨by simp, fun _ => ⟨_, h hadmits, kinds_of_current rfl hne⟩⟩
  · have hfail : p.Parses 0 (p.report (p.mismatch e)).advance :=
      .of_report _ (List.prefix_refl _) (by rw [errors_advance])
    exact hfail.of_zero

theorem parses_expect_sym (p : Parser) (s : Symbol) :
    p.Parses (sym s) (p.expect (.symbol s)) := by
  refine parses_expect fun hadmits => ?_
  cases hk : p.current.kind with
  | symbol s' =>
      rw [hk] at hadmits
      obtain rfl : s = s' := by simpa [Expected.admits] using hadmits
      rfl
  | _ => simp [hk, Expected.admits] at hadmits

theorem parses_expect_key (p : Parser) (w : Keyword) :
    p.Parses (key w) (p.expect (.keyword w)) := by
  refine parses_expect fun hadmits => ?_
  cases hk : p.current.kind with
  | keyword w' =>
      rw [hk] at hadmits
      obtain rfl : w = w' := by simpa [Expected.admits] using hadmits
      rfl
  | _ => simp [hk, Expected.admits] at hadmits

theorem parses_identifier (p : Parser) :
    p.Parses (word (.ident p.identifier.1.name)) p.identifier.2 := by
  refine parses_expect fun hadmits => ?_
  cases hk : p.current.kind with
  | ident name =>
      simp only [identifier, Token.lexeme, hk]
      rfl
  | _ => simp [hk, Expected.admits] at hadmits

/-- A production that can fail: a tree of which a phrase was read, or an error
that is not reported yet. -/
inductive Outcome {α : Type} (P : α → Prop) (f : α → Language TokenKind) (p : Parser) :
    Except SyntaxError α × Parser → Prop
  | ok {x : α} {q : Parser} : P x → p.Parses (f x) q → Outcome P f p (.ok x, q)
  | error {e : SyntaxError} {q : Parser} : p.errors <+: q.errors →
      Outcome P f p (.error e, q)

theorem Outcome.of_ok {α : Type} {P : α → Prop} {f : α → Language TokenKind} {p q : Parser}
    {x : α} {r : Except SyntaxError α × Parser} (h : Outcome P f p r) (hr : r = (.ok x, q)) :
    P x ∧ p.Parses (f x) q := by
  subst hr
  cases h with
  | ok hx hparse => exact ⟨hx, hparse⟩

theorem Outcome.of_error {α : Type} {P : α → Prop} {f : α → Language TokenKind}
    {p q : Parser} {e : SyntaxError} {r : Except SyntaxError α × Parser}
    (h : Outcome P f p r) (hr : r = (.error e, q)) : p.errors <+: q.errors := by
  subst hr
  cases h with
  | error herr => exact herr

/-! ## Expressions -/

theorem atom_outcome (p : Parser) :
    Outcome (fun e => e.isAtom = true ∧ e.Sayable) Expr.phrases p p.atom := by
  unfold atom
  split
  · next name hk =>
    exact .ok ⟨rfl, rfl, by simp [Expr.literals]⟩ (.advance hk (by simp))
  · next digits hk =>
    split
    · next value hv =>
      refine .ok ⟨rfl, rfl, by simpa [Expr.literals] using integerOfDigits?_nonneg hv⟩ ?_
      refine (Parses.advance hk (by simp)).mono ?_
      rintro ks rfl
      exact ⟨digits, rfl, hv⟩
    · exact .error (List.prefix_refl _)
  · exact .error (List.prefix_refl _)

theorem productOp?_eq_some {k : TokenKind} {op : BinOp} (h : productOp? k = some op) :
    k = .symbol op.symbol ∧ op.isSum = false := by
  unfold productOp? at h
  split at h <;> cases h <;> exact ⟨rfl, rfl⟩

theorem sumOp?_eq_some {k : TokenKind} {op : BinOp} (h : sumOp? k = some op) :
    k = .symbol op.symbol ∧ op.isSum = true := by
  unfold sumOp? at h
  split at h <;> cases h <;> exact ⟨rfl, rfl⟩

/-- Operators are read from the symbols that they are written with. -/
def Chain.Signs (c : Chain) : Prop :=
  ∀ {k : TokenKind} {op : BinOp}, c.op? k = some op → k = .symbol op.symbol

theorem atoms_signs : atoms.Signs := fun h => (productOp?_eq_some h).1

theorem products_signs : products.Signs := fun h => (sumOp?_eq_some h).1

section Chain

variable {c : Chain} {Good GoodOperand : Expr → Prop}

theorem Chain.rest_outcome (hc : c.Signs)
    (hoperand : ∀ p, Outcome GoodOperand Expr.phrases p (c.operand p))
    (hjoin : ∀ {k op left right}, c.op? k = some op → Good left → GoodOperand right →
      Good (.join op left right))
    {p₀ p : Parser} {left : Expr} (hleft : Good left) (h : p₀.Parses left.phrases p) :
    Outcome Good Expr.phrases p₀ (c.rest left p) := by
  fun_induction c.rest left p with
  | case1 left p hop => exact .ok hleft h
  | case2 left p op hop e q hq =>
      have herr := (hoperand p.advance).of_error hq
      exact .error (h.errors.trans (by simpa using herr))
  | case3 left p op hop right q hq ih =>
      obtain ⟨hright, hparse⟩ := (hoperand p.advance).of_ok hq
      exact ih (hjoin hop hleft hright) ((h.trans (.advance (hc hop) (by simp))).trans hparse)

theorem Chain.parse_outcome (hc : c.Signs)
    (hoperand : ∀ p, Outcome GoodOperand Expr.phrases p (c.operand p))
    (hjoin : ∀ {k op left right}, c.op? k = some op → Good left → GoodOperand right →
      Good (.join op left right))
    (hsingle : ∀ {e}, GoodOperand e → Good e) (p : Parser) :
    Outcome Good Expr.phrases p (c.parse p) := by
  unfold parse
  split
  · next e q hq => exact .error ((hoperand p).of_error hq)
  · next left q hq =>
    obtain ⟨hleft, hparse⟩ := (hoperand p).of_ok hq
    exact rest_outcome hc hoperand hjoin (hsingle hleft) hparse

end Chain

theorem product_outcome (p : Parser) :
    Outcome (fun e => e.sumFree = true ∧ e.Sayable) Expr.phrases p p.product :=
  atoms.parse_outcome atoms_signs atom_outcome
    (fun hop hleft hright => Expr.sayable_product (productOp?_eq_some hop).2 hleft hright)
    (fun he => ⟨Expr.sumFree_of_isAtom he.1, he.2⟩) p

theorem expression_outcome (p : Parser) :
    Outcome Expr.Sayable Expr.phrases p p.expression :=
  products.parse_outcome products_signs product_outcome
    (fun hop hleft hright => Expr.sayable_sum (sumOp?_eq_some hop).2 hleft hright)
    (fun he => he.2) p

/-! ## Statements -/

theorem moreArgs_outcome (p : Parser) :
    Outcome (fun es => ∀ e ∈ es, e.Sayable) (fun es => afterCommas (es.map Expr.phrases)) p
      p.moreArgs := by
  fun_induction moreArgs p with
  | case1 p hcomma e q hq =>
      have herr := p.advance.expression_outcome.of_error hq
      exact .error (by simpa using herr)
  | case2 p hcomma arg q hq e r hr ih =>
      obtain ⟨-, hparse⟩ := p.advance.expression_outcome.of_ok hq
      have herr : p.errors <+: q.errors := by simpa using hparse.errors
      exact .error (herr.trans (ih.of_error hr))
  | case3 p hcomma arg q hq args r hr ih =>
      obtain ⟨harg, hparse⟩ := p.advance.expression_outcome.of_ok hq
      obtain ⟨hargs, hrest⟩ := ih.of_ok hr
      refine .ok (List.forall_mem_cons.mpr ⟨harg, hargs⟩) ?_
      exact ((Parses.advance_sees hcomma).trans hparse).trans hrest
  | case4 p hcomma => exact .ok (by simp) (.refl p)

theorem args_outcome (p : Parser) :
    Outcome (fun es => ∀ e ∈ es, e.Sayable) (fun es => listed (es.map Expr.phrases)) p
      p.args := by
  unfold args
  split
  · exact .ok (by simp) (.refl p)
  · split
    · next e q hq => exact .error (p.expression_outcome.of_error hq)
    · next arg q hq =>
      obtain ⟨harg, hparse⟩ := p.expression_outcome.of_ok hq
      split
      · next e r hr => exact .error (hparse.errors.trans (q.moreArgs_outcome.of_error hr))
      · next args r hr =>
        obtain ⟨hargs, hrest⟩ := q.moreArgs_outcome.of_ok hr
        exact .ok (List.forall_mem_cons.mpr ⟨harg, hargs⟩) (hparse.trans hrest)

theorem term_outcome (p : Parser) :
    Outcome (fun t => ∀ e ∈ t.args, e.Sayable) Term.phrases p p.term := by
  have hopen := p.parses_identifier.trans (p.identifier.2.parses_expect_sym .lparen)
  simp only [term]
  split
  · next e q hq => exact .error (hopen.errors.trans ((args_outcome _).of_error hq))
  · next args q hq =>
    obtain ⟨hargs, hparse⟩ := (args_outcome _).of_ok hq
    exact .ok hargs ((hopen.trans hparse).trans (q.parses_expect_sym .rparen))

theorem stmtKind?_eq_some {k : TokenKind} {kind : StmtKind} (h : stmtKind? k = some kind) :
    k = .symbol kind.symbol := by
  unfold stmtKind? at h
  split at h <;> cases h <;> rfl

theorem statement_outcome (p : Parser) :
    Outcome (fun s => ∀ e ∈ s.term.args, e.Sayable) Stmt.phrases p p.statement := by
  unfold statement
  split
  · exact .error (List.prefix_refl _)
  · next kind hk =>
    have hfirst : p.Parses (sym kind.symbol) p.advance :=
      .advance (stmtKind?_eq_some hk) (by simp)
    split
    · next e q hq => exact .error (hfirst.errors.trans (p.advance.term_outcome.of_error hq))
    · next t q hq =>
      obtain ⟨hargs, hparse⟩ := p.advance.term_outcome.of_ok hq
      exact .ok hargs (hfirst.trans hparse)

theorem parses_statementEnd (p : Parser) : p.Parses (sym .semi) p.statementEnd := by
  unfold statementEnd
  split
  · exact (Parses.of_report _ (List.prefix_refl _) (List.prefix_refl _)).of_zero
  · exact p.parses_expect_sym .semi

theorem errors_recover (p : Parser) : p.recover.errors = p.errors := by
  fun_induction recover p with
  | case1 => rfl
  | case2 p => exact p.errors_advance
  | case3 p _ _ ih => rw [ih, errors_advance]

/-- A statement that failed was reported, so nothing is claimed of what was
skipped after it. -/
theorem parses_block (p : Parser) :
    (∀ s ∈ p.block.1, ∀ e ∈ s.term.args, e.Sayable) ∧
      p.Parses (blockPhrases p.block.1) p.block.2 := by
  fun_induction block p with
  | case1 p hend => exact ⟨by simp, .refl p⟩
  | case2 p hend stmt q hs rest ih =>
      obtain ⟨hargs, hparse⟩ := p.statement_outcome.of_ok hs
      refine ⟨List.forall_mem_cons.mpr ⟨hargs, ih.1⟩, ?_⟩
      exact (hparse.trans q.parses_statementEnd).trans ih.2
  | case3 p hend e q hs ih =>
      have herr : (q.report e).errors <+: (q.report e).recover.block.2.errors := by
        simpa only [errors_recover] using ih.2.errors
      exact ⟨ih.1, (Parses.of_report e (p.statement_outcome.of_error hs) herr).of_zero⟩

/-! ## Lists -/

/-- An element that is read is a phrase; one that is dropped was reported. -/
def Element.Reads {α : Type} (element : Element α) (Good : α → Prop)
    (phrases : α → Language TokenKind) : Prop :=
  ∀ p : Parser,
    (∃ x, (element.read p).1 = [x] ∧ Good x ∧ p.Parses (phrases x) (element.read p).2) ∨
    ((element.read p).1 = [] ∧ p.Parses 0 (element.read p).2)

section Element

variable {α : Type} {element : Element α} {Good : α → Prop} {phrases : α → Language TokenKind}
  (h : element.Reads Good phrases)
include h

theorem Element.parses_more (p : Parser) :
    (∀ x ∈ (element.more p).1, Good x) ∧
      p.Parses (afterCommas ((element.more p).1.map phrases)) (element.more p).2 := by
  fun_induction element.more p with
  | case1 p hcomma first rest ih =>
      have hfirst := Parses.advance_sees hcomma
      rcases h p.advance with ⟨x, hx, hgood, hparse⟩ | ⟨hnone, hfail⟩
      · rw [show first.1 = [x] from hx]
        exact ⟨List.forall_mem_cons.mpr ⟨hgood, ih.1⟩, (hfirst.trans hparse).trans ih.2⟩
      · rw [show first.1 = [] from hnone]
        have hparse := (hfirst.trans hfail).trans ih.2
        rw [mul_zero, zero_mul] at hparse
        exact ⟨ih.1, hparse.of_zero⟩
  | case2 p hcomma => exact ⟨by simp, .refl p⟩

theorem Element.parses_list (p : Parser) :
    (∀ x ∈ (element.list p).1, Good x) ∧
      p.Parses (listed ((element.list p).1.map phrases)) (element.list p).2 := by
  obtain ⟨hmore, hrest⟩ := parses_more h (element.read p).2
  unfold list
  rcases h p with ⟨x, hx, hgood, hparse⟩ | ⟨hnone, hfail⟩
  · simp only [hx]
    exact ⟨List.forall_mem_cons.mpr ⟨hgood, hmore⟩, hparse.trans hrest⟩
  · simp only [hnone]
    have hparse := hfail.trans hrest
    rw [zero_mul] at hparse
    exact ⟨hmore, hparse.of_zero⟩

end Element

/-! ## Parameters -/

theorem parses_param (p : Parser) : p.Parses p.param.1.phrases p.param.2 :=
  (p.parses_identifier.trans (parses_expect_sym _ .colon)).trans (parses_identifier _)

theorem parameter_reads : parameter.Reads (fun _ => True) Param.phrases :=
  fun p => Or.inl ⟨p.param.1, rfl, trivial, p.parses_param⟩

theorem parses_params (p : Parser) : p.Parses (paramPhrases p.params.1) p.params.2 := by
  unfold params
  split
  · next hopen =>
    have hfirst := Parses.advance_sees hopen
    split
    · exact (hfirst.trans (parses_expect_sym _ .rparen)).mono le_sup_right
    · have hparams := (Element.parses_list parameter_reads p.advance).2
      exact (hfirst.trans hparams).trans (parses_expect_sym _ .rparen)
  · exact (Parses.refl p).mono le_sup_left

/-! ## Beliefs and members -/

theorem initialValue_reads :
    initialValue.Reads (fun e => e.isAtom = true ∧ e.Sayable) Expr.phrases := by
  intro p
  unfold initialValue beliefAtom
  dsimp only
  split
  · next v q hq =>
    obtain ⟨hv, hparse⟩ := p.atom_outcome.of_ok hq
    exact Or.inl ⟨v, rfl, hv, hparse⟩
  · next e q hq =>
    refine Or.inr ⟨rfl, .of_report e (p.atom_outcome.of_error hq) ?_⟩
    rw [errors_advance]

theorem parses_beliefInit (p : Parser) :
    (∀ e ∈ p.beliefInit.1, e.isAtom = true ∧ e.Sayable) ∧
      p.Parses (listed (p.beliefInit.1.map Expr.phrases)) p.beliefInit.2 := by
  unfold beliefInit
  split
  · exact ⟨by simp, .refl p⟩
  · exact Element.parses_list initialValue_reads p

theorem parses_belief (p : Parser) :
    p.belief.1.Sayable ∧ p.Parses p.belief.1.phrases p.belief.2 := by
  obtain ⟨hinit, hparse⟩ := parses_beliefInit
    ((p.expect (.keyword .bel)).identifier.2.expect (.symbol .lparen))
  have hhead := ((p.parses_expect_key .bel).trans (parses_identifier _)).trans
    (parses_expect_sym _ .lparen)
  have hbelief := (hhead.trans hparse).trans (parses_expect_sym _ .rparen)
  refine ⟨⟨fun e he => (hinit e he).1, fun e he => (hinit e he).2⟩, hbelief.trans ?_⟩
  simp only [belief]
  split
  · next hsemi => exact (Parses.advance_sees hsemi).mono le_sup_right
  · exact (Parses.refl _).mono le_sup_left

theorem parses_member (kind : MemberKind) {p : Parser}
    (h : p.current.kind = .keyword kind.opener) :
    (p.advance.member kind).1.Sayable ∧
      p.Parses (p.advance.member kind).1.phrases (p.advance.member kind).2 := by
  obtain ⟨hbody, hparse⟩ := parses_block
    (p.advance.identifier.2.params.2.expect (.symbol .lbrace))
  have hhead := (p.advance.parses_identifier.trans (parses_params _)).trans
    (parses_expect_sym _ .lbrace)
  have hrest := (hhead.trans hparse).trans (parses_expect_sym _ .rbrace)
  exact ⟨hbody, (Parses.advance h (by simp)).trans hrest⟩

/-! ## Agents -/

theorem parses_items (p : Parser) :
    (∀ item ∈ p.items.1, item.Sayable) ∧ p.Parses (itemPhrases p.items.1) p.items.2 := by
  fun_induction items p with
  | case1 p hk first rest ih =>
      obtain ⟨hsay, hparse⟩ := p.parses_belief
      exact ⟨List.forall_mem_cons.mpr ⟨hsay, ih.1⟩, hparse.trans ih.2⟩
  | case2 p hk first rest ih =>
      obtain ⟨hsay, hparse⟩ := parses_member .handler hk
      exact ⟨List.forall_mem_cons.mpr ⟨hsay, ih.1⟩, hparse.trans ih.2⟩
  | case3 p hk first rest ih =>
      obtain ⟨hsay, hparse⟩ := parses_member .plan hk
      exact ⟨List.forall_mem_cons.mpr ⟨hsay, ih.1⟩, hparse.trans ih.2⟩
  | case4 p => exact ⟨by simp, .refl p⟩

theorem parses_agent (p : Parser) :
    p.agent.1.Sayable ∧ p.Parses p.agent.1.phrases p.agent.2 := by
  obtain ⟨hsay, hparse⟩ := parses_items
    ((p.expect (.keyword .agent)).identifier.2.params.2.expect (.symbol .lbrace))
  have hhead := (((p.parses_expect_key .agent).trans (parses_identifier _)).trans
    (parses_params _)).trans (parses_expect_sym _ .lbrace)
  refine ⟨Agent.ofItems_sayable hsay, ?_⟩
  refine ((hhead.trans hparse).trans (parses_expect_sym _ .rbrace)).mono ?_
  exact fun ks hks => ⟨_, rfl, rfl, hks⟩

/-- A unit without errors is read to its last token. -/
theorem parseUnit_phrase {p : Parser} (heof : ∀ k ∈ p.kinds, k ≠ .eof)
    (h : p.parseUnit.2.errors = p.errors) : p.kinds ∈ p.parseUnit.1.phrases := by
  obtain ⟨-, hparse⟩ := p.parses_agent
  simp only [parseUnit] at h ⊢
  split at h
  · next hend =>
    obtain ⟨ks, hks, heq⟩ := hparse.phrase h
    have hnil : p.agent.2.kinds = [] := by
      cases hu : p.agent.2.unread with
      | nil => simp [kinds, hu]
      | cons t ts =>
          have ht : t.kind = .eof := by simpa [atEnd, current, hu] using hend
          exact absurd ht (heof _ (by rw [heq]; simp [kinds, hu]))
    rw [heq, hnil, List.append_nil]
    exact hks
  · have hfail : p.Parses 0 (p.agent.2.report
        (.trailingInput p.agent.2.current.kind p.agent.2.current.span)) :=
      .of_report _ hparse.errors (List.prefix_refl _)
    obtain ⟨ks, hks, -⟩ := hfail.phrase h
    exact absurd hks (Language.notMem_zero ks)

end Parser

end AgentLang
