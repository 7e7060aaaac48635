import AgentLang.Compile
import AgentLang.Proofs.Confinement
import AgentLang.Proofs.Drafting

/-!
# Layout has no effect

Spans are carried through parser and generator, merged on the way and put into
errors, but nothing is ever decided by one. Said as equations: every function of
the parser commutes with forgetting the spans of tokens, trees and errors, and
so does every function of the generator. A source without its spans is the list
of the kinds of its tokens, so two sources with the same kinds of tokens are
treated alike (`layout_irrelevant`).
-/

namespace AgentLang

/-! ## Forgetting spans -/

def Token.erase (t : Token) : Token := ⟨t.kind, .nowhere⟩

def SyntaxError.erase : SyntaxError → SyntaxError
  | unexpectedToken expected found _ => .unexpectedToken expected found .nowhere
  | expectedStatement found _ => .expectedStatement found .nowhere
  | expectedAtom found _ => .expectedAtom found .nowhere
  | integerOutOfRange literal _ => .integerOutOfRange literal .nowhere
  | trailingInput found _ => .trailingInput found .nowhere

def SemanticError.erase : SemanticError → SemanticError
  | notInScope name _ => .notInScope name .nowhere
  | wrongKind name expected found _ => .wrongKind name expected found .nowhere
  | notAValue name found _ => .notAValue name found .nowhere
  | redeclared name _ => .redeclared name .nowhere
  | beliefArityMismatch name expected found _ =>
    .beliefArityMismatch name expected found .nowhere
  | callArityMismatch name expected found _ => .callArityMismatch name expected found .nowhere
  | queryTargetNotIdent belief _ => .queryTargetNotIdent belief .nowhere
  | tuple cause _ => .tuple cause .nowhere

@[simp] theorem Expr.span_erase (e : Expr) : e.erase.span = .nowhere := by
  cases e <;> rfl

@[simp] theorem Term.name_erase (t : Term) : t.erase.name = t.name.erase := rfl

@[simp] theorem Term.args_erase (t : Term) : t.erase.args = t.args.map Expr.erase := rfl

@[simp] theorem Term.span_erase (t : Term) : t.erase.span = .nowhere := rfl

@[simp] theorem Belief.init_erase (b : Belief) : b.erase.init = b.init.map Expr.erase := rfl

@[simp] theorem Belief.span_erase (b : Belief) : b.erase.span = .nowhere := rfl

@[simp] theorem Belief.arity_erase (b : Belief) : b.erase.arity = b.arity := by
  simp [arity]

@[simp] theorem paramDefs_erase (params : List Param) :
    paramDefs (params.map Param.erase) = paramDefs params := by
  simp [paramDefs, Param.erase, Ident.erase]

@[simp] theorem Span.merge_nowhere : Span.nowhere.merge .nowhere = .nowhere := by decide

@[simp] theorem Expr.erase_join (op : BinOp) (left right : Expr) :
    (Expr.join op left right).erase = .join op left.erase right.erase := by
  simp [join, erase]

namespace Parser

/-- The parser that reads the same tokens without their spans. -/
def erase (p : Parser) : Parser :=
  ⟨p.unread.map Token.erase, .nowhere, .nowhere, p.errors.map SyntaxError.erase⟩

@[simp] theorem previous_erase (p : Parser) : p.erase.previous = .nowhere := rfl

@[simp] theorem current_erase (p : Parser) : p.erase.current = p.current.erase := by
  obtain ⟨unread, eof, previous, errors⟩ := p
  cases unread <;> rfl

@[simp] theorem advance_erase (p : Parser) : p.erase.advance = p.advance.erase := by
  obtain ⟨unread, eof, previous, errors⟩ := p
  cases unread <;> rfl

@[simp] theorem sees_erase (p : Parser) (s : Symbol) : p.erase.sees s = p.sees s := by
  simp [sees, Token.erase]

@[simp] theorem atEnd_erase (p : Parser) : p.erase.atEnd = p.atEnd := by
  simp [atEnd, Token.erase]

@[simp] theorem atBlockEnd_erase (p : Parser) : p.erase.atBlockEnd = p.atBlockEnd := by
  simp [atBlockEnd]

@[simp] theorem report_erase (p : Parser) (e : SyntaxError) :
    p.erase.report e.erase = (p.report e).erase := by
  simp [report, erase]

@[simp] theorem mismatch_erase (p : Parser) (e : Expected) :
    p.erase.mismatch e = (p.mismatch e).erase := by
  simp [mismatch, Token.erase, SyntaxError.erase]

@[simp] theorem expect_erase (p : Parser) (e : Expected) :
    p.erase.expect e = (p.expect e).erase := by
  simp only [expect, current_erase, Token.erase, mismatch_erase, report_erase, advance_erase]
  split <;> rfl

@[simp] theorem identifier_erase (p : Parser) :
    p.erase.identifier = (p.identifier.1.erase, p.identifier.2.erase) := by
  simp [identifier, Ident.erase, Token.erase, Token.lexeme]

@[simp] theorem recover_erase (p : Parser) : p.erase.recover = p.recover.erase := by
  fun_induction recover p with
  | case1 p hend =>
      rw [recover]
      simp [hend]
  | case2 p hend hsemi =>
      rw [recover]
      simp [hend, hsemi]
  | case3 p hend hsemi ih =>
      rw [recover]
      simp [hend, hsemi, ih]

/-! ## Expressions -/

/-- A result of the parser without its spans. -/
def eraseResult {α : Type} (f : α → α) (r : Except SyntaxError α × Parser) :
    Except SyntaxError α × Parser :=
  match r with
  | (.ok x, p) => (.ok (f x), p.erase)
  | (.error e, p) => (.error e.erase, p.erase)

@[simp] theorem atom_erase (p : Parser) : p.erase.atom = eraseResult Expr.erase p.atom := by
  simp only [atom, current_erase, Token.erase, advance_erase]
  split
  · rfl
  · split <;> rfl
  · rfl

theorem Chain.rest_eq (c : Chain) (left : Expr) (p : Parser) :
    c.rest left p =
      match c.op? p.current.kind, c.operand p.advance with
      | none, _ => (.ok left, p)
      | some _, (.error e, q) => (.error e, q)
      | some op, (.ok right, q) => c.rest (.join op left right) q := by
  cases hop : c.op? p.current.kind with
  | none => rw [rest_of_none hop]
  | some op =>
      rcases hq : c.operand p.advance with ⟨e | right, q⟩
      · rw [rest_of_error hop hq]
      · rw [rest_of_ok hop hq]

section Chain

variable {c : Chain}
  (hoperand : ∀ p : Parser, c.operand p.erase = eraseResult Expr.erase (c.operand p))
include hoperand

theorem Chain.rest_erase (left : Expr) (p : Parser) :
    c.rest left.erase p.erase = eraseResult Expr.erase (c.rest left p) := by
  fun_induction c.rest left p with
  | case1 left p hop => simp [rest_eq, Token.erase, hop, eraseResult]
  | case2 left p op hop e q hq => simp [rest_eq, Token.erase, hop, hoperand, hq, eraseResult]
  | case3 left p op hop right q hq ih =>
      rw [rest_eq]
      simpa [Token.erase, hop, hoperand, hq, eraseResult] using ih

theorem Chain.parse_erase (p : Parser) :
    c.parse p.erase = eraseResult Expr.erase (c.parse p) := by
  rcases h : c.operand p with ⟨e | left, q⟩
  · simp [parse, hoperand, h, eraseResult]
  · simp only [parse, hoperand, h, eraseResult, rest_erase hoperand]

end Chain

@[simp] theorem product_erase (p : Parser) :
    p.erase.product = eraseResult Expr.erase p.product := Chain.parse_erase atom_erase p

@[simp] theorem expression_erase (p : Parser) :
    p.erase.expression = eraseResult Expr.erase p.expression := Chain.parse_erase product_erase p

/-! ## Statements -/

theorem moreArgs_eq (p : Parser) :
    p.moreArgs =
      if p.sees .comma then
        match p.advance.expression with
        | (.error e, q) => (.error e, q)
        | (.ok arg, q) =>
          match q.moreArgs with
          | (.error e, r) => (.error e, r)
          | (.ok args, r) => (.ok (arg :: args), r)
      else (.ok [], p) := by
  rw [moreArgs]
  split
  · split
    · next e q hq => rw [hq]
    · next arg q hq => rcases h : q.moreArgs with ⟨e | args, r⟩ <;> simp [hq, h]
  · rfl

@[simp] theorem moreArgs_erase (p : Parser) :
    p.erase.moreArgs = eraseResult (List.map Expr.erase) p.moreArgs := by
  fun_induction moreArgs p with
  | case1 p hcomma e q hq => simp [moreArgs_eq, hcomma, hq, eraseResult]
  | case2 p hcomma arg q hq e r hr ih =>
      rw [moreArgs_eq]
      simp [hcomma, hq, eraseResult, ih, hr]
  | case3 p hcomma arg q hq args r hr ih =>
      rw [moreArgs_eq]
      simp [hcomma, hq, eraseResult, ih, hr]
  | case4 p hcomma => simp [moreArgs_eq, hcomma, eraseResult]

@[simp] theorem args_erase (p : Parser) :
    p.erase.args = eraseResult (List.map Expr.erase) p.args := by
  unfold args
  rw [sees_erase]
  split
  · rfl
  · rcases h : p.expression with ⟨e | arg, q⟩
    · simp [h, eraseResult]
    · rcases h' : q.moreArgs with ⟨e | args, r⟩ <;> simp [h, h', eraseResult]

@[simp] theorem term_erase (p : Parser) : p.erase.term = eraseResult Term.erase p.term := by
  rcases h : (p.identifier.2.expect (.symbol .lparen)).args with ⟨e | args, q⟩
  · simp [term, h, eraseResult]
  · simp [term, h, eraseResult, Term.erase, Ident.erase]

@[simp] theorem statement_erase (p : Parser) :
    p.erase.statement = eraseResult Stmt.erase p.statement := by
  simp only [statement, current_erase, Token.erase, advance_erase, term_erase]
  split
  · rfl
  · rcases h : p.advance.term with ⟨e | t, q⟩
    · rfl
    · simp [eraseResult, Stmt.erase]

@[simp] theorem statementEnd_erase (p : Parser) :
    p.erase.statementEnd = p.statementEnd.erase := by
  simp only [statementEnd, sees_erase, mismatch_erase, report_erase, expect_erase]
  split <;> rfl

theorem block_eq (p : Parser) :
    p.block =
      if p.atBlockEnd then ([], p)
      else
        match p.statement with
        | (.ok stmt, q) => (stmt :: q.statementEnd.block.1, q.statementEnd.block.2)
        | (.error e, q) => (q.report e).recover.block := by
  rw [block]
  split
  · rfl
  · split <;> simp_all

@[simp] theorem block_erase (p : Parser) :
    p.erase.block = (p.block.1.map Stmt.erase, p.block.2.erase) := by
  fun_induction block p with
  | case1 p hend => simp [block_eq, hend]
  | case2 p hend stmt q hs rest ih =>
      rw [block_eq]
      simp [hend, hs, eraseResult, ih, rest]
  | case3 p hend e q hs ih =>
      rw [block_eq]
      simp [hend, hs, eraseResult, ih]

/-! ## Declarations -/

section Element

variable {α : Type} {element : Element α} {erased : α → α}
  (h : ∀ p : Parser,
    element.read p.erase = ((element.read p).1.map erased, (element.read p).2.erase))
include h

theorem Element.more_erase (p : Parser) :
    element.more p.erase = ((element.more p).1.map erased, (element.more p).2.erase) := by
  fun_induction element.more p with
  | case1 p hcomma first rest ih =>
      rw [more]
      simp [hcomma, h, first, rest, ih]
  | case2 p hcomma =>
      rw [more]
      simp [hcomma]

theorem Element.list_erase (p : Parser) :
    element.list p.erase = ((element.list p).1.map erased, (element.list p).2.erase) := by
  simp [list, h, more_erase h]

end Element

@[simp] theorem param_erase (p : Parser) :
    p.erase.param = (p.param.1.erase, p.param.2.erase) := by
  simp [param, Param.erase, Ident.erase]

theorem parameter_erase (p : Parser) :
    parameter.read p.erase =
      ((parameter.read p).1.map Param.erase, (parameter.read p).2.erase) := by
  simp [parameter]

@[simp] theorem params_erase (p : Parser) :
    p.erase.params = (p.params.1.map Param.erase, p.params.2.erase) := by
  simp only [params, sees_erase, advance_erase, Element.list_erase parameter_erase, expect_erase]
  split
  · split <;> rfl
  · rfl

@[simp] theorem beliefAtom_erase (p : Parser) :
    p.erase.beliefAtom = (p.beliefAtom.1.map Expr.erase, p.beliefAtom.2.erase) := by
  rcases h : p.atom with ⟨e | value, q⟩ <;> simp [beliefAtom, h, eraseResult]

theorem initialValue_erase (p : Parser) :
    initialValue.read p.erase =
      ((initialValue.read p).1.map Expr.erase, (initialValue.read p).2.erase) := by
  simp [initialValue, Option.toList_map]

@[simp] theorem beliefInit_erase (p : Parser) :
    p.erase.beliefInit = (p.beliefInit.1.map Expr.erase, p.beliefInit.2.erase) := by
  simp only [beliefInit, sees_erase, Element.list_erase initialValue_erase]
  split <;> rfl

@[simp] theorem belief_erase (p : Parser) :
    p.erase.belief = (p.belief.1.erase, p.belief.2.erase) := by
  simp [belief, Belief.erase, Token.erase, apply_ite Parser.erase]

@[simp] theorem member_erase (kind : MemberKind) (p : Parser) :
    p.erase.member kind = ((p.member kind).1.erase, (p.member kind).2.erase) := by
  simp [member, Member.erase, Token.erase]

theorem items_eq (p : Parser) :
    p.items =
      match p.current.kind with
      | .keyword .bel => (.belief p.belief.1 :: p.belief.2.items.1, p.belief.2.items.2)
      | .keyword .on => (.member (p.advance.member .handler).1 ::
          (p.advance.member .handler).2.items.1, (p.advance.member .handler).2.items.2)
      | .keyword .plan => (.member (p.advance.member .plan).1 ::
          (p.advance.member .plan).2.items.1, (p.advance.member .plan).2.items.2)
      | _ => ([], p) := by
  rw [items]
  split <;> simp_all

@[simp] theorem items_erase (p : Parser) :
    p.erase.items = (p.items.1.map Item.erase, p.items.2.erase) := by
  fun_induction items p with
  | case1 p hk first rest ih =>
      rw [items_eq]
      simp [Token.erase, hk, first, rest, ih, Item.erase]
  | case2 p hk first rest ih =>
      rw [items_eq]
      simp [Token.erase, hk, first, rest, ih, Item.erase]
  | case3 p hk first rest ih =>
      rw [items_eq]
      simp [Token.erase, hk, first, rest, ih, Item.erase]
  | case4 p hbel hon hplan =>
      rw [items_eq]
      split <;> simp_all [Token.erase]

@[simp] theorem agent_erase (p : Parser) :
    p.erase.agent = (p.agent.1.erase, p.agent.2.erase) := by
  simp [agent, Agent.erase_ofItems, Token.erase]

@[simp] theorem parseUnit_erase (p : Parser) :
    p.erase.parseUnit = (p.parseUnit.1.erase, p.parseUnit.2.erase) := by
  simp only [parseUnit, agent_erase, atEnd_erase, current_erase, Token.erase]
  split
  · rfl
  · simp [erase, report, SyntaxError.erase]

end Parser

/-! ## Expressions in scopes -/

@[simp] theorem Expr.name?_erase (e : Expr) : e.erase.name? = e.name? := by
  cases e <;> rfl

@[simp] theorem Expr.code_erase (s : Scopes) (e : Expr) : e.erase.code s = e.code s := by
  induction e with
  | ident name span => rfl
  | number value span => rfl
  | binary op left right span ihl ihr => simp [erase, code, ihl, ihr]

@[simp] theorem Expr.faults_erase (s : Scopes) (e : Expr) :
    e.erase.faults s = (e.faults s).map SemanticError.erase := by
  induction e with
  | ident name span =>
      simp only [erase, faults]
      split
      · rfl
      · split <;> rfl
  | number value span => rfl
  | binary op left right span ihl ihr => simp [erase, faults, ihl, ihr]

/-! ## Drafts -/

theorem Scopes.declare_erase (s : Scopes) (x : String) (span : Span) (b : Binding) :
    s.declare x .nowhere b =
      (s.declare x span b).map fun r => (r.1, r.2.map SemanticError.erase) := by
  unfold declare
  split <;> rfl

namespace Draft

/-- The draft with the spans of its diagnostics forgotten. -/
def erase (d : Draft) : Draft :=
  { d with diagnostics := d.diagnostics.map SemanticError.erase }

@[simp] theorem emit_erase (d : Draft) (code : List Instr) :
    d.erase.emit code = (d.emit code).erase := rfl

@[simp] theorem report_erase (d : Draft) (errors : List SemanticError) :
    d.erase.report (errors.map SemanticError.erase) = (d.report errors).erase := by
  simp [report, erase]

theorem report_one_erase (d : Draft) {e e' : SemanticError} (h : e' = e.erase) :
    d.erase.report [e'] = (d.report [e]).erase := by
  simp [report, erase, h]

theorem declare_erase (d : Draft) (x : String) (span : Span) (b : Binding) :
    d.erase.declare x .nowhere b = (d.declare x span b).map erase := by
  refine bind_map (Scopes.declare_erase d.scopes x span b) fun r => ?_
  exact congrArg Except.ok (report_erase { d with scopes := r.1 } r.2)

theorem declareParams_erase (params : List Param) :
    ∀ (slot : Nat) (d : Draft), declareParams slot (params.map Param.erase) d.erase =
      (declareParams slot params d).map erase := by
  induction params with
  | nil => exact fun _ _ => rfl
  | cons p params ih =>
      intro slot d
      refine bind_map_same fun index => ?_
      exact bind_map (declare_erase d p.name.name p.name.span _) (ih (slot + 1))

@[simp] theorem evaluate_erase (d : Draft) (es : List Expr) :
    d.erase.evaluate (es.map Expr.erase) = (d.evaluate es).erase := by
  simp [evaluate, erase, report, emit, List.flatMap_map, List.map_flatMap]

theorem tupleFor_erase (d : Draft) (n : Nat) (span : Span) :
    d.erase.tupleFor n .nowhere = ((d.tupleFor n span).1, (d.tupleFor n span).2.erase) := by
  rcases h : d.tuples.describe n with ⟨e | id, t⟩ <;> simp [tupleFor, erase, h, report,
    SemanticError.erase]

theorem pack_erase (d : Draft) (n : Nat) (span : Span) :
    d.erase.pack n .nowhere = ((d.pack n span).1, (d.pack n span).2.erase) := by
  rcases h : d.tuples.create n with ⟨e | instr, t⟩ <;> simp [pack, erase, h, report, emit,
    SemanticError.erase]

theorem project_erase (d : Draft) (n index : Nat) (span : Span) :
    d.erase.project n index .nowhere = (d.project n index span).erase := by
  rcases h : d.tuples.project n index with ⟨e | instr, t⟩ <;> simp [project, erase, h, report,
    emit, SemanticError.erase]

theorem ofLookup_erase (e : LookupError) (span : Span) :
    (SemanticError.ofLookup e span).erase = .ofLookup e .nowhere := by
  cases e <;> rfl

@[simp] theorem belief_erase (d : Draft) (name : Ident) :
    d.erase.belief name.erase = ((d.belief name).1, (d.belief name).2.erase) := by
  simp only [belief, erase, Ident.erase]
  split <;> simp [report, ofLookup_erase]

@[simp] theorem callable_erase (d : Draft) (name : Ident) :
    d.erase.callable name.erase = ((d.callable name).1, (d.callable name).2.erase) := by
  simp only [callable, erase, Ident.erase]
  split <;> simp [report, ofLookup_erase]

@[simp] theorem checkBeliefArity_erase (d : Draft) (t : Term) (n : Nat) :
    d.erase.checkBeliefArity t.erase n =
      ((d.checkBeliefArity t n).1, (d.checkBeliefArity t n).2.erase) := by
  simp only [checkBeliefArity, Term.erase, List.length_map, Ident.erase]
  split
  · rfl
  · simp [report, erase, SemanticError.erase]

theorem newLocal_erase (d : Draft) (x : String) :
    d.erase.newLocal x = (d.newLocal x).map fun r => (r.1, r.2.erase) := by
  unfold newLocal
  cases h : slotIndex d.locals.length "locals" <;> simp [erase, h, bind, Except.bind, pure,
    Except.pure, Except.map]

theorem queryTarget_erase (d : Draft) (belief : String) (f : FieldId) (n index : Nat)
    (arg : Expr) :
    d.erase.queryTarget belief f n index arg.erase =
      (d.queryTarget belief f n index arg).map erase := by
  simp only [queryTarget, Expr.name?_erase, Expr.span_erase]
  split
  · exact congrArg Except.ok (report_one_erase d rfl)
  · next name hn =>
    refine bind_map (newLocal_erase d name) fun r => ?_
    simp only [emit_erase, project_erase _ n index arg.span]
    exact declare_erase _ name arg.span _

theorem queryTargets_erase (belief : String) (f : FieldId) (n : Nat) (args : List Expr) :
    ∀ (index : Nat) (d : Draft),
      queryTargets belief f n index (args.map Expr.erase) d.erase =
        (queryTargets belief f n index args d).map erase := by
  induction args with
  | nil => exact fun _ _ => rfl
  | cons arg args ih =>
      intro index d
      exact bind_map (queryTarget_erase d belief f n index arg) (ih (index + 1))

theorem query_erase (d : Draft) (t : Term) :
    d.erase.query t.erase = (d.query t).map erase := by
  simp only [query, Term.name_erase, belief_erase]
  rcases d.belief t.name with ⟨_ | ⟨f, n⟩, d₁⟩
  · rfl
  · simp only [checkBeliefArity_erase]
    rcases d₁.checkBeliefArity t n with ⟨_ | _, d₂⟩
    · rfl
    · simp only [Term.span_erase, tupleFor_erase d₂ n t.span]
      rcases d₂.tupleFor n t.span with ⟨_ | id, d₃⟩
      · rfl
      · exact queryTargets_erase t.name.name f n t.args 0 d₃

theorem update_erase (d : Draft) (t : Term) : d.erase.update t.erase = (d.update t).erase := by
  simp only [update, Term.name_erase, belief_erase, Term.args_erase, evaluate_erase]
  rcases d.belief t.name with ⟨_ | ⟨f, n⟩, d₁⟩
  · rfl
  · simp only [checkBeliefArity_erase]
    rcases (d₁.evaluate t.args).checkBeliefArity t n with ⟨_ | _, d₂⟩
    · rfl
    · simp only [Term.span_erase, pack_erase d₂ n t.span]
      rcases d₂.pack n t.span with ⟨_ | _, d₃⟩ <;> rfl

theorem invoke_erase (c : Bool) (d : Draft) (t : Term) :
    invoke c d.erase t.erase = (invoke c d t).map erase := by
  simp only [invoke, Term.name_erase, callable_erase, Term.args_erase, emit_erase,
    evaluate_erase, List.length_map]
  rcases d.callable t.name with ⟨_ | ⟨j, n⟩, d₁⟩
  · rfl
  · dsimp only
    split
    · exact congrArg Except.ok (report_one_erase _ rfl)
    · exact bind_map_same fun _ => rfl

theorem statement_erase (c : Bool) (d : Draft) (s : Stmt) :
    statement c d.erase s.erase = (statement c d s).map erase := by
  obtain ⟨kind, t, span⟩ := s
  cases kind with
  | query => exact query_erase d t
  | update => exact congrArg Except.ok (update_erase d t)
  | invoke => exact invoke_erase c d t

theorem statements_erase (c : Bool) (body : List Stmt) :
    ∀ d : Draft, statements c (body.map Stmt.erase) d.erase = (statements c body d).map erase := by
  induction body with
  | nil => exact fun _ => rfl
  | cons s body ih => exact fun d => bind_map (statement_erase c d s) ih

theorem initBelief_erase (fields : List FieldDef) (index : Nat) (b : Belief) (d : Draft) :
    initBelief fields index b.erase d.erase = (initBelief fields index b d).map erase := by
  simp only [initBelief, Belief.init_erase, Belief.arity_erase, Belief.span_erase, evaluate_erase,
    pack_erase _ b.arity b.span]
  split
  · exact bind_map_same fun _ => rfl
  · rfl

theorem initBeliefs_erase (fields : List FieldDef) (beliefs : List Belief) :
    ∀ (index : Nat) (d : Draft), initBeliefs fields index (beliefs.map Belief.erase) d.erase =
      (initBeliefs fields index beliefs d).map erase := by
  induction beliefs with
  | nil => exact fun _ _ => rfl
  | cons b beliefs ih =>
      exact fun index d => bind_map (initBelief_erase fields index b d) (ih (index + 1))

end Draft

/-! ## Agents -/

namespace Assembly

/-- The assembly with the spans of its diagnostics forgotten. -/
def erase (u : Assembly) : Assembly :=
  { u with diagnostics := u.diagnostics.map SemanticError.erase }

@[simp] theorem report_erase (u : Assembly) (errors : List SemanticError) :
    u.erase.report (errors.map SemanticError.erase) = (u.report errors).erase := by
  simp [report, erase]

theorem declare_erase (u : Assembly) (name : Ident) (b : Binding) :
    u.erase.declare name.erase b = (u.declare name b).map erase := by
  refine bind_map (Scopes.declare_erase u.scopes name.name name.span b) fun r => ?_
  exact congrArg Except.ok (report_erase { u with scopes := r.1 } r.2)

theorem declareBelief_erase (u : Assembly) (b : Belief) :
    u.erase.declareBelief b.erase = (u.declareBelief b).map erase := by
  simp only [declareBelief, Belief.arity_erase, Belief.span_erase]
  refine bind_map_same fun field => ?_
  rw [← declare_erase, ← report_erase]
  show Assembly.declare _ b.name.erase _ = _
  simp only [erase]
  rcases u.tuples.describe b.arity with ⟨e | id, tuples⟩ <;> rfl

theorem declareBeliefs_erase (beliefs : List Belief) :
    ∀ u : Assembly, declareBeliefs (beliefs.map Belief.erase) u.erase =
      (declareBeliefs beliefs u).map erase := by
  induction beliefs with
  | nil => exact fun _ => rfl
  | cons b beliefs ih => exact fun u => bind_map (declareBelief_erase u b) ih

theorem close_erase (u : Assembly) (d : Draft) :
    u.erase.close d.erase = (u.close d).map erase := by
  refine bind_map_same fun s => ?_
  exact congrArg Except.ok (report_erase { u with scopes := s, tuples := d.tuples } d.diagnostics)

theorem constructor_erase (u : Assembly) (a : Agent) :
    u.erase.constructor a.erase = (u.constructor a).map fun r => (r.1, r.2.erase) := by
  refine bind_map (Draft.declareParams_erase a.params 1 (.start u.scopes u.tuples)) fun d => ?_
  refine bind_map (Draft.initBeliefs_erase u.fields a.beliefs 0 d) fun d' => ?_
  refine bind_map (close_erase u d') fun u' => ?_
  simp [Draft.finish, Draft.erase, Agent.erase, Ident.erase, pure, Except.pure, Except.map]

theorem member_erase (c : Bool) (u : Assembly) (m : Member) :
    member c u.erase m.erase = (member c u m).map erase := by
  refine bind_map_same fun id => ?_
  simp only [Member.erase, List.length_map]
  refine bind_map (declare_erase u m.name _) fun u' => ?_
  refine bind_map (Draft.declareParams_erase m.params 1 (.start u'.scopes u'.tuples)) fun d => ?_
  refine bind_map (Draft.statements_erase c m.body d) fun d' => ?_
  refine bind_map (close_erase u' d') fun u'' => ?_
  simp [Draft.finish, Draft.erase, erase, Ident.erase, pure, Except.pure, Except.map]

theorem members_erase (c : Bool) (ms : List Member) :
    ∀ u : Assembly, members c (ms.map Member.erase) u.erase = (members c ms u).map erase := by
  induction ms with
  | nil => exact fun _ => rfl
  | cons m ms ih => exact fun u => bind_map (member_erase c u m) ih

end Assembly

/-- An agent without its spans has the same type, and the same diagnostics without theirs. -/
theorem generate_erase (c : Bool) (a : Agent) :
    generate c a.erase = (generate c a).map fun r => (r.1, r.2.map SemanticError.erase) := by
  let forget : Generator → Generator :=
    fun g => { g with diagnostics := g.diagnostics.map SemanticError.erase }
  have hg : (Generator.new c).generate a.erase =
      ((Generator.new c).generate a).map fun r => (r.1, forget r.2) := by
    refine bind_map (Assembly.declareBeliefs_erase a.beliefs (.enter .empty)) fun u => ?_
    refine bind_map (Assembly.constructor_erase u a) fun r => ?_
    refine bind_map (Assembly.members_erase c a.members r.2) fun u' => ?_
    refine bind_map_same fun scopes => ?_
    split
    · rfl
    · simp [pure, Except.pure, Except.map, forget, Agent.erase, Ident.erase, Generator.new,
        Assembly.erase]
  exact bind_map hg fun _ => rfl

/-! ## Sources -/

/-- The parser in front of tokens of these kinds that stand nowhere. -/
def Parser.ofKinds (ks : List TokenKind) : Parser :=
  ⟨ks.map (⟨·, .nowhere⟩), .nowhere, .nowhere, []⟩

theorem Parser.ofSource_erase (source : String) :
    (Parser.ofSource source).erase = .ofKinds (tokenKinds source) := by
  simp only [erase, ofSource, ofStream, ofKinds, tokenKinds, List.map_map, List.map_nil]
  rfl

/-- What parsing yields without spans depends on the kinds of the tokens alone. -/
theorem parse_erase (source : String) :
    ((parse source).1.erase, (parse source).2.map SyntaxError.erase) =
      ((Parser.ofKinds (tokenKinds source)).parseUnit.1,
        (Parser.ofKinds (tokenKinds source)).parseUnit.2.errors) := by
  rw [← Parser.ofSource_erase, Parser.parseUnit_erase]
  rfl

/-! ## Results -/

def CompileError.erase : CompileError → CompileError
  | malformed errors => .malformed (errors.map SyntaxError.erase)
  | semantic errors => .semantic (errors.map SemanticError.erase)
  | internal error => .internal error

/-- All that a diagnostic says, save for the place. -/
def Diagnostic.wording (d : Diagnostic) : String × String × String :=
  (d.code, d.title, d.message)

@[simp] theorem SyntaxError.wording_erase (e : SyntaxError) :
    e.erase.diagnostic.wording = e.diagnostic.wording := by
  cases e <;> rfl

@[simp] theorem SemanticError.wording_erase (e : SemanticError) :
    e.erase.diagnostic.wording = e.diagnostic.wording := by
  cases e <;> rfl

/-- No diagnostic words its place. -/
theorem CompileError.wordings_erase (e : CompileError) :
    e.erase.diagnostics.map Diagnostic.wording = e.diagnostics.map Diagnostic.wording := by
  cases e <;> simp [erase, diagnostics]

/-- What a parsed unit is compiled to. -/
def outcome (checkArity : Bool) : Agent × List SyntaxError → Except CompileError AgentType
  | (agent, []) =>
    match generate checkArity agent with
    | .error e => .error (.internal e)
    | .ok (type, []) => .ok type
    | .ok (_, errors) => .error (.semantic errors)
  | (_, errors) => .error (.malformed errors)

theorem compile_eq_outcome (source : String) (options : CompileOptions) :
    compile source options = outcome options.checkArity (parse source) := by
  unfold compile
  rcases parse source with ⟨agent, _ | ⟨e, errors⟩⟩
  · rcases h : generate options.checkArity agent with e | ⟨type, _ | ⟨e, errors⟩⟩ <;>
      simp [outcome, h]
  · rfl

theorem outcome_erase (c : Bool) (a : Agent) (errors : List SyntaxError) :
    outcome c (a.erase, errors.map SyntaxError.erase) =
      (outcome c (a, errors)).mapError CompileError.erase := by
  cases errors with
  | cons e errors => rfl
  | nil =>
      simp only [outcome, List.map_nil, generate_erase]
      rcases generate c a with e | ⟨type, _ | ⟨e, errors⟩⟩ <;> rfl

/-- Sources with the same kinds of tokens are compiled alike: either both have the same type,
or both have the same errors in different places. -/
theorem layout_irrelevant {s s' : String} (h : tokenKinds s = tokenKinds s')
    (options : CompileOptions) :
    (parse s).1.erase = (parse s').1.erase ∧
      (parse s).2.map SyntaxError.erase = (parse s').2.map SyntaxError.erase ∧
      ((∃ type, compile s options = .ok type ∧ compile s' options = .ok type) ∨
        ∃ e e', compile s options = .error e ∧ compile s' options = .error e' ∧
          e.erase = e'.erase ∧
          e.diagnostics.map Diagnostic.wording = e'.diagnostics.map Diagnostic.wording) := by
  have hparse : ((parse s).1.erase, (parse s).2.map SyntaxError.erase) =
      ((parse s').1.erase, (parse s').2.map SyntaxError.erase) := by
    rw [parse_erase, parse_erase, h]
  have hcompile : (compile s options).mapError CompileError.erase =
      (compile s' options).mapError CompileError.erase := by
    rw [compile_eq_outcome, compile_eq_outcome, ← outcome_erase, ← outcome_erase, hparse]
  refine ⟨congrArg Prod.fst hparse, congrArg Prod.snd hparse, ?_⟩
  rcases hs : compile s options with e | type <;> rcases hs' : compile s' options with e' | type'
    <;> simp only [hs, hs', Except.mapError, Except.error.injEq, Except.ok.injEq, reduceCtorEq]
      at hcompile
  · refine .inr ⟨e, e', rfl, rfl, hcompile, ?_⟩
    rw [← CompileError.wordings_erase, hcompile, CompileError.wordings_erase]
  · exact .inl ⟨type, rfl, hcompile ▸ rfl⟩

/-- A call of a plan that is declared further down. -/
def earlyCall : String := "agent A { plan p { !q(1); } plan q(x: int) {} }"

/-- The same tokens on several lines. -/
def earlyCallSpread : String :=
  "agent\n\tA\n\n{ plan p { ! q ( 1 ) ; }   plan q (x:int) { } }\n"

/-- The call is refused in the same words, but not in the same place. -/
theorem earlyCall_layout :
    tokenKinds earlyCall = tokenKinds earlyCallSpread ∧
      compile earlyCall {} ≠ compile earlyCallSpread {} ∧
      ∃ e e', compile earlyCall {} = .error e ∧ compile earlyCallSpread {} = .error e' ∧
        e.diagnostics.map Diagnostic.wording = e'.diagnostics.map Diagnostic.wording := by
  have h : tokenKinds earlyCall = tokenKinds earlyCallSpread := by decide +kernel
  refine ⟨h, by decide +kernel, ?_⟩
  rcases (layout_irrelevant h {}).2.2 with ⟨type, hok, -⟩ | ⟨e, e', he, he', -, hwords⟩
  · have hfails : (compile earlyCall {}).isOk = false := by decide +kernel
    rw [hok] at hfails
    cases hfails
  · exact ⟨e, e', he, he', hwords⟩

end AgentLang
