import AgentLang.Proofs.Damage
import AgentLang.Proofs.Layout

/-!
# One unit after another

A parser that has read a unit can be asked for the next one. It then carries the
errors of the units before and the span of the token it has read last, but
neither has an effect: errors are only ever added to (`Parser.after`), and a unit
starts by reading a token. So the next unit is what a new parser makes of the
tokens that are left (`Parser.parseUnit_eq_restart`).

A well-formed agent is read to its last brace and not beyond, whatever follows it
(`Parser.parseUnit_written`). Units can therefore stand one behind the other, and
all that is said against it is that each of them is followed by something.
-/

namespace AgentLang

open Grammar

namespace Parser

/-! ## Errors from before -/

/-- The parser with other errors before its own. -/
def after (before : List SyntaxError) (p : Parser) : Parser :=
  { p with errors := before ++ p.errors }

section After

variable (before : List SyntaxError) (p : Parser)

@[simp] theorem current_after : (p.after before).current = p.current := rfl

@[simp] theorem sees_after (s : Symbol) : (p.after before).sees s = p.sees s := rfl

@[simp] theorem atEnd_after : (p.after before).atEnd = p.atEnd := rfl

@[simp] theorem atBlockEnd_after : (p.after before).atBlockEnd = p.atBlockEnd := rfl

@[simp] theorem previous_after : (p.after before).previous = p.previous := rfl

@[simp] theorem mismatch_after (e : Expected) : (p.after before).mismatch e = p.mismatch e := rfl

@[simp] theorem advance_after : (p.after before).advance = p.advance.after before := by
  obtain ⟨unread, eof, previous, errors⟩ := p
  cases unread <;> rfl

@[simp] theorem report_after (e : SyntaxError) :
    (p.after before).report e = (p.report e).after before := by
  simp [report, after]

@[simp] theorem expect_after (e : Expected) :
    (p.after before).expect e = (p.expect e).after before := by
  simp only [expect, current_after, mismatch_after, report_after, advance_after]
  split <;> rfl

@[simp] theorem identifier_after :
    (p.after before).identifier = (p.identifier.1, p.identifier.2.after before) := by
  simp [identifier]

@[simp] theorem recover_after : (p.after before).recover = p.recover.after before := by
  fun_induction recover p with
  | case1 p hend =>
      rw [recover]
      simp [hend]
  | case2 p hend hsemi =>
      rw [recover]
      simp [hend, hsemi]
  | case3 p hend hsemi ih =>
      rw [recover]
      simp [hend, hsemi, ih]

/-! ### Expressions -/

@[simp] theorem atom_after : (p.after before).atom = (p.atom.1, p.atom.2.after before) := by
  simp only [atom, current_after, advance_after]
  split
  · rfl
  · split <;> rfl
  · rfl

section Chain

variable {c : Chain}
  (hoperand : ∀ p : Parser,
    c.operand (p.after before) = ((c.operand p).1, (c.operand p).2.after before))
include hoperand

theorem Chain.rest_after (left : Expr) (p : Parser) :
    c.rest left (p.after before) = ((c.rest left p).1, (c.rest left p).2.after before) := by
  fun_induction c.rest left p with
  | case1 left p hop => simp [rest_eq, hop]
  | case2 left p op hop e q hq => simp [rest_eq, hop, hoperand, hq]
  | case3 left p op hop right q hq ih =>
      rw [rest_eq]
      simpa [hop, hoperand, hq] using ih

theorem Chain.parse_after (p : Parser) :
    c.parse (p.after before) = ((c.parse p).1, (c.parse p).2.after before) := by
  rcases h : c.operand p with ⟨e | left, q⟩ <;>
    simp [parse, hoperand, h, rest_after before hoperand]

end Chain

@[simp] theorem product_after :
    (p.after before).product = (p.product.1, p.product.2.after before) :=
  Chain.parse_after before (atom_after before) p

@[simp] theorem expression_after :
    (p.after before).expression = (p.expression.1, p.expression.2.after before) :=
  Chain.parse_after before (product_after before) p

/-! ### Statements -/

@[simp] theorem moreArgs_after :
    (p.after before).moreArgs = (p.moreArgs.1, p.moreArgs.2.after before) := by
  fun_induction moreArgs p with
  | case1 p hcomma e q hq => simp [moreArgs_eq, hcomma, hq]
  | case2 p hcomma arg q hq e r hr ih =>
      rw [moreArgs_eq]
      simp [hcomma, hq, ih, hr]
  | case3 p hcomma arg q hq args r hr ih =>
      rw [moreArgs_eq]
      simp [hcomma, hq, ih, hr]
  | case4 p hcomma => simp [moreArgs_eq, hcomma]

@[simp] theorem args_after : (p.after before).args = (p.args.1, p.args.2.after before) := by
  unfold args
  rw [sees_after]
  split
  · rfl
  · rcases h : p.expression with ⟨e | arg, q⟩
    · simp [h]
    · rcases h' : q.moreArgs with ⟨e | args, r⟩ <;> simp [h, h']

@[simp] theorem term_after : (p.after before).term = (p.term.1, p.term.2.after before) := by
  rcases h : (p.identifier.2.expect (.symbol .lparen)).args with ⟨e | args, q⟩ <;> simp [term, h]

@[simp] theorem statement_after :
    (p.after before).statement = (p.statement.1, p.statement.2.after before) := by
  simp only [statement, current_after, advance_after, term_after]
  split
  · rfl
  · rcases p.advance.term with ⟨e | t, q⟩ <;> rfl

@[simp] theorem statementEnd_after :
    (p.after before).statementEnd = p.statementEnd.after before := by
  simp only [statementEnd, sees_after, mismatch_after, report_after, expect_after]
  split <;> rfl

@[simp] theorem block_after : (p.after before).block = (p.block.1, p.block.2.after before) := by
  fun_induction block p with
  | case1 p hend => simp [block_eq, hend]
  | case2 p hend stmt q hs rest ih =>
      rw [block_eq]
      simp [hend, hs, ih, rest]
  | case3 p hend e q hs ih =>
      rw [block_eq]
      simp [hend, hs, ih]

/-! ### Declarations -/

section Element

variable {α : Type} {element : Element α}
  (h : ∀ p : Parser,
    element.read (p.after before) = ((element.read p).1, (element.read p).2.after before))
include h

theorem Element.more_after :
    element.more (p.after before) = ((element.more p).1, (element.more p).2.after before) := by
  fun_induction element.more p with
  | case1 p hcomma first rest ih =>
      rw [more]
      simp [hcomma, h, first, rest, ih]
  | case2 p hcomma =>
      rw [more]
      simp [hcomma]

theorem Element.list_after :
    element.list (p.after before) = ((element.list p).1, (element.list p).2.after before) := by
  simp [list, h, more_after before _ h]

end Element

@[simp] theorem param_after : (p.after before).param = (p.param.1, p.param.2.after before) := by
  simp [param]

theorem parameter_after :
    parameter.read (p.after before) =
      ((parameter.read p).1, (parameter.read p).2.after before) := by
  simp [parameter]

@[simp] theorem params_after :
    (p.after before).params = (p.params.1, p.params.2.after before) := by
  simp only [params, sees_after, advance_after, expect_after,
    Element.list_after before _ (parameter_after before)]
  split
  · split <;> rfl
  · rfl

@[simp] theorem beliefAtom_after :
    (p.after before).beliefAtom = (p.beliefAtom.1, p.beliefAtom.2.after before) := by
  rcases h : p.atom with ⟨e | value, q⟩ <;> simp [beliefAtom, h]

theorem initialValue_after :
    initialValue.read (p.after before) =
      ((initialValue.read p).1, (initialValue.read p).2.after before) := by
  simp [initialValue]

@[simp] theorem beliefInit_after :
    (p.after before).beliefInit = (p.beliefInit.1, p.beliefInit.2.after before) := by
  simp only [beliefInit, sees_after, Element.list_after before _ (initialValue_after before)]
  split <;> rfl

@[simp] theorem belief_after :
    (p.after before).belief = (p.belief.1, p.belief.2.after before) := by
  simp [belief, apply_ite (after before)]

@[simp] theorem member_after (kind : MemberKind) :
    (p.after before).member kind = ((p.member kind).1, (p.member kind).2.after before) := by
  simp [member]

@[simp] theorem items_after : (p.after before).items = (p.items.1, p.items.2.after before) := by
  fun_induction items p with
  | case1 p hk first rest ih =>
      rw [items_eq]
      simp [hk, first, rest, ih]
  | case2 p hk first rest ih =>
      rw [items_eq]
      simp [hk, first, rest, ih]
  | case3 p hk first rest ih =>
      rw [items_eq]
      simp [hk, first, rest, ih]
  | case4 p hbel hon hplan =>
      rw [items_eq]
      split <;> simp_all

@[simp] theorem agent_after : (p.after before).agent = (p.agent.1, p.agent.2.after before) := by
  simp [agent]

theorem parseUnit_after :
    (p.after before).parseUnit = (p.parseUnit.1, p.parseUnit.2.after before) := by
  simp only [parseUnit, agent_after, atEnd_after, current_after, report_after]
  split <;> rfl

end After

/-! ## Starting again -/

/-- A new parser in front of the tokens that `p` has left, and of the end of the file
alone if it has left none. -/
def restart (p : Parser) : Parser := .ofStream ⟨p.unread, p.eof⟩

/-- Reading a token forgets the one before. -/
theorem expect_of_previous (p : Parser) (span : Span) (e : Expected) :
    Parser.expect { p with previous := span } e = p.expect e := by
  obtain ⟨unread, eof, previous, errors⟩ := p
  cases unread <;> rfl

theorem parseUnit_of_previous (p : Parser) (span : Span) :
    Parser.parseUnit { p with previous := span } = p.parseUnit := by
  have hagent : Parser.agent { p with previous := span } = p.agent := by
    rw [agent, expect_of_previous]
    rfl
  rw [parseUnit, hagent]
  rfl

/-- The next unit is the one that a new parser reads, and its errors come behind those that
are there already. -/
theorem parseUnit_eq_restart (p : Parser) :
    p.parseUnit = (p.restart.parseUnit.1, p.restart.parseUnit.2.after p.errors) := by
  rw [← parseUnit_after, ← parseUnit_of_previous p .nowhere]
  simp [after, restart, ofStream]

theorem restart_erase (p : Parser) : p.restart.erase = .ofKinds p.kinds := by
  simp only [restart, ofStream, erase, ofKinds, kinds, List.map_map, List.map_nil]
  rfl

/-- The parser after `n` units. -/
def afterUnits (p : Parser) : Nat → Parser
  | 0 => p
  | n + 1 => p.parseUnit.2.afterUnits n

/-! ## What units leave unread -/

theorem onward_agent (p : Parser) : p.Onward p.agent.2 :=
  (((((p.onward_expect (.keyword .agent)).trans (onward_expect _ .identifier)).trans
    (onward_params _)).trans (onward_expect _ _)).trans (onward_items _)).trans (onward_expect _ _)

theorem onward_parseUnit (p : Parser) : p.Onward p.parseUnit.2 := by
  simp only [parseUnit]
  split
  · exact p.onward_agent
  · exact p.onward_agent.trans (onward_report _ _)

theorem onward_afterUnits (p : Parser) (n : Nat) : p.Onward (p.afterUnits n) := by
  induction n generalizing p with
  | zero => exact .refl p
  | succ n ih => exact p.onward_parseUnit.trans (ih _)

end Parser

/-- Where a text starts has no effect on the kinds of its tokens. -/
theorem map_kind_tokensFrom (here there : Location) (text : List Char) :
    (tokensFrom here text).map Token.kind = (tokensFrom there text).map Token.kind := by
  fun_induction tokensFrom here text generalizing there with
  | case1 => simp [tokensFrom]
  | case2 here c cs hc ih =>
      rw [tokensFrom, if_pos hc]
      exact ih _
  | case3 here c cs hc there' ih =>
      rw [tokensFrom, if_neg hc, List.map_cons, List.map_cons, ih]

/-- The last tokens of a text are the tokens of an end of it. -/
theorem exists_text_of_suffix {here : Location} {text : List Char} {ts : List Token}
    (h : ts <:+ tokensFrom here text) :
    ∃ rest, rest <:+ text ∧
      ∀ there, (tokensFrom there rest).map Token.kind = ts.map Token.kind := by
  fun_induction tokensFrom here text with
  | case1 here =>
      obtain rfl := List.suffix_nil.mp h
      exact ⟨[], List.suffix_refl _, fun there => by simp [tokensFrom]⟩
  | case2 here c cs hc ih =>
      obtain ⟨rest, hrest, hkinds⟩ := ih h
      exact ⟨rest, hrest.trans (List.suffix_cons c cs), hkinds⟩
  | case3 here c cs hc there ih =>
      rcases List.suffix_cons_iff.mp h with rfl | htail
      · refine ⟨c :: cs, List.suffix_refl _, fun start => ?_⟩
        rw [map_kind_tokensFrom start here, tokensFrom, if_neg hc]
      · obtain ⟨rest, hrest, hkinds⟩ := ih htail
        exact ⟨rest, hrest.trans ⟨_, munch_append c cs⟩, hkinds⟩

/-! ## Well-formed agents -/

/-- The tokens are a way to write down the well-formed agent `a`. There is such an agent for
every sentence of the grammar whose numbers fit (`exists_agent`). -/
structure Written (a : Agent) (ts : List Token) : Prop where
  sayable : a.Sayable
  phrase : ts.map Token.kind ∈ a.phrases

theorem written_of_parse {source : String} (h : (parse source).2 = []) {ts : List Token}
    (hts : ts.map Token.kind = tokenKinds source) : Written (parse source).1 ts :=
  ⟨parse_sayable source, hts ▸ tokenKinds_mem_phrases h⟩

theorem Written.starts {a : Agent} {ts : List Token} (h : Written a ts) :
    ∃ t rest, ts = t :: rest ∧ t.kind = .keyword .agent := by
  obtain ⟨-, items, -, -, hks⟩ := h
  rw [mul_assoc, mul_assoc, mul_assoc, mul_assoc] at hks
  obtain ⟨us, vs, rfl, hus, -⟩ := exists_of_map_mem_mul hks
  obtain ⟨t, ht, rfl⟩ := exists_of_map_mem_word hus
  exact ⟨t, vs, rfl, ht⟩

/-- What is said about the tokens behind an agent. -/
def trailingErrors : List Token → List SyntaxError
  | [] => []
  | t :: _ => [.trailingInput t.kind t.span]

namespace Parser

/-- A well-formed agent is read as it is and no further, and it is reported that something
follows it. -/
theorem parseUnit_written {p : Parser} {a : Agent} {text rest : List Token}
    (ha : Written a text) (heof : ∀ t ∈ rest, t.kind ≠ .eof) (h : p.unread = text ++ rest) :
    p.parseUnit.1.erase = a.erase ∧ p.parseUnit.2.unread = rest ∧
      p.parseUnit.2.errors = p.errors ++ trailingErrors rest := by
  have hfacing : p.Facing (text ++ rest) p.errors := ⟨h, rfl⟩
  have hat : p.At (text.map Token.kind ++ rest.map Token.kind) p.errors := by
    rw [← List.map_append]
    exact hfacing.at
  obtain ⟨herase, hq⟩ := agent_at ha.sayable ha.phrase hat
  have hrest := hfacing.of_at p.onward_agent hq
  simp only [parseUnit]
  cases rest with
  | nil =>
      have hend : p.agent.2.atEnd = true := by simp [atEnd, current, hrest.unread]
      simp only [hend, if_true]
      exact ⟨herase, hrest.unread, by simp [trailingErrors, hrest.errors]⟩
  | cons t rest =>
      have hend : p.agent.2.atEnd = false := by
        simp [atEnd, hrest.current, heof t List.mem_cons_self]
      simp only [hend, Bool.false_eq_true, if_false, hrest.current]
      exact ⟨herase, hrest.unread, by simp [report, trailingErrors, hrest.errors]⟩

/-- Agents that stand one behind the other are read one after the other. -/
theorem afterUnits_written {agents : List Agent} {texts : List (List Token)}
    (h : List.Forall₂ Written agents texts) :
    ∀ {p : Parser}, p.unread = texts.flatten → (∀ t ∈ p.unread, t.kind ≠ .eof) →
      ∀ {k : Nat} {a : Agent}, agents[k]? = some a →
        (p.afterUnits k).parseUnit.1.erase = a.erase ∧
          (p.afterUnits k).parseUnit.2.errors =
            (p.afterUnits k).errors ++ trailingErrors (texts.drop (k + 1)).flatten := by
  induction h with
  | nil =>
      intro p _ _ k a ha
      cases ha
  | @cons a text agents texts hfirst _ ih =>
      intro p hp heof k b hb
      rw [List.flatten_cons] at hp
      have hrest : ∀ t ∈ texts.flatten, t.kind ≠ .eof := fun t ht => heof t (by simp [hp, ht])
      obtain ⟨herase, hunread, herrors⟩ := parseUnit_written hfirst hrest hp
      cases k with
      | zero =>
          obtain rfl : a = b := by simpa using hb
          exact ⟨herase, by simpa [afterUnits] using herrors⟩
      | succ k => exact ih hunread (by simpa [hunread] using hrest) (by simpa using hb)

end Parser

/-- Behind the last agent there is nothing to report, and behind each other one stands the
`agent` of the next. -/
theorem trailingErrors_drop {agents : List Agent} {texts : List (List Token)}
    (h : List.Forall₂ Written agents texts) (k : Nat) :
    (k = agents.length → trailingErrors (texts.drop k).flatten = []) ∧
      ∀ next, texts[k]? = some next → ∃ t rest, next = t :: rest ∧ t.kind = .keyword .agent ∧
        trailingErrors (texts.drop k).flatten = [.trailingInput (.keyword .agent) t.span] := by
  induction h generalizing k with
  | nil => exact ⟨by simp [trailingErrors], by simp⟩
  | @cons a text agents texts hfirst _ ih =>
      cases k with
      | zero =>
          refine ⟨by simp, fun next hnext => ?_⟩
          obtain ⟨t, rest, rfl, ht⟩ := hfirst.starts
          obtain rfl : t :: rest = next := by simpa using hnext
          exact ⟨t, rest, rfl, ht, by simp [trailingErrors, ht]⟩
      | succ k => simpa using ih k

/-! ## Units of a source -/

/-- The parser stands in the tokens of the source and parses the next unit as a new parser
would, in front of the tokens that are left: the agent is the same, and so are the errors that
are added. A new parser that reads only the rest of the text has other spans. -/
structure Parser.AsNew (source : String) (p : Parser) : Prop where
  unread : p.unread <:+ (lex source).tokens
  eof : p.eof = (lex source).eof
  agent : p.parseUnit.1 = p.restart.parseUnit.1
  errors : p.parseUnit.2.errors = p.errors ++ p.restart.parseUnit.2.errors
  text : ∃ rest : String, rest.toList <:+ source.toList ∧ tokenKinds rest = p.kinds ∧
    p.restart.parseUnit.1.erase = (parse rest).1.erase ∧
    p.restart.parseUnit.2.errors.map SyntaxError.erase = (parse rest).2.map SyntaxError.erase

theorem Parser.Onward.asNew {source : String} {p : Parser}
    (h : (Parser.ofSource source).Onward p) : p.AsNew source := by
  obtain ⟨⟨read, hread⟩, heof⟩ := h.exists_unread
  have hleft : p.unread <:+ (lex source).tokens := ⟨read, hread.symm⟩
  have hunit := p.parseUnit_eq_restart
  refine ⟨hleft, heof, ?_, ?_, ?_⟩
  · rw [hunit]
  · rw [hunit]
    rfl
  · obtain ⟨rest, hrest, hkinds⟩ := exists_text_of_suffix hleft
    have hlexed : tokenKinds (String.ofList rest) = p.kinds := by
      rw [kinds, ← hkinds .start]
      simp [tokenKinds, lex]
    have hsame := parse_erase (String.ofList rest)
    rw [hlexed, ← p.restart_erase, Parser.parseUnit_erase] at hsame
    obtain ⟨hagent, herrors⟩ := Prod.mk.inj hsame
    exact ⟨String.ofList rest, by simpa using hrest, hlexed, hagent.symm, herrors.symm⟩

/-- **Units are parsed one by one.** However many units a parser has read, it goes on as a new
parser would. So agents that follow each other are all found: the `k`-th unit is the `k`-th
agent, the last adds no error, and every other one adds that the `agent` of the next unit
follows. Behind a single agent the first token is reported, whatever it is. -/
theorem units_parsed_one_by_one (source : String) :
    (∀ n, ((Parser.ofSource source).afterUnits n).AsNew source) ∧
    (∀ agents texts, List.Forall₂ Written agents texts → (lex source).tokens = texts.flatten →
      ∀ k a, agents[k]? = some a →
        ((Parser.ofSource source).afterUnits k).parseUnit.1.erase = a.erase ∧
        (k + 1 = agents.length → ((Parser.ofSource source).afterUnits k).parseUnit.2.errors =
          ((Parser.ofSource source).afterUnits k).errors) ∧
        ∀ next, texts[k + 1]? = some next → ∃ t rest, next = t :: rest ∧
          t.kind = .keyword .agent ∧ ((Parser.ofSource source).afterUnits k).parseUnit.2.errors =
            ((Parser.ofSource source).afterUnits k).errors ++
              [.trailingInput (.keyword .agent) t.span]) ∧
    ∀ a text t rest, Written a text → (lex source).tokens = text ++ t :: rest →
      (parse source).1.erase = a.erase ∧ (parse source).2 = [.trailingInput t.kind t.span] := by
  have heof : ∀ t ∈ (lex source).tokens, t.kind ≠ .eof :=
    fun t ht => ne_eof_of_mem_tokenKinds _ (List.mem_map_of_mem ht)
  refine ⟨fun n => (Parser.onward_afterUnits _ n).asNew, ?_, ?_⟩
  · intro agents texts h htexts k a ha
    obtain ⟨herase, herrors⟩ :=
      Parser.afterUnits_written h (p := .ofSource source) htexts heof ha
    obtain ⟨hlast, hmore⟩ := trailingErrors_drop h (k + 1)
    refine ⟨herase, fun hk => ?_, fun next hnext => ?_⟩
    · rw [herrors, hlast hk, List.append_nil]
    · obtain ⟨t, rest, htext, ht, htrailing⟩ := hmore next hnext
      exact ⟨t, rest, htext, ht, by rw [herrors, htrailing]⟩
  · intro a text t rest ha htext
    have hrest : ∀ u ∈ t :: rest, u.kind ≠ .eof := fun u hu => heof u (by simp [htext, hu])
    obtain ⟨herase, -, herrors⟩ :=
      Parser.parseUnit_written ha hrest (p := .ofSource source) htext
    exact ⟨herase, herrors⟩

/-- Two agents, the second with a belief. -/
def twoAgents : String := "agent A { } agent B { bel b(1) }"

/-- Both are found, and the first is reported to be followed by the second. -/
theorem two_agents_found :
    ∃ first second, (lex twoAgents).tokens = first ++ second ∧
      Written (parse "agent A { }").1 first ∧ Written (parse "agent B { bel b(1) }").1 second ∧
      (parse twoAgents).1.erase = (parse "agent A { }").1.erase ∧
      ((Parser.ofSource twoAgents).afterUnits 1).parseUnit.1.erase =
        (parse "agent B { bel b(1) }").1.erase ∧
      (∃ span, (parse twoAgents).2 = [.trailingInput (.keyword .agent) span]) ∧
      ((Parser.ofSource twoAgents).afterUnits 1).parseUnit.2.errors = (parse twoAgents).2 := by
  have hsplit : (lex twoAgents).tokens =
      (lex twoAgents).tokens.take 4 ++ (lex twoAgents).tokens.drop 4 :=
    (List.take_append_drop 4 _).symm
  have hfirst : Written (parse "agent A { }").1 ((lex twoAgents).tokens.take 4) :=
    written_of_parse (by decide +kernel) (by decide +kernel)
  have hsecond : Written (parse "agent B { bel b(1) }").1 ((lex twoAgents).tokens.drop 4) :=
    written_of_parse (by decide +kernel) (by decide +kernel)
  obtain ⟨-, hunits, -⟩ := units_parsed_one_by_one twoAgents
  have hboth := hunits _ _ (.cons hfirst (.cons hsecond .nil)) (by simp)
  obtain ⟨hA, -, hnext⟩ := hboth 0 _ rfl
  obtain ⟨hB, hlast, -⟩ := hboth 1 _ rfl
  obtain ⟨t, -, -, -, herrors⟩ := hnext _ rfl
  exact ⟨_, _, hsplit, hfirst, hsecond, hA, hB, ⟨t.span, herrors⟩, hlast rfl⟩

end AgentLang
