import AgentLang.Proofs.Recovery

/-!
# A malformed statement in an agent

A statement of a source without errors is replaced by other tokens, up to its
`;`, and the last statement of a body also with it. If the tokens are no
statement, the new source has an error. If they do not swallow the closing
token, the new agent is the old one with that one statement replaced, by
nothing or by what could be made of the tokens (`malformed_statement_confined`).

`Agent.StatementAt` says which tokens of a source a statement is. The parser is
followed to that place (`Parser.agent_focus`), through the block
(`Parser.block_run`) and to the end.
-/

open scoped Computability

namespace AgentLang

open Grammar

/-! ## Statements of an agent -/

/-- All that is written before the statements of a member that follow
`stmts`. -/
def Agent.headPhrases (a : Agent) (items : List Item) (m : Member) (stmts : List Stmt) :
    Language TokenKind :=
  key .agent * word (.ident a.name.name) * paramPhrases a.params * sym .lbrace *
    itemPhrases items * (key m.kind.opener * (word (.ident m.name.name) *
      paramPhrases m.params * sym .lbrace * blockPhrases stmts))

/-- All that is written after a statement of a member. -/
def tailPhrases (stmts : List Stmt) (items : List Item) : Language TokenKind :=
  blockPhrases stmts * sym .rbrace * itemPhrases items * sym .rbrace

/-- The tokens `st` are statement `i` of member `k`, its `;` not included, in a
text of the agent. -/
def Agent.StatementAt (a : Agent) (k i : Nat) (before st after : List TokenKind) : Prop :=
  ∃ (items : List Item) (m : Member) (items' : List Item) (s : Stmt),
    (items ++ .member m :: items').filterMap Item.belief? = a.beliefs ∧
    (items ++ .member m :: items').filterMap Item.member? = a.members ∧
    (items.filterMap Item.member?).length = k ∧ m.body[i]? = some s ∧
    before ∈ a.headPhrases items m (m.body.take i) ∧ st ∈ s.phrases ∧
    after ∈ tailPhrases (m.body.drop (i + 1)) items'

/-- The agent with statement `i` of member `k` replaced. -/
def Agent.replaceStmt (a : Agent) (k i : Nat) (stmts : List Stmt) : Agent :=
  { a with
    members := a.members.modify k fun m =>
      { m with body := m.body.take i ++ stmts ++ m.body.drop (i + 1) } }

theorem split_member {items : List Item} :
    ∀ {k : Nat} {m : Member}, (items.filterMap Item.member?)[k]? = some m →
      ∃ before after, items = before ++ .member m :: after ∧
        (before.filterMap Item.member?).length = k := by
  induction items with
  | nil =>
      intro k m h
      cases h
  | cons item items ih =>
      intro k m h
      cases item with
      | belief b =>
          obtain ⟨before, after, rfl, hlen⟩ := ih (k := k) (m := m) h
          exact ⟨.belief b :: before, after, rfl, hlen⟩
      | member n =>
          cases k with
          | zero =>
              obtain rfl : n = m := Option.some.inj h
              exact ⟨[], items, rfl, rfl⟩
          | succ k =>
              obtain ⟨before, after, rfl, hlen⟩ := ih (k := k) (m := m) h
              exact ⟨.member n :: before, after, rfl, by simpa [Item.member?] using hlen⟩

/-- Every statement has its tokens in every text of the agent. -/
theorem exists_statementAt {a : Agent} {ks : List TokenKind} {k i : Nat} {m : Member}
    (hks : ks ∈ a.phrases) (hm : a.members[k]? = some m) (hi : i < m.body.length) :
    ∃ before st after, ks = before ++ st ++ .symbol .semi :: after ∧
      a.StatementAt k i before st after := by
  obtain ⟨items, hbeliefs, hmembers, -, ⟨head, hhead, ki, hki, rfl⟩, -, rfl, rfl⟩ := hks
  obtain ⟨items₁, items₂, rfl, hk⟩ := split_member (hmembers ▸ hm)
  have hbody : m.body = m.body.take i ++ m.body[i] :: m.body.drop (i + 1) := by
    rw [List.getElem_cons_drop, List.take_append_drop]
  rw [itemPhrases, List.map_append, List.prod_append, List.map_cons, List.prod_cons] at hki
  obtain ⟨k₁, hk₁, -, ⟨-, ⟨-, rfl, -, ⟨-, ⟨hd, hhd, kb, hkb, rfl⟩, -, rfl, rfl⟩, rfl⟩,
    k₂, hk₂, rfl⟩, rfl⟩ := hki
  rw [hbody, blockPhrases, List.map_append, List.prod_append, List.map_cons, List.prod_cons] at hkb
  obtain ⟨kpre, hkpre, -, ⟨-, ⟨st, hst, -, rfl, rfl⟩, kpost, hkpost, rfl⟩, rfl⟩ := hkb
  refine ⟨head ++ k₁ ++ ([.keyword m.kind.opener] ++ (hd ++ kpre)), st,
    kpost ++ [.symbol .rbrace] ++ k₂ ++ [.symbol .rbrace], by simp, items₁, m, items₂, m.body[i],
    hbeliefs, hmembers, hk, List.getElem?_eq_getElem hi, ?_, hst, ?_⟩
  · exact Language.append_mem_mul (Language.append_mem_mul hhead hk₁)
      (Language.append_mem_mul rfl (Language.append_mem_mul hhd hkpre))
  · exact Language.append_mem_mul (Language.append_mem_mul
      (Language.append_mem_mul hkpost rfl) hk₂) rfl

/-! ## To the statement and back -/

theorem Agent.erase_ofItems (name : Ident) (params : List Param) (items : List Item)
    (span : Span) :
    (ofItems name params items span).erase =
      ofItems name.erase (params.map Param.erase) (items.map Item.erase) .nowhere := by
  simp [Agent.erase, ofItems, map_erase_beliefs, map_erase_members]

namespace Parser

/-- The parser comes to the statement with nothing reported, and from there the
agent depends on the block alone. -/
theorem agent_focus {p : Parser} {a : Agent} {items : List Item} {m : Member}
    {stmts : List Stmt} {before rest : List TokenKind} {es : List SyntaxError}
    (hitems : ∀ item ∈ items, item.Sayable)
    (hstmts : ∀ s ∈ stmts, ∀ e ∈ s.term.args, e.Sayable)
    (hbefore : before ∈ a.headPhrases items m stmts) (h : p.At (before ++ rest) es) :
    ∃ q : Parser, q.At rest es ∧
      p.agent.1.erase = (Agent.ofItems a.name a.params (items ++
        .member { m with body := stmts ++ q.block.1 } ::
          (q.block.2.expect (.symbol .rbrace)).items.1) .nowhere).erase ∧
      p.agent.2 = (q.block.2.expect (.symbol .rbrace)).items.2.expect (.symbol .rbrace) := by
  obtain ⟨-, ⟨-, ⟨-, ⟨-, ⟨-, rfl, -, rfl, rfl⟩, kp, hkp, rfl⟩, -, rfl, rfl⟩, ki, hki, rfl⟩,
    -, ⟨-, rfl, -, ⟨-, ⟨-, ⟨-, rfl, kmp, hkmp, rfl⟩, -, rfl, rfl⟩, kb, hkb, rfl⟩, rfl⟩,
    rfl⟩ := hbefore
  simp only [List.append_assoc, List.cons_append, List.nil_append] at h
  obtain ⟨hname, h₁⟩ := h.expect_key.identifier
  obtain ⟨hparams, h₂⟩ := params_at hkp h₁
  obtain ⟨items', r, hitems', herase, h₃⟩ := items_resume hitems (by simp) hki h₂.expect_sym
  obtain ⟨hmname, h₄⟩ := h₃.advance.identifier
  obtain ⟨hmparams, h₅⟩ := params_at hkmp h₄
  obtain ⟨stmts', q, hblock, hstmts', h₆⟩ := block_resume hstmts hkb h₅.expect_sym
  rw [items_member m.kind h₃.current] at hitems'
  have hmember : (r.advance.member m.kind).2 = q.block.2.expect (.symbol .rbrace) := by
    simp only [member, hblock]
  refine ⟨q, h₆, ?_, ?_⟩
  · simp only [agent, hitems', hmember, Agent.erase_ofItems, hparams]
    simp [Ident.erase, hname, herase, Item.erase, member, Member.erase, hmname, hmparams, hblock,
      hstmts']
  · simp only [agent, hitems', hmember]

section Replaced

variable {p : Parser} {a : Agent} {items items' : List Item} {m : Member}
  {stmts stmts' : List Stmt} {before run rest kb ki : List TokenKind} {c : TokenKind}
  {es : List SyntaxError}

/-- Tokens in the place of a statement that do not swallow what closes them
leave the rest of the agent as it was. -/
theorem agent_confined (hitems : ∀ item ∈ items, item.Sayable)
    (hitems' : ∀ item ∈ items', item.Sayable)
    (hstmts : ∀ s ∈ stmts, ∀ e ∈ s.term.args, e.Sayable)
    (hstmts' : ∀ s ∈ stmts', ∀ e ∈ s.term.args, e.Sayable)
    (hbefore : before ∈ a.headPhrases items m stmts)
    (hc : c = .symbol .semi ∨ c = .symbol .rbrace) (hkb : kb ∈ blockPhrases stmts')
    (hki : ki ∈ itemPhrases items')
    (hrest : afterClosing c rest = kb ++ .symbol .rbrace :: (ki ++ [.symbol .rbrace]))
    (hrun : Unclosed run) (hsafe : ¬Swallows run)
    (h : p.At (before ++ (run ++ c :: rest)) es) :
    ∃ mid : List Stmt, mid.length ≤ run.countP (fun k => (stmtKind? k).isSome) ∧
      p.agent.1.erase = (Agent.ofItems a.name a.params
        (items ++ .member { m with body := stmts ++ mid ++ stmts' } :: items') .nowhere).erase := by
  obtain ⟨q, hq, hagent, -⟩ := agent_focus hitems hstmts hbefore h
  obtain ⟨mid, r, es', hblock, hlen, hr⟩ := block_run hc hrun hsafe hq
  rw [hrest] at hr
  obtain ⟨hbody, hclose⟩ := block_at hstmts' hkb hr
  obtain ⟨hmore, -⟩ := items_at hitems' hki hclose.expect_sym
  refine ⟨mid, hlen, ?_⟩
  rw [hagent, hblock, Agent.erase_ofItems, Agent.erase_ofItems]
  simp [Item.erase, Member.erase, hbody, hmore]

/-- Tokens in the place of a statement that are none are reported. -/
theorem agent_reports (hitems : ∀ item ∈ items, item.Sayable)
    (hstmts : ∀ s ∈ stmts, ∀ e ∈ s.term.args, e.Sayable)
    (hbefore : before ∈ a.headPhrases items m stmts)
    (hc : c = .symbol .semi ∨ c = .symbol .rbrace) (hne : run ≠ []) (hrun : Unclosed run)
    (hbad : run ∉ Grammar.statement) (h : p.At (before ++ (run ++ c :: rest)) es) :
    p.agent.2.errors ≠ es := by
  obtain ⟨q, hq, -, hend⟩ := agent_focus hitems hstmts hbefore h
  have hblock : q.block.2.errors ≠ es := hq.errors ▸ block_errs hc hne hrun hbad hq
  have hfrom : q.errors <+: q.block.2.errors := q.parses_block.2.errors
  have hto : q.block.2.errors <+: p.agent.2.errors := by
    rw [hend]
    exact ((parses_expect_sym _ .rbrace).errors.trans (parses_items _).2.errors).trans
      (parses_expect_sym _ .rbrace).errors
  intro hsame
  rw [hq.errors] at hfrom
  rw [hsame] at hto
  exact hblock (hto.eq_of_length_le hfrom.length_le)

end Replaced

end Parser

theorem parse_errors_of_agent {source : String}
    (h : (Parser.ofSource source).agent.2.errors ≠ []) : (parse source).2 ≠ [] := by
  simp only [parse, Parser.parseUnit]
  split
  · exact h
  · simp [Parser.report]

/-- Replacing a statement, seen from the items. -/
theorem Agent.erase_replaceStmt {a : Agent} {items items' : List Item} {m : Member} {i : Nat}
    (hbeliefs : (items ++ .member m :: items').filterMap Item.belief? = a.beliefs)
    (hmembers : (items ++ .member m :: items').filterMap Item.member? = a.members)
    (mid : List Stmt) :
    (a.replaceStmt (items.filterMap Item.member?).length i mid).erase =
      (Agent.ofItems a.name a.params (items ++ .member { m with
        body := m.body.take i ++ mid ++ m.body.drop (i + 1) } :: items') .nowhere).erase := by
  have hmodify (l l' : List Member) (f : Member → Member) :
      (l ++ m :: l').modify l.length f = l ++ f m :: l' := by
    simp [List.modify_eq_take_drop]
  simp only [replaceStmt, Agent.erase, ofItems, ← hbeliefs, ← hmembers, List.filterMap_append,
    List.filterMap_cons, Item.belief?, Item.member?, hmodify]

/-- **A malformed statement damages only itself, unless it swallows its end.**
Take statement `i` of member `k` of a source without errors, and put other
tokens in its place, up to its `;` or, at the end of a body, also in place of
the `;`. If they are no statement, the new source has an error. If moreover
they do not swallow the token that closes them, then the new agent is the old
one but for that statement, in whose place stand at most as many statements as
the tokens have signs. -/
theorem malformed_statement_confined {source : String} (h : (parse source).2 = []) {k i : Nat}
    {m : Member} (hm : (parse source).1.members[k]? = some m) (hi : i < m.body.length) :
    (∃ before st after, tokenKinds source = before ++ st ++ .symbol .semi :: after ∧
      (parse source).1.StatementAt k i before st after) ∧
    ∀ before st after, tokenKinds source = before ++ st ++ .symbol .semi :: after →
      (parse source).1.StatementAt k i before st after →
      ∀ (run : List TokenKind) (source' : String), run ≠ [] →
        (∀ t ∈ run, t ≠ .symbol .semi ∧ t ≠ .symbol .lbrace ∧ t ≠ .symbol .rbrace) →
        run ∉ Grammar.statement →
        tokenKinds source' = before ++ run ++ .symbol .semi :: after ∨
          i + 1 = m.body.length ∧ tokenKinds source' = before ++ run ++ after →
        (parse source').2 ≠ [] ∧
        (¬Swallows run → ∃ mid : List Stmt,
          mid.length ≤ run.countP (fun t => (Parser.stmtKind? t).isSome) ∧
          (parse source').1.erase = ((parse source).1.replaceStmt k i mid).erase) := by
  refine ⟨exists_statementAt (tokenKinds_mem_phrases h) hm hi, ?_⟩
  rintro before st after - ⟨items, n, items', s, hbeliefs, hmembers, rfl, hs, hbefore, -, hafter⟩
    run source' hne hmarks hbad hsource'
  obtain rfl : n = m := by
    rw [← hmembers, List.filterMap_append] at hm
    simpa [Item.member?] using hm
  obtain ⟨-, ⟨-, ⟨kb, hkb, -, rfl, rfl⟩, ki, hki, rfl⟩, -, rfl, rfl⟩ := hafter
  have hsay := parse_sayable source
  have hitem : ∀ item ∈ items ++ .member n :: items', item.Sayable := by
    intro item hmem
    cases item with
    | belief b => exact hsay.beliefs b (hbeliefs ▸ mem_beliefs_iff.mpr hmem)
    | member m => exact hsay.members m (hmembers ▸ mem_members_iff.mpr hmem)
  have hitems := List.forall_mem_append.mp hitem
  have hbody : n.Sayable := hitem (.member n) (by simp)
  have hpre : ∀ s ∈ n.body.take i, ∀ e ∈ s.term.args, e.Sayable :=
    fun s hs => hbody s (List.mem_of_mem_take hs)
  have hpost : ∀ s ∈ n.body.drop (i + 1), ∀ e ∈ s.term.args, e.Sayable :=
    fun s hs => hbody s (List.mem_of_mem_drop hs)
  -- In both cases the tokens are followed by one that closes them.
  obtain ⟨c, rest, hc, hkinds, hrest⟩ : ∃ c rest, (c = .symbol .semi ∨ c = .symbol .rbrace) ∧
      tokenKinds source' = before ++ (run ++ c :: rest) ∧
      afterClosing c rest = kb ++ .symbol .rbrace :: (ki ++ [.symbol .rbrace]) := by
    rcases hsource' with hkinds | ⟨hlast, hkinds⟩
    · exact ⟨.symbol .semi, _, Or.inl rfl, by simpa using hkinds, by simp [afterClosing]⟩
    · rw [hlast, List.drop_length] at hkb
      obtain rfl : kb = [] := hkb
      exact ⟨.symbol .rbrace, _, Or.inr rfl, by simpa using hkinds, by simp [afterClosing]⟩
  have hrun : Unclosed run := by
    rintro t ht (heq | heq | heq)
    · exact (hmarks t ht).1 heq
    · exact (hmarks t ht).2.2 heq
    · exact ne_eof_of_mem_tokenKinds t (by rw [hkinds]; simp [ht]) heq
  have hat : (Parser.ofSource source').At (before ++ (run ++ c :: rest)) [] := ⟨hkinds, rfl⟩
  refine ⟨parse_errors_of_agent (Parser.agent_reports hitems.1 hpre hbefore hc hne hrun hbad hat),
    fun hsafe => ?_⟩
  obtain ⟨mid, hlen, hagent⟩ := Parser.agent_confined hitems.1
    (List.forall_mem_cons.mp hitems.2).2 hpre hpost hbefore hc hkb hki hrest hrun hsafe hat
  exact ⟨mid, hlen, hagent.trans (Agent.erase_replaceStmt hbeliefs hmembers mid).symm⟩

/-- Between two characters of a source that is one line of ASCII. -/
def onFirstLine (start stop : Nat) : Span :=
  ⟨⟨start, 1, start.toUInt32 + 1⟩, ⟨stop, 1, stop.toUInt32 + 1⟩⟩

/-- A plan of two calls, with some spans. -/
theorem two_calls_parsed : ∃ s₁ s₂ s₃ s₄ s₅ s₆ s₇ s₈ s₉ s₁₀ : Span,
    parse "agent A { plan p { !b(); !c(); } }" =
      (⟨⟨"A", s₁⟩, [], [], [⟨.plan, ⟨"p", s₂⟩, [],
        [⟨.invoke, ⟨⟨"b", s₃⟩, [], s₄⟩, s₅⟩, ⟨.invoke, ⟨⟨"c", s₆⟩, [], s₇⟩, s₈⟩], s₉⟩], s₁₀⟩,
        []) := by
  refine ⟨onFirstLine 6 7, onFirstLine 15 16, onFirstLine 20 21, onFirstLine 20 23,
    onFirstLine 19 23, onFirstLine 26 27, onFirstLine 26 29, onFirstLine 25 29,
    onFirstLine 15 32, onFirstLine 0 34, ?_⟩
  decide +kernel

theorem two_calls_first : (parse "agent A { plan p { !b(); !c(); } }").1.StatementAt 0 0
    [.keyword .agent, .ident "A", .symbol .lbrace, .keyword .plan, .ident "p", .symbol .lbrace]
    [.symbol .bang, .ident "b", .symbol .lparen, .symbol .rparen]
    [.symbol .bang, .ident "c", .symbol .lparen, .symbol .rparen, .symbol .semi,
      .symbol .rbrace, .symbol .rbrace] := by
  obtain ⟨s₁, s₂, s₃, s₄, s₅, s₆, s₇, s₈, s₉, s₁₀, hparse⟩ := two_calls_parsed
  rw [hparse]
  refine ⟨[], _, [], _, rfl, rfl, rfl, rfl, ?_, ?_, ?_⟩
  · exact ⟨_, ⟨_, ⟨_, ⟨_, ⟨_, rfl, _, rfl, rfl⟩, [], Or.inl rfl, rfl⟩, _, rfl, rfl⟩, [], rfl, rfl⟩,
      _, ⟨_, rfl, _, ⟨_, ⟨_, ⟨_, rfl, [], Or.inl rfl, rfl⟩, _, rfl, rfl⟩, [], rfl, rfl⟩, rfl⟩, rfl⟩
  · exact ⟨_, rfl, _, ⟨_, ⟨_, ⟨_, rfl, _, rfl, rfl⟩, [], rfl, rfl⟩, _, rfl, rfl⟩, rfl⟩
  · have hcall : [.symbol .bang, .ident "c", .symbol .lparen, .symbol .rparen] ∈
        (⟨.invoke, ⟨⟨"c", s₆⟩, [], s₇⟩, s₈⟩ : Stmt).phrases :=
      ⟨_, rfl, _, ⟨_, ⟨_, ⟨_, rfl, _, rfl, rfl⟩, [], rfl, rfl⟩, _, rfl, rfl⟩, rfl⟩
    exact ⟨_, ⟨_, ⟨_, ⟨_, ⟨_, hcall, _, rfl, rfl⟩, [], rfl, rfl⟩, _, rfl, rfl⟩, [], rfl, rfl⟩, _,
      rfl, rfl⟩

/-- A word in the place of the first call: the second one stays. -/
theorem stray_word_confined :
    (parse "agent A { plan p { !b(); !c(); } }").2 = [] ∧
    (parse "agent A { plan p { x; !c(); } }").2 ≠ [] ∧
    ∃ mid : List Stmt, mid.length ≤ 0 ∧ (parse "agent A { plan p { x; !c(); } }").1.erase =
      ((parse "agent A { plan p { !b(); !c(); } }").1.replaceStmt 0 0 mid).erase := by
  obtain ⟨s₁, s₂, s₃, s₄, s₅, s₆, s₇, s₈, s₉, s₁₀, hparse⟩ := two_calls_parsed
  have hsilent : (parse "agent A { plan p { !b(); !c(); } }").2 = [] := by rw [hparse]
  obtain ⟨m, hm, hbody⟩ : ∃ m : Member,
      (parse "agent A { plan p { !b(); !c(); } }").1.members[0]? = some m ∧
        0 < m.body.length := by
    rw [hparse]
    exact ⟨_, rfl, Nat.zero_lt_succ _⟩
  obtain ⟨-, hconfined⟩ := malformed_statement_confined hsilent hm hbody
  have hbad : [.ident "x"] ∉ Grammar.statement := by
    rintro ⟨ks, (rfl | rfl) | rfl, ms, -, heq⟩ <;> cases heq
  have hsafe : ¬Swallows [.ident "x"] := by
    intro h
    cases h with
    | name hk => exact hk rfl
  obtain ⟨herrors, hmid⟩ := hconfined _ _ _ (by decide +kernel) two_calls_first [.ident "x"]
    "agent A { plan p { x; !c(); } }" (by simp) (by simp) hbad
    (Or.inl (by decide +kernel))
  exact ⟨hsilent, herrors, hmid hsafe⟩

/-- The first call without its parentheses swallows its `;`, and the second call
is lost with it, whatever may stand in the place of the first. -/
theorem swallowed_end_loses_neighbour :
    (parse "agent A { plan p { !b(); !c(); } }").2 = [] ∧
    Swallows [.symbol .bang, .ident "b"] ∧
    tokenKinds "agent A { plan p { !b; !c(); } }" =
      [.keyword .agent, .ident "A", .symbol .lbrace, .keyword .plan, .ident "p",
        .symbol .lbrace] ++ [.symbol .bang, .ident "b"] ++ .symbol .semi ::
      [.symbol .bang, .ident "c", .symbol .lparen, .symbol .rparen, .symbol .semi,
        .symbol .rbrace, .symbol .rbrace] ∧
    ∀ mid : List Stmt, (parse "agent A { plan p { !b; !c(); } }").1.erase ≠
      ((parse "agent A { plan p { !b(); !c(); } }").1.replaceStmt 0 0 mid).erase := by
  obtain ⟨s₁, s₂, s₃, s₄, s₅, s₆, s₇, s₈, s₉, s₁₀, hparse⟩ := two_calls_parsed
  refine ⟨by rw [hparse], .lparen (by decide), by decide +kernel, fun mid heq => ?_⟩
  have hlost : (parse "agent A { plan p { !b; !c(); } }").1.erase.members.map
      (·.body.length) = [0] := by decide +kernel
  rw [heq, hparse] at hlost
  simp [Agent.replaceStmt, Agent.erase, Member.erase] at hlost

end AgentLang
