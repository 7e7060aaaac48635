import AgentLang.Proofs.Lookahead

/-!
# The first syntax error

The first error of a source is at the first token with which the tokens so far
begin no sentence. Each production is run with the continuations that it can
have at its place (`Parser.Runs`), from atoms up to the agent; what follows an
agent is the end of the file.

The conditions on continuations are few: what follows an expression is no
operator, what follows a list is no comma, what follows an optional part does
not start like it.
-/

open scoped Computability

namespace AgentLang

open Grammar

theorem nil_mem_kstar (L : Language TokenKind) : ∃ ks, ks ∈ L∗ := ⟨[], Language.nil_mem_kstar L⟩

namespace Parser

/-! ## Tokens that are due -/

theorem expect_runs (p : Parser) {e : Expected} {L : Language TokenKind}
    (K : Language TokenKind) (hL : Single L) (hne : ∃ ks, ks ∈ L)
    (h : ∀ k, e.admits k = true ↔ [k] ∈ L) : p.Runs L K (p.expect e) := by
  unfold expect
  split
  · next hadmits =>
    refine .token hL ((h _).mp hadmits) ?_ ?_
    · intro heof
      rw [heof] at hadmits
      cases e <;> cases hadmits
    · refine inRange_single fun digits hk => ?_
      rw [← hk] at hadmits
      cases e <;> cases hadmits
  · next hadmits =>
    have hdead : Dead L K [p.current.kind] := hL.dead fun hmem => hadmits ((h _).mpr hmem)
    have herr : p.Errs L K (p.report (p.mismatch e)) := .here rfl hne hdead
    exact Or.inr (herr.later (by rw [errors_advance]))

theorem expect_sym_runs (p : Parser) (s : Symbol) (K : Language TokenKind) :
    p.Runs (sym s) K (p.expect (.symbol s)) := by
  refine p.expect_runs K (single_word _) ⟨_, rfl⟩ fun k => ?_
  show _ ↔ [k] = [.symbol s]
  cases k <;> simp [Expected.admits, eq_comm]

theorem expect_key_runs (p : Parser) (w : Keyword) (K : Language TokenKind) :
    p.Runs (key w) K (p.expect (.keyword w)) := by
  refine p.expect_runs K (single_word _) ⟨_, rfl⟩ fun k => ?_
  show _ ↔ [k] = [.keyword w]
  cases k <;> simp [Expected.admits, eq_comm]

theorem identifier_runs (p : Parser) (K : Language TokenKind) :
    p.Runs ident K p.identifier.2 := by
  refine p.expect_runs K single_ident ⟨_, "", rfl⟩ fun k => ?_
  show _ ↔ ∃ name, [k] = [.ident name]
  cases k <;> simp [Expected.admits]

section Tokens

variable {p : Parser} {s : Symbol}

theorem Runs.symbol (K : Language TokenKind) {L : Language TokenKind} (hL : Single L)
    (h : p.current.kind = .symbol s) (hs : [.symbol s] ∈ L) : p.Runs L K p.advance :=
  .token hL (h ▸ hs) (by simp [h]) (inRange_single (by simp [h]))

theorem Runs.sees (K : Language TokenKind) (h : p.sees s = true) :
    p.Runs (sym s) K p.advance :=
  .symbol K (single_word _) (by simpa [Parser.sees] using h) rfl

theorem Runs.keyword (K : Language TokenKind) {w : Keyword} (h : p.current.kind = .keyword w) :
    p.Runs (key w) K p.advance :=
  .token (single_word _) (by rw [h]; rfl) (by simp [h]) (inRange_single (by simp [h]))

theorem avoids_sym (h : ¬p.sees s = true) : Avoids p.current.kind (sym s) :=
  .word fun hk => h (by simp [sees, ← hk])

theorem kind_of_sees (h : p.sees s = true) : p.current.kind = .symbol s := by
  simpa [sees] using h

end Tokens

/-! ## Expressions -/

theorem single_atom : Single Grammar.atom := by
  rintro ks (⟨name, rfl⟩ | ⟨digits, rfl⟩)
  · exact ⟨.ident name, rfl⟩
  · exact ⟨.number digits, rfl⟩

theorem atom_settles (p : Parser) (K : Language TokenKind) :
    p.Settles Grammar.atom K p.atom := by
  have hne : ∃ ks, ks ∈ Grammar.atom := ⟨_, Or.inl ⟨"", rfl⟩⟩
  unfold atom
  split
  · next name hk =>
    have hmem : [p.current.kind] ∈ Grammar.atom := by
      rw [hk]
      exact Or.inl ⟨name, rfl⟩
    exact .ok (.token single_atom hmem (by simp [hk]) (inRange_single (by simp [hk])))
  · next digits hk =>
    split
    · next value hv =>
      have hmem : [p.current.kind] ∈ Grammar.atom := by
        rw [hk]
        exact Or.inr ⟨digits, rfl⟩
      refine .ok (.token single_atom hmem (by simp [hk]) ?_)
      rintro digits' hd
      rw [hk] at hd
      obtain ⟨rfl⟩ := List.mem_singleton.mp hd
      exact (integerOfDigits?_eq_some.mp hv).1
    · next hv =>
      -- The number is an atom of the grammar; it is only too large.
      refine .error (.here rfl hne fun hr => ?_)
      have hle := hr digits (by simp [hk])
      rw [integerOfDigits?_eq_some.mpr ⟨hle, rfl⟩] at hv
      cases hv
  · next found hident hnumber =>
    refine .error (.here rfl hne (single_atom.dead ?_))
    rintro (⟨name, heq⟩ | ⟨digits, heq⟩)
    · exact hident name (List.cons.inj heq).1
    · exact hnumber digits (List.cons.inj heq).1

/-- The operators of a chain, as a language of the grammar. -/
structure Chain.Ops (c : Chain) (ops : Language TokenKind) : Prop where
  single : Single ops
  mem : ∀ {k : TokenKind} {op : BinOp}, c.op? k = some op → [k] ∈ ops
  avoids : ∀ {k : TokenKind}, c.op? k = none → Avoids k ops

theorem atoms_ops : atoms.Ops (sym .star + sym .slash) where
  single := (single_word _).add (single_word _)
  mem {k op} h := by
    obtain ⟨rfl, hop⟩ := productOp?_eq_some h
    cases op with
    | mul => exact Or.inl rfl
    | div => exact Or.inr rfl
    | add => cases hop
    | sub => cases hop
  avoids h := .add (.word fun hk => by subst hk; cases h) (.word fun hk => by subst hk; cases h)

theorem products_ops : products.Ops (sym .plus + sym .minus) where
  single := (single_word _).add (single_word _)
  mem {k op} h := by
    obtain ⟨rfl, hop⟩ := sumOp?_eq_some h
    cases op with
    | add => exact Or.inl rfl
    | sub => exact Or.inr rfl
    | mul => cases hop
    | div => cases hop
  avoids h := .add (.word fun hk => by subst hk; cases h) (.word fun hk => by subst hk; cases h)

section Chain

variable {c : Chain} {ops L K : Language TokenKind} (hc : c.Signs) (hops : c.Ops ops)
include hc hops

/-- An operator of the chain is read. -/
theorem Chain.op_runs {p : Parser} {op : BinOp} (h : c.op? p.current.kind = some op)
    (K : Language TokenKind) : p.Runs ops K p.advance :=
  .symbol K hops.single (hc h) (hc h ▸ hops.mem h)

variable (hK : ∀ {k op}, c.op? k = some op → Avoids k K)
  (hoperand : ∀ p : Parser, p.Settles L ((ops * L)∗ * K) (c.operand p))
include hK hoperand

theorem Chain.rest_settles (left : Expr) (p : Parser) :
    p.Settles (ops * L)∗ K (c.rest left p) := by
  fun_induction c.rest left p with
  | case1 left p hop => exact .ok (.done (hops.avoids hop).mul)
  | case2 left p op hop e q hq =>
      refine .error ((Commits.again (hK hop)).errs (.skip ?_ (nil_mem_kstar _)))
      exact (op_runs hc hops hop _).errs ((hoperand _).of_error hq)
  | case3 left p op hop right q hq ih =>
      refine (Commits.again (hK hop)).settles (Runs.settles ?_ ih)
      exact (op_runs hc hops hop _).seq ((hoperand _).of_ok hq)

theorem Chain.parse_settles (p : Parser) : p.Settles (L * (ops * L)∗) K (c.parse p) := by
  unfold parse
  split
  · next e q hq => exact .error (((hoperand p).of_error hq).skip (nil_mem_kstar _))
  · next left q hq =>
    exact ((hoperand p).of_ok hq).settles (rest_settles hc hops hK hoperand left q)

end Chain

theorem product_settles {K : Language TokenKind}
    (hK : ∀ op : BinOp, op.isSum = false → Avoids (.symbol op.symbol) K) (p : Parser) :
    p.Settles Grammar.product K p.product := by
  refine Chain.parse_settles atoms_signs atoms_ops (fun hop => ?_) (fun p => atom_settles p _) p
  obtain ⟨rfl, hprod⟩ := productOp?_eq_some hop
  exact hK _ hprod

/-- What follows a product is no operator of products. -/
theorem avoids_summands {K : Language TokenKind}
    (hK : ∀ op : BinOp, Avoids (.symbol op.symbol) K) (op : BinOp) (hop : op.isSum = false) :
    Avoids (.symbol op.symbol) (((sym .plus + sym .minus) * Grammar.product)∗ * K) := by
  refine .kstar_mul (.mul ?_) (hK op)
  cases op with
  | add => cases hop
  | sub => cases hop
  | mul => exact .add (.word nofun) (.word nofun)
  | div => exact .add (.word nofun) (.word nofun)

theorem expression_settles {K : Language TokenKind}
    (hK : ∀ op : BinOp, Avoids (.symbol op.symbol) K) (p : Parser) :
    p.Settles Grammar.expr K p.expression := by
  refine Chain.parse_settles products_signs products_ops (fun hop => ?_)
    (product_settles (avoids_summands hK)) p
  obtain ⟨rfl, -⟩ := sumOp?_eq_some hop
  exact hK _

/-! ## Statements -/

/-- What follows an argument is no operator. -/
theorem avoids_moreArgs {K : Language TokenKind}
    (hK : ∀ op : BinOp, Avoids (.symbol op.symbol) K) (op : BinOp) :
    Avoids (.symbol op.symbol) ((sym .comma * Grammar.expr)∗ * K) :=
  .kstar_mul (.mul (.word (by cases op <;> nofun))) (hK op)

theorem moreArgs_settles {K : Language TokenKind}
    (hK : ∀ op : BinOp, Avoids (.symbol op.symbol) K) (hcomma : Avoids (.symbol .comma) K)
    (p : Parser) : p.Settles (sym .comma * Grammar.expr)∗ K p.moreArgs := by
  fun_induction moreArgs p with
  | case1 p hsees e q hq =>
      refine .error ((Commits.again (kind_of_sees hsees ▸ hcomma)).errs
        (.skip ?_ (nil_mem_kstar _)))
      exact (Runs.sees _ hsees).errs ((expression_settles (avoids_moreArgs hK) _).of_error hq)
  | case2 p hsees arg q hq e r hr ih =>
      refine .error ((Commits.again (kind_of_sees hsees ▸ hcomma)).errs
        (Runs.errs ?_ (ih.of_error hr)))
      exact (Runs.sees _ hsees).seq ((expression_settles (avoids_moreArgs hK) _).of_ok hq)
  | case3 p hsees arg q hq args r hr ih =>
      refine .ok ((Commits.again (kind_of_sees hsees ▸ hcomma)).runs
        (Runs.seq ?_ (ih.of_ok hr)))
      exact (Runs.sees _ hsees).seq ((expression_settles (avoids_moreArgs hK) _).of_ok hq)
  | case4 p hsees => exact .ok (.done (avoids_sym hsees).mul)

theorem avoids_atom (s : Symbol) : Avoids (.symbol s) Grammar.atom := by
  refine .add (.ident nofun) ?_
  rintro ks ⟨digits, rfl⟩
  exact ⟨.number digits, [], rfl, nofun⟩

/-- Arguments are closed by a parenthesis. -/
theorem args_settles (p : Parser) (K : Language TokenKind) :
    p.Settles (optional (commaList Grammar.expr)) (sym .rparen * K) p.args := by
  have hops (op : BinOp) : Avoids (.symbol op.symbol) (sym .rparen * K) :=
    .mul (.word (by cases op <;> nofun))
  have hfirst := expression_settles (avoids_moreArgs hops) p
  have hrest := moreArgs_settles hops (.mul (.word nofun))
  unfold args
  split
  · next hclose =>
    exact .ok (.absent (kind_of_sees hclose ▸ (avoids_atom .rparen).mul.mul.mul))
  · next hclose =>
    have hc : p.Commits (commaList Grammar.expr) (optional (commaList Grammar.expr))
      (sym .rparen * K) := .present (avoids_sym hclose).mul
    split
    · next e q hq => exact .error (hc.errs ((hfirst.of_error hq).skip (nil_mem_kstar _)))
    · next arg q hq =>
      split
      · next e r hr => exact .error (hc.errs ((hfirst.of_ok hq).errs ((hrest q).of_error hr)))
      · next args r hr => exact .ok (hc.runs ((hfirst.of_ok hq).seq ((hrest q).of_ok hr)))

theorem term_settles (p : Parser) (K : Language TokenKind) :
    p.Settles Grammar.term K p.term := by
  have hopen := (p.identifier_runs _).seq (expect_sym_runs p.identifier.2 .lparen
    (optional (commaList Grammar.expr) * (sym .rparen * K)))
  have hargs := args_settles (p.identifier.2.expect (.symbol .lparen)) K
  simp only [term]
  split
  · next e q hq => exact .error ((hopen.errs (hargs.of_error hq)).skip ⟨_, rfl⟩)
  · next args q hq => exact .ok ((hopen.seq (hargs.of_ok hq)).seq (q.expect_sym_runs .rparen K))

theorem statement_settles (p : Parser) (K : Language TokenKind) :
    p.Settles Grammar.statement K p.statement := by
  unfold statement
  split
  · next hk =>
    have hsign (s : Symbol) (hs : stmtKind? (.symbol s) ≠ none) :
        Avoids p.current.kind (sym s) := .word fun heq => hs (heq ▸ hk)
    obtain ⟨ks, hks⟩ := (p.term_settles K).inhabited
    refine .error (.here rfl ⟨_, Language.append_mem_mul (Or.inr rfl) hks⟩ (Avoids.dead ?_))
    exact .mul (.add (.add (hsign .query nofun) (hsign .plus nofun)) (hsign .bang nofun))
  · next kind hk =>
    have hsign : p.Runs (sym .query + sym .plus + sym .bang) (Grammar.term * K) p.advance := by
      refine .symbol _ (((single_word _).add (single_word _)).add (single_word _))
        (stmtKind?_eq_some hk) ?_
      cases kind with
      | query => exact Or.inl (Or.inl rfl)
      | update => exact Or.inl (Or.inr rfl)
      | invoke => exact Or.inr rfl
    have hterm := p.advance.term_settles K
    split
    · next e q hq => exact .error (hsign.errs (hterm.of_error hq))
    · next t q hq => exact .ok (hsign.seq (hterm.of_ok hq))

theorem statementEnd_runs (p : Parser) (K : Language TokenKind) :
    p.Runs (sym .semi) K p.statementEnd := by
  unfold statementEnd
  split
  · next hclose =>
    refine Or.inr (.here rfl ⟨_, rfl⟩ (Avoids.dead (.word ?_)))
    rw [kind_of_sees hclose]
    nofun
  · exact p.expect_sym_runs .semi K

/-- A block is closed by a brace. -/
theorem block_runs (p : Parser) (K : Language TokenKind) :
    p.Runs (Grammar.statement * sym .semi)∗ (sym .rbrace * K) p.block.2 := by
  fun_induction block p with
  | case1 p hend =>
      refine .done (Avoids.mul (Avoids.mul ?_))
      have hsign (s : Symbol) (hs : s ≠ .rbrace) : Avoids p.current.kind (sym s) := by
        refine .word fun heq => ?_
        simp [atBlockEnd, sees, atEnd, ← heq, hs] at hend
      exact .add (.add (hsign .query (by decide)) (hsign .plus (by decide)))
        (hsign .bang (by decide))
  | case2 p hend stmt q hs rest ih =>
      have hclose : ¬p.sees .rbrace = true := fun h => hend (by simp [atBlockEnd, h])
      refine (Commits.again (avoids_sym hclose).mul).runs (Runs.seq ?_ ih)
      exact ((statement_settles p _).of_ok hs).seq (q.statementEnd_runs _)
  | case3 p hend e q hs ih =>
      have hclose : ¬p.sees .rbrace = true := fun h => hend (by simp [atBlockEnd, h])
      have herr : p.Errs (Grammar.statement * sym .semi)∗ (sym .rbrace * K) (q.report e) := by
        refine (Commits.again (avoids_sym hclose).mul).errs (.skip ?_ (nil_mem_kstar _))
        exact ((statement_settles p _).of_error hs).skip ⟨_, rfl⟩
      refine Or.inr (herr.later ?_)
      simpa only [errors_recover] using ih.errors

/-! ## Lists -/

section Element

variable {α : Type} (element : Element α) {L : Language TokenKind}
  (h : ∀ (p : Parser) (K : Language TokenKind), p.Runs L K (element.read p).2)
  {K : Language TokenKind} (hcomma : Avoids (.symbol .comma) K)
include h hcomma

theorem Element.more_runs (p : Parser) : p.Runs (sym .comma * L)∗ K (element.more p).2 := by
  fun_induction element.more p with
  | case1 p hsees first rest ih =>
      refine (Commits.again (kind_of_sees hsees ▸ hcomma)).runs (Runs.seq ?_ ih)
      exact (Runs.sees _ hsees).seq (h p.advance _)
  | case2 p hsees => exact .done (avoids_sym hsees).mul

theorem Element.list_runs (p : Parser) : p.Runs (commaList L) K (element.list p).2 :=
  (h p _).seq (element.more_runs h hcomma _)

end Element

/-! ## Parameters -/

theorem param_runs (p : Parser) (K : Language TokenKind) :
    p.Runs (ident * sym .colon * ident) K p.param.2 :=
  ((p.identifier_runs _).seq (expect_sym_runs _ .colon _)).seq (identifier_runs _ K)

/-- Parameters are left out only if what follows does not start like them. -/
theorem params_runs {K : Language TokenKind} (hK : Avoids (.symbol .lparen) K) (p : Parser) :
    p.Runs (optional (sym .lparen * Grammar.params * sym .rparen)) K p.params.2 := by
  unfold params
  split
  · next hopen =>
    refine (Commits.present (kind_of_sees hopen ▸ hK)).runs ?_
    split
    · next hclose =>
      refine Runs.seq (Runs.seq (.sees _ hopen) (.absent ?_)) (expect_sym_runs _ .rparen K)
      exact kind_of_sees hclose ▸ Avoids.mul (.mul (.mul (.ident nofun)))
    · next hclose =>
      have hcomma : Avoids (.symbol .comma) (sym .rparen * K) := .mul (.word nofun)
      have hlist := parameter.list_runs param_runs hcomma p.advance
      exact ((Runs.sees _ hopen).seq ((Commits.present (avoids_sym hclose).mul).runs hlist)).seq
        (expect_sym_runs _ .rparen K)
  · next hopen => exact .absent (avoids_sym hopen).mul.mul

/-! ## Beliefs and members -/

theorem beliefAtom_runs (p : Parser) (K : Language TokenKind) :
    p.Runs Grammar.atom K p.beliefAtom.2 := by
  unfold beliefAtom
  split
  · next v q hq => exact (p.atom_settles K).of_ok hq
  · next e q hq =>
    refine Or.inr (((p.atom_settles K).of_error hq).later ?_)
    rw [errors_advance]

/-- Initial values are closed by a parenthesis. -/
theorem beliefInit_runs (p : Parser) (K : Language TokenKind) :
    p.Runs (optional (commaList Grammar.atom)) (sym .rparen * K) p.beliefInit.2 := by
  have hcomma : Avoids (.symbol .comma) (sym .rparen * K) := .mul (.word nofun)
  unfold beliefInit
  split
  · next hclose => exact .absent (kind_of_sees hclose ▸ (avoids_atom .rparen).mul)
  · next hclose =>
    refine (Commits.present (avoids_sym hclose).mul).runs ?_
    exact initialValue.list_runs beliefAtom_runs hcomma p

theorem belief_runs {K : Language TokenKind} (hsemi : Avoids (.symbol .semi) K) (p : Parser) :
    p.Runs Grammar.belief K p.belief.2 := by
  have hhead := (((p.expect_key_runs .bel _).seq (identifier_runs _ _)).seq
    (expect_sym_runs _ .lparen _)).seq
    (beliefInit_runs _ (optional (sym .semi) * K))
  refine (hhead.seq (expect_sym_runs _ .rparen _)).seq ?_
  simp only [belief]
  split
  · next hsees => exact (Commits.present (kind_of_sees hsees ▸ hsemi)).runs (.sees K hsees)
  · next hsees => exact .absent (avoids_sym hsees)

theorem avoids_lbrace (K : Language TokenKind) : Avoids (.symbol .lparen) (sym .lbrace * K) :=
  .mul (.word nofun)

theorem member_runs (kind : MemberKind) (p : Parser) (K : Language TokenKind) :
    p.Runs Grammar.procedure K (p.member kind).2 := by
  have hparams := params_runs (avoids_lbrace
    ((Grammar.statement * sym .semi)∗ * (sym .rbrace * K))) p.identifier.2
  have hhead := ((p.identifier_runs _).seq hparams).seq (expect_sym_runs _ .lbrace _)
  exact (hhead.seq (block_runs _ K)).seq (expect_sym_runs _ .rbrace K)

/-! ## Agents -/

theorem avoids_belief {k : TokenKind} (h : .keyword .bel ≠ k) : Avoids k Grammar.belief :=
  .mul (.mul (.mul (.mul (.mul (.word h)))))

/-- What follows an item is no `;`. -/
theorem avoids_items (K : Language TokenKind) :
    Avoids (.symbol .semi) (Grammar.member∗ * (sym .rbrace * K)) :=
  .kstar_mul (.add (.add (avoids_belief nofun) (.mul (.word nofun))) (.mul (.word nofun)))
    (.mul (.word nofun))

/-- An agent's items are closed by a brace. -/
theorem items_runs (p : Parser) (K : Language TokenKind) :
    p.Runs Grammar.member∗ (sym .rbrace * K) p.items.2 := by
  fun_induction items p with
  | case1 p hk first rest ih =>
      refine (Commits.again (hk ▸ .mul (.word (by decide)))).runs (Runs.seq ?_ ih)
      refine (Commits.left (hk ▸ .mul (.word (by decide)))).runs ?_
      exact (Commits.left (hk ▸ .mul (.word (by decide)))).runs (belief_runs (avoids_items K) p)
  | case2 p hk first rest ih =>
      refine (Commits.again (hk ▸ .mul (.word (by decide)))).runs (Runs.seq ?_ ih)
      refine (Commits.left (hk ▸ .mul (.word (by decide)))).runs ?_
      refine (Commits.right (hk ▸ avoids_belief (by decide))).runs ?_
      exact (Runs.keyword _ hk).seq (p.advance.member_runs .handler _)
  | case3 p hk first rest ih =>
      refine (Commits.again (hk ▸ .mul (.word (by decide)))).runs (Runs.seq ?_ ih)
      refine (Commits.right
        (hk ▸ .add (avoids_belief (by decide)) (.mul (.word (by decide))))).runs ?_
      exact (Runs.keyword _ hk).seq (p.advance.member_runs .plan _)
  | case4 p hbel hon hplan =>
      refine .done (.add (.add (avoids_belief (Ne.symm hbel)) ?_) ?_)
      · exact .mul (.word (Ne.symm hon))
      · exact .mul (.word (Ne.symm hplan))

theorem agent_runs (p : Parser) (K : Language TokenKind) :
    p.Runs Grammar.agent K p.agent.2 := by
  have hparams := params_runs (avoids_lbrace (Grammar.member∗ * (sym .rbrace * K)))
    (p.expect (.keyword .agent)).identifier.2
  have hhead := (((p.expect_key_runs .agent _).seq (identifier_runs _ _)).seq hparams).seq
    (expect_sym_runs _ .lbrace _)
  exact (hhead.seq (items_runs _ K)).seq (expect_sym_runs _ .rbrace K)

/-- A unit that reports anything reports the first token that is wrong first. -/
theorem parseUnit_fails {p : Parser} (h : p.parseUnit.2.errors ≠ p.errors) :
    p.Errs Grammar.agent (word .eof) p.parseUnit.2 := by
  simp only [parseUnit] at h ⊢
  rcases p.agent_runs (word .eof) with hreads | herr
  · obtain ⟨heq, ts, hp, hts, hr, hdec⟩ := hreads
    split
    · next hend =>
      rw [if_pos hend] at h
      exact absurd heq h
    · next hend =>
      obtain ⟨rest, hrest⟩ := p.agent.2.exists_stream
      refine ⟨_, by rw [← heq]; exact List.prefix_refl _, ts, p.agent.2.current, rest,
        by rw [hp, hrest], rfl, ⟨[], by rwa [List.append_nil]⟩, hr, ?_⟩
      rintro - ks hks - rfl hpre
      obtain rfl := hdec ks hks [.eof] rfl hpre
      have heof := (List.cons_prefix_cons.mp ((List.prefix_append_right_inj _).mp hpre)).1
      exact hend (by simp [atEnd, heof])
  · split
    · exact herr
    · exact herr.later (List.prefix_append _ _)

end Parser

/-! ## Sources with errors -/

/-- The tokens begin a sentence and the end of the file after it. Numbers that
do not fit begin nothing, and a token that is unknown is in no sentence. -/
def Viable (ks : List TokenKind) : Prop :=
  InRange ks ∧ ∃ sentence ∈ Grammar.agent, ks <+: sentence ++ [.eof]

theorem Viable.of_begins {ks ks' : List TokenKind} (h : Viable ks') (hpre : ks <+: ks') :
    Viable ks := by
  obtain ⟨hr, sentence, hs, hks⟩ := h
  exact ⟨fun digits hd => hr digits (hpre.subset hd), sentence, hs, hpre.trans hks⟩

/-- **The first error is at the first offending token.** If a source has
errors, then there is a first token, the end of the file among them, with which
the tokens up to it begin no sentence, and the first error has its span. -/
theorem first_error_at_first_offence (source : String) (h : (parse source).2 ≠ []) :
    ∃ i t e rest, (lex source).toList[i]? = some t ∧
      ¬Viable (((lex source).toList.take (i + 1)).map Token.kind) ∧
      (∀ j < i, Viable (((lex source).toList.take (j + 1)).map Token.kind)) ∧
      (parse source).2 = e :: rest ∧ e.span = t.span := by
  obtain ⟨e, ⟨rest, herrors⟩, ts, t, after, hstream, hspan, ⟨more, hmore⟩, hr, hdead⟩ :=
    Parser.parseUnit_fails (p := .ofSource source) h
  have htokens : (lex source).toList = ts ++ t :: after := hstream
  refine ⟨ts.length, t, e, rest, by simp [htokens], ?_, ?_, herrors.symm, hspan⟩
  · rintro ⟨hrange, sentence, hs, hpre⟩
    simp only [htokens, List.take_length_add_append, List.take_succ_cons, List.take_zero,
      List.map_append, List.map_cons, List.map_nil] at hrange hpre
    exact hdead hrange sentence hs [.eof] rfl hpre
  · intro j hj
    have hviable : Viable (ts.map Token.kind) :=
      ⟨hr, _, hmore, by rw [List.append_assoc]; exact List.prefix_append _ _⟩
    refine hviable.of_begins ?_
    rw [htokens, List.take_append_of_le_length (by omega)]
    exact (List.take_prefix _ _).map _

/-- A `;` stands where a parenthesis is due. -/
theorem first_error_without_parentheses :
    (parse "agent A { plan p { +b; } }").2 ≠ [] ∧
    ∃ i t e rest, (lex "agent A { plan p { +b; } }").toList[i]? = some t ∧
      ¬Viable (((lex "agent A { plan p { +b; } }").toList.take (i + 1)).map Token.kind) ∧
      (∀ j < i, Viable (((lex "agent A { plan p { +b; } }").toList.take (j + 1)).map
        Token.kind)) ∧
      (parse "agent A { plan p { +b; } }").2 = e :: rest ∧ e.span = t.span := by
  have herrors : (parse "agent A { plan p { +b; } }").2 ≠ [] := by
    decide +kernel
  exact ⟨herrors, first_error_at_first_offence _ herrors⟩

-- Token 8 is that `;`.
example : (parse "agent A { plan p { +b; } }").2.head?.map SyntaxError.span =
    (lex "agent A { plan p { +b; } }").toList[8]?.map Token.span := by
  decide +kernel

end AgentLang
