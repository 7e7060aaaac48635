import AgentLang.Proofs.Nesting

/-!
# Errors come in the order of the source

An error is always about the token that the parser stands before. Between the
error and the next one that token is read, or it is a `}` that ends the block at
hand and is accepted by whoever asked for the block. So the errors of a run are
matched, in order and each with a token of its own, by the tokens that the run
reads (`Parser.Reports`). Only the end of the file is read more than once.

Two things stand between an error and the reading of its token. A production
that gives up hands its error to the caller and leaves the token unread
(`Parser.Tries`), and an error at a `}` is on record while the brace is still to
be read (`Parser.Owes`).
-/

namespace AgentLang

namespace Parser

/-! ## Tokens that are read and tokens that are to blame -/

/-- The end of the file, read `n` times. -/
def ends (eof : Span) (n : Nat) : List Token := List.replicate n ⟨.eof, eof⟩

/-- On the way from `p` to `q` every error was about a token that was read, in the
order of the tokens and at most one about each. Past the last token the end of the
file is read, as often as it is asked for. -/
def Reports (p q : Parser) : Prop :=
  ∃ (n : Nat) (ts : List Token) (es : List SyntaxError),
    p.unread ++ ends p.eof n = ts ++ q.unread ∧ q.eof = p.eof ∧
      q.errors = p.errors ++ es ∧ (es.map SyntaxError.span).Sublist (ts.map Token.span)

/-- The last error of `q` is about its current token, and the errors before it are
about tokens that were read. -/
def Owes (p q : Parser) : Prop :=
  ∃ r e, p.Reports r ∧ e.span = r.current.span ∧ q = r.report e

/-- A production that can give up. Its error, not reported yet, is about the token
that it stopped at. -/
inductive Tries {α : Type} (p : Parser) : Except SyntaxError α × Parser → Prop
  | ok {x : α} {q : Parser} : p.Reports q → Tries p (.ok x, q)
  | error {e : SyntaxError} {q : Parser} : p.Reports q → e.span = q.current.span →
      Tries p (.error e, q)

/-- `q` may also stand before the end of a block, with an error about that token. -/
def Halts (p q : Parser) : Prop := p.Reports q ∨ p.Owes q ∧ q.atBlockEnd = true

section Reports

variable {p q r : Parser} {α : Type} {s : Except SyntaxError α × Parser}

theorem Reports.refl (p : Parser) : p.Reports p :=
  ⟨0, [], [], by simp [ends], rfl, by simp, List.Sublist.refl _⟩

theorem Reports.trans (h : p.Reports q) (h' : q.Reports r) : p.Reports r := by
  obtain ⟨n, ts, es, hread, heof, herr, hspans⟩ := h
  obtain ⟨n', ts', es', hread', heof', herr', hspans'⟩ := h'
  refine ⟨n + n', ts ++ ts', es ++ es', ?_, heof'.trans heof, ?_, ?_⟩
  · rw [ends, ← List.replicate_append_replicate, ← List.append_assoc, ← ends, hread,
      List.append_assoc, ← heof, ← ends, hread', List.append_assoc]
  · rw [herr', herr, List.append_assoc]
  · simpa using hspans.append hspans'

theorem Reports.owes (h : p.Reports q) (h' : q.Owes r) : p.Owes r := by
  obtain ⟨m, e, hm, hspan, rfl⟩ := h'
  exact ⟨m, e, h.trans hm, hspan, rfl⟩

theorem Reports.halts (h : p.Reports q) (h' : q.Halts r) : p.Halts r :=
  h'.imp h.trans fun h' => ⟨h.owes h'.1, h'.2⟩

theorem Reports.tries (h : p.Reports q) (h' : q.Tries s) : p.Tries s := by
  cases h' with
  | ok hx => exact .ok (h.trans hx)
  | error he hspan => exact .error (h.trans he) hspan

theorem Tries.of_ok (h : p.Tries s) {x : α} (hs : s = (.ok x, q)) : p.Reports q := by
  subst hs
  cases h with
  | ok hx => exact hx

theorem Tries.of_error (h : p.Tries s) {e : SyntaxError} (hs : s = (.error e, q)) :
    p.Reports q ∧ e.span = q.current.span := by
  subst hs
  cases h with
  | error he hspan => exact ⟨he, hspan⟩

/-- Who asked for the production gives up as well. -/
theorem Tries.fail (h : p.Tries s) {e : SyntaxError} (hs : s = (.error e, q)) {β : Type} :
    p.Tries ((.error e, q) : Except SyntaxError β × Parser) :=
  .error (h.of_error hs).1 (h.of_error hs).2

theorem Tries.owes (h : p.Tries s) {e : SyntaxError} (hs : s = (.error e, q)) :
    p.Owes (q.report e) :=
  ⟨q, e, (h.of_error hs).1, (h.of_error hs).2, rfl⟩

end Reports

/-! ## Reading one token -/

/-- At the end the token that is read is one more end of the file. -/
theorem exists_read_current (p : Parser) :
    ∃ n, p.unread ++ ends p.eof n = [p.current] ++ p.advance.unread := by
  unfold current advance
  cases hu : p.unread with
  | nil => exact ⟨1, rfl⟩
  | cons t ts => exact ⟨0, by simp [ends]⟩

@[simp] theorem eof_advance (p : Parser) : p.advance.eof = p.eof := by
  unfold advance
  split <;> rfl

theorem reports_advance (p : Parser) : p.Reports p.advance := by
  obtain ⟨n, hread⟩ := p.exists_read_current
  exact ⟨n, [p.current], [], hread, p.eof_advance, by simp, List.nil_sublist _⟩

section Owes

variable {p q : Parser}

/-- Reading the token settles the error about it. -/
theorem Owes.advance (h : p.Owes q) : p.Reports q.advance := by
  obtain ⟨r, e, hr, hspan, rfl⟩ := h
  obtain ⟨n, hread⟩ := (r.report e).exists_read_current
  refine hr.trans ⟨n, [r.current], [e], hread, eof_advance _, by simp [report], ?_⟩
  simp [hspan]

/-- An error about the end of the file is settled, for it can be read again. -/
theorem Owes.at_end (h : p.Owes q) (hend : q.unread = []) : p.Reports q := by
  obtain ⟨r, e, hr, hspan, rfl⟩ := h
  have hunread : r.unread = [] := hend
  refine hr.trans ⟨1, [⟨.eof, r.eof⟩], [e], by simp [report, hunread, ends], rfl, rfl, ?_⟩
  simp [hspan, current, hunread]

end Owes

theorem owes_report {p : Parser} {e : SyntaxError} (h : e.span = p.current.span) :
    p.Owes (p.report e) :=
  ⟨p, e, .refl p, h, rfl⟩

theorem reports_expect (p : Parser) (e : Expected) : p.Reports (p.expect e) := by
  unfold expect
  split
  · exact p.reports_advance
  · exact (owes_report rfl).advance

/-- Skipping starts with the token to blame, unless that ends the block. -/
theorem Owes.recover {p q : Parser} (h : p.Owes q) : p.Halts q.recover := by
  have hskip (q : Parser) : q.Reports q.recover := by
    fun_induction Parser.recover q with
    | case1 q => exact .refl q
    | case2 q => exact q.reports_advance
    | case3 q _ _ ih => exact q.reports_advance.trans ih
  rw [Parser.recover]
  split
  · next hend => exact .inr ⟨h, hend⟩
  · split
    · exact .inl h.advance
    · exact .inl (h.advance.trans (hskip _))

/-! ## Expressions -/

theorem atom_tries (p : Parser) : p.Tries p.atom := by
  unfold atom
  split
  · exact .ok p.reports_advance
  · split
    · exact .ok p.reports_advance
    · exact .error (.refl p) rfl
  · exact .error (.refl p) rfl

section Chain

variable {c : Chain} (hoperand : ∀ p : Parser, p.Tries (c.operand p))
include hoperand

theorem Chain.rest_tries (left : Expr) (p : Parser) : p.Tries (c.rest left p) := by
  fun_induction c.rest left p with
  | case1 left p => exact .ok (.refl p)
  | case2 left p op hop e q hq =>
      exact p.reports_advance.tries ((hoperand p.advance).fail hq)
  | case3 left p op hop right q hq ih =>
      exact (p.reports_advance.trans ((hoperand p.advance).of_ok hq)).tries ih

theorem Chain.parse_tries (p : Parser) : p.Tries (c.parse p) := by
  unfold parse
  split
  · next e q hq => exact (hoperand p).fail hq
  · next left q hq => exact ((hoperand p).of_ok hq).tries (rest_tries hoperand left q)

end Chain

theorem product_tries (p : Parser) : p.Tries p.product := Chain.parse_tries atom_tries p

theorem expression_tries (p : Parser) : p.Tries p.expression := Chain.parse_tries product_tries p

/-! ## Statements -/

theorem moreArgs_tries (p : Parser) : p.Tries p.moreArgs := by
  fun_induction moreArgs p with
  | case1 p hcomma e q hq => exact p.reports_advance.tries (p.advance.expression_tries.fail hq)
  | case2 p hcomma arg q hq e r hr ih =>
      have harg := p.reports_advance.trans (p.advance.expression_tries.of_ok hq)
      exact harg.tries (ih.fail hr)
  | case3 p hcomma arg q hq args r hr ih =>
      have harg := p.reports_advance.trans (p.advance.expression_tries.of_ok hq)
      exact .ok (harg.trans (ih.of_ok hr))
  | case4 p => exact .ok (.refl p)

theorem args_tries (p : Parser) : p.Tries p.args := by
  unfold args
  split
  · exact .ok (.refl p)
  · split
    · next e q hq => exact p.expression_tries.fail hq
    · next arg q hq =>
      have harg := p.expression_tries.of_ok hq
      split
      · next e r hr => exact harg.tries (q.moreArgs_tries.fail hr)
      · next args r hr => exact .ok (harg.trans (q.moreArgs_tries.of_ok hr))

theorem term_tries (p : Parser) : p.Tries p.term := by
  have hopen := (p.reports_expect .identifier).trans (reports_expect _ (.symbol .lparen))
  simp only [term]
  split
  · next e q hq => exact hopen.tries ((args_tries _).fail hq)
  · next args q hq =>
    exact .ok ((hopen.trans ((args_tries _).of_ok hq)).trans (q.reports_expect _))

theorem statement_tries (p : Parser) : p.Tries p.statement := by
  unfold statement
  split
  · exact .error (.refl p) rfl
  · split
    · next e q hq => exact p.reports_advance.tries (p.advance.term_tries.fail hq)
    · next t q hq => exact .ok (p.reports_advance.trans (p.advance.term_tries.of_ok hq))

theorem statementEnd_halts (p : Parser) : p.Halts p.statementEnd := by
  unfold statementEnd
  split
  · next hbrace =>
    refine .inr ⟨owes_report rfl, ?_⟩
    rw [atBlockEnd_report, atBlockEnd, hbrace, Bool.true_or]
  · exact .inl (p.reports_expect _)

/-- Before the end of a block there is nothing more to report in it. -/
theorem Halts.block {p q : Parser} (h : p.Halts q) (h' : q.Halts q.block.2) :
    p.Halts q.block.2 := by
  rcases h with hread | ⟨howes, hend⟩
  · exact hread.halts h'
  · rw [Parser.block, if_pos hend]
    exact .inr ⟨howes, hend⟩

theorem block_halts (p : Parser) : p.Halts p.block.2 := by
  fun_induction block p with
  | case1 p => exact .inl (.refl p)
  | case2 p hend stmt q hs rest ih =>
      exact ((p.statement_tries.of_ok hs).halts q.statementEnd_halts).block ih
  | case3 p hend e q hs ih => exact (p.statement_tries.owes hs).recover.block ih

/-! ## Declarations -/

section Element

variable {α : Type} (element : Element α) (h : ∀ p : Parser, p.Reports (element.read p).2)
include h

theorem Element.reports_more (p : Parser) : p.Reports (element.more p).2 := by
  fun_induction element.more p with
  | case1 p hcomma first rest ih => exact (p.reports_advance.trans (h p.advance)).trans ih
  | case2 p => exact .refl p

theorem Element.reports_list (p : Parser) : p.Reports (element.list p).2 :=
  (h p).trans (element.reports_more h _)

end Element

theorem reports_param (p : Parser) : p.Reports p.param.2 :=
  ((p.reports_expect .identifier).trans (reports_expect _ _)).trans (reports_expect _ _)

theorem reports_params (p : Parser) : p.Reports p.params.2 := by
  unfold params
  split
  · split
    · exact p.reports_advance.trans (reports_expect _ _)
    · exact (p.reports_advance.trans (parameter.reports_list reports_param _)).trans
        (reports_expect _ _)
  · exact .refl p

theorem reports_beliefAtom (p : Parser) : p.Reports p.beliefAtom.2 := by
  unfold beliefAtom
  split
  · next value q hq => exact p.atom_tries.of_ok hq
  · next e q hq => exact (p.atom_tries.owes hq).advance

theorem reports_beliefInit (p : Parser) : p.Reports p.beliefInit.2 := by
  unfold beliefInit
  split
  · exact .refl p
  · exact initialValue.reports_list reports_beliefAtom p

theorem reports_belief (p : Parser) : p.Reports p.belief.2 := by
  have hhead := ((p.reports_expect (.keyword .bel)).trans (reports_expect _ .identifier)).trans
    (reports_expect _ (.symbol .lparen))
  have hclose := (hhead.trans (reports_beliefInit _)).trans (reports_expect _ (.symbol .rparen))
  simp only [belief]
  split
  · exact hclose.trans (reports_advance _)
  · exact hclose

section Sources

variable {source : String} {p q : Parser}

theorem In.unread_eq_nil (hp : p.In source) (h : p.atEnd = true) : p.unread = [] := by
  obtain ⟨⟨ts, hts⟩, -⟩ := Onward.exists_unread hp
  cases hu : p.unread with
  | nil => rfl
  | cons t rest =>
      have ht : t.kind = .eof := by simpa [atEnd, current, hu] using h
      have hmem : t ∈ (lex source).tokens := by
        rw [show (lex source).tokens = ts ++ p.unread from hts, hu]
        simp
      rcases lexed_kind _ _ t hmem with hk | hk <;> rw [ht] at hk <;> cases hk

/-- The brace that an error in a block is about is the one that closes the block. -/
theorem Halts.close (h : p.Halts q) (hq : q.In source) :
    p.Reports (q.expect (.symbol .rbrace)) := by
  rcases h with hread | ⟨howes, hend⟩
  · exact hread.trans (q.reports_expect _)
  · rcases Bool.or_eq_true_iff.mp hend with hbrace | heof
    · have hkind : q.current.kind = .symbol .rbrace := by simpa [sees] using hbrace
      rw [expect, hkind, if_pos (by simp [Expected.admits])]
      exact howes.advance
    · exact (howes.at_end (hq.unread_eq_nil heof)).trans (q.reports_expect _)

theorem reports_member (kind : MemberKind) (hp : p.In source) :
    p.Reports (p.member kind).2 := by
  have hhead := ((p.reports_expect .identifier).trans (reports_params _)).trans
    (reports_expect _ (.symbol .lbrace))
  have hbody := hp.onward ((((p.onward_expect .identifier).trans (onward_params _)).trans
    (onward_expect _ (.symbol .lbrace))).trans (onward_block _))
  exact (hhead.halts (block_halts _)).close hbody

theorem reports_items (p : Parser) : p.In source → p.Reports p.items.2 := by
  fun_induction items p with
  | case1 p hk first rest ih =>
      intro hp
      exact p.reports_belief.trans (ih (hp.onward p.onward_belief))
  | case2 p hk first rest ih =>
      intro hp
      have hadvance := hp.onward p.onward_advance
      exact (p.reports_advance.trans (reports_member .handler hadvance)).trans
        (ih (hadvance.onward (onward_member _ _)))
  | case3 p hk first rest ih =>
      intro hp
      have hadvance := hp.onward p.onward_advance
      exact (p.reports_advance.trans (reports_member .plan hadvance)).trans
        (ih (hadvance.onward (onward_member _ _)))
  | case4 p => exact fun _ => .refl p

theorem reports_agent (hp : p.In source) : p.Reports p.agent.2 := by
  have hhead := (((p.reports_expect (.keyword .agent)).trans (reports_expect _ .identifier)).trans
    (reports_params _)).trans (reports_expect _ (.symbol .lbrace))
  have hbody := hp.onward ((((p.onward_expect (.keyword .agent)).trans
    (onward_expect _ .identifier)).trans (onward_params _)).trans
    (onward_expect _ (.symbol .lbrace)))
  exact (hhead.trans (reports_items _ hbody)).trans (reports_expect _ (.symbol .rbrace))

end Sources

end Parser

/-! ## The errors of a source -/

section Errors

variable (source : String)

/-- The errors of a source are about tokens in order, each about another one. Only the
end of the file occurs again. -/
theorem exists_errors_sublist :
    ∃ n, ((parse source).2.map SyntaxError.span).Sublist
      (((lex source).tokens ++ Parser.ends (lex source).eof n).map Token.span) := by
  have hagent := Parser.reports_agent (p := .ofSource source) (.refl _)
  -- What follows the agent is reported and left unread. To read its first token adds no error.
  obtain ⟨q, hreports, herrors⟩ : ∃ q, (Parser.ofSource source).Reports q ∧
      q.errors = (parse source).2 := by
    simp only [parse, Parser.parseUnit]
    split
    · exact ⟨_, hagent, rfl⟩
    · exact ⟨_, (hagent.owes (Parser.owes_report rfl)).advance, Parser.errors_advance _⟩
  obtain ⟨n, ts, es, hread, -, hes, hspans⟩ := hreports
  refine ⟨n, ?_⟩
  rw [← herrors, hes]
  refine hspans.trans (List.Sublist.map _ ?_)
  exact hread ▸ List.sublist_append_left ts q.unread

/-- Tokens do not overlap, and no end of the file lies before another token. -/
theorem lexed_padded_ordered (n : Nat) :
    ((lex source).tokens ++ Parser.ends (lex source).eof n).Pairwise
      fun t u => t.span.stop.offset ≤ u.span.start.offset := by
  obtain ⟨htokens, -, hend⟩ := List.pairwise_append.mp (lexed_ordered source)
  refine List.pairwise_append.mpr ⟨htokens, List.pairwise_replicate.mpr (.inr (Nat.le_refl _)), ?_⟩
  intro t ht u hu
  obtain rfl := List.eq_of_mem_replicate hu
  exact hend t ht _ (List.mem_singleton_self _)

/-- An error ends before the next one starts. -/
theorem errors_apart :
    (parse source).2.Pairwise fun e e' => e.span.stop.offset ≤ e'.span.start.offset := by
  obtain ⟨n, hspans⟩ := exists_errors_sublist source
  have hordered := (List.pairwise_map (f := Token.span)
    (R := fun s t : Span => s.stop.offset ≤ t.start.offset)).mpr (lexed_padded_ordered source n)
  exact List.pairwise_map.mp (hordered.sublist hspans)

theorem error_at_token :
    ∀ e ∈ (parse source).2, ∃ t ∈ (lex source).toList, e.span = t.span := by
  intro e he
  obtain ⟨n, hspans⟩ := exists_errors_sublist source
  obtain ⟨t, ht, hspan⟩ := List.mem_map.mp (hspans.subset (List.mem_map_of_mem he))
  refine ⟨t, ?_, hspan.symm⟩
  rcases List.mem_append.mp ht with hlexed | heof
  · exact List.mem_append_left _ hlexed
  · rw [List.eq_of_mem_replicate heof]
    exact List.mem_append_right _ (List.mem_singleton_self _)

/-- **Syntax errors come in the order of the source, at most one for each token.** Every
error has the span of a token, the errors do not go back, and only at the end of the file
can there be more than one. -/
theorem errors_in_source_order :
    (∀ e ∈ (parse source).2, ∃ t ∈ (lex source).toList, e.span = t.span) ∧
      (parse source).2.Pairwise (fun e e' => e.span.start.offset ≤ e'.span.start.offset) ∧
      (parse source).2.Pairwise (fun e e' => e.span = e'.span → e.span = (lex source).eof) := by
  refine ⟨error_at_token source, ?_, ?_⟩
  · refine (errors_apart source).imp_of_mem fun {e e'} he _ hle => ?_
    obtain ⟨t, ht, hspan⟩ := error_at_token source e he
    have hsound := lexed_sound source t ht
    exact le_trans (hspan ▸ hsound.ordered) hle
  · refine (errors_apart source).imp_of_mem fun {e e'} he _ hle heq => ?_
    obtain ⟨t, ht, hspan⟩ := error_at_token source e he
    rcases List.mem_append.mp ht with hlexed | heof
    · -- A token is not empty, so it does not end before it starts.
      have hlt := ((lex_tiling source).tiles t hlexed).nonempty
      rw [← heq, hspan] at hle
      omega
    · rw [hspan, List.mem_singleton.mp heof]

end Errors

-- A stray name, an operand that is missing before the `;`, and three braces that are missing
-- at the end.
example : (parse "agent A \x7b plan p \x7b x; ?b(; !c(").2.map (·.span.start.offset) =
    [19, 25, 30, 30, 30] := by
  decide +kernel

end AgentLang
