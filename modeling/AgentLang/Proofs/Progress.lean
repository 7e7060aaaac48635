import AgentLang.Proofs.Units

/-!
# Parsing makes progress

The productions that repeat something are loops over the parser, and a loop might go
round for ever: a statement that fails may have read nothing, recovery stops short of a
`}`, and at the end of the file reading a token leaves the parser where it is. That none
of them does is shown round by round. A `Loop` says what one round does. It makes
progress (`Loop.Progresses`) if every round that goes on has read a token, and if the
loop is left at the end of the file. Then it is left after at most one round more than
there are tokens, and it comes to what the production makes of them.

Only what a round reads differs from loop to loop. A comma or an operator is read by the
loop itself, whatever its elements read (`comma_progresses`, `Chain.progresses`); an
item reads the word that opens it; a statement reads its sign, or fails with nothing read,
and then recovery reads (`statement_cases`).
-/

namespace AgentLang

namespace Parser

/-! ## Loops -/

/-- What a round comes to, with the parser that it leaves behind. -/
inductive Round (σ ρ : Type) where
  | leave (result : ρ) (p : Parser)
  | goOn (found : σ) (p : Parser)

/-- What a round does, from what the loop has found so far. -/
abbrev Loop (σ ρ : Type) := σ → Parser → Round σ ρ

section Loops

variable {σ ρ : Type}

/-- What comes out after a round, if `run` is what comes out where the loop goes on. -/
def Round.andThen (run : σ → Parser → ρ × Parser) : Round σ ρ → ρ × Parser
  | .leave result q => (result, q)
  | .goOn found q => run found q

/-- What the loop comes to if it is left within `n` rounds. -/
def Loop.within (loop : Loop σ ρ) : Nat → σ → Parser → Option (ρ × Parser)
  | 0, _, _ => none
  | n + 1, found, p =>
    match loop found p with
    | .leave result q => some (result, q)
    | .goOn found q => loop.within n found q

/-- The loop makes progress wherever it starts, and comes to what `run` gives. -/
structure Loop.Progresses (loop : Loop σ ρ) (run : σ → Parser → ρ × Parser) : Prop where
  /-- A round that goes on has read a token. -/
  reads : ∀ found p found' q, loop found p = .goOn found' q → q.remaining < p.remaining
  /-- At the end of the file the loop is left, and the parser stays there. -/
  ends : ∀ found p, p.atEnd = true → ∃ result, loop found p = .leave result p
  /-- There are no more rounds than tokens, the round that leaves apart. -/
  bounded : ∀ n found p, p.remaining < n → loop.within n found p = some (run found p)

/-- Rounds that read are enough, if `run` goes round by round. -/
theorem Loop.Progresses.of_rounds {loop : Loop σ ρ} {run : σ → Parser → ρ × Parser}
    (reads : ∀ found p found' q, loop found p = .goOn found' q → q.remaining < p.remaining)
    (ends : ∀ found p, p.atEnd = true → ∃ result, loop found p = .leave result p)
    (rounds : ∀ found p, run found p = (loop found p).andThen run) :
    loop.Progresses run := by
  refine ⟨reads, ends, fun n => ?_⟩
  -- by induction on the rounds allowed: one that goes on uses up a round and at least a token
  induction n with
  | zero => exact fun _ _ h => absurd h (Nat.not_lt_zero _)
  | succ n ih =>
      intro found p hn
      rw [rounds, Loop.within]
      rcases h : loop found p with ⟨result, q⟩ | ⟨found', q⟩
      · rfl
      · exact ih found' q (Nat.lt_of_lt_of_le (reads found p found' q h) (Nat.le_of_lt_succ hn))

end Loops

/-! ## Lists and operators -/

/-- Elements that each follow a comma. Elements that fail end the loop. -/
def commaLoop {α : Type} (element : Parser → Except SyntaxError (List α) × Parser) :
    Loop (List α) (Except SyntaxError (List α)) := fun found p =>
  if p.sees .comma then
    match element p.advance with
    | (.error e, q) => .leave (.error e) q
    | (.ok more, q) => .goOn (found ++ more) q
  else .leave (.ok found) p

/-- Operands that each follow an operator and are joined to what stands before it. -/
def operatorLoop (op? : TokenKind → Option BinOp)
    (operand : Parser → Except SyntaxError Expr × Parser) :
    Loop Expr (Except SyntaxError Expr) := fun left p =>
  match op? p.current.kind with
  | none => .leave (.ok left) p
  | some op =>
    match operand p.advance with
    | (.error e, q) => .leave (.error e) q
    | (.ok right, q) => .goOn (.join op left right) q

theorem atEnd_iff {p : Parser} : p.atEnd = true ↔ p.current.kind = .eof := by
  simp [atEnd]

theorem sees_eq_false_of_atEnd {p : Parser} (h : p.atEnd = true) (s : Symbol) :
    p.sees s = false := by
  simp [sees, atEnd_iff.mp h]

theorem comma_progresses {α : Type} {element : Parser → Except SyntaxError (List α) × Parser}
    {run : List α → Parser → Except SyntaxError (List α) × Parser}
    (hle : ∀ p, (element p).2.remaining ≤ p.remaining)
    (rounds : ∀ found p, run found p = (commaLoop element found p).andThen run) :
    (commaLoop element).Progresses run := by
  refine .of_rounds (fun found p found' q h => ?_) (fun found p hend => ?_) rounds
  · unfold commaLoop at h
    split at h
    · next hcomma =>
      have helement := hle p.advance
      split at h
      · cases h
      · next more r hr =>
        obtain ⟨-, rfl⟩ := Round.goOn.inj h
        rw [hr] at helement
        exact Nat.lt_of_le_of_lt helement (remaining_advance_lt_of_sees hcomma)
    · cases h
  · exact ⟨.ok found, by simp [commaLoop, sees_eq_false_of_atEnd hend]⟩

/-- The loop of a chain. -/
theorem Chain.progresses (c : Chain) :
    (operatorLoop c.op? c.operand).Progresses fun left p => c.rest left p := by
  refine .of_rounds (fun left p left' q h => ?_) (fun left p hend => ?_) (fun left p => ?_)
  · unfold operatorLoop at h
    split at h
    · cases h
    · next op hop =>
      split at h
      · cases h
      · next right r hr =>
        obtain ⟨-, rfl⟩ := Round.goOn.inj h
        exact c.remaining_operand_lt hop hr
  · exact ⟨.ok left, by simp [operatorLoop, atEnd_iff.mp hend, c.op?_eof]⟩
  · rw [c.rest_eq, operatorLoop]
    rcases c.op? p.current.kind with _ | op
    · rfl
    · rcases c.operand p.advance with ⟨e | right, q⟩ <;> rfl

theorem args_progresses :
    (commaLoop fun p => (p.expression.1.map ([·]), p.expression.2)).Progresses
      fun found p => (p.moreArgs.1.map (found ++ ·), p.moreArgs.2) := by
  refine comma_progresses remaining_expression_le fun found p => ?_
  rw [moreArgs_eq, commaLoop]
  split
  · rcases p.advance.expression with ⟨e | arg, q⟩
    · rfl
    · rcases h : q.moreArgs with ⟨e | args, r⟩ <;> simp [Round.andThen, Except.map, h]
  · simp [Round.andThen, Except.map]

/-- The elements of a list are read by a comma loop. -/
theorem Element.progresses {α : Type} (element : Element α) :
    (commaLoop fun p => (.ok (element.read p).1, (element.read p).2)).Progresses
      fun found p => (.ok (found ++ (element.more p).1), (element.more p).2) := by
  refine comma_progresses element.remaining_read_le fun found p => ?_
  rw [more, commaLoop]
  split <;> simp [Round.andThen]

theorem params_progresses :
    (commaLoop fun p => (.ok [p.param.1], p.param.2)).Progresses
      fun found p => (.ok (found ++ p.moreParams.1), p.moreParams.2) := parameter.progresses

theorem beliefAtoms_progresses :
    (commaLoop fun p => (.ok p.beliefAtom.1.toList, p.beliefAtom.2)).Progresses
      fun found p => (.ok (found ++ p.moreBeliefAtoms.1), p.moreBeliefAtoms.2) :=
  initialValue.progresses

theorem factors_progresses :
    (operatorLoop productOp? atom).Progresses fun left p => p.factors left := atoms.progresses

theorem summands_progresses :
    (operatorLoop sumOp? product).Progresses fun left p => p.summands left :=
  products.progresses

/-! ## Recovery, statements and items -/

/-- Tokens of a malformed statement. Its `;` is the last one, and a `}` is left to the block. -/
def recoverLoop : Loop Unit Unit := fun _ p =>
  if p.atBlockEnd then .leave () p
  else if p.sees .semi then .leave () p.advance
  else .goOn () p.advance

/-- Statements of a block. One that fails is skipped. -/
def blockLoop : Loop (List Stmt) (List Stmt) := fun found p =>
  if p.atBlockEnd then .leave found p
  else
    match p.statement with
    | (.ok stmt, q) => .goOn (found ++ [stmt]) q.statementEnd
    | (.error e, q) => .goOn found (q.report e).recover

/-- Items of an agent's body, each opened by its word. -/
def itemsLoop : Loop (List Item) (List Item) := fun found p =>
  match p.current.kind with
  | .keyword .bel => .goOn (found ++ [.belief p.belief.1]) p.belief.2
  | .keyword .on =>
    .goOn (found ++ [.member (p.advance.member .handler).1]) (p.advance.member .handler).2
  | .keyword .plan =>
    .goOn (found ++ [.member (p.advance.member .plan).1]) (p.advance.member .plan).2
  | _ => .leave found p

theorem atBlockEnd_of_atEnd {p : Parser} (h : p.atEnd = true) : p.atBlockEnd = true := by
  simp [atBlockEnd, h]

theorem recover_progresses : recoverLoop.Progresses fun _ p => ((), p.recover) := by
  refine .of_rounds (fun _ p _ q h => ?_) (fun _ p hend => ?_) (fun _ p => ?_)
  · unfold recoverLoop at h
    split at h
    · cases h
    · next hin =>
      split at h
      · cases h
      · obtain ⟨-, rfl⟩ := Round.goOn.inj h
        exact remaining_advance_lt fun hk => hin (atBlockEnd_of_atEnd (atEnd_iff.mpr hk))
  · exact ⟨(), by simp [recoverLoop, atBlockEnd_of_atEnd hend]⟩
  · rw [recover, recoverLoop]
    split
    · rfl
    · split <;> rfl

/-- A statement that failed has read its sign, or recovery reads in its place. -/
theorem remaining_recover_statement_lt {p q : Parser} {e : SyntaxError}
    (hin : p.atBlockEnd = false) (hs : p.statement = (.error e, q)) :
    (q.report e).recover.remaining < p.remaining := by
  rcases p.statement_cases with h | h
  · -- nothing was read, so recovery starts outside a block's end as well
    obtain ⟨-, rfl⟩ := Prod.mk.inj (hs.symm.trans h)
    exact remaining_recover_lt (p := q.report e) hin
  · rw [hs] at h
    exact Nat.lt_of_le_of_lt (remaining_recover_le _) h

theorem remaining_statementEnd_lt {p q : Parser} {stmt : Stmt}
    (hs : p.statement = (.ok stmt, q)) : q.statementEnd.remaining < p.remaining := by
  rcases p.statement_cases with h | h
  · cases hs.symm.trans h
  · rw [hs] at h
    exact Nat.lt_of_le_of_lt (remaining_statementEnd_le q) h

theorem block_progresses :
    blockLoop.Progresses fun found p => (found ++ p.block.1, p.block.2) := by
  refine .of_rounds (fun found p _ q h => ?_) (fun found p hend => ?_) (fun found p => ?_)
  · unfold blockLoop at h
    split at h
    · cases h
    · next hin =>
      split at h
      · next stmt r hs =>
        obtain ⟨-, rfl⟩ := Round.goOn.inj h
        exact remaining_statementEnd_lt hs
      · next e r hs =>
        obtain ⟨-, rfl⟩ := Round.goOn.inj h
        exact remaining_recover_statement_lt (by simpa using hin) hs
  · exact ⟨found, by simp [blockLoop, atBlockEnd_of_atEnd hend]⟩
  · rw [block_eq, blockLoop]
    split
    · simp [Round.andThen]
    · rcases p.statement with ⟨e | stmt, q⟩ <;> simp [Round.andThen]

theorem remaining_advance_lt_of_keyword {p : Parser} {w : Keyword}
    (h : p.current.kind = .keyword w) : p.advance.remaining < p.remaining :=
  remaining_advance_lt (by simp [h])

theorem items_progresses :
    itemsLoop.Progresses fun found p => (found ++ p.items.1, p.items.2) := by
  refine .of_rounds (fun found p _ q h => ?_) (fun found p hend => ?_) (fun found p => ?_)
  · unfold itemsLoop at h
    split at h
    · next hk =>
      obtain ⟨-, rfl⟩ := Round.goOn.inj h
      have hword := remaining_advance_lt_of_keyword hk
      have hbelief := p.remaining_belief_le
      rw [remaining_advance] at hword
      omega
    · next hk =>
      obtain ⟨-, rfl⟩ := Round.goOn.inj h
      exact Nat.lt_of_le_of_lt (remaining_member_le _ _) (remaining_advance_lt_of_keyword hk)
    · next hk =>
      obtain ⟨-, rfl⟩ := Round.goOn.inj h
      exact Nat.lt_of_le_of_lt (remaining_member_le _ _) (remaining_advance_lt_of_keyword hk)
    · cases h
  · exact ⟨found, by simp [itemsLoop, atEnd_iff.mp hend]⟩
  · rw [items_eq, itemsLoop]
    split <;> simp_all [Round.andThen]

/-- Every loop of the parser makes progress. -/
structure LoopsProgress : Prop where
  items : itemsLoop.Progresses fun found p => (found ++ p.items.1, p.items.2)
  block : blockLoop.Progresses fun found p => (found ++ p.block.1, p.block.2)
  recover : recoverLoop.Progresses fun _ p => ((), p.recover)
  args : (commaLoop fun p => (p.expression.1.map ([·]), p.expression.2)).Progresses
    fun found p => (p.moreArgs.1.map (found ++ ·), p.moreArgs.2)
  params : (commaLoop fun p => (.ok [p.param.1], p.param.2)).Progresses
    fun found p => (.ok (found ++ p.moreParams.1), p.moreParams.2)
  beliefAtoms : (commaLoop fun p => (.ok p.beliefAtom.1.toList, p.beliefAtom.2)).Progresses
    fun found p => (.ok (found ++ p.moreBeliefAtoms.1), p.moreBeliefAtoms.2)
  factors : (operatorLoop productOp? atom).Progresses fun left p => p.factors left
  summands : (operatorLoop sumOp? product).Progresses fun left p => p.summands left

/-! ## Units -/

theorem Onward.remaining_le {p q : Parser} (h : p.Onward q) : q.remaining ≤ p.remaining := by
  obtain ⟨⟨ts, hts⟩, -⟩ := h.exists_unread
  simp [remaining, hts]

/-- A unit reads an `agent`, a name and two braces, or whatever stands in their places. -/
theorem remaining_parseUnit_le (p : Parser) : p.parseUnit.2.remaining ≤ p.remaining - 4 := by
  have hparams := remaining_params_le (p.expect (.keyword .agent)).identifier.2
  have hitems := (onward_items (((p.expect (.keyword .agent)).identifier.2.params).2.expect
    (.symbol .lbrace))).remaining_le
  simp only [remaining_expect, remaining_identifier] at hparams hitems
  have hagent : p.agent.2.remaining ≤ p.remaining - 4 := by
    simp only [agent, remaining_expect]
    omega
  simp only [parseUnit]
  split
  · exact hagent
  · rw [remaining_report]
    exact hagent

/-- No token of a source is the end of the file, so behind the last token there is nothing
else to come to. -/
theorem atEnd_of_onward {source : String} {p q : Parser} (hp : (ofSource source).Onward p)
    (hq : p.Onward q) (h : p.atEnd = true) : q.atEnd = true := by
  obtain ⟨⟨read, hread⟩, -⟩ := hp.exists_unread
  obtain ⟨⟨ts, hts⟩, -⟩ := hq.exists_unread
  have hnone : p.unread = [] := by
    rcases hu : p.unread with _ | ⟨t, rest⟩
    · rfl
    · have ht : t ∈ (lex source).tokens := by
        rw [show (lex source).tokens = read ++ p.unread from hread, hu]
        simp
      have heof : t.kind = .eof := by simpa [current, hu] using atEnd_iff.mp h
      exact absurd heof (ne_eof_of_mem_tokenKinds _ (List.mem_map_of_mem ht))
  have hnone' : q.unread = [] := (List.append_eq_nil_iff.mp (hts.symm.trans hnone)).2
  simp [atEnd, current, hnone']

/-- The next unit reads four tokens, or all that are left. From there on, once the end of the
file is the current token, it stays so, whether tokens or whole units are read. -/
structure ReadsOn (p : Parser) : Prop where
  reads : p.parseUnit.2.remaining ≤ p.remaining - 4
  stays : ∀ q, p.Onward q → q.atEnd = true → q.advance.atEnd = true ∧ q.parseUnit.2.atEnd = true

end Parser

/-- **Parsing makes progress.** In every loop of the parser and from wherever it starts, a round
leaves the loop or reads a token, so that the loop is left after at most one round more than
there are tokens. However many units of a source have been read, the parser goes on to the end
of the file and stays there. -/
theorem parsing_makes_progress (source : String) (units : Nat) :
    Parser.LoopsProgress ∧ ((Parser.ofSource source).afterUnits units).ReadsOn := by
  constructor
  · exact {
      items := Parser.items_progresses
      block := Parser.block_progresses
      recover := Parser.recover_progresses
      args := Parser.args_progresses
      params := Parser.params_progresses
      beliefAtoms := Parser.beliefAtoms_progresses
      factors := Parser.factors_progresses
      summands := Parser.summands_progresses }
  · have hsource := Parser.onward_afterUnits (Parser.ofSource source) units
    exact {
      reads := Parser.remaining_parseUnit_le _
      stays := fun q hq hend =>
        ⟨Parser.atEnd_of_onward (hsource.trans hq) q.onward_advance hend,
          Parser.atEnd_of_onward (hsource.trans hq) q.onward_parseUnit hend⟩ }

/-- Four statements that fail with nothing read. -/
def semicolons : Parser := .ofSource ";;;;"

/-- A block skips them in five rounds. They are no agent either, and behind them is the end. -/
theorem semicolons_skipped :
    Parser.blockLoop.within 5 [] semicolons = some semicolons.block ∧
      (semicolons.afterUnits 1).atEnd = true ∧ (semicolons.afterUnits 2).atEnd = true := by
  obtain ⟨hloops, hreads⟩ := parsing_makes_progress ";;;;" 1
  have hfirst : (semicolons.afterUnits 1).atEnd = true := by decide +kernel
  have hsecond := (hreads.stays _ (.refl _) hfirst).2
  exact ⟨hloops.block.bounded 5 [] semicolons (by decide +kernel), hfirst, hsecond⟩

end AgentLang
