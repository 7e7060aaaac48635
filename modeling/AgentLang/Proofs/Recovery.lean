import AgentLang.Proofs.Acceptance

/-!
# Recovery from a malformed statement

What a block does with tokens that are no statement, up to the `;` or `}` that
closes them.

Arguments and all that they are made of leave the token they fail at unread and
never read a closing token (`Parser.Passes`), and skipping stops at it as well.
Only `expect` reads whatever it finds. So the closing token is lost exactly if
a statement ends where its name or one of its parentheses is due
(`Swallows`). Unless that happens the block goes on behind the closing token as
if nothing had been wrong (`Parser.block_run`).

In either case the block reports an error (`Parser.block_errs`).
-/

open scoped Computability

namespace AgentLang

open Grammar

/-! ## Closing tokens -/

/-- The tokens that end a statement or a block. -/
def Closes (k : TokenKind) : Prop :=
  k = .symbol .semi ∨ k = .symbol .rbrace ∨ k = .eof

instance (k : TokenKind) : Decidable (Closes k) :=
  inferInstanceAs (Decidable (_ ∨ _ ∨ _))

/-- No closing token among them. -/
def Unclosed (ks : List TokenKind) : Prop := ∀ k ∈ ks, ¬Closes k

theorem unclosed_nil : Unclosed [] := fun _ h => absurd h List.not_mem_nil

theorem unclosed_append {ks ks' : List TokenKind} :
    Unclosed (ks ++ ks') ↔ Unclosed ks ∧ Unclosed ks' :=
  List.forall_mem_append

theorem unclosed_cons {k : TokenKind} {ks : List TokenKind} :
    Unclosed (k :: ks) ↔ ¬Closes k ∧ Unclosed ks :=
  List.forall_mem_cons

/-- Tokens before a closing one that are split in another way. -/
theorem Unclosed.split {ks ms rest rest' : List TokenKind} {c : TokenKind} (hks : Unclosed ks)
    (hc : Closes c) (h : ks ++ rest' = ms ++ c :: rest) :
    ∃ more, ms = ks ++ more ∧ rest' = more ++ c :: rest := by
  rcases List.append_eq_append_iff.mp h with ⟨more, hms, hrest⟩ | ⟨more, rfl, hrest⟩
  · exact ⟨more, hms, hrest⟩
  · cases more with
    | nil => exact ⟨[], by simp, by simpa using hrest.symm⟩
    | cons k more =>
        obtain ⟨rfl, -⟩ := List.cons.inj hrest
        exact absurd hc (hks c (by simp))

/-- What is left behind a closing token: a `;` is taken along, a `}` belongs to
the block. -/
def afterClosing (c : TokenKind) (rest : List TokenKind) : List TokenKind :=
  if c = .symbol .semi then rest else c :: rest

/-! ### Statements have none inside -/

section Unclosed

variable {L M : Language TokenKind}

def unclosed : Language TokenKind := {ks | Unclosed ks}

theorem one_le_unclosed : 1 ≤ unclosed := by
  rintro ks rfl
  exact unclosed_nil

theorem mul_le_unclosed (hL : L ≤ unclosed) (hM : M ≤ unclosed) : L * M ≤ unclosed := by
  rintro - ⟨ks, hks, ms, hms, rfl⟩
  exact unclosed_append.mpr ⟨hL hks, hM hms⟩

theorem kstar_le_unclosed (hL : L ≤ unclosed) : L∗ ≤ unclosed := by
  rintro - ⟨parts, rfl, hparts⟩ k hk
  obtain ⟨part, hpart, hk⟩ := List.mem_flatten.mp hk
  exact hL (hparts part hpart) k hk

theorem word_le_unclosed {k : TokenKind} (h : ¬Closes k) : word k ≤ unclosed := by
  rintro ks rfl
  exact unclosed_cons.mpr ⟨h, unclosed_nil⟩

theorem ident_le_unclosed : ident ≤ unclosed := by
  rintro ks ⟨name, rfl⟩
  exact word_le_unclosed (by simp [Closes]) rfl

theorem atom_le_unclosed : Grammar.atom ≤ unclosed := by
  refine sup_le ident_le_unclosed ?_
  rintro ks ⟨digits, rfl⟩
  exact word_le_unclosed (by simp [Closes]) rfl

theorem commaList_le_unclosed (hL : L ≤ unclosed) : commaList L ≤ unclosed :=
  mul_le_unclosed hL (kstar_le_unclosed (mul_le_unclosed (word_le_unclosed (by decide)) hL))

theorem expr_le_unclosed : Grammar.expr ≤ unclosed := by
  have hproduct : Grammar.product ≤ unclosed := by
    refine mul_le_unclosed atom_le_unclosed (kstar_le_unclosed (mul_le_unclosed ?_ ?_))
    · exact sup_le (word_le_unclosed (by decide)) (word_le_unclosed (by decide))
    · exact atom_le_unclosed
  refine mul_le_unclosed hproduct (kstar_le_unclosed (mul_le_unclosed ?_ hproduct))
  exact sup_le (word_le_unclosed (by decide)) (word_le_unclosed (by decide))

theorem statement_le_unclosed : Grammar.statement ≤ unclosed := by
  refine mul_le_unclosed (sup_le (sup_le ?_ ?_) ?_) (mul_le_unclosed (mul_le_unclosed
    (mul_le_unclosed ident_le_unclosed ?_) (sup_le one_le_unclosed ?_)) ?_)
  · exact word_le_unclosed (by decide)
  · exact word_le_unclosed (by decide)
  · exact word_le_unclosed (by decide)
  · exact word_le_unclosed (by decide)
  · exact commaList_le_unclosed expr_le_unclosed
  · exact word_le_unclosed (by decide)

end Unclosed

namespace Parser

/-! ## Arguments -/

/-- `q` is `p` after some tokens, none of them closing, and nothing reported. -/
structure Passes (p q : Parser) : Prop where
  errors : q.errors = p.errors
  kinds : ∃ ks, Unclosed ks ∧ p.kinds = ks ++ q.kinds

section Passes

variable {p q r : Parser}

theorem Passes.refl (p : Parser) : p.Passes p := ⟨rfl, [], unclosed_nil, rfl⟩

theorem Passes.trans (h : p.Passes q) (h' : q.Passes r) : p.Passes r := by
  obtain ⟨herr, ks, hks, hp⟩ := h
  obtain ⟨herr', ms, hms, hq⟩ := h'
  exact ⟨herr'.trans herr, ks ++ ms, unclosed_append.mpr ⟨hks, hms⟩,
    by rw [hp, hq, List.append_assoc]⟩

theorem Passes.advance (h : ¬Closes p.current.kind) : p.Passes p.advance := by
  refine ⟨p.errors_advance, [p.current.kind], unclosed_cons.mpr ⟨h, unclosed_nil⟩, ?_⟩
  exact kinds_of_current rfl fun heof => h (Or.inr (Or.inr heof))

theorem Passes.sees {s : Symbol} (h : p.sees s = true) (hs : ¬Closes (.symbol s)) :
    p.Passes p.advance := by
  refine .advance ?_
  rwa [show p.current.kind = .symbol s by simpa [Parser.sees] using h]

theorem Passes.of_eq {α : Type} {s : Except SyntaxError α × Parser}
    {x : Except SyntaxError α} (h : p.Passes s.2) (hs : s = (x, q)) : p.Passes q := by
  subst hs
  exact h

end Passes

theorem atom_passes (p : Parser) : p.Passes p.atom.2 := by
  unfold atom
  split
  · next name hk => exact .advance (by simp [hk, Closes])
  · next digits hk =>
    split
    · exact .advance (by simp [hk, Closes])
    · exact .refl p
  · exact .refl p

theorem operator_passes {p : Parser} {op : BinOp} (h : p.current.kind = .symbol op.symbol) :
    p.Passes p.advance := by
  refine .advance ?_
  rw [h]
  cases op <;> decide

section Chain

variable {c : Chain} (hc : c.Signs) (hoperand : ∀ p : Parser, p.Passes (c.operand p).2)
include hc hoperand

theorem Chain.rest_passes (left : Expr) (p : Parser) : p.Passes (c.rest left p).2 := by
  fun_induction c.rest left p with
  | case1 left p hop => exact .refl p
  | case2 left p op hop e q hq =>
      exact (operator_passes (hc hop)).trans ((hoperand p.advance).of_eq hq)
  | case3 left p op hop right q hq ih =>
      exact ((operator_passes (hc hop)).trans ((hoperand p.advance).of_eq hq)).trans ih

theorem Chain.parse_passes (p : Parser) : p.Passes (c.parse p).2 := by
  unfold parse
  split
  · next e q hq => exact (hoperand p).of_eq hq
  · next left q hq => exact ((hoperand p).of_eq hq).trans (rest_passes hc hoperand left q)

end Chain

theorem product_passes (p : Parser) : p.Passes p.product.2 :=
  Chain.parse_passes atoms_signs atom_passes p

theorem expression_passes (p : Parser) : p.Passes p.expression.2 :=
  Chain.parse_passes products_signs product_passes p

theorem moreArgs_passes (p : Parser) : p.Passes p.moreArgs.2 := by
  fun_induction moreArgs p with
  | case1 p hcomma e q hq =>
      exact (Passes.sees hcomma (by decide)).trans (p.advance.expression_passes.of_eq hq)
  | case2 p hcomma arg q hq e r hr ih =>
      have harg := (Passes.sees hcomma (by decide)).trans (p.advance.expression_passes.of_eq hq)
      exact harg.trans (ih.of_eq hr)
  | case3 p hcomma arg q hq args r hr ih =>
      have harg := (Passes.sees hcomma (by decide)).trans (p.advance.expression_passes.of_eq hq)
      exact harg.trans (ih.of_eq hr)
  | case4 p hcomma => exact .refl p

theorem args_passes (p : Parser) : p.Passes p.args.2 := by
  unfold args
  split
  · exact .refl p
  · split
    · next e q hq => exact p.expression_passes.of_eq hq
    · next arg q hq =>
      have harg := p.expression_passes.of_eq hq
      split
      · next e r hr => exact harg.trans (q.moreArgs_passes.of_eq hr)
      · next args r hr => exact harg.trans (q.moreArgs_passes.of_eq hr)

/-! ### Where arguments end -/

/-- No operator goes on from here. -/
def NoOperator (k : TokenKind) : Prop := productOp? k = none ∧ sumOp? k = none

section Chain

variable {c : Chain} {S : TokenKind → Prop}
  (hoperand : ∀ {p q : Parser} {e : Expr}, c.operand p = (.ok e, q) → S q.current.kind)
include hoperand

/-- What operands stop at and is no operator stops the chain. -/
theorem Chain.rest_stops (left : Expr) (p : Parser) :
    S p.current.kind → ∀ e q, c.rest left p = (.ok e, q) →
      S q.current.kind ∧ c.op? q.current.kind = none := by
  fun_induction c.rest left p with
  | case1 left p hop =>
      intro hp e q heq
      obtain ⟨-, rfl⟩ := Prod.mk.inj heq
      exact ⟨hp, hop⟩
  | case2 left p op hop e q hq =>
      intro _ e' q' heq
      cases (Prod.mk.inj heq).1
  | case3 left p op hop right q hq ih =>
      intro _
      exact ih (hoperand hq)

theorem Chain.parse_stops {p q : Parser} {e : Expr} (h : c.parse p = (.ok e, q)) :
    S q.current.kind ∧ c.op? q.current.kind = none := by
  unfold parse at h
  split at h
  · cases (Prod.mk.inj h).1
  · next left r hr => exact rest_stops hoperand left r (hoperand hr) e q h

end Chain

theorem product_stops {p q : Parser} {e : Expr} (h : p.product = (.ok e, q)) :
    productOp? q.current.kind = none :=
  (Chain.parse_stops (c := atoms) (S := fun _ => True) (fun _ => trivial) h).2

theorem expression_stops {p q : Parser} {e : Expr} (h : p.expression = (.ok e, q)) :
    NoOperator q.current.kind :=
  Chain.parse_stops (c := products) (S := fun k => productOp? k = none) product_stops h

theorem moreArgs_stops (p : Parser) :
    NoOperator p.current.kind → ∀ args q, p.moreArgs = (.ok args, q) →
      NoOperator q.current.kind ∧ q.current.kind ≠ .symbol .comma := by
  fun_induction moreArgs p with
  | case1 p hcomma e q hq =>
      intro _ args' q' heq
      cases (Prod.mk.inj heq).1
  | case2 p hcomma arg q hq e r hr ih =>
      intro _ args' q' heq
      cases (Prod.mk.inj heq).1
  | case3 p hcomma arg q hq args r hr ih =>
      intro _ args' q' heq
      obtain ⟨-, rfl⟩ := Prod.mk.inj heq
      exact ih (expression_stops hq) args _ hr
  | case4 p hcomma =>
      intro hp args' q' heq
      obtain ⟨-, rfl⟩ := Prod.mk.inj heq
      exact ⟨hp, by simpa [sees] using hcomma⟩

theorem args_stops {p q : Parser} {args : List Expr} (h : p.args = (.ok args, q)) :
    (args = [] ∧ q.current.kind = .symbol .rparen) ∨
      (args ≠ [] ∧ NoOperator q.current.kind ∧ q.current.kind ≠ .symbol .comma) := by
  unfold Parser.args at h
  split at h
  · next hclose =>
    obtain ⟨hargs, rfl⟩ := Prod.mk.inj h
    exact Or.inl ⟨(Except.ok.inj hargs).symm, by simpa [sees] using hclose⟩
  · split at h
    · cases (Prod.mk.inj h).1
    · next arg r hr =>
      split at h
      · cases (Prod.mk.inj h).1
      · next args' r' hr' =>
        obtain ⟨hargs, rfl⟩ := Prod.mk.inj h
        refine Or.inr ⟨?_, moreArgs_stops r (expression_stops hr) args' _ hr'⟩
        rw [← Except.ok.inj hargs]
        exact List.cons_ne_nil _ _

end Parser

/-- Arguments that end before the token `k`: nothing goes on there. -/
inductive ArgsBefore : List TokenKind → TokenKind → Prop
  | none : ArgsBefore [] (.symbol .rparen)
  | some {as : List TokenKind} {k : TokenKind} : as ∈ commaList Grammar.expr → InRange as →
      Parser.NoOperator k → k ≠ .symbol .comma → ArgsBefore as k

theorem ArgsBefore.of_closes {as : List TokenKind} {c : TokenKind} (h : ArgsBefore as c)
    (hc : Closes c) : as ∈ commaList Grammar.expr ∧ InRange as := by
  cases h with
  | none => rcases hc with hc | hc | hc <;> cases hc
  | some has hr _ _ => exact ⟨has, hr⟩

/-- The tokens end where a statement has still to read its name or one of its
parentheses, and what closes them is read in its place. That may happen after
other statements were made out of the tokens before. -/
inductive Swallows : List TokenKind → Prop
  | name {k : TokenKind} : Parser.stmtKind? k ≠ none → Swallows [k]
  | lparen {k x : TokenKind} : Parser.stmtKind? k ≠ none → Swallows [k, x]
  | rparen {k x y : TokenKind} {as : List TokenKind} : Parser.stmtKind? k ≠ none →
      as ∈ commaList Grammar.expr → InRange as → Swallows (k :: x :: y :: as)
  | later {k x y z w : TokenKind} {as ks : List TokenKind} : Parser.stmtKind? k ≠ none →
      ArgsBefore as z → Swallows ks → Swallows (k :: x :: y :: (as ++ z :: w :: ks))

namespace Parser

theorem args_read {p q : Parser} {args : List Expr} (h : p.args = (.ok args, q)) :
    ∃ as, Unclosed as ∧ p.kinds = as ++ q.kinds ∧ ArgsBefore as q.current.kind := by
  obtain ⟨hsay, hparse⟩ := p.args_outcome.of_ok h
  obtain ⟨herr, ks, hks, hp⟩ := p.args_passes.of_eq h
  obtain ⟨as, has, hp'⟩ := hparse.phrase herr
  obtain rfl : ks = as := List.append_cancel_right (hp.symm.trans hp')
  refine ⟨ks, hks, hp, ?_⟩
  rcases args_stops h with ⟨rfl, hclose⟩ | ⟨hne, hop, hcomma⟩
  · obtain rfl : ks = [] := has
    rw [hclose]
    exact .none
  · have hlist := listed_le (fun e he => Expr.phrases_le_expr (hsay e he).canonical) has
    refine .some (hlist.resolve_left ?_) (exprs_le_inRange args has) hop hcomma
    rintro rfl
    cases args with
    | nil => exact hne rfl
    | cons e args =>
        obtain ⟨ke, he, kl, hl, heq⟩ := has
        obtain ⟨k, tail, rfl, -⟩ := phrases_head he
        cases heq

/-! ## Statements and blocks -/

section Blocks

variable {p q : Parser} {c : TokenKind} {ks rest : List TokenKind} {es : List SyntaxError}

theorem At.report (h : p.At ks es) (e : SyntaxError) : (p.report e).At ks (es ++ [e]) :=
  ⟨h.kinds, congrArg (· ++ [e]) h.errors⟩

/-- The token is read, be it the one that is due or not. -/
theorem At.expect_any (h : p.At (c :: ks) es) (e : Expected) :
    ∃ es', (p.expect e).At ks es' := by
  unfold Parser.expect
  split
  · exact ⟨es, h.advance⟩
  · exact ⟨_, (h.report _).advance⟩

theorem At.not_atBlockEnd {k : TokenKind} (h : p.At (k :: ks) es) (hk : ¬Closes k) :
    p.atBlockEnd = false := by
  simp only [Closes, not_or] at hk
  simp [atBlockEnd, atEnd, h.sees, h.current, hk]

/-- Skipping ends behind the `;` or before the `}`. -/
theorem recover_at (hks : Unclosed ks) (hc : c = .symbol .semi ∨ c = .symbol .rbrace) :
    ∀ {p : Parser}, p.At (ks ++ c :: rest) es → p.recover.At (afterClosing c rest) es := by
  induction ks with
  | nil =>
      intro p h
      rw [List.nil_append] at h
      rw [recover]
      rcases hc with rfl | rfl
      · rw [if_neg (by simp [atBlockEnd, atEnd, h.sees, h.current]), if_pos (by simp [h.sees])]
        exact h.advance
      · rw [if_pos (by simp [atBlockEnd, h.sees])]
        exact h
  | cons k ks ih =>
      intro p h
      obtain ⟨hk, hks⟩ := unclosed_cons.mp hks
      rw [List.cons_append] at h
      have hsemi : k ≠ .symbol .semi := fun heq => hk (Or.inl heq)
      rw [recover, if_neg (by simp [h.not_atBlockEnd hk]), if_neg (by simp [h.sees, hsemi])]
      exact ih hks h.advance

/-- The end of a statement at the closing token. -/
theorem statementEnd_at (hc : c = .symbol .semi ∨ c = .symbol .rbrace)
    (h : p.At (c :: rest) es) : ∃ es', p.statementEnd.At (afterClosing c rest) es' := by
  unfold statementEnd
  rcases hc with rfl | rfl
  · rw [if_neg (by simp [h.sees])]
    exact ⟨es, h.expect_sym⟩
  · rw [if_pos (by simp [h.sees])]
    exact ⟨_, h.report _⟩

theorem block_failed {e : SyntaxError} (hend : p.atBlockEnd = false)
    (hs : p.statement = (.error e, q)) : p.block = (q.report e).recover.block := by
  rw [block, if_neg (by simp [hend])]
  split
  · next s q' hs' => simp [hs] at hs'
  · next e' q' hs' =>
    obtain ⟨hx, rfl⟩ := Prod.mk.inj (hs.symm.trans hs')
    obtain rfl := Except.error.inj hx
    rfl

/-- A statement that has a sign, and two tokens in the places of its name and
its parenthesis: it fails before the closing token, or it needs the closing
token for its other parenthesis, or it is made up before it. -/
inductive Attempt (p : Parser) (ks : List TokenKind) (c : TokenKind) (rest : List TokenKind) :
    Prop
  | failed {e : SyntaxError} {q : Parser} {ks' : List TokenKind} {es : List SyntaxError} :
      p.statement = (.error e, q) → Unclosed ks' → q.At (ks' ++ c :: rest) es →
      Attempt p ks c rest
  | short : ArgsBefore ks c → Attempt p ks c rest
  | made {s : Stmt} {q : Parser} {as ks' : List TokenKind} {z : TokenKind}
      {es : List SyntaxError} : p.statement = (.ok s, q) → ks = as ++ z :: ks' →
      ArgsBefore as z → q.At (ks' ++ c :: rest) es → Attempt p ks c rest

theorem statement_error {kind : StmtKind} {e : SyntaxError}
    (hk : stmtKind? p.current.kind = some kind)
    (h : (p.advance.identifier.2.expect (.symbol .lparen)).args = (.error e, q)) :
    p.statement = (.error e, q) := by
  simp only [statement, hk, term, h]

theorem statement_ok {kind : StmtKind} {args : List Expr}
    (hk : stmtKind? p.current.kind = some kind)
    (h : (p.advance.identifier.2.expect (.symbol .lparen)).args = (.ok args, q)) :
    ∃ s, p.statement = (.ok s, q.expect (.symbol .rparen)) := by
  simp only [statement, hk, term, h]
  exact ⟨_, rfl⟩

theorem statement_attempt {k x y : TokenKind} (hk : stmtKind? k ≠ none) (hks : Unclosed ks)
    (hc : Closes c) (h : p.At (k :: x :: y :: (ks ++ c :: rest)) es) :
    Attempt p ks c rest := by
  obtain ⟨kind, hkind⟩ := Option.ne_none_iff_exists'.mp hk
  rw [← h.current] at hkind
  obtain ⟨es₁, h₁⟩ := h.advance.expect_any .identifier
  obtain ⟨es₂, h₂⟩ := h₁.expect_any (.symbol .lparen)
  rcases hargs : (p.advance.identifier.2.expect (.symbol .lparen)).args with ⟨e | args, q⟩
  · obtain ⟨herr, ms, hms, hq⟩ := (args_passes _).of_eq hargs
    obtain ⟨ks', rfl, hrest⟩ := hms.split hc (hq.symm.trans h₂.kinds)
    exact .failed (statement_error hkind hargs) (unclosed_append.mp hks).2
      ⟨hrest, herr.trans h₂.errors⟩
  · obtain ⟨as, has, hq, hbefore⟩ := args_read hargs
    obtain ⟨ks', rfl, hrest⟩ := has.split hc (hq.symm.trans h₂.kinds)
    have hat : q.At (ks' ++ c :: rest) es₂ :=
      ⟨hrest, ((args_passes _).of_eq hargs).errors.trans h₂.errors⟩
    cases ks' with
    | nil =>
        rw [hat.current] at hbefore
        exact .short (by simpa using hbefore)
    | cons z ks' =>
        rw [hat.current] at hbefore
        obtain ⟨s, hs⟩ := statement_ok hkind hargs
        obtain ⟨es₃, h₃⟩ := hat.expect_any (.symbol .rparen)
        exact .made hs rfl hbefore h₃

/-- The block makes at most `n` statements, and goes on where `ks` is unread. -/
def Resumes (p : Parser) (n : Nat) (ks : List TokenKind) : Prop :=
  ∃ (mid : List Stmt) (q : Parser) (es : List SyntaxError),
    p.block = (mid ++ q.block.1, q.block.2) ∧ mid.length ≤ n ∧ q.At ks es

theorem Resumes.here (h : p.At ks es) (n : Nat) : p.Resumes n ks :=
  ⟨[], p, es, rfl, Nat.zero_le n, h⟩

/-- A statement that fails before the closing token is skipped up to it. -/
theorem Resumes.skip {e : SyntaxError} (hc : c = .symbol .semi ∨ c = .symbol .rbrace)
    (hend : p.atBlockEnd = false) (hs : p.statement = (.error e, q)) (hks : Unclosed ks)
    (hq : q.At (ks ++ c :: rest) es) (n : Nat) : p.Resumes n (afterClosing c rest) :=
  ⟨[], _, _, block_failed hend hs, Nat.zero_le n, recover_at hks hc (hq.report e)⟩

theorem Resumes.made {s : Stmt} {n : Nat} (hend : p.atBlockEnd = false)
    (hs : p.statement = (.ok s, q)) (h : q.statementEnd.Resumes n ks) :
    p.Resumes (n + 1) ks := by
  obtain ⟨mid, r, es, hblock, hlen, hr⟩ := h
  exact ⟨s :: mid, r, es, by rw [block_step hend hs, hblock]; rfl, Nat.succ_le_succ hlen, hr⟩

theorem Resumes.mono {n n' : Nat} (h : p.Resumes n ks) (hle : n ≤ n') : p.Resumes n' ks := by
  obtain ⟨mid, q, es, hblock, hlen, hq⟩ := h
  exact ⟨mid, q, es, hblock, hlen.trans hle, hq⟩

/-- A token that is no sign starts no statement. -/
theorem statement_refused (h : stmtKind? p.current.kind = none) :
    p.statement = (.error (.expectedStatement p.current.kind p.current.span), p) := by
  simp only [statement, h]

theorem block_at_closing (hc : c = .symbol .semi ∨ c = .symbol .rbrace)
    (h : p.At (c :: rest) es) (n : Nat) : p.Resumes n (afterClosing c rest) := by
  rcases hc with rfl | rfl
  · have hend : p.atBlockEnd = false := by simp [atBlockEnd, atEnd, h.sees, h.current]
    have hs := statement_refused (p := p) (by rw [h.current]; rfl)
    exact .skip (Or.inl rfl) hend hs unclosed_nil h n
  · exact .here h n

/-- **A block goes on behind malformed tokens.** Unless the tokens swallow what
closes them, the block makes some statements of them, not more than they have
signs, and goes on behind the `;` or at the `}`. -/
theorem block_run (hc : c = .symbol .semi ∨ c = .symbol .rbrace) {run : List TokenKind}
    (hrun : Unclosed run) (hsafe : ¬Swallows run) (h : p.At (run ++ c :: rest) es) :
    p.Resumes (run.countP fun k => (stmtKind? k).isSome) (afterClosing c rest) := by
  have hcloses : Closes c := hc.imp_right Or.inl
  -- The run gets shorter with every statement that is made of it.
  induction hn : run.length using Nat.strong_induction_on generalizing run p es with
  | _ n ih =>
    cases run with
    | nil => exact block_at_closing hc h _
    | cons k run =>
        have hend := At.not_atBlockEnd h (unclosed_cons.mp hrun).1
        by_cases hk : stmtKind? k = none
        · have hs := statement_refused (p := p) (by rw [h.current]; exact hk)
          exact .skip hc hend hs hrun h _
        · rcases run with _ | ⟨x, _ | ⟨y, ks⟩⟩
          · exact absurd (.name hk) hsafe
          · exact absurd (.lparen hk) hsafe
          · have hks : Unclosed ks := fun k hk => hrun k (by simp [hk])
            cases statement_attempt hk hks hcloses h with
            | failed hs hks' hq => exact .skip hc hend hs hks' hq _
            | short hbefore =>
                obtain ⟨has, hr⟩ := hbefore.of_closes hcloses
                exact absurd (.rparen hk has hr) hsafe
            | @made s q as ks' z es₁ hs heq hbefore hq =>
                subst heq
                have hsign : (stmtKind? k).isSome = true := Option.isSome_iff_ne_none.mpr hk
                rcases ks' with _ | ⟨w, ks'⟩
                · obtain ⟨es₂, hr⟩ := statementEnd_at hc hq
                  exact (Resumes.made hend hs (.here hr 0)).mono (by simp [hsign])
                · have hw : w ≠ .symbol .rbrace := fun heq =>
                    hrun w (by simp) (Or.inr (Or.inl heq))
                  have hskip : q.statementEnd = q.expect (.symbol .semi) := by
                    rw [statementEnd, if_neg (by simp [At.sees hq, hw])]
                  obtain ⟨es₂, hr⟩ := At.expect_any hq (.symbol .semi)
                  rw [← hskip] at hr
                  have hrest := ih ks'.length (by simp at hn; omega)
                    (fun k hk => hrun k (by simp [hk]))
                    (fun hks' => hsafe (.later hk hbefore hks')) hr rfl
                  refine (Resumes.made hend hs hrest).mono ?_
                  simp only [List.countP_append, List.countP_cons, hsign, if_true]
                  omega

/-- **A block reports malformed tokens**, whatever becomes of it. -/
theorem block_errs (hc : c = .symbol .semi ∨ c = .symbol .rbrace) {run : List TokenKind}
    (hne : run ≠ []) (hrun : Unclosed run) (hbad : run ∉ Grammar.statement)
    (h : p.At (run ++ c :: rest) es) : p.block.2.errors ≠ p.errors := by
  intro hsame
  have hend : p.atBlockEnd = false := by
    cases run with
    | nil => exact absurd rfl hne
    | cons k run => exact At.not_atBlockEnd h (unclosed_cons.mp hrun).1
  obtain ⟨-, hparse⟩ := p.parses_block
  obtain ⟨ks, hks, hkinds⟩ := hparse.phrase hsame
  rcases hs : p.statement with ⟨e | s, q⟩
  · have hfail : p.Parses 0 p.block.2 := by
      refine .of_report e (p.statement_outcome.of_error hs) ?_
      rw [block_failed hend hs, ← errors_recover]
      exact (parses_block _).2.errors
    obtain ⟨ks', hks', -⟩ := hfail.phrase hsame
    exact Language.notMem_zero ks' hks'
  · rw [block_step hend hs, blockPhrases, List.map_cons, List.prod_cons] at hks
    obtain ⟨-, ⟨kst, hst, -, rfl, rfl⟩, kb, -, rfl⟩ := hks
    have hword : kst ∈ Grammar.statement :=
      Stmt.phrases_le (p.statement_outcome.of_ok hs).1 hst
    -- Both end at the first closing token of the same tokens.
    have heq : kst ++ .symbol .semi :: (kb ++ p.block.2.kinds) = run ++ c :: rest := by
      rw [← h.kinds, hkinds]
      simp
    obtain ⟨more, rfl, hmore⟩ := (statement_le_unclosed hword).split (hc.imp_right Or.inl) heq
    cases more with
    | nil => exact hbad (by simpa using hword)
    | cons k more =>
        obtain ⟨rfl, -⟩ := List.cons.inj hmore
        exact hrun _ (by simp) (Or.inl rfl)

end Blocks

end Parser

end AgentLang
