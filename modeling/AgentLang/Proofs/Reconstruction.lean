import AgentLang.Proofs.Recognition

/-!
# Parsing a phrase gives back its tree

The other direction: a parser that stands before a phrase of a sayable tree
reads exactly that phrase, reports nothing and returns the tree, up to spans
(`Parser.parseUnit_at`).

A production may only be tried where nothing after the phrase could continue
it, so each lemma says what token may follow. For expressions the phrase is
followed to the point where the parser asks for the next operator
(`Parser.product_at`, `Parser.expression_at`); this is what makes the
induction on trees that lean to the left go through.
-/

namespace AgentLang

open Grammar

/-! ## Trees up to spans -/

def Ident.erase (i : Ident) : Ident := ⟨i.name, .nowhere⟩

def Expr.erase : Expr → Expr
  | ident name _ => .ident name .nowhere
  | number value _ => .number value .nowhere
  | binary op left right _ => .binary op left.erase right.erase .nowhere

def Param.erase (p : Param) : Param := ⟨p.name.erase, p.type.erase, .nowhere⟩

def Term.erase (t : Term) : Term := ⟨t.name.erase, t.args.map Expr.erase, .nowhere⟩

def Stmt.erase (s : Stmt) : Stmt := ⟨s.kind, s.term.erase, .nowhere⟩

def Belief.erase (b : Belief) : Belief := ⟨b.name.erase, b.init.map Expr.erase, .nowhere⟩

def Member.erase (m : Member) : Member :=
  ⟨m.kind, m.name.erase, m.params.map Param.erase, m.body.map Stmt.erase, .nowhere⟩

def Item.erase : Item → Item
  | belief b => .belief b.erase
  | member m => .member m.erase

theorem map_erase_beliefs (items : List Item) :
    (items.filterMap Item.belief?).map Belief.erase =
      (items.map Item.erase).filterMap Item.belief? := by
  induction items with
  | nil => rfl
  | cons item items ih =>
      cases item <;> simp [Item.erase, Item.belief?, List.filterMap_cons, ih]

theorem map_erase_members (items : List Item) :
    (items.filterMap Item.member?).map Member.erase =
      (items.map Item.erase).filterMap Item.member? := by
  induction items with
  | nil => rfl
  | cons item items ih =>
      cases item <;> simp [Item.erase, Item.member?, List.filterMap_cons, ih]

/-- The agent with all its spans forgotten. -/
def Agent.erase (a : Agent) : Agent :=
  ⟨a.name.erase, a.params.map Param.erase, a.beliefs.map Belief.erase,
    a.members.map Member.erase, .nowhere⟩

namespace Parser

/-- The parser stands before the tokens `ks`, with the errors `es`. -/
structure At (p : Parser) (ks : List TokenKind) (es : List SyntaxError) : Prop where
  kinds : p.kinds = ks
  errors : p.errors = es

section At

variable {p : Parser} {k : TokenKind} {ks : List TokenKind} {es : List SyntaxError}

theorem At.current (h : p.At (k :: ks) es) : p.current.kind = k := by
  have hk := h.kinds
  unfold Parser.kinds at hk
  unfold Parser.current
  cases hu : p.unread with
  | nil => simp [hu] at hk
  | cons t ts =>
      rw [hu] at hk
      exact (List.cons.inj hk).1

theorem At.advance (h : p.At (k :: ks) es) : p.advance.At ks es := by
  have hk := h.kinds
  refine ⟨?_, by rw [errors_advance, h.errors]⟩
  unfold Parser.kinds at hk
  unfold Parser.kinds Parser.advance
  cases hu : p.unread with
  | nil => simp [hu] at hk
  | cons t ts =>
      rw [hu] at hk
      exact (List.cons.inj hk).2

theorem At.sees (h : p.At (k :: ks) es) (s : Symbol) : p.sees s = decide (k = .symbol s) := by
  simp [Parser.sees, h.current]

theorem At.expect (h : p.At (k :: ks) es) {e : Expected} (hk : e.admits k = true) :
    (p.expect e).At ks es := by
  simp only [Parser.expect, h.current, hk, if_true]
  exact h.advance

theorem At.expect_sym {s : Symbol} (h : p.At (.symbol s :: ks) es) :
    (p.expect (.symbol s)).At ks es :=
  h.expect (by simp [Expected.admits])

theorem At.expect_key {w : Keyword} (h : p.At (.keyword w :: ks) es) :
    (p.expect (.keyword w)).At ks es :=
  h.expect (by simp [Expected.admits])

theorem At.identifier {name : String} (h : p.At (.ident name :: ks) es) :
    p.identifier.1.name = name ∧ p.identifier.2.At ks es := by
  refine ⟨?_, h.expect rfl⟩
  simp [Parser.identifier, Token.lexeme, h.current, TokenKind.text]

end At

/-! ## Expressions -/

theorem atom_at {p : Parser} {e : Expr} {ks rest : List TokenKind} {es : List SyntaxError}
    (he : e.isAtom = true) (hks : ks ∈ e.phrases) (h : p.At (ks ++ rest) es) :
    ∃ e' q, p.atom = (.ok e', q) ∧ e'.erase = e.erase ∧ q.At rest es := by
  cases e with
  | ident name span =>
      obtain rfl := hks
      exact ⟨.ident name p.current.span, p.advance, by simp only [atom, h.current], rfl,
        h.advance⟩
  | number value span =>
      obtain ⟨digits, rfl, hv⟩ := hks
      exact ⟨.number value p.current.span, p.advance, by simp only [atom, h.current, hv], rfl,
        h.advance⟩
  | binary => cases he

theorem productOp?_symbol {op : BinOp} (h : op.isSum = false) :
    productOp? (.symbol op.symbol) = some op := by
  cases op <;> first | rfl | cases h

theorem sumOp?_symbol {op : BinOp} (h : op.isSum = true) :
    productOp? (.symbol op.symbol) = none ∧ sumOp? (.symbol op.symbol) = some op := by
  cases op <;> first | exact ⟨rfl, rfl⟩ | cases h

/-- A phrase of a product is read up to the next operator. -/
theorem product_at {e : Expr} (hc : e.canonical = true) (hs : e.sumFree = true) :
    ∀ {p : Parser} {ks rest : List TokenKind} {es : List SyntaxError}, ks ∈ e.phrases →
      p.At (ks ++ rest) es →
      ∃ (e' : Expr) (q : Parser), p.product = q.factors e' ∧ e'.erase = e.erase ∧
        q.At rest es := by
  induction e with
  | ident name span =>
      intro p ks rest es hks h
      obtain ⟨e', q, hatom, herase, hq⟩ := atom_at rfl hks h
      exact ⟨e', q, Chain.parse_of_ok hatom, herase, hq⟩
  | number value span =>
      intro p ks rest es hks h
      obtain ⟨e', q, hatom, herase, hq⟩ := atom_at rfl hks h
      exact ⟨e', q, Chain.parse_of_ok hatom, herase, hq⟩
  | binary op left right span ihl ihr =>
      intro p ks rest es hks h
      simp only [Expr.canonical, Expr.sumFree, Bool.and_eq_true, Bool.not_eq_true'] at hc hs
      simp only [hs.1.1, Bool.false_eq_true, if_false, Bool.and_eq_true] at hc
      obtain ⟨-, ⟨kl, hl, -, rfl, rfl⟩, kr, hr, rfl⟩ := hks
      simp only [List.append_assoc, List.cons_append, List.nil_append] at h
      obtain ⟨left', q, hprod, hleft, hq⟩ := ihl hc.1.1 hs.1.2 hl h
      have hop : productOp? q.current.kind = some op := by
        rw [hq.current, productOp?_symbol hs.1.1]
      obtain ⟨right', r, hatom, hright, hrest⟩ := atom_at hc.2.2 hr hq.advance
      refine ⟨.join op left' right', r, hprod.trans (Chain.rest_of_ok hop hatom), ?_, hrest⟩
      simp [Expr.join, Expr.erase, hleft, hright]

/-- A product that no further factor follows. -/
theorem product_complete {p : Parser} {e : Expr} {k : TokenKind} {ks rest : List TokenKind}
    {es : List SyntaxError} (hc : e.canonical = true) (hs : e.sumFree = true)
    (hk : productOp? k = none) (hks : ks ∈ e.phrases) (h : p.At (ks ++ k :: rest) es) :
    ∃ e' q, p.product = (.ok e', q) ∧ e'.erase = e.erase ∧ q.At (k :: rest) es := by
  obtain ⟨e', q, hprod, herase, hq⟩ := product_at hc hs hks h
  refine ⟨e', q, hprod.trans (Chain.rest_of_none ?_), herase, hq⟩
  rw [hq.current]
  exact hk

/-- A phrase of an expression is read up to the next `+` or `-`. -/
theorem expression_at {e : Expr} (hc : e.canonical = true) :
    ∀ {p : Parser} {k : TokenKind} {ks rest : List TokenKind} {es : List SyntaxError},
      productOp? k = none → ks ∈ e.phrases → p.At (ks ++ k :: rest) es →
      ∃ (e' : Expr) (q : Parser), p.expression = q.summands e' ∧ e'.erase = e.erase ∧
        q.At (k :: rest) es := by
  induction e with
  | ident name span =>
      intro p k ks rest es hk hks h
      obtain ⟨e', q, hprod, herase, hq⟩ := product_complete hc rfl hk hks h
      exact ⟨e', q, Chain.parse_of_ok hprod, herase, hq⟩
  | number value span =>
      intro p k ks rest es hk hks h
      obtain ⟨e', q, hprod, herase, hq⟩ := product_complete hc rfl hk hks h
      exact ⟨e', q, Chain.parse_of_ok hprod, herase, hq⟩
  | binary op left right span ihl ihr =>
      intro p k ks rest es hk hks h
      cases hop : op.isSum with
      | false =>
          have hs := Expr.sumFree_of_canonical hc hop
          obtain ⟨e', q, hprod, herase, hq⟩ := product_complete hc hs hk hks h
          exact ⟨e', q, Chain.parse_of_ok hprod, herase, hq⟩
      | true =>
          simp only [Expr.canonical, hop, Bool.and_eq_true, if_true, Bool.not_eq_true'] at hc
          obtain ⟨-, ⟨kl, hl, -, rfl, rfl⟩, kr, hr, rfl⟩ := hks
          simp only [List.append_assoc, List.cons_append, List.nil_append] at h
          obtain ⟨hprod?, hsum?⟩ := sumOp?_symbol hop
          obtain ⟨left', q, hexpr, hleft, hq⟩ := ihl hc.1.1 hprod? hl h
          have hcur : sumOp? q.current.kind = some op := by rw [hq.current, hsum?]
          obtain ⟨right', r, hprod, hright, hrest⟩ := product_complete hc.1.2
            (Expr.sumFree_of_canonical hc.1.2 hc.2) hk hr hq.advance
          refine ⟨.join op left' right', r, hexpr.trans (Chain.rest_of_ok hcur hprod), ?_, hrest⟩
          simp [Expr.join, Expr.erase, hleft, hright]

/-- An expression that no operator follows. -/
theorem expression_complete {p : Parser} {e : Expr} {k : TokenKind}
    {ks rest : List TokenKind} {es : List SyntaxError} (hc : e.canonical = true)
    (hk : productOp? k = none ∧ sumOp? k = none) (hks : ks ∈ e.phrases)
    (h : p.At (ks ++ k :: rest) es) :
    ∃ e' q, p.expression = (.ok e', q) ∧ e'.erase = e.erase ∧ q.At (k :: rest) es := by
  obtain ⟨e', q, hexpr, herase, hq⟩ := expression_at hc hk.1 hks h
  refine ⟨e', q, hexpr.trans (Chain.rest_of_none ?_), herase, hq⟩
  rw [hq.current]
  exact hk.2

/-! ## Statements -/

theorem phrases_head {e : Expr} :
    ∀ {ks : List TokenKind}, ks ∈ e.phrases →
      ∃ k tail, ks = k :: tail ∧ ∀ s, k ≠ .symbol s := by
  induction e with
  | ident name span =>
      rintro ks rfl
      exact ⟨_, _, rfl, by simp⟩
  | number value span =>
      rintro ks ⟨digits, rfl, -⟩
      exact ⟨_, _, rfl, by simp⟩
  | binary op left right span ihl ihr =>
      rintro - ⟨-, ⟨kl, hl, -, rfl, rfl⟩, kr, hr, rfl⟩
      obtain ⟨k, tail, rfl, hk⟩ := ihl hl
      exact ⟨k, _, rfl, hk⟩

/-- After a comma list comes either a comma or what closes the list. -/
theorem afterCommas_head {Ls : List (Language TokenKind)} {ks : List TokenKind}
    (h : ks ∈ afterCommas Ls) (k : TokenKind) (rest : List TokenKind) :
    ∃ k' tail, ks ++ k :: rest = k' :: tail ∧ (k' = .symbol .comma ∨ k' = k) := by
  cases Ls with
  | nil =>
      obtain rfl : ks = [] := h
      exact ⟨k, rest, rfl, Or.inr rfl⟩
  | cons L Ls =>
      rw [afterCommas, List.map_cons, List.prod_cons] at h
      obtain ⟨-, ⟨-, rfl, kx, hx, rfl⟩, kl, hl, rfl⟩ := h
      exact ⟨.symbol .comma, _, rfl, Or.inl rfl⟩

theorem moreArgs_step {p q r : Parser} {arg : Expr} {args : List Expr}
    (hcomma : p.sees .comma = true) (harg : p.advance.expression = (.ok arg, q))
    (hargs : q.moreArgs = (.ok args, r)) : p.moreArgs = (.ok (arg :: args), r) := by
  rw [moreArgs, if_pos hcomma]
  split
  · next e q' hq => simp [harg] at hq
  · next arg' q' hq =>
    obtain ⟨hx, rfl⟩ := Prod.mk.inj (harg.symm.trans hq)
    obtain rfl := Except.ok.inj hx
    simp only [hargs]

theorem moreArgs_at {args : List Expr} (hc : ∀ e ∈ args, e.canonical = true) :
    ∀ {p : Parser} {ks rest : List TokenKind} {es : List SyntaxError},
      ks ∈ afterCommas (args.map Expr.phrases) → p.At (ks ++ .symbol .rparen :: rest) es →
      ∃ args' q, p.moreArgs = (.ok args', q) ∧
        args'.map Expr.erase = args.map Expr.erase ∧ q.At (.symbol .rparen :: rest) es := by
  induction args with
  | nil =>
      rintro p ks rest es rfl h
      refine ⟨[], p, ?_, rfl, h⟩
      rw [moreArgs, if_neg (by simp [h.sees])]
  | cons e args ih =>
      intro p ks rest es hks h
      rw [List.forall_mem_cons] at hc
      rw [List.map_cons, afterCommas, List.map_cons, List.prod_cons] at hks
      obtain ⟨-, ⟨-, rfl, ke, he, rfl⟩, kl, hl, rfl⟩ := hks
      have hcomma : p.sees .comma = true := by simp [h.sees]
      obtain ⟨k, tail, heq, hk⟩ := afterCommas_head hl (.symbol .rparen) rest
      have hnext : p.advance.At (ke ++ k :: tail) es := by
        rw [← heq]
        simpa using h.advance
      have hop : productOp? k = none ∧ sumOp? k = none := by
        rcases hk with rfl | rfl <;> exact ⟨rfl, rfl⟩
      obtain ⟨e', q, hexpr, herase, hq⟩ := expression_complete hc.1 hop he hnext
      rw [← heq] at hq
      obtain ⟨args', r, hargs, herases, hr⟩ := ih hc.2 hl hq
      exact ⟨e' :: args', r, moreArgs_step hcomma hexpr hargs, by simp [herase, herases], hr⟩

theorem args_at {p : Parser} {args : List Expr} {ks rest : List TokenKind}
    {es : List SyntaxError} (hc : ∀ e ∈ args, e.canonical = true)
    (hks : ks ∈ listed (args.map Expr.phrases)) (h : p.At (ks ++ .symbol .rparen :: rest) es) :
    ∃ args' q, p.args = (.ok args', q) ∧ args'.map Expr.erase = args.map Expr.erase ∧
      q.At (.symbol .rparen :: rest) es := by
  cases args with
  | nil =>
      obtain rfl : ks = [] := hks
      refine ⟨[], p, ?_, rfl, h⟩
      simp [Parser.args, h.sees]
  | cons e args =>
      rw [List.forall_mem_cons] at hc
      obtain ⟨ke, he, kl, hl, rfl⟩ := hks
      obtain ⟨k, tail, heq, hk⟩ := afterCommas_head hl (.symbol .rparen) rest
      have hop : productOp? k = none ∧ sumOp? k = none := by
        rcases hk with rfl | rfl <;> exact ⟨rfl, rfl⟩
      rw [List.append_assoc, heq] at h
      have hsees : p.sees .rparen = false := by
        obtain ⟨k', tail', rfl, hk'⟩ := phrases_head he
        rw [h.sees]
        simpa using hk' .rparen
      obtain ⟨e', q, hexpr, herase, hq⟩ := expression_complete hc.1 hop he h
      rw [← heq] at hq
      obtain ⟨args', r, hargs, herases, hr⟩ := moreArgs_at hc.2 hl hq
      refine ⟨e' :: args', r, ?_, by simp [herase, herases], hr⟩
      simp only [Parser.args, hsees, Bool.false_eq_true, if_false, hexpr, hargs]

theorem term_at {p : Parser} {t : Term} {ks rest : List TokenKind} {es : List SyntaxError}
    (hc : ∀ e ∈ t.args, e.Sayable) (hks : ks ∈ t.phrases) (h : p.At (ks ++ rest) es) :
    ∃ t' q, p.term = (.ok t', q) ∧ t'.erase = t.erase ∧ q.At rest es := by
  obtain ⟨-, ⟨-, ⟨-, rfl, -, rfl, rfl⟩, ka, ha, rfl⟩, -, rfl, rfl⟩ := hks
  simp only [List.append_assoc, List.cons_append, List.nil_append] at h
  obtain ⟨hname, hopen⟩ := h.identifier
  obtain ⟨args', q, hargs, herase, hq⟩ := args_at (fun e he => (hc e he).canonical) ha
    hopen.expect_sym
  let r := q.expect (.symbol .rparen)
  refine ⟨⟨p.identifier.1, args', p.identifier.1.span.merge r.previous⟩, r, ?_, ?_,
    hq.expect_sym⟩
  · simp only [term, hargs, r]
  · simp [Term.erase, hname, herase, Ident.erase]

theorem stmtKind?_symbol (kind : StmtKind) : stmtKind? (.symbol kind.symbol) = some kind := by
  cases kind <;> rfl

theorem statement_at {p : Parser} {s : Stmt} {ks rest : List TokenKind}
    {es : List SyntaxError} (hc : ∀ e ∈ s.term.args, e.Sayable) (hks : ks ∈ s.phrases)
    (h : p.At (ks ++ rest) es) :
    p.atBlockEnd = false ∧
      ∃ s' q, p.statement = (.ok s', q) ∧ s'.erase = s.erase ∧ q.At rest es := by
  obtain ⟨-, rfl, kt, ht, rfl⟩ := hks
  simp only [List.cons_append, List.nil_append] at h
  obtain ⟨t', q, hterm, herase, hq⟩ := term_at hc ht h.advance
  refine ⟨?_, ⟨s.kind, t', p.current.span.merge q.previous⟩, q, ?_, ?_, hq⟩
  · rw [atBlockEnd, h.sees, atEnd, h.current]
    cases s.kind <;> rfl
  · simp only [statement, h.current, stmtKind?_symbol, hterm]
  · simp [Stmt.erase, herase]

theorem block_step {p q : Parser} {s : Stmt} (hend : p.atBlockEnd = false)
    (hs : p.statement = (.ok s, q)) :
    p.block = (s :: q.statementEnd.block.1, q.statementEnd.block.2) := by
  rw [block, if_neg (by simp [hend])]
  split
  · next s' q' hs' =>
    obtain ⟨hx, rfl⟩ := Prod.mk.inj (hs.symm.trans hs')
    obtain rfl := Except.ok.inj hx
    rfl
  · next e q' hs' => simp [hs] at hs'

/-- The statements before any point of a block, and what the block goes on
with from there. -/
theorem block_resume {stmts : List Stmt} (hc : ∀ s ∈ stmts, ∀ e ∈ s.term.args, e.Sayable) :
    ∀ {p : Parser} {ks rest : List TokenKind} {es : List SyntaxError},
      ks ∈ blockPhrases stmts → p.At (ks ++ rest) es →
      ∃ (stmts' : List Stmt) (q : Parser), p.block = (stmts' ++ q.block.1, q.block.2) ∧
        stmts'.map Stmt.erase = stmts.map Stmt.erase ∧ q.At rest es := by
  induction stmts with
  | nil =>
      rintro p ks rest es rfl h
      exact ⟨[], p, rfl, rfl, h⟩
  | cons s stmts ih =>
      intro p ks rest es hks h
      rw [List.forall_mem_cons] at hc
      rw [blockPhrases, List.map_cons, List.prod_cons] at hks
      obtain ⟨-, ⟨kst, hst, -, rfl, rfl⟩, kb, hb, rfl⟩ := hks
      simp only [List.append_assoc, List.cons_append, List.nil_append] at h
      obtain ⟨hend, s', q, hs, herase, hq⟩ := statement_at hc.1 hst h
      have hsemi : q.statementEnd.At (kb ++ rest) es := by
        rw [statementEnd, if_neg (by simp [hq.sees])]
        exact hq.expect_sym
      obtain ⟨stmts', r, hblock, herases, hr⟩ := ih hc.2 hb hsemi
      refine ⟨s' :: stmts', r, ?_, by simp [herase, herases], hr⟩
      rw [block_step hend hs, hblock]
      rfl

theorem block_at {p : Parser} {stmts : List Stmt} {ks rest : List TokenKind}
    {es : List SyntaxError} (hc : ∀ s ∈ stmts, ∀ e ∈ s.term.args, e.Sayable)
    (hks : ks ∈ blockPhrases stmts) (h : p.At (ks ++ .symbol .rbrace :: rest) es) :
    p.block.1.map Stmt.erase = stmts.map Stmt.erase ∧
      p.block.2.At (.symbol .rbrace :: rest) es := by
  obtain ⟨stmts', q, hblock, herase, hq⟩ := block_resume hc hks h
  have hstop : q.block = ([], q) := by
    rw [block, if_pos (by simp [atBlockEnd, hq.sees])]
  rw [hblock, hstop]
  exact ⟨by simpa using herase, hq⟩

/-! ## Lists -/

/-- A phrase of an element is read as that element, up to spans. -/
def Element.Restores {α : Type} (element : Element α) (Good : α → Prop)
    (phrases : α → Language TokenKind) (erased : α → α) : Prop :=
  ∀ {p : Parser} {x : α} {ks rest : List TokenKind} {es : List SyntaxError},
    Good x → ks ∈ phrases x → p.At (ks ++ rest) es →
    ∃ y, (element.read p).1 = [y] ∧ erased y = erased x ∧ (element.read p).2.At rest es

section Element

variable {α : Type} {element : Element α} {Good : α → Prop} {phrases : α → Language TokenKind}
  {erased : α → α} (helement : element.Restores Good phrases erased)
include helement

theorem Element.more_at {xs : List α} (hgood : ∀ x ∈ xs, Good x) :
    ∀ {p : Parser} {ks rest : List TokenKind} {es : List SyntaxError},
      ks ∈ afterCommas (xs.map phrases) → p.At (ks ++ .symbol .rparen :: rest) es →
      (element.more p).1.map erased = xs.map erased ∧
        (element.more p).2.At (.symbol .rparen :: rest) es := by
  induction xs with
  | nil =>
      rintro p ks rest es rfl h
      rw [more, if_neg (by simp [h.sees])]
      exact ⟨rfl, h⟩
  | cons x xs ih =>
      intro p ks rest es hks h
      rw [List.forall_mem_cons] at hgood
      rw [List.map_cons, afterCommas, List.map_cons, List.prod_cons] at hks
      obtain ⟨-, ⟨-, rfl, kx, hx, rfl⟩, kl, hl, rfl⟩ := hks
      simp only [List.append_assoc, List.cons_append, List.nil_append] at h
      obtain ⟨y, hy, herase, hq⟩ := helement hgood.1 hx h.advance
      obtain ⟨herases, hrest⟩ := ih hgood.2 hl hq
      rw [more, if_pos (by simp [h.sees])]
      exact ⟨by simp [hy, herase, herases], hrest⟩

theorem Element.list_at {p : Parser} {x : α} {xs : List α} {ks rest : List TokenKind}
    {es : List SyntaxError} (hgood : ∀ y ∈ x :: xs, Good y)
    (hks : ks ∈ listed ((x :: xs).map phrases)) (h : p.At (ks ++ .symbol .rparen :: rest) es) :
    (element.list p).1.map erased = (x :: xs).map erased ∧
      (element.list p).2.At (.symbol .rparen :: rest) es := by
  rw [List.forall_mem_cons] at hgood
  obtain ⟨kx, hx, kl, hl, rfl⟩ := hks
  rw [List.append_assoc] at h
  obtain ⟨y, hy, herase, hq⟩ := helement hgood.1 hx h
  obtain ⟨herases, hrest⟩ := more_at helement hgood.2 hl hq
  exact ⟨by simp [list, hy, herase, herases], hrest⟩

end Element

/-! ## Parameters -/

theorem param_at {p : Parser} {x : Param} {ks rest : List TokenKind} {es : List SyntaxError}
    (hks : ks ∈ x.phrases) (h : p.At (ks ++ rest) es) :
    p.sees .rparen = false ∧ p.param.1.erase = x.erase ∧ p.param.2.At rest es := by
  obtain ⟨-, ⟨-, rfl, -, rfl, rfl⟩, -, rfl, rfl⟩ := hks
  simp only [List.cons_append, List.nil_append] at h
  obtain ⟨hname, hcolon⟩ := h.identifier
  obtain ⟨htype, hrest⟩ := hcolon.expect_sym.identifier
  refine ⟨by rw [h.sees]; rfl, ?_, hrest⟩
  simp [param, Param.erase, hname, htype, Ident.erase]

theorem parameter_restores :
    parameter.Restores (fun _ => True) Param.phrases Param.erase := by
  intro p x ks rest es _ hks h
  obtain ⟨-, herase, hq⟩ := param_at hks h
  exact ⟨p.param.1, rfl, herase, hq⟩

theorem params_at {p : Parser} {params : List Param} {ks rest : List TokenKind}
    {es : List SyntaxError} (hks : ks ∈ paramPhrases params)
    (h : p.At (ks ++ .symbol .lbrace :: rest) es) :
    p.params.1.map Param.erase = params.map Param.erase ∧
      p.params.2.At (.symbol .lbrace :: rest) es := by
  cases params with
  | nil =>
      rcases hks with rfl | ⟨-, rfl, -, rfl, rfl⟩
      · rw [Parser.params, if_neg (by simp [h.sees])]
        exact ⟨rfl, h⟩
      · simp only [List.cons_append, List.nil_append] at h
        rw [Parser.params, if_pos (by simp [h.sees]), if_pos (by simp [h.advance.sees])]
        exact ⟨rfl, h.advance.expect_sym⟩
  | cons x params =>
      obtain ⟨-, ⟨-, rfl, -, ⟨kx, hx, kl, hl, rfl⟩, rfl⟩, -, rfl, rfl⟩ := hks
      simp only [List.append_assoc, List.cons_append, List.nil_append] at h
      have hsees := (param_at hx h.advance).1
      rw [← List.append_assoc] at h
      obtain ⟨herase, hclose⟩ := Element.list_at parameter_restores (fun _ _ => trivial)
        ⟨kx, hx, kl, hl, rfl⟩ h.advance
      rw [Parser.params, if_pos (by simp [h.sees]), if_neg (by simp [hsees])]
      exact ⟨herase, hclose.expect_sym⟩

/-! ## Beliefs and members -/

theorem initialValue_restores :
    initialValue.Restores (fun e => e.isAtom = true) Expr.phrases Expr.erase := by
  intro p e ks rest es he hks h
  obtain ⟨e', q, hatom, herase, hq⟩ := atom_at he hks h
  simp only [initialValue, beliefAtom, hatom]
  exact ⟨e', rfl, herase, hq⟩

theorem beliefInit_at {p : Parser} {init : List Expr} {ks rest : List TokenKind}
    {es : List SyntaxError} (hc : ∀ e ∈ init, e.isAtom = true)
    (hks : ks ∈ listed (init.map Expr.phrases)) (h : p.At (ks ++ .symbol .rparen :: rest) es) :
    p.beliefInit.1.map Expr.erase = init.map Expr.erase ∧
      p.beliefInit.2.At (.symbol .rparen :: rest) es := by
  cases init with
  | nil =>
      obtain rfl : ks = [] := hks
      rw [beliefInit, if_pos (by simp [h.sees])]
      exact ⟨rfl, h⟩
  | cons e init =>
      have hsees : p.sees .rparen = false := by
        obtain ⟨ke, he, kl, -, rfl⟩ := hks
        obtain ⟨k, tail, rfl, hk⟩ := phrases_head he
        rw [h.sees]
        simpa using hk .rparen
      rw [beliefInit, if_neg (by simp [hsees])]
      exact Element.list_at initialValue_restores hc hks h

/-- A belief is followed by something that is not its `;`. -/
theorem belief_at {p : Parser} {b : Belief} {k : TokenKind} {ks rest : List TokenKind}
    {es : List SyntaxError} (hb : b.Sayable) (hk : k ≠ .symbol .semi) (hks : ks ∈ b.phrases)
    (h : p.At (ks ++ k :: rest) es) :
    p.current.kind = .keyword .bel ∧ p.belief.1.erase = b.erase ∧
      p.belief.2.At (k :: rest) es := by
  obtain ⟨-, ⟨-, ⟨-, ⟨-, ⟨-, rfl, -, rfl, rfl⟩, -, rfl, rfl⟩, ki, hi, rfl⟩, -, rfl, rfl⟩,
    kend, hend, rfl⟩ := hks
  simp only [List.append_assoc, List.cons_append, List.nil_append] at h
  obtain ⟨hname, hopen⟩ := h.expect_key.identifier
  obtain ⟨hinit, hclose⟩ := beliefInit_at hb.atoms hi hopen.expect_sym
  refine ⟨h.current, by simp [belief, Belief.erase, hname, hinit, Ident.erase], ?_⟩
  have hq := hclose.expect_sym
  simp only [belief]
  rcases hend with rfl | rfl
  · rw [if_neg (by simpa [hq.sees] using hk)]
    exact hq
  · rw [if_pos (by simp [hq.sees])]
    exact hq.advance

theorem member_at {p : Parser} {m : Member} {ks rest : List TokenKind}
    {es : List SyntaxError} (hm : m.Sayable) (hks : ks ∈ m.phrases)
    (h : p.At (ks ++ rest) es) :
    p.current.kind = .keyword m.kind.opener ∧
      (p.advance.member m.kind).1.erase = m.erase ∧
      (p.advance.member m.kind).2.At rest es := by
  obtain ⟨-, rfl, -, ⟨-, ⟨-, ⟨-, ⟨-, rfl, kp, hp, rfl⟩, -, rfl, rfl⟩, kb, hb, rfl⟩, -, rfl, rfl⟩,
    rfl⟩ := hks
  simp only [List.append_assoc, List.cons_append, List.nil_append] at h
  obtain ⟨hname, hparams⟩ := h.advance.identifier
  obtain ⟨hps, hopen⟩ := params_at hp hparams
  obtain ⟨hbody, hclose⟩ := block_at hm hb hopen.expect_sym
  refine ⟨h.current, ?_, hclose.expect_sym⟩
  simp [member, Member.erase, hname, hps, hbody, Ident.erase]

/-! ## Agents -/

theorem items_belief {p : Parser} (h : p.current.kind = .keyword .bel) :
    p.items = (.belief p.belief.1 :: p.belief.2.items.1, p.belief.2.items.2) := by
  rw [items]
  split <;> simp_all

theorem items_member {p : Parser} (kind : MemberKind)
    (h : p.current.kind = .keyword kind.opener) :
    p.items = (.member (p.advance.member kind).1 :: (p.advance.member kind).2.items.1,
      (p.advance.member kind).2.items.2) := by
  rw [items]
  cases kind <;> split <;> simp_all [MemberKind.opener]

theorem items_stop {p : Parser} (h : p.current.kind = .symbol .rbrace) :
    p.items = ([], p) := by
  rw [items]
  split <;> simp_all

/-- After an item comes another one or what follows the items. -/
theorem itemPhrases_head {items : List Item} {ks : List TokenKind}
    (h : ks ∈ itemPhrases items) {k : TokenKind} (hk : k ≠ .symbol .semi)
    (rest : List TokenKind) :
    ∃ k' tail, ks ++ k :: rest = k' :: tail ∧ k' ≠ .symbol .semi := by
  cases items with
  | nil =>
      obtain rfl : ks = [] := h
      exact ⟨k, rest, rfl, hk⟩
  | cons item items =>
      rw [itemPhrases, List.map_cons, List.prod_cons] at h
      obtain ⟨ki, hi, kl, hl, rfl⟩ := h
      cases item with
      | belief b =>
          obtain ⟨-, ⟨-, ⟨-, ⟨-, ⟨-, rfl, -, rfl, rfl⟩, -, rfl, rfl⟩, k₁, -, rfl⟩, -, rfl, rfl⟩,
            k₂, -, rfl⟩ := hi
          exact ⟨.keyword .bel, _, rfl, by simp⟩
      | member m =>
          obtain ⟨-, rfl, k₁, -, rfl⟩ := hi
          exact ⟨.keyword m.kind.opener, _, rfl, by simp⟩

/-- The items before any point of an agent's body, and what the body goes on
with from there. -/
theorem items_resume {items : List Item} (hs : ∀ item ∈ items, item.Sayable) {k : TokenKind}
    (hk : k ≠ .symbol .semi) :
    ∀ {p : Parser} {ks rest : List TokenKind} {es : List SyntaxError},
      ks ∈ itemPhrases items → p.At (ks ++ k :: rest) es →
      ∃ (items' : List Item) (q : Parser), p.items = (items' ++ q.items.1, q.items.2) ∧
        items'.map Item.erase = items.map Item.erase ∧ q.At (k :: rest) es := by
  induction items with
  | nil =>
      rintro p ks rest es rfl h
      exact ⟨[], p, rfl, rfl, h⟩
  | cons item items ih =>
      intro p ks rest es hks h
      rw [List.forall_mem_cons] at hs
      rw [itemPhrases, List.map_cons, List.prod_cons] at hks
      obtain ⟨ki, hi, kl, hl, rfl⟩ := hks
      rw [List.append_assoc] at h
      cases item with
      | belief b =>
          obtain ⟨k', tail, heq, hk'⟩ := itemPhrases_head hl hk rest
          rw [heq] at h
          obtain ⟨hcur, herase, hq⟩ := belief_at hs.1 hk' hi h
          rw [← heq] at hq
          obtain ⟨items', r, hitems, herases, hr⟩ := ih hs.2 hl hq
          refine ⟨.belief p.belief.1 :: items', r, ?_, by simp [Item.erase, herase, herases], hr⟩
          rw [items_belief hcur, hitems]
          rfl
      | member m =>
          obtain ⟨hcur, herase, hq⟩ := member_at hs.1 hi h
          obtain ⟨items', r, hitems, herases, hr⟩ := ih hs.2 hl hq
          refine ⟨.member (p.advance.member m.kind).1 :: items', r, ?_,
            by simp [Item.erase, herase, herases], hr⟩
          rw [items_member m.kind hcur, hitems]
          rfl

theorem items_at {p : Parser} {items : List Item} {ks rest : List TokenKind}
    {es : List SyntaxError} (hs : ∀ item ∈ items, item.Sayable) (hks : ks ∈ itemPhrases items)
    (h : p.At (ks ++ .symbol .rbrace :: rest) es) :
    p.items.1.map Item.erase = items.map Item.erase ∧
      p.items.2.At (.symbol .rbrace :: rest) es := by
  obtain ⟨items', q, hitems, herase, hq⟩ := items_resume hs (by simp) hks h
  rw [hitems, items_stop hq.current]
  exact ⟨by simpa using herase, hq⟩

theorem agent_at {p : Parser} {a : Agent} {ks rest : List TokenKind} {es : List SyntaxError}
    (ha : a.Sayable) (hks : ks ∈ a.phrases) (h : p.At (ks ++ rest) es) :
    p.agent.1.erase = a.erase ∧ p.agent.2.At rest es := by
  obtain ⟨items, hbeliefs, hmembers, hks⟩ := hks
  obtain ⟨-, ⟨-, ⟨-, ⟨-, ⟨-, rfl, -, rfl, rfl⟩, kp, hp, rfl⟩, -, rfl, rfl⟩, ki, hi, rfl⟩,
    -, rfl, rfl⟩ := hks
  simp only [List.append_assoc, List.cons_append, List.nil_append] at h
  have hsay : ∀ item ∈ items, item.Sayable := by
    intro item hitem
    cases item with
    | belief b => exact ha.beliefs b (hbeliefs ▸ mem_beliefs_iff.mpr hitem)
    | member m => exact ha.members m (hmembers ▸ mem_members_iff.mpr hitem)
  obtain ⟨hname, hparams⟩ := h.expect_key.identifier
  obtain ⟨hps, hopen⟩ := params_at hp hparams
  obtain ⟨hitems, hclose⟩ := items_at hsay hi hopen.expect_sym
  refine ⟨?_, hclose.expect_sym⟩
  simp [agent, Agent.ofItems, Agent.erase, hname, hps, Ident.erase, map_erase_beliefs,
    map_erase_members, hitems, ← hbeliefs, ← hmembers]

/-- A phrase of a sayable agent is parsed back to the agent. -/
theorem parseUnit_at {p : Parser} {a : Agent} {ks : List TokenKind} {es : List SyntaxError}
    (ha : a.Sayable) (hks : ks ∈ a.phrases) (h : p.At ks es) :
    p.parseUnit.1.erase = a.erase ∧ p.parseUnit.2.errors = es := by
  rw [← List.append_nil ks] at h
  obtain ⟨herase, hq⟩ := agent_at ha hks h
  have hend : p.agent.2.atEnd = true := by
    have hnil : p.agent.2.unread = [] := List.map_eq_nil_iff.mp hq.kinds
    simp [atEnd, current, hnil]
  simp only [parseUnit, hend, if_true]
  exact ⟨herase, hq.errors⟩

end Parser

end AgentLang
