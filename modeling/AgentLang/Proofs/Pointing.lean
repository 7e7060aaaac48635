import AgentLang.Compile
import AgentLang.Proofs.Blame
import AgentLang.Proofs.Nesting
import AgentLang.Proofs.RoundTrip

/-!
# Diagnostics point at what they name

A semantic error is reported at a part of the source that is not empty. An error about
a name is reported where the source has exactly this name, and one about a number of
arguments where the source calls the name with that many (`diagnostics_point_at_names`).

Three things meet here. The error blames a node and takes over its span
(`generate_blamed`), the spans of the tree nest and those of its names are tokens
(`Agent.Spanned`), and what stands between the ends of a term is a phrase of the term,
if nothing is wrong with it (`Parser.term_called`).
-/

namespace AgentLang

open Grammar
open String (utf8Len)

/-! ## What stands at a span -/

/-- The tokens of the source that are inside the span. -/
def Span.tokens (source : String) (s : Span) : List Token :=
  (lex source).tokens.filter fun t =>
    s.start.offset ≤ t.span.start.offset && t.span.stop.offset ≤ s.stop.offset

/-- The source has the text at the span. -/
def Span.Shows (source : String) (s : Span) (text : List Char) : Prop :=
  IsSlice source s.start.offset s.stop.offset text

/-- The source calls the name at the span, and writes `n` arguments there. -/
structure Span.Calls (source : String) (s : Span) (name : String) (n : Nat) : Prop where
  text : ∃ args, s.Shows source (name.toList ++ args ++ [')'])
  tokens : (s.tokens source).map Token.kind ∈
    word (.ident name) * sym .lparen * listed (List.replicate n expr) * sym .rparen

/-- The source has at the span what the error tells of it. -/
def SemanticError.Names (source : String) : SemanticError → Prop
  | notInScope name span => span.Shows source name.toList
  | wrongKind name _ _ span => span.Shows source name.toList
  | notAValue name _ span => span.Shows source name.toList
  | redeclared name span => span.Shows source name.toList
  | beliefArityMismatch name _ found span => span.Calls source name found
  | callArityMismatch name _ found span => span.Calls source name found
  | queryTargetNotIdent _ _ => True
  | tuple _ _ => True

/-- The span is a range of the source, and something is in it. -/
structure Span.Filled (source : String) (s : Span) : Prop where
  sound : s.Sound source
  nonempty : s.start.offset < s.stop.offset

/-- The error is about a part of the source and is right about what stands there. -/
structure SemanticError.Points (source : String) (e : SemanticError) : Prop where
  filled : e.span.Filled source
  names : e.Names source

section Spans

variable {source : String}

theorem IsSlice.append {a b c : Nat} {xs ys : List Char} (hx : IsSlice source a b xs)
    (hy : IsSlice source b c ys) : IsSlice source a c (xs ++ ys) := by
  obtain ⟨before, after, hs, rfl, rfl⟩ := hx
  obtain ⟨rest, rfl, rfl⟩ := hy.at_boundary (by rw [hs, List.append_assoc])
  exact ⟨before, rest, by rw [hs, List.append_assoc], rfl, by rw [List.append_assoc]⟩

/-- What stands between two spans. -/
theorem Span.Sound.exists_between {s t : Span} (hs : s.Sound source) (ht : t.Sound source)
    (h : s.stop.offset ≤ t.start.offset) :
    ∃ text, IsSlice source s.stop.offset t.start.offset text := by
  obtain ⟨text, before, after, hsource, -, hlen⟩ := hs.slice
  obtain ⟨text', before', after', hsource', hlen', -⟩ := ht.slice
  rw [← List.append_assoc] at hsource
  obtain ⟨mid, hmid⟩ := prefix_of_utf8Len_le (hsource.symm.trans hsource') (by omega)
  rw [← hmid, List.append_assoc] at hsource'
  exact ⟨mid, before ++ text, text' ++ after', hsource', hlen, by rw [hmid, hlen']⟩

/-- A span that encloses something is not empty. -/
theorem Span.Encloses.filled {s t : Span} {parts : List Span} (h : s.Encloses source parts)
    (ht : t ∈ parts) (hfilled : t.Filled source) : s.Filled source := by
  obtain ⟨hstart, hstop⟩ := h.inside t ht
  have hlt := hfilled.nonempty
  exact ⟨h.sound, by omega⟩

theorem Token.IsTile.filled {t : Token} (h : t.IsTile source) : t.span.Filled source :=
  ⟨h.sound, h.nonempty⟩

theorem lexed_tile {t : Token} (ht : t ∈ (lex source).tokens) : t.IsTile source :=
  (lex_tiling source).tiles t ht

theorem Span.tokens_eq {s : Span} {before ts after : List Token}
    (h : (lex source).tokens = before ++ (ts ++ after))
    (hbefore : ∀ t ∈ before, t.span.start.offset < s.start.offset)
    (hstart : ∀ t ∈ ts, s.start.offset ≤ t.span.start.offset)
    (hstop : ∀ t ∈ ts, t.span.stop.offset ≤ s.stop.offset)
    (hafter : ∀ t ∈ after, s.stop.offset < t.span.stop.offset) : s.tokens source = ts := by
  rw [tokens, h, List.filter_append, List.filter_append, List.filter_eq_nil_iff.mpr,
    List.filter_eq_self.mpr, List.filter_eq_nil_iff.mpr, List.nil_append, List.append_nil]
  · intro t ht
    have := hafter t ht
    simp only [Bool.and_eq_true, decide_eq_true_eq]
    omega
  · intro t ht
    simp only [Bool.and_eq_true, decide_eq_true_eq]
    exact ⟨hstart t ht, hstop t ht⟩
  · intro t ht
    have := hbefore t ht
    simp only [Bool.and_eq_true, decide_eq_true_eq]
    omega

/-- The tokens from `first` through `last` are the ones between their ends. -/
theorem Span.tokens_between {before ts after : List Token} {first last : Token}
    (h : (lex source).tokens = before ++ (ts ++ after)) (hfirst : ts.head? = some first)
    (hlast : ts.getLast? = some last) :
    Span.tokens source ⟨first.span.start, last.span.stop⟩ = ts := by
  have htiling := lex_tiling source
  rw [h] at htiling
  obtain ⟨-, hrest, hbefore⟩ := List.pairwise_append.mp htiling.ordered
  obtain ⟨hordered, -, hafter⟩ := List.pairwise_append.mp hrest
  have hmem : ∀ t ∈ ts, t.IsTile source := fun t ht => htiling.tiles t (by simp [ht])
  refine tokens_eq h ?_ ?_ ?_ ?_
  · intro t ht
    have hle := hbefore t ht first (List.mem_append_left _ (List.mem_of_mem_head? hfirst))
    exact (htiling.tiles t (by simp [ht])).nonempty.trans_le hle
  · obtain ⟨rest, rfl⟩ := List.head?_eq_some_iff.mp hfirst
    refine List.forall_mem_cons.mpr ⟨Nat.le_refl _, fun t ht => ?_⟩
    exact (hmem first (by simp)).nonempty.le.trans ((List.pairwise_cons.mp hordered).1 t ht)
  · obtain ⟨init, rfl⟩ := List.getLast?_eq_some_iff.mp hlast
    refine List.forall_mem_append.mpr ⟨fun t ht => ?_, by simp⟩
    have hle := (List.pairwise_append.mp hordered).2.2 t ht last (by simp)
    exact hle.trans (hmem last (by simp)).nonempty.le
  · intro t ht
    have hle := hafter last (List.mem_of_getLast? hlast) t ht
    exact Nat.lt_of_le_of_lt hle (htiling.tiles t (by simp [ht])).nonempty

/-- A name that was read from a token of its own. -/
theorem Ident.Spanned.shows {i : Ident} (h : i.Spanned source) (hname : isName i.name = true) :
    i.span.Filled source ∧ i.span.Shows source i.name.toList := by
  obtain ⟨t, ht, hlexeme, hspan⟩ := h
  rw [hspan, hlexeme]
  rcases List.mem_append.mp ht with ht | ht
  · exact ⟨(lexed_tile ht).filled, (lexed_tile ht).slice⟩
  · -- the text of the end of the file is no name
    obtain rfl := List.mem_singleton.mp ht
    rw [hlexeme] at hname
    exact absurd hname (by decide : ¬isName TokenKind.eof.text = true)

theorem Expr.Spanned.filled {x : Expr} (h : x.Spanned source) : x.span.Filled source := by
  induction x with
  | ident name span => exact (lexed_tile h).filled
  | number value span =>
      obtain ⟨digits, -, ht⟩ := h
      exact (lexed_tile ht).filled
  | binary op left right span ihl ihr => exact h.2.2.1.filled List.mem_cons_self (ihl h.1)

end Spans

/-! ## Terms without errors -/

/-- The tokens of the term are a phrase of it, and it reaches from its name to a
closing parenthesis behind it. -/
structure Term.Called (source : String) (t : Term) : Prop where
  phrase : (t.span.tokens source).map Token.kind ∈ t.phrases
  start : t.span.start = t.name.span.start
  close : ∃ span, ⟨.symbol .rparen, span⟩ ∈ (lex source).tokens ∧
    t.name.span.stop.offset ≤ span.start.offset ∧ t.span.stop = span.stop

def Member.Called (source : String) (m : Member) : Prop := ∀ s ∈ m.body, s.term.Called source

def Item.Called (source : String) : Item → Prop
  | belief _ => True
  | member m => m.Called source

namespace Parser

section Called

variable {source : String} {p q r : Parser}

theorem In.exists_read (hp : p.In source) : ∃ ts, (lex source).tokens = ts ++ p.unread :=
  (Onward.exists_unread hp).1

/-- Of two productions without a new error, none has one. -/
theorem Parses.silent {L M : Language TokenKind} (h : p.Parses L q) (h' : q.Parses M r)
    (heq : r.errors = p.errors) : q.errors = p.errors ∧ r.errors = q.errors := by
  have hq : p.errors = q.errors := h.errors.eq_of_length_le (heq ▸ h'.errors.length_le)
  exact ⟨hq.symm, heq.trans hq⟩

theorem current_of_unread {t : Token} {ts : List Token} (h : p.unread = t :: ts) :
    p.current = t := by
  simp [current, h]

/-- From the current token through a later one there are the tokens between them. -/
theorem In.tokens_eq (hp : p.In source) (h : p.Onward r) {last : Token} {after : List Token}
    (hr : r.unread = last :: after) :
    ∃ ts, p.unread = ts ++ after ∧
      Span.tokens source ⟨p.current.span.start, last.span.stop⟩ = ts := by
  obtain ⟨before, hbefore⟩ := hp.exists_read
  obtain ⟨ts, hts⟩ := h.exists_unread.1
  rw [hr, List.append_cons] at hts
  obtain ⟨first, rest, hfirst⟩ := List.exists_cons_of_ne_nil (List.concat_ne_nil last ts)
  have hcurrent : p.current = first := current_of_unread (by rw [hts, hfirst, List.cons_append])
  rw [hts] at hbefore
  refine ⟨_, hts, ?_⟩
  rw [hcurrent]
  exact Span.tokens_between hbefore (by rw [hfirst]; rfl) (by simp)

/-- A sign that is not reported as missing is there. -/
theorem exists_sign {s : Symbol} (h : (p.expect (.symbol s)).errors = p.errors) :
    ∃ span, p.unread = ⟨.symbol s, span⟩ :: (p.expect (.symbol s)).unread := by
  obtain ⟨ks, rfl, hkinds⟩ := (p.parses_expect_sym s).phrase h
  obtain ⟨ts, hts⟩ := (p.onward_expect (.symbol s)).exists_unread.1
  have hmap : ts.map Token.kind = [.symbol s] := by
    rw [kinds, hts, List.map_append] at hkinds
    exact List.append_cancel_right hkinds
  obtain ⟨t, rfl, hkind⟩ := List.map_eq_singleton_iff.mp hmap
  exact ⟨t.span, by rw [hts, ← hkind]; rfl⟩

/-- A term starts with its name and ends with its closing parenthesis. -/
theorem term_called (hp : p.In source) {t : Term} (h : p.term = (.ok t, q))
    (herr : q.errors = p.errors) : t.Called source := by
  obtain ⟨-, hparse⟩ := p.term_outcome.of_ok h
  obtain ⟨ks, hks, hkinds⟩ := hparse.phrase herr
  obtain ⟨-, -, hspan⟩ := term_spanned hp h
  have hname := p.onward_expect .identifier
  simp only [term] at h
  split at h
  · cases (Prod.mk.inj h).1
  · next args r hr =>
    obtain ⟨ht, rfl⟩ := Prod.mk.inj h
    obtain rfl := Except.ok.inj ht
    have hargs := (onward_expect (p.expect .identifier) (.symbol .lparen)).trans
      ((onward_args _).of_eq hr)
    have hread := (p.parses_identifier.trans (parses_expect_sym _ .lparen)).trans
      ((args_outcome _).of_ok hr).2
    obtain ⟨span, hclose⟩ := exists_sign (hread.silent (r.parses_expect_sym .rparen) herr).2
    have hcurrent := current_of_unread hclose
    have hprevious : (r.expect (.symbol .rparen)).previous = span := by
      rw [previous_expect, hcurrent]
    obtain ⟨ts, hts, htokens⟩ := hp.tokens_eq (hname.trans hargs) hclose
    refine ⟨?_, by rw [hspan]; rfl, span, ?_, ?_, by rw [hspan, hprevious]⟩
    · rw [kinds, hts, List.map_append] at hkinds
      rw [hspan, hprevious, htokens, List.append_cancel_right hkinds]
      exact hks
    · have hmem := ((hp.onward (hname.trans hargs)).current_lexed rfl (by simp [hcurrent]))
      rwa [hcurrent] at hmem
    · have hle := (hp.stop_le_expect .identifier).trans ((hp.onward hname).place_le hargs)
      rwa [place, hcurrent] at hle

theorem statement_called (hp : p.In source) {s : Stmt} (h : p.statement = (.ok s, q))
    (herr : q.errors = p.errors) : s.term.Called source := by
  unfold statement at h
  split at h
  · cases (Prod.mk.inj h).1
  · split at h
    · cases (Prod.mk.inj h).1
    · next t r hr =>
      obtain ⟨hs, rfl⟩ := Prod.mk.inj h
      obtain rfl := Except.ok.inj hs
      exact term_called (hp.onward p.onward_advance) hr (by rw [herr, errors_advance])

theorem block_called (p : Parser) :
    p.In source → p.block.2.errors = p.errors → ∀ s ∈ p.block.1, s.term.Called source := by
  fun_induction block p with
  | case1 p hend => exact fun _ _ => List.forall_mem_nil _
  | case2 p hend stmt q hs rest ih =>
      intro hp herr
      have hread := (p.statement_outcome.of_ok hs).2
      obtain ⟨hstmt, hrest⟩ := hread.silent
        (q.parses_statementEnd.trans (parses_block q.statementEnd).2) herr
      have hbody := (q.parses_statementEnd.silent (parses_block q.statementEnd).2 hrest).2
      have hq := hp.onward (p.onward_statement.of_eq hs)
      exact List.forall_mem_cons.mpr
        ⟨statement_called hp hs hstmt, ih (hq.onward q.onward_statementEnd) hbody⟩
  | case3 p hend e q hs ih =>
      -- the statement was reported
      intro hp herr
      have hgrow : (q.report e).errors <+: (q.report e).recover.block.2.errors := by
        rw [← errors_recover]
        exact (parses_block (q.report e).recover).2.errors
      have hfail := Parses.of_report e (p.statement_outcome.of_error hs) hgrow
      obtain ⟨ks, hks, -⟩ := hfail.phrase herr
      exact absurd hks (Language.notMem_zero ks)

theorem member_called (kind : MemberKind) (hp : p.In source)
    (herr : (p.advance.member kind).2.errors = p.errors) :
    (p.advance.member kind).1.Called source := by
  have hhead := (p.advance.parses_identifier.trans (parses_params _)).trans
    (parses_expect_sym _ .lbrace)
  have hbody := (parses_block (p.advance.identifier.2.params.2.expect (.symbol .lbrace))).2
  have hopen := ((p.onward_advance.trans (onward_expect _ .identifier)).trans
    (onward_params _)).trans (onward_expect _ (.symbol .lbrace))
  rw [← errors_advance p] at herr
  have hblock := ((hhead.trans hbody).silent (parses_expect_sym _ .rbrace) herr).1
  exact block_called _ (hp.onward hopen) (hhead.silent hbody hblock).2

theorem items_called (p : Parser) :
    p.In source → p.items.2.errors = p.errors → ∀ item ∈ p.items.1, item.Called source := by
  fun_induction items p with
  | case1 p hk first rest ih =>
      intro hp herr
      have hrest := (p.parses_belief.2.silent (parses_items p.belief.2).2 herr).2
      exact List.forall_mem_cons.mpr ⟨trivial, ih (hp.onward p.onward_belief) hrest⟩
  | case2 p hk first rest ih =>
      intro hp herr
      obtain ⟨hmember, hrest⟩ := (parses_member .handler hk).2.silent (parses_items first.2).2 herr
      have hnext := hp.onward (p.onward_advance.trans (onward_member .handler _))
      exact List.forall_mem_cons.mpr ⟨member_called .handler hp hmember, ih hnext hrest⟩
  | case3 p hk first rest ih =>
      intro hp herr
      obtain ⟨hmember, hrest⟩ := (parses_member .plan hk).2.silent (parses_items first.2).2 herr
      have hnext := hp.onward (p.onward_advance.trans (onward_member .plan _))
      exact List.forall_mem_cons.mpr ⟨member_called .plan hp hmember, ih hnext hrest⟩
  | case4 p => exact fun _ _ => List.forall_mem_nil _

theorem agent_called (hp : p.In source) (herr : p.agent.2.errors = p.errors) :
    ∀ m ∈ p.agent.1.members, m.Called source := by
  have hhead := (((p.parses_expect_key .agent).trans (parses_identifier _)).trans
    (parses_params _)).trans (parses_expect_sym _ .lbrace)
  have hbody := (parses_items
    ((p.expect (.keyword .agent)).identifier.2.params.2.expect (.symbol .lbrace))).2
  have hopen := (((p.onward_expect (.keyword .agent)).trans (onward_expect _ .identifier)).trans
    (onward_params _)).trans (onward_expect _ (.symbol .lbrace))
  have hitems := ((hhead.trans hbody).silent (parses_expect_sym _ .rbrace) herr).1
  have hcalled := items_called _ (hp.onward hopen) (hhead.silent hbody hitems).2
  exact fun m hm => hcalled _ (mem_members_iff.mp hm)

end Called

end Parser

/-- The terms of a source without errors stand where their spans say. -/
theorem parse_called {source : String} (h : (parse source).2 = []) :
    ∀ m ∈ (parse source).1.members, m.Called source := by
  refine Parser.agent_called (.refl _) ?_
  simp only [parse, Parser.parseUnit] at h
  split at h
  · exact h
  · simp [Parser.report] at h

/-! ## Errors of nodes -/

theorem afterCommas_le_replicate {xs : List Expr} (h : ∀ x ∈ xs, x.Sayable) :
    afterCommas (xs.map Expr.phrases) ≤ afterCommas (List.replicate xs.length expr) := by
  induction xs with
  | nil => exact le_rfl
  | cons x xs ih =>
      obtain ⟨hx, hxs⟩ := List.forall_mem_cons.mp h
      rw [List.map_cons, List.length_cons, List.replicate_succ]
      exact mul_le_mul' (mul_le_mul' le_rfl (Expr.phrases_le_expr hx.canonical)) (ih hxs)

theorem listed_le_replicate {xs : List Expr} (h : ∀ x ∈ xs, x.Sayable) :
    listed (xs.map Expr.phrases) ≤ listed (List.replicate xs.length expr) := by
  cases xs with
  | nil => exact le_rfl
  | cons x xs =>
      obtain ⟨hx, hxs⟩ := List.forall_mem_cons.mp h
      exact mul_le_mul' (Expr.phrases_le_expr hx.canonical) (afterCommas_le_replicate hxs)

section Points

variable {source : String} {e : SemanticError}

/-- The text of a term is its name, what is between, and the parenthesis. -/
theorem Term.Called.calls {t : Term} (h : t.Called source) (ht : t.Spanned source)
    (hname : isName t.name.name = true) (hsay : ∀ x ∈ t.args, x.Sayable) :
    t.span.Calls source t.name.name t.args.length := by
  refine ⟨?_, ?_⟩
  · obtain ⟨span, hclose, hle, hstop⟩ := h.close
    obtain ⟨hfilled, hshows⟩ := ht.name.shows hname
    obtain ⟨args, hargs⟩ := hfilled.sound.exists_between (lexed_tile hclose).sound hle
    have hparen : [')'] = Symbol.rparen.text.toList := by decide
    refine ⟨args, ?_⟩
    rw [Span.Shows, h.start, hstop, hparen]
    exact (IsSlice.append hshows hargs).append (lexed_tile hclose).slice
  · refine (?_ : t.phrases ≤ _) h.phrase
    exact mul_le_mul' (mul_le_mul' le_rfl (listed_le_replicate hsay)) le_rfl

theorem Ident.Blamed.points {i : Ident} (h : i.Blamed e) (hi : i.Spanned source)
    (hname : isName i.name = true) : e.Points source := by
  obtain ⟨hfilled, hshows⟩ := hi.shows hname
  cases h with
  | notInScope => exact ⟨hfilled, hshows⟩
  | wrongKind expected found => exact ⟨hfilled, hshows⟩
  | notAValue found => exact ⟨hfilled, hshows⟩
  | redeclared => exact ⟨hfilled, hshows⟩

theorem Expr.Blamed.points {x : Expr} (h : x.Blamed e) (hx : x.Spanned source) :
    e.Points source := by
  induction h with
  | name h =>
      have hmem := lexed_tile hx
      refine h.points ⟨_, List.mem_append_left _ hx, rfl, rfl⟩ ?_
      exact hmem.lexical
  | left _ ih => exact ih hx.1
  | right _ ih => exact ih hx.2.1
  | target x belief => exact ⟨hx.filled, trivial⟩
  | element x cause => exact ⟨hx.filled, trivial⟩

theorem Term.Blamed.points {t : Term} (h : t.Blamed e) (ht : t.Spanned source)
    (hname : isName t.name.name = true) (hcalls : t.span.Calls source t.name.name t.args.length) :
    e.Points source := by
  have hfilled := ht.parts.filled List.mem_cons_self (ht.name.shows hname).1
  cases h with
  | name h => exact h.points ht.name hname
  | arg hx h => exact h.points (ht.args _ hx)
  | beliefArity expected => exact ⟨hfilled, hcalls⟩
  | callArity expected => exact ⟨hfilled, hcalls⟩
  | tuple cause => exact ⟨hfilled, trivial⟩

theorem Belief.Blamed.points {b : Belief} (h : b.Blamed e) (hb : b.Spanned source)
    (hname : isName b.name.name = true) : e.Points source := by
  cases h with
  | name h => exact h.points hb.name hname
  | init hx h => exact h.points (hb.init _ hx)
  | tuple cause =>
      exact ⟨hb.parts.filled List.mem_cons_self (hb.name.shows hname).1, trivial⟩

theorem Member.Blamed.points {m : Member} (h : m.Blamed e) (hm : m.Spanned source)
    (hnames : ∀ name ∈ m.names, isName name = true) (hsay : m.Sayable)
    (hcalled : m.Called source) : e.Points source := by
  simp only [Member.names, List.forall_mem_cons, List.forall_mem_append,
    List.forall_mem_flatMap] at hnames
  obtain ⟨hname, hparams, hbody⟩ := hnames
  cases h with
  | name h => exact h.points hm.name hname
  | param hp h => exact h.points (hm.params _ hp).name (hparams _ hp _ List.mem_cons_self)
  | term hs h =>
      have hterm := (hm.body _ hs).term
      have hname := hbody _ hs _ List.mem_cons_self
      exact h.points hterm hname ((hcalled _ hs).calls hterm hname (hsay _ hs))

theorem Agent.Blamed.points {a : Agent} (h : a.Blamed e) (ha : a.Spanned source)
    (hprintable : a.Printable) (hcalled : ∀ m ∈ a.members, m.Called source) :
    e.Points source := by
  have hnames := hprintable.names
  simp only [Agent.names, List.forall_mem_cons, List.forall_mem_append,
    List.forall_mem_flatMap] at hnames
  obtain ⟨-, ⟨hparams, hbeliefs⟩, hmembers⟩ := hnames
  cases h with
  | param hp h => exact h.points (ha.params _ hp).name (hparams _ hp _ List.mem_cons_self)
  | belief hb h => exact h.points (ha.beliefs _ hb) (hbeliefs _ hb _ List.mem_cons_self)
  | member hm h =>
      exact h.points (ha.members _ hm) (hmembers _ hm) (hprintable.sayable.members _ hm)
        (hcalled _ hm)

end Points

/-- What is reported as semantic errors was found in an agent without syntax errors. -/
theorem compile_eq_semantic {source : String} {options : CompileOptions}
    {errors : List SemanticError} (h : compile source options = .error (.semantic errors)) :
    (parse source).2 = [] ∧
      ∃ type, generate options.checkArity (parse source).1 = .ok (type, errors) := by
  unfold compile at h
  split at h
  · next agent hparse =>
    rw [hparse]
    refine ⟨rfl, ?_⟩
    split at h
    · cases h
    · cases h
    · next type _ _ hgen =>
      obtain rfl := CompileError.semantic.inj (Except.error.inj h)
      exact ⟨type, hgen⟩
  · cases h

/-- **Semantic errors point at what they name.** Each is reported at a part of the
source that is not empty. Where it is about a name, the source has this name there and
nothing else. Where it is about a number of arguments, the source has there the name,
that number of arguments, and the closing parenthesis. -/
theorem diagnostics_point_at_names {source : String} {options : CompileOptions}
    {errors : List SemanticError} (h : compile source options = .error (.semantic errors)) :
    ∀ e ∈ errors, e.Points source := by
  obtain ⟨hparse, type, hgen⟩ := compile_eq_semantic h
  intro e he
  exact (generate_blamed hgen e he).points (Parser.agent_spanned (.refl _))
    (parse_printable hparse) (parse_called hparse)

/-- The belief takes a name that is not there, and the two calls have one argument too
many. -/
def miscalled : String := "agent A { bel b(x) plan p { +b(1, 2); !p(3 * 4); } }"

theorem miscalled_pointed :
    ∃ errors, compile miscalled {} = .error (.semantic errors) ∧
      errors.map SemanticError.code = ["E2001", "E2005", "E2006"] ∧
      ∀ e ∈ errors, e.Points miscalled := by
  have h : compile miscalled {} = .error (.semantic
      [.notInScope "x" ⟨⟨16, 1, 17⟩, ⟨17, 1, 18⟩⟩,
        .beliefArityMismatch "b" 1 2 ⟨⟨29, 1, 30⟩, ⟨36, 1, 37⟩⟩,
        .callArityMismatch "p" 0 1 ⟨⟨39, 1, 40⟩, ⟨47, 1, 48⟩⟩]) := by decide +kernel
  exact ⟨_, h, rfl, diagnostics_point_at_names h⟩

end AgentLang
