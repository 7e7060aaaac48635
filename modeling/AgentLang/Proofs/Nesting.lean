import AgentLang.Proofs.Reading
import AgentLang.Proofs.Tiling
import Mathlib.Data.List.Pairwise

/-!
# Spans of a tree nest

Every source, with errors or without, gives a tree whose spans are ranges of the
source. The span of a node encloses those of its parts, and parts follow each other
in the order in which they are listed (`parsed_spans_nest`). Names and literals have
the spans of the tokens they were read from.

A production that starts at one token and leaves the parser at another puts the spans
of its results between these two places (`Laid`). What is laid out between consecutive
places can be put together (`Laid.append`), and a node encloses what is laid out
between its first and its last token (`Parser.merge_spanned`).
-/

namespace AgentLang

open String (utf8Len)

/-! ## Spans of a source -/

/-- The span is a range of the source between boundaries of characters, and its ends
have the line and column of their offsets. -/
structure Span.Sound (source : String) (s : Span) : Prop where
  ordered : s.start.offset ≤ s.stop.offset
  bounded : s.stop.offset ≤ source.utf8ByteSize
  slice : ∃ text, IsSlice source s.start.offset s.stop.offset text
  start : s.start = locate source s.start.offset
  stop : s.stop = locate source s.stop.offset

/-- The span and its parts are ranges of the source. The parts are inside the span,
and each of them ends before the next one starts. -/
structure Span.Encloses (source : String) (s : Span) (parts : List Span) : Prop where
  sound : s.Sound source
  sound_parts : ∀ t ∈ parts, t.Sound source
  inside : ∀ t ∈ parts, s.start.offset ≤ t.start.offset ∧ t.stop.offset ≤ s.stop.offset
  ordered : parts.Pairwise fun t u => t.stop.offset ≤ u.start.offset

/-- One of the spans ends before the other starts. -/
def Span.Apart (s t : Span) : Prop :=
  s.stop.offset ≤ t.start.offset ∨ t.stop.offset ≤ s.start.offset

/-! ### Trees -/

/-- The name was read from a token, which at the end of a broken source may be the end
of the file. -/
def Ident.Spanned (source : String) (i : Ident) : Prop :=
  ∃ t ∈ (lex source).toList, i.name = t.lexeme ∧ i.span = t.span

def Expr.Spanned (source : String) : Expr → Prop
  | ident name span => ⟨.ident name, span⟩ ∈ (lex source).tokens
  | number value span => ∃ digits, integerOfDigits? digits = some value ∧
    ⟨.number digits, span⟩ ∈ (lex source).tokens
  | binary _ left right span => left.Spanned source ∧ right.Spanned source ∧
    span.Encloses source [left.span, right.span] ∧
      span.start = left.span.start ∧ span.stop = right.span.stop

structure Param.Spanned (source : String) (p : Param) : Prop where
  parts : p.span.Encloses source [p.name.span, p.type.span]
  name : p.name.Spanned source
  type : p.type.Spanned source

structure Term.Spanned (source : String) (t : Term) : Prop where
  parts : t.span.Encloses source (t.name.span :: t.args.map Expr.span)
  name : t.name.Spanned source
  args : ∀ e ∈ t.args, e.Spanned source

structure Stmt.Spanned (source : String) (s : Stmt) : Prop where
  parts : s.span.Encloses source [s.term.span]
  term : s.term.Spanned source

structure Belief.Spanned (source : String) (b : Belief) : Prop where
  parts : b.span.Encloses source (b.name.span :: b.init.map Expr.span)
  name : b.name.Spanned source
  init : ∀ e ∈ b.init, e.Spanned source

structure Member.Spanned (source : String) (m : Member) : Prop where
  parts : m.span.Encloses source
    (m.name.span :: (m.params.map Param.span ++ m.body.map Stmt.span))
  name : m.name.Spanned source
  params : ∀ p ∈ m.params, p.Spanned source
  body : ∀ s ∈ m.body, s.Spanned source

def Item.span : Item → Span
  | belief b => b.span
  | member m => m.span

def Item.Spanned (source : String) : Item → Prop
  | belief b => b.Spanned source
  | member m => m.Spanned source

/-- Beliefs and members are kept apart in an agent. Each of the two lists is in order,
and none of the one overlaps with any of the other. -/
structure Agent.Spanned (source : String) (a : Agent) : Prop where
  beliefParts : a.span.Encloses source
    (a.name.span :: (a.params.map Param.span ++ a.beliefs.map Belief.span))
  memberParts : a.span.Encloses source
    (a.name.span :: (a.params.map Param.span ++ a.members.map Member.span))
  apart : ∀ b ∈ a.beliefs, ∀ m ∈ a.members, b.span.Apart m.span
  name : a.name.Spanned source
  params : ∀ p ∈ a.params, p.Spanned source
  beliefs : ∀ b ∈ a.beliefs, b.Spanned source
  members : ∀ m ∈ a.members, m.Spanned source

theorem Span.Encloses.sublist {source : String} {s : Span} {ts us : List Span}
    (h : s.Encloses source us) (hsub : ts.Sublist us) : s.Encloses source ts where
  sound := h.sound
  sound_parts := fun t ht => h.sound_parts t (hsub.subset ht)
  inside := fun t ht => h.inside t (hsub.subset ht)
  ordered := h.ordered.sublist hsub

/-! ## Merging -/

section Sound

variable {source : String} {a b : Span}

/-- Offsets decide which of two locations comes first, as equal offsets have equal
lines and columns. -/
theorem Location.le_of_offset_le {l m : Location} (hl : l = locate source l.offset)
    (hm : m = locate source m.offset) (h : l.offset ≤ m.offset) : l.le m = true := by
  rcases Nat.lt_or_eq_of_le h with hlt | heq
  · simp [Location.le, hlt]
  · obtain rfl : l = m := by rw [hl, hm, heq]
    simp [Location.le]

/-- Of two spans in order, the first gives the start and the second the end. -/
theorem Span.Sound.merge_eq (ha : a.Sound source) (hb : b.Sound source)
    (hstart : a.start.offset ≤ b.start.offset) (hstop : a.stop.offset ≤ b.stop.offset) :
    a.merge b = ⟨a.start, b.stop⟩ := by
  simp only [Span.merge, Location.earlier, Location.later,
    Location.le_of_offset_le ha.start hb.start hstart,
    Location.le_of_offset_le ha.stop hb.stop hstop, if_true]

/-- From the start of one span to the end of another. -/
theorem Span.Sound.join (ha : a.Sound source) (hb : b.Sound source)
    (h : a.start.offset ≤ b.stop.offset) : Span.Sound source ⟨a.start, b.stop⟩ where
  ordered := h
  bounded := hb.bounded
  slice := by
    obtain ⟨text, before, after, hs, hlen, -⟩ := ha.slice
    obtain ⟨text', before', after', hs', -, hlen'⟩ := hb.slice
    rw [← List.append_assoc] at hs'
    obtain ⟨mid, hmid⟩ := prefix_of_utf8Len_le (hs.symm.trans hs') (by omega)
    rw [← hmid, List.append_assoc] at hs'
    exact ⟨mid, before, after', hs', hlen, by rw [hmid, hlen']⟩
  start := ha.start
  stop := hb.stop

end Sound

/-! ## Spans in a row -/

/-- The spans follow each other between two bytes of the source. -/
inductive Laid (source : String) : Nat → List Span → Nat → Prop
  | nil {lo hi : Nat} : lo ≤ hi → Laid source lo [] hi
  | cons {lo hi : Nat} {s : Span} {ss : List Span} : s.Sound source → lo ≤ s.start.offset →
      Laid source s.stop.offset ss hi → Laid source lo (s :: ss) hi

section Laid

variable {source : String} {lo mid hi : Nat} {s : Span} {ss ts : List Span}

theorem Laid.single (hs : s.Sound source) (hlo : lo ≤ s.start.offset)
    (hhi : s.stop.offset ≤ hi) : Laid source lo [s] hi :=
  .cons hs hlo (.nil hhi)

theorem Laid.le (h : Laid source lo ss hi) : lo ≤ hi := by
  induction h with
  | nil h => exact h
  | cons hs hlo _ ih => exact (hlo.trans hs.ordered).trans ih

theorem Laid.mono_right (h : Laid source lo ss mid) (hle : mid ≤ hi) : Laid source lo ss hi := by
  induction h with
  | nil h => exact .nil (h.trans hle)
  | cons hs hlo _ ih => exact .cons hs hlo (ih hle)

theorem Laid.mono_left (h : Laid source mid ss hi) (hle : lo ≤ mid) : Laid source lo ss hi := by
  cases h with
  | nil h => exact .nil (hle.trans h)
  | cons hs hlo hss => exact .cons hs (hle.trans hlo) hss

theorem Laid.append (h : Laid source lo ss mid) (h' : Laid source mid ts hi) :
    Laid source lo (ss ++ ts) hi := by
  induction h with
  | nil h => exact h'.mono_left h
  | cons hs hlo _ ih => exact .cons hs hlo (ih h')

theorem Laid.forall_mem (h : Laid source lo ss hi) :
    ∀ s ∈ ss, s.Sound source ∧ lo ≤ s.start.offset ∧ s.stop.offset ≤ hi := by
  induction h with
  | nil => exact List.forall_mem_nil _
  | cons hs hlo hss ih =>
      refine List.forall_mem_cons.mpr ⟨⟨hs, hlo, hss.le⟩, fun t ht => ?_⟩
      obtain ⟨ht, hstart, hstop⟩ := ih t ht
      exact ⟨ht, (hlo.trans hs.ordered).trans hstart, hstop⟩

theorem Laid.pairwise (h : Laid source lo ss hi) :
    ss.Pairwise fun t u => t.stop.offset ≤ u.start.offset := by
  induction h with
  | nil => exact .nil
  | cons hs hlo hss ih =>
      exact List.pairwise_cons.mpr ⟨fun t ht => (hss.forall_mem t ht).2.1, ih⟩

theorem Laid.encloses (h : Laid source s.start.offset ss s.stop.offset) (hs : s.Sound source) :
    s.Encloses source ss where
  sound := hs
  sound_parts := fun t ht => (h.forall_mem t ht).1
  inside := fun t ht => (h.forall_mem t ht).2
  ordered := h.pairwise

end Laid

/-! ## Spans of tokens -/

theorem lex_tiling (source : String) : TilingFrom source 0 (lex source).tokens :=
  (tilingFrom_iff source .start source.toList [] _ rfl rfl).mpr rfl

theorem Token.IsTile.sound {source : String} {t : Token} (h : t.IsTile source) :
    t.span.Sound source where
  ordered := h.nonempty.le
  bounded := by
    rw [← String.utf8Len_toList]
    exact h.slice.stop_le_size
  slice := ⟨_, h.slice⟩
  start := h.start
  stop := h.stop

theorem offset_endOf (source : String) : (endOf source).offset = source.utf8ByteSize := by
  rw [endOf, offset_start_steps, String.utf8Len_toList]

theorem eof_sound (source : String) : (lex source).eof.Sound source := by
  have hlocate : endOf source = locate source (endOf source).offset := by
    rw [offset_endOf]
    exact endOf_eq_locate source
  refine ⟨Nat.le_refl _, (offset_endOf source).le, ⟨[], source.toList, [], by simp, ?_, ?_⟩,
    hlocate, hlocate⟩
  · exact (offset_start_steps _).symm
  · rw [List.append_nil]
    exact (offset_start_steps _).symm

theorem lexed_sound (source : String) : ∀ t ∈ (lex source).toList, t.span.Sound source := by
  refine List.forall_mem_append.mpr ⟨fun t ht => ((lex_tiling source).tiles t ht).sound, ?_⟩
  exact List.forall_mem_singleton.mpr (eof_sound source)

theorem lexed_ordered (source : String) :
    (lex source).toList.Pairwise fun t u => t.span.stop.offset ≤ u.span.start.offset := by
  refine List.pairwise_append.mpr ⟨(lex_tiling source).ordered, List.pairwise_singleton _ _, ?_⟩
  intro t ht u hu
  obtain rfl := List.mem_singleton.mp hu
  exact offset_endOf source ▸ ((lex_tiling source).tiles t ht).sound.bounded

namespace Parser

/-! ## Places of a parser -/

/-- The parser stands somewhere in the tokens of the source. -/
def In (source : String) (p : Parser) : Prop := (ofSource source).Onward p

/-- Where the current token starts. -/
def place (p : Parser) : Nat := p.current.span.start.offset

section In

variable {source : String} {p q : Parser}

theorem In.onward (hp : p.In source) (h : p.Onward q) : q.In source := hp.trans h

theorem In.mem (hp : p.In source) {t : Token} (ht : t ∈ p.stream) : t ∈ (lex source).toList :=
  List.IsSuffix.mem ht hp

theorem In.current_mem (hp : p.In source) : p.current ∈ (lex source).toList := by
  obtain ⟨rest, hrest⟩ := p.exists_stream
  exact hp.mem (by rw [hrest]; exact List.mem_cons_self)

theorem In.current_sound (hp : p.In source) : p.current.span.Sound source :=
  lexed_sound source _ hp.current_mem

/-- A token of a kind other than the end of the file. -/
theorem In.current_lexed (hp : p.In source) {k : TokenKind} (hk : p.current.kind = k)
    (hne : k ≠ .eof) : ⟨k, p.current.span⟩ ∈ (lex source).tokens := by
  have hmem : (⟨k, p.current.span⟩ : Token) ∈ (lex source).toList := hk ▸ hp.current_mem
  rcases List.mem_append.mp hmem with h | h
  · exact h
  · exact absurd (congrArg Token.kind (List.mem_singleton.mp h)) hne

/-- The current token is the same, or it has been left behind. -/
theorem In.current_cases (hp : p.In source) (h : p.Onward q) :
    q.current = p.current ∨ p.current.span.stop.offset ≤ q.place := by
  obtain ⟨ts, hts⟩ := h
  obtain ⟨rest, hrest⟩ := q.exists_stream
  obtain ⟨rest', hrest'⟩ := p.exists_stream
  rw [hrest, hrest'] at hts
  cases ts with
  | nil => exact .inl (List.cons.inj hts).1
  | cons t ts =>
      obtain ⟨rfl, rfl⟩ := List.cons.inj hts
      have hordered := (lexed_ordered source).sublist (List.IsSuffix.sublist hp)
      rw [hrest'] at hordered
      exact .inr ((List.pairwise_cons.mp hordered).1 _ (by simp))

theorem In.place_le (hp : p.In source) (h : p.Onward q) : p.place ≤ q.place := by
  rcases hp.current_cases h with heq | hle
  · rw [place, place, heq]
  · exact hp.current_sound.ordered.trans hle

theorem In.stop_le (hp : p.In source) (h : p.Onward q) :
    p.current.span.stop.offset ≤ q.current.span.stop.offset := by
  rcases hp.current_cases h with heq | hle
  · rw [heq]
  · exact hle.trans (hp.onward h).current_sound.ordered

/-- Reading a token leads behind it, and the end of the file is empty. -/
theorem In.stop_le_advance (hp : p.In source) : p.current.span.stop.offset ≤ p.advance.place := by
  obtain ⟨-, heof⟩ := Onward.exists_unread hp
  unfold place current advance
  cases hu : p.unread with
  | nil =>
      simp only [heof]
      exact Nat.le_refl _
  | cons t ts =>
      have hordered := (lexed_ordered source).sublist (List.IsSuffix.sublist hp)
      simp only [stream, hu, List.cons_append, List.pairwise_cons] at hordered
      cases ts with
      | nil => exact hordered.1 _ (by simp)
      | cons u us => exact hordered.1 _ (by simp)

@[simp] theorem previous_advance (p : Parser) : p.advance.previous = p.current.span := by
  unfold advance current
  split <;> rfl

theorem current_report (p : Parser) (e : SyntaxError) : (p.report e).current = p.current := rfl

@[simp] theorem previous_expect (p : Parser) (e : Expected) :
    (p.expect e).previous = p.current.span := by
  unfold expect
  split
  · exact p.previous_advance
  · rw [previous_advance, current_report]

theorem place_of_stream (h : p.stream = q.stream) : p.place = q.place := by
  obtain ⟨rest, hrest⟩ := p.exists_stream
  obtain ⟨rest', hrest'⟩ := q.exists_stream
  rw [hrest, hrest'] at h
  rw [place, place, (List.cons.inj h).1]

theorem In.stop_le_expect (hp : p.In source) (e : Expected) :
    p.current.span.stop.offset ≤ (p.expect e).place := by
  rw [place_of_stream (stream_expect p e)]
  exact hp.stop_le_advance

end In

/-! ### The token read last -/

/-- The token that `q` has read last is the current token of `p` or comes behind it. -/
structure Past (source : String) (p q : Parser) : Prop where
  sound : q.previous.Sound source
  start : p.place ≤ q.previous.start.offset
  stop : p.current.span.stop.offset ≤ q.previous.stop.offset
  le : q.previous.stop.offset ≤ q.place

section Past

variable {source : String} {p q r : Parser} {parts : List Span}

theorem In.past_expect (hp : p.In source) (h : p.Onward q) (e : Expected) :
    Past source p (q.expect e) := by
  have hq := hp.onward h
  refine ⟨?_, ?_, ?_, ?_⟩
  all_goals rw [previous_expect]
  · exact hq.current_sound
  · exact hp.place_le h
  · exact hp.stop_le h
  · exact hq.stop_le_expect e

theorem Past.mono_left (h : Past source q r) (hp : p.In source) (hpq : p.Onward q) :
    Past source p r :=
  ⟨h.sound, (hp.place_le hpq).trans h.start, (hp.stop_le hpq).trans h.stop, h.le⟩

/-- A node from the current token to the one read last. -/
theorem merge_spanned (hp : p.In source) (h : Past source p q)
    (hparts : Laid source p.place parts q.previous.stop.offset) :
    (p.current.span.merge q.previous).Encloses source parts ∧
      Laid source p.place [p.current.span.merge q.previous] q.place := by
  have hsound := hp.current_sound
  rw [hsound.merge_eq h.sound h.start h.stop]
  have hnode := hsound.join h.sound hparts.le
  exact ⟨hparts.encloses hnode, .single hnode (Nat.le_refl _) h.le⟩

/-- A node whose last token closes it. -/
theorem expect_spanned (hp : p.In source) (h : p.Onward q) (e : Expected)
    (hparts : Laid source p.place parts q.place) :
    (p.current.span.merge (q.expect e).previous).Encloses source parts ∧
      Laid source p.place [p.current.span.merge (q.expect e).previous] (q.expect e).place := by
  refine merge_spanned hp (hp.past_expect h e) (hparts.mono_right ?_)
  rw [previous_expect]
  exact (hp.onward h).current_sound.ordered

end Past

/-! ## Expressions -/

section Productions

variable {source : String} {p q : Parser} {lo : Nat}

theorem identifier_spanned (hp : p.In source) :
    p.identifier.1.Spanned source ∧
      Laid source p.place [p.identifier.1.span] p.identifier.2.place :=
  ⟨⟨p.current, hp.current_mem, rfl, rfl⟩,
    .single hp.current_sound (Nat.le_refl _) (hp.stop_le_expect _)⟩

theorem atom_spanned (hp : p.In source) {e : Expr} (h : p.atom = (.ok e, q)) :
    e.Spanned source ∧ Laid source p.place [e.span] q.place := by
  have hlaid : Laid source p.place [p.current.span] p.advance.place :=
    .single hp.current_sound (Nat.le_refl _) hp.stop_le_advance
  unfold atom at h
  split at h
  · next name hk =>
    obtain ⟨he, rfl⟩ := Prod.mk.inj h
    obtain rfl := Except.ok.inj he
    exact ⟨hp.current_lexed hk (by simp), hlaid⟩
  · next digits hk =>
    split at h
    · next value hv =>
      obtain ⟨he, rfl⟩ := Prod.mk.inj h
      obtain rfl := Except.ok.inj he
      exact ⟨⟨digits, hv, hp.current_lexed hk (by simp)⟩, hlaid⟩
    · cases (Prod.mk.inj h).1
  · cases (Prod.mk.inj h).1

theorem join_spanned {left right : Expr} {hi : Nat} (op : BinOp) (hl : left.Spanned source)
    (hr : right.Spanned source) (h : Laid source lo [left.span, right.span] hi) :
    (Expr.join op left right).Spanned source ∧
      Laid source lo [(Expr.join op left right).span] hi := by
  cases h with
  | cons hleft hlo h =>
      cases h with
      | cons hright hmid h =>
          have hstart := hleft.ordered.trans hmid
          have hstop := hmid.trans hright.ordered
          have hmerge := hleft.merge_eq hright hstart hstop
          have hnode := hleft.join hright (hstart.trans hright.ordered)
          have hparts : Laid source left.span.start.offset [left.span, right.span]
              right.span.stop.offset :=
            .cons hleft (Nat.le_refl _) (.single hright hmid (Nat.le_refl _))
          rw [Expr.join, hmerge]
          exact ⟨⟨hl, hr, hparts.encloses hnode, rfl, rfl⟩, .single hnode hlo h.le⟩

section Chain

variable {c : Chain} (honward : ∀ p : Parser, p.Onward (c.operand p).2)
  (hoperand : ∀ {p q : Parser} {e : Expr}, p.In source → c.operand p = (.ok e, q) →
    e.Spanned source ∧ Laid source p.place [e.span] q.place)
include honward hoperand

theorem Chain.rest_spanned (left : Expr) (p : Parser) :
    p.In source → left.Spanned source → Laid source lo [left.span] p.place →
      ∀ e q, c.rest left p = (.ok e, q) →
        e.Spanned source ∧ Laid source lo [e.span] q.place := by
  fun_induction c.rest left p with
  | case1 left p hop =>
      intro _ hl hlaid e q heq
      obtain ⟨he, rfl⟩ := Prod.mk.inj heq
      obtain rfl := Except.ok.inj he
      exact ⟨hl, hlaid⟩
  | case2 left p op hop e q hq =>
      intro _ _ _ e' q' heq
      cases (Prod.mk.inj heq).1
  | case3 left p op hop right q hq ih =>
      intro hp hl hlaid
      have hnext := hp.onward p.onward_advance
      obtain ⟨hr, hright⟩ := hoperand hnext hq
      obtain ⟨hjoin, hspan⟩ := join_spanned op hl hr
        ((hlaid.mono_right (hp.place_le p.onward_advance)).append hright)
      exact ih (hnext.onward ((honward p.advance).of_eq hq)) hjoin hspan

theorem Chain.parse_spanned (hp : p.In source) {e : Expr} (h : c.parse p = (.ok e, q)) :
    e.Spanned source ∧ Laid source p.place [e.span] q.place := by
  unfold parse at h
  split at h
  · cases (Prod.mk.inj h).1
  · next left r hr =>
    obtain ⟨hl, hlaid⟩ := hoperand hp hr
    exact rest_spanned honward hoperand left r (hp.onward ((honward p).of_eq hr)) hl hlaid e q h

end Chain

theorem product_spanned (hp : p.In source) {e : Expr} (h : p.product = (.ok e, q)) :
    e.Spanned source ∧ Laid source p.place [e.span] q.place :=
  Chain.parse_spanned (c := atoms) onward_atom (fun hp h => atom_spanned hp h) hp h

theorem expression_spanned (hp : p.In source) {e : Expr} (h : p.expression = (.ok e, q)) :
    e.Spanned source ∧ Laid source p.place [e.span] q.place :=
  Chain.parse_spanned (c := products) onward_product (fun hp h => product_spanned hp h) hp h

/-! ## Statements -/

theorem moreArgs_spanned (p : Parser) :
    p.In source → ∀ es q, p.moreArgs = (.ok es, q) →
      (∀ e ∈ es, e.Spanned source) ∧ Laid source p.place (es.map Expr.span) q.place := by
  fun_induction moreArgs p with
  | case1 p hcomma e q hq =>
      intro _ es q' heq
      cases (Prod.mk.inj heq).1
  | case2 p hcomma arg q hq e r hr ih =>
      intro _ es q' heq
      cases (Prod.mk.inj heq).1
  | case3 p hcomma arg q hq args r hr ih =>
      intro hp es q' heq
      obtain ⟨hes, rfl⟩ := Prod.mk.inj heq
      obtain rfl := Except.ok.inj hes
      have hnext := hp.onward p.onward_advance
      obtain ⟨harg, hlaid⟩ := expression_spanned hnext hq
      obtain ⟨hargs, hrest⟩ := ih (hnext.onward (p.advance.onward_expression.of_eq hq)) args r hr
      exact ⟨List.forall_mem_cons.mpr ⟨harg, hargs⟩,
        (hlaid.mono_left (hp.place_le p.onward_advance)).append hrest⟩
  | case4 p hcomma =>
      intro _ es q' heq
      obtain ⟨hes, rfl⟩ := Prod.mk.inj heq
      obtain rfl := Except.ok.inj hes
      exact ⟨List.forall_mem_nil _, .nil (Nat.le_refl _)⟩

theorem args_spanned (hp : p.In source) {es : List Expr} (h : p.args = (.ok es, q)) :
    (∀ e ∈ es, e.Spanned source) ∧ Laid source p.place (es.map Expr.span) q.place := by
  unfold args at h
  split at h
  · obtain ⟨hes, rfl⟩ := Prod.mk.inj h
    obtain rfl := Except.ok.inj hes
    exact ⟨List.forall_mem_nil _, .nil (Nat.le_refl _)⟩
  · split at h
    · cases (Prod.mk.inj h).1
    · next arg r hr =>
      obtain ⟨harg, hlaid⟩ := expression_spanned hp hr
      split at h
      · cases (Prod.mk.inj h).1
      · next args r' hr' =>
        obtain ⟨hes, rfl⟩ := Prod.mk.inj h
        obtain rfl := Except.ok.inj hes
        obtain ⟨hargs, hrest⟩ := moreArgs_spanned r (hp.onward (p.onward_expression.of_eq hr))
          args r' hr'
        exact ⟨List.forall_mem_cons.mpr ⟨harg, hargs⟩, hlaid.append hrest⟩

/-- A term ends with the token read last. -/
theorem term_spanned (hp : p.In source) {t : Term} (h : p.term = (.ok t, q)) :
    t.Spanned source ∧ Past source p q ∧ t.span = ⟨p.current.span.start, q.previous.stop⟩ := by
  have hname := p.onward_expect .identifier
  have hopen := hname.trans (onward_expect (p.expect .identifier) (.symbol .lparen))
  simp only [term] at h
  split at h
  · cases (Prod.mk.inj h).1
  · next args r hr =>
    obtain ⟨ht, rfl⟩ := Prod.mk.inj h
    obtain rfl := Except.ok.inj ht
    have honward := hopen.trans ((onward_args _).of_eq hr)
    obtain ⟨hident, hlaid⟩ := identifier_spanned hp
    obtain ⟨hargs, hrest⟩ := args_spanned (hp.onward hopen) hr
    have hparts := (hlaid.mono_right ((hp.onward hname).place_le (onward_expect _ _))).append hrest
    have hpast := hp.past_expect honward (.symbol .rparen)
    refine ⟨⟨(expect_spanned hp honward _ hparts).1, hident, hargs⟩, hpast, ?_⟩
    exact hp.current_sound.merge_eq hpast.sound hpast.start hpast.stop

theorem statement_spanned (hp : p.In source) {s : Stmt} (h : p.statement = (.ok s, q)) :
    s.Spanned source ∧ Laid source p.place [s.span] q.place := by
  unfold statement at h
  split at h
  · cases (Prod.mk.inj h).1
  · split at h
    · cases (Prod.mk.inj h).1
    · next t r hr =>
      obtain ⟨hs, rfl⟩ := Prod.mk.inj h
      obtain rfl := Except.ok.inj hs
      obtain ⟨hterm, hpast, hspan⟩ := term_spanned (hp.onward p.onward_advance) hr
      have hparts : Laid source p.place [t.span] r.previous.stop.offset := by
        refine .single hterm.parts.sound ?_ ?_
        · rw [hspan]
          exact hp.place_le p.onward_advance
        · rw [hspan]
      obtain ⟨hnode, hlaid⟩ := merge_spanned hp (hpast.mono_left hp p.onward_advance) hparts
      exact ⟨⟨hnode, hterm⟩, hlaid⟩

theorem block_spanned (p : Parser) :
    p.In source → (∀ s ∈ p.block.1, s.Spanned source) ∧
      Laid source p.place (p.block.1.map Stmt.span) p.block.2.place := by
  fun_induction block p with
  | case1 p hend => exact fun _ => ⟨List.forall_mem_nil _, .nil (Nat.le_refl _)⟩
  | case2 p hend stmt q hs rest ih =>
      intro hp
      have hq := hp.onward (p.onward_statement.of_eq hs)
      obtain ⟨hstmt, hlaid⟩ := statement_spanned hp hs
      obtain ⟨hstmts, hrest⟩ := ih (hq.onward q.onward_statementEnd)
      exact ⟨List.forall_mem_cons.mpr ⟨hstmt, hstmts⟩,
        (hlaid.mono_right (hq.place_le q.onward_statementEnd)).append hrest⟩
  | case3 p hend e q hs ih =>
      intro hp
      have honward := ((p.onward_statement.of_eq hs).trans (q.onward_report e)).trans
        (onward_recover _)
      obtain ⟨hstmts, hrest⟩ := ih (hp.onward honward)
      exact ⟨hstmts, hrest.mono_left (hp.place_le honward)⟩

/-! ## Lists -/

/-- What is read as an element lies between the two places. -/
def Element.Spans {α : Type} (element : Element α) (source : String) (span : α → Span)
    (Spanned : α → Prop) : Prop :=
  ∀ {p : Parser}, p.In source → (∀ x ∈ (element.read p).1, Spanned x) ∧
    Laid source p.place ((element.read p).1.map span) (element.read p).2.place

section Element

variable {α : Type} {element : Element α} {span : α → Span} {Spanned : α → Prop}
  (honward : ∀ p : Parser, p.Onward (element.read p).2)
  (helement : element.Spans source span Spanned)
include honward helement

theorem Element.more_spanned (p : Parser) :
    p.In source → (∀ x ∈ (element.more p).1, Spanned x) ∧
      Laid source p.place ((element.more p).1.map span) (element.more p).2.place := by
  fun_induction element.more p with
  | case1 p hcomma first rest ih =>
      intro hp
      have hnext := hp.onward p.onward_advance
      obtain ⟨hfirst, hlaid⟩ := helement hnext
      obtain ⟨hmore, hrest⟩ := ih (hnext.onward (honward _))
      rw [List.map_append]
      exact ⟨List.forall_mem_append.mpr ⟨hfirst, hmore⟩,
        (hlaid.mono_left (hp.place_le p.onward_advance)).append hrest⟩
  | case2 p hcomma => exact fun _ => ⟨List.forall_mem_nil _, .nil (Nat.le_refl _)⟩

theorem Element.list_spanned (hp : p.In source) :
    (∀ x ∈ (element.list p).1, Spanned x) ∧
      Laid source p.place ((element.list p).1.map span) (element.list p).2.place := by
  obtain ⟨hfirst, hlaid⟩ := helement hp
  obtain ⟨hmore, hrest⟩ := more_spanned honward helement _ (hp.onward (honward p))
  simp only [list, List.map_append]
  exact ⟨List.forall_mem_append.mpr ⟨hfirst, hmore⟩, hlaid.append hrest⟩

end Element

/-! ## Parameters -/

/-- The type is the last token of a parameter, and itself a part of it. -/
theorem param_spanned (hp : p.In source) :
    p.param.1.Spanned source ∧ Laid source p.place [p.param.1.span] p.param.2.place := by
  let colon := p.expect .identifier
  let type := colon.expect (.symbol .colon)
  have hcolon : p.Onward colon := p.onward_expect .identifier
  have htype : p.Onward type := hcolon.trans (colon.onward_expect (.symbol .colon))
  obtain ⟨hname, hlaid⟩ := identifier_spanned hp
  obtain ⟨hident, -⟩ := identifier_spanned (hp.onward htype)
  have hparts : Laid source p.place [p.current.span, type.current.span]
      (type.expect .identifier).previous.stop.offset := by
    rw [previous_expect]
    have hle : colon.place ≤ type.place := (hp.onward hcolon).place_le (colon.onward_expect _)
    exact (hlaid.mono_right hle).append
      (.single (hp.onward htype).current_sound (Nat.le_refl _) (Nat.le_refl _))
  obtain ⟨hnode, hspan⟩ := merge_spanned hp (hp.past_expect htype .identifier) hparts
  rw [previous_expect] at hnode hspan
  exact ⟨⟨hnode, hname, hident⟩, hspan⟩

theorem parameter_spans : parameter.Spans source Param.span (·.Spanned source) := by
  intro p hp
  obtain ⟨hparam, hlaid⟩ := param_spanned hp
  exact ⟨List.forall_mem_singleton.mpr hparam, hlaid⟩

theorem params_spanned (hp : p.In source) :
    (∀ x ∈ p.params.1, x.Spanned source) ∧
      Laid source p.place (p.params.1.map Param.span) p.params.2.place := by
  have hnext := hp.onward p.onward_advance
  have hplace := hp.place_le p.onward_advance
  unfold params
  split
  · split
    · exact ⟨List.forall_mem_nil _, .nil (hplace.trans (hnext.place_le (onward_expect _ _)))⟩
    · obtain ⟨hparams, hlaid⟩ := Element.list_spanned onward_param parameter_spans hnext
      have hlast := (hnext.onward (parameter.onward_list onward_param _)).place_le
        (onward_expect _ (.symbol .rparen))
      exact ⟨hparams, (hlaid.mono_left hplace).mono_right hlast⟩
  · exact ⟨List.forall_mem_nil _, .nil (Nat.le_refl _)⟩

/-! ## Beliefs and members -/

/-- A value that is dropped has no span. -/
theorem initialValue_spans : initialValue.Spans source Expr.span (·.Spanned source) := by
  intro p hp
  have hplace := hp.place_le p.onward_beliefAtom
  unfold initialValue beliefAtom at *
  dsimp only
  split
  · next e q hq =>
    obtain ⟨he, hlaid⟩ := atom_spanned hp hq
    exact ⟨by simpa using he, hlaid⟩
  · next e q hq =>
    simp only [hq] at hplace
    exact ⟨List.forall_mem_nil _, .nil hplace⟩

theorem beliefInit_spanned (hp : p.In source) :
    (∀ e ∈ p.beliefInit.1, e.Spanned source) ∧
      Laid source p.place (p.beliefInit.1.map Expr.span) p.beliefInit.2.place := by
  unfold beliefInit
  split
  · exact ⟨List.forall_mem_nil _, .nil (Nat.le_refl _)⟩
  · exact Element.list_spanned onward_beliefAtom initialValue_spans hp

theorem belief_spanned (hp : p.In source) :
    p.belief.1.Spanned source ∧ Laid source p.place [p.belief.1.span] p.belief.2.place := by
  have hkey := p.onward_expect (.keyword .bel)
  have hname := hkey.trans (onward_expect _ .identifier)
  have hopen := hname.trans (onward_expect _ (.symbol .lparen))
  have hinit := hopen.trans (onward_beliefInit _)
  obtain ⟨hident, hlaid⟩ := identifier_spanned (hp.onward hkey)
  obtain ⟨hatoms, hrest⟩ := beliefInit_spanned (hp.onward hopen)
  have hparts := ((hlaid.mono_left (hp.place_le hkey)).mono_right
    ((hp.onward hname).place_le (onward_expect _ _))).append hrest
  obtain ⟨hnode, hspan⟩ := expect_spanned hp hinit (.symbol .rparen) hparts
  refine ⟨⟨hnode, hident, hatoms⟩, hspan.mono_right ?_⟩
  have hclosed := hp.onward (hinit.trans (onward_expect _ (.symbol .rparen)))
  simp only [belief]
  split
  · exact hclosed.place_le (onward_advance _)
  · exact Nat.le_refl _

theorem member_spanned (kind : MemberKind) (hp : p.In source) :
    (p.member kind).1.Spanned source ∧
      Laid source p.place [(p.member kind).1.span] (p.member kind).2.place := by
  have hname := p.onward_expect .identifier
  have hparams := hname.trans (onward_params _)
  have hopen := hparams.trans (onward_expect _ (.symbol .lbrace))
  have hblock := hopen.trans (onward_block _)
  obtain ⟨hident, hlaid⟩ := identifier_spanned hp
  obtain ⟨hps, hlaid'⟩ := params_spanned (hp.onward hname)
  obtain ⟨hbody, hrest⟩ := block_spanned _ (hp.onward hopen)
  have hparts := hlaid.append ((hlaid'.mono_right
    ((hp.onward hparams).place_le (onward_expect _ _))).append hrest)
  obtain ⟨hnode, hspan⟩ := expect_spanned hp hblock (.symbol .rbrace) hparts
  exact ⟨⟨hnode, hident, hps, hbody⟩, hspan⟩

/-! ## Agents -/

theorem items_spanned (p : Parser) :
    p.In source → (∀ item ∈ p.items.1, item.Spanned source) ∧
      Laid source p.place (p.items.1.map Item.span) p.items.2.place := by
  fun_induction items p with
  | case1 p hk first rest ih =>
      intro hp
      obtain ⟨hbelief, hlaid⟩ := belief_spanned hp
      obtain ⟨hitems, hrest⟩ := ih (hp.onward p.onward_belief)
      exact ⟨List.forall_mem_cons.mpr ⟨hbelief, hitems⟩, hlaid.append hrest⟩
  | case2 p hk first rest ih =>
      intro hp
      have hnext := hp.onward p.onward_advance
      obtain ⟨hmember, hlaid⟩ := member_spanned .handler hnext
      obtain ⟨hitems, hrest⟩ := ih (hnext.onward (onward_member _ _))
      exact ⟨List.forall_mem_cons.mpr ⟨hmember, hitems⟩,
        (hlaid.mono_left (hp.place_le p.onward_advance)).append hrest⟩
  | case3 p hk first rest ih =>
      intro hp
      have hnext := hp.onward p.onward_advance
      obtain ⟨hmember, hlaid⟩ := member_spanned .plan hnext
      obtain ⟨hitems, hrest⟩ := ih (hnext.onward (onward_member _ _))
      exact ⟨List.forall_mem_cons.mpr ⟨hmember, hitems⟩,
        (hlaid.mono_left (hp.place_le p.onward_advance)).append hrest⟩
  | case4 p => exact fun _ => ⟨List.forall_mem_nil _, .nil (Nat.le_refl _)⟩

end Productions

end Parser

/-! ## Agents -/

theorem beliefs_sublist (items : List Item) :
    ((items.filterMap Item.belief?).map Belief.span).Sublist (items.map Item.span) := by
  induction items with
  | nil => exact .slnil
  | cons item items ih =>
      cases item with
      | belief b => exact ih.cons_cons _
      | member m => exact ih.cons _

theorem members_sublist (items : List Item) :
    ((items.filterMap Item.member?).map Member.span).Sublist (items.map Item.span) := by
  induction items with
  | nil => exact .slnil
  | cons item items ih =>
      cases item with
      | belief b => exact ih.cons _
      | member m => exact ih.cons_cons _

theorem Agent.ofItems_spanned {source : String} {name : Ident} {params : List Param}
    {items : List Item} {span : Span}
    (hparts : span.Encloses source (name.span :: (params.map Param.span ++ items.map Item.span)))
    (hname : name.Spanned source) (hparams : ∀ p ∈ params, p.Spanned source)
    (hitems : ∀ item ∈ items, item.Spanned source) :
    (Agent.ofItems name params items span).Spanned source where
  beliefParts := hparts.sublist (((beliefs_sublist items).append_left _).cons_cons _)
  memberParts := hparts.sublist (((members_sublist items).append_left _).cons_cons _)
  apart := by
    intro b hb m hm
    have hordered : (items.map Item.span).Pairwise fun t u => t.stop.offset ≤ u.start.offset :=
      hparts.ordered.sublist ((List.sublist_append_right _ _).cons _)
    rw [List.pairwise_map] at hordered
    have hapart : items.Pairwise fun i j => i.span.Apart j.span := hordered.imp Or.inl
    have : Std.Symm fun i j : Item => i.span.Apart j.span := ⟨fun _ _ => Or.symm⟩
    exact hapart.forall (mem_beliefs_iff.mp hb) (mem_members_iff.mp hm) (by simp)
  name := hname
  params := hparams
  beliefs := fun b hb => hitems _ (mem_beliefs_iff.mp hb)
  members := fun m hm => hitems _ (mem_members_iff.mp hm)

theorem Parser.agent_spanned {source : String} {p : Parser} (hp : p.In source) :
    p.agent.1.Spanned source := by
  have hkey := p.onward_expect (.keyword .agent)
  have hname := hkey.trans (onward_expect _ .identifier)
  have hparams := hname.trans (onward_params _)
  have hopen := hparams.trans (onward_expect _ (.symbol .lbrace))
  have hitems := hopen.trans (onward_items _)
  obtain ⟨hident, hlaid⟩ := identifier_spanned (hp.onward hkey)
  obtain ⟨hps, hlaid'⟩ := params_spanned (hp.onward hname)
  obtain ⟨hbody, hrest⟩ := items_spanned _ (hp.onward hopen)
  have hparts := (hlaid.mono_left (hp.place_le hkey)).append ((hlaid'.mono_right
    ((hp.onward hparams).place_le (onward_expect _ _))).append hrest)
  exact Agent.ofItems_spanned (expect_spanned hp hitems (.symbol .rbrace) hparts).1 hident hps
    hbody

/-- **The spans of a parsed agent nest**, whether or not its source has errors: they are
ranges of the source with the right lines and columns, each node encloses its parts,
parts follow each other in order, beliefs and members do not overlap, and a compound
expression reaches from its left operand to its right one. -/
theorem parsed_spans_nest (source : String) : (parse source).1.Spanned source :=
  Parser.agent_spanned (.refl _)

end AgentLang
