import AgentLang.Proofs.Lexemes
import AgentLang.Proofs.Reconstruction

/-!
# The parser accepts the grammar

The two directions put together. A source without syntax errors was read as a
phrase of its tree, and phrases are sentences whose numbers are in range
(`Agent.phrases_le`, `Agent.phrases_le_inRange`). A sentence whose numbers are
in range is a phrase of some tree, and phrases are parsed without complaint
(`exists_agent`, `Parser.parseUnit_at`).
-/

namespace AgentLang

open Grammar

/-! ## Numbers of phrases -/

def inRange : Language TokenKind := {ks | InRange ks}

section InRange

variable {L M : Language TokenKind} {Ls : List (Language TokenKind)}

@[grind ←] theorem one_le_inRange : 1 ≤ inRange := by
  rintro ks rfl digits h
  cases h

@[grind ←] theorem mul_le_inRange (hL : L ≤ inRange) (hM : M ≤ inRange) :
    L * M ≤ inRange := by
  rintro - ⟨ks, hks, ms, hms, rfl⟩
  exact inRange_append.mpr ⟨hL hks, hM hms⟩

theorem word_le_inRange {k : TokenKind} (h : ∀ digits, k ≠ .number digits) :
    word k ≤ inRange := by
  rintro ks rfl digits hd
  exact absurd (List.mem_singleton.mp hd).symm (h digits)

@[grind ←] theorem sym_le_inRange (s : Symbol) : sym s ≤ inRange := word_le_inRange nofun

@[grind ←] theorem key_le_inRange (w : Keyword) : key w ≤ inRange := word_le_inRange nofun

@[grind ←] theorem name_le_inRange (name : String) : word (.ident name) ≤ inRange :=
  word_le_inRange nofun

@[grind ←] theorem optional_le_inRange (h : L ≤ inRange) : optional L ≤ inRange :=
  sup_le one_le_inRange h

theorem prod_le_inRange (h : ∀ L ∈ Ls, L ≤ inRange) : Ls.prod ≤ inRange := by
  induction Ls with
  | nil => exact one_le_inRange
  | cons L Ls ih =>
      rw [List.forall_mem_cons] at h
      rw [List.prod_cons]
      exact mul_le_inRange h.1 (ih h.2)

theorem listed_le_inRange (h : ∀ L ∈ Ls, L ≤ inRange) : listed Ls ≤ inRange := by
  cases Ls with
  | nil => exact one_le_inRange
  | cons L Ls =>
      rw [List.forall_mem_cons] at h
      refine mul_le_inRange h.1 (prod_le_inRange ?_)
      rw [List.forall_mem_map]
      exact fun M hM => mul_le_inRange (sym_le_inRange _) (h.2 M hM)

end InRange

@[grind ←] theorem Expr.phrases_le_inRange (e : Expr) : e.phrases ≤ inRange := by
  induction e with
  | ident name => exact name_le_inRange name
  | number value =>
      rintro ks ⟨digits, rfl, hvalue⟩ digits' hd
      obtain ⟨rfl⟩ := List.mem_singleton.mp hd
      exact (integerOfDigits?_eq_some.mp hvalue).1
  | binary op left right _ ihl ihr => grind [phrases]

@[grind ←] theorem exprs_le_inRange (es : List Expr) :
    listed (es.map Expr.phrases) ≤ inRange := by
  refine listed_le_inRange ?_
  grind

@[grind ←] theorem Stmt.phrases_le_inRange (s : Stmt) : s.phrases ≤ inRange := by
  grind [phrases, Term.phrases]

@[grind ←] theorem blockPhrases_le_inRange (stmts : List Stmt) :
    blockPhrases stmts ≤ inRange := by
  refine prod_le_inRange ?_
  grind

@[grind ←] theorem paramPhrases_le_inRange (params : List Param) :
    paramPhrases params ≤ inRange := by
  cases params with
  | nil => grind [paramPhrases]
  | cons p params =>
      have hlist : listed ((p :: params).map Param.phrases) ≤ inRange := by
        refine listed_le_inRange ?_
        grind [Param.phrases]
      grind [paramPhrases]

@[grind ←] theorem Item.phrases_le_inRange (item : Item) : item.phrases ≤ inRange := by
  cases item with
  | belief b => grind [phrases, Belief.phrases]
  | member m => grind [phrases, Member.phrases]

/-- Numbers that are written for literals are in range. -/
theorem Agent.phrases_le_inRange (a : Agent) : a.phrases ≤ inRange := by
  rintro ks ⟨items, -, -, hks⟩
  have hitems : itemPhrases items ≤ inRange := by
    refine prod_le_inRange ?_
    grind
  refine (?_ : _ ≤ inRange) hks
  grind

/-! ## Sources without errors -/

/-- The kinds of a source's tokens. -/
def tokenKinds (source : String) : List TokenKind := (lex source).tokens.map Token.kind

theorem tokenKinds_cases {source : String} {k : TokenKind} (h : k ∈ tokenKinds source) :
    k.proper = true ∨ k.isUnknown = true := by
  obtain ⟨t, ht, rfl⟩ := List.mem_map.mp h
  exact lexed_kind _ _ t ht

theorem ne_eof_of_mem_tokenKinds {source : String} :
    ∀ k ∈ tokenKinds source, k ≠ .eof := by
  rintro - hk rfl
  rcases tokenKinds_cases hk with h | h <;> cases h

/-- A source without errors is a phrase of its agent. -/
theorem tokenKinds_mem_phrases {source : String} (h : (parse source).2 = []) :
    tokenKinds source ∈ (parse source).1.phrases :=
  Parser.parseUnit_phrase (p := .ofSource source) ne_eof_of_mem_tokenKinds h

/-- Every source, with errors or without, gives a sayable agent. -/
theorem parse_sayable (source : String) : (parse source).1.Sayable :=
  (Parser.ofSource source).parses_agent.1

theorem parse_of_mem_phrases {source : String} {a : Agent} (ha : a.Sayable)
    (h : tokenKinds source ∈ a.phrases) :
    (parse source).1.erase = a.erase ∧ (parse source).2 = [] :=
  Parser.parseUnit_at (p := .ofSource source) ha h ⟨rfl, rfl⟩

/-- The parser reports nothing exactly on the sentences of the grammar whose
numbers fit. -/
theorem parse_silent_iff_sentence (source : String) :
    (parse source).2 = [] ↔
      (lex source).tokens.map Token.kind ∈ Grammar.agent ∧
        ∀ digits, .number digits ∈ (lex source).tokens.map Token.kind →
          naturalOfDigits digits ≤ 9223372036854775807 := by
  constructor
  · intro h
    have hks := tokenKinds_mem_phrases h
    exact ⟨Agent.phrases_le (parse_sayable source) hks, Agent.phrases_le_inRange _ hks⟩
  · rintro ⟨hsentence, hrange⟩
    obtain ⟨a, ha, hks⟩ := exists_agent hsentence hrange
    exact (parse_of_mem_phrases ha hks).2

end AgentLang
