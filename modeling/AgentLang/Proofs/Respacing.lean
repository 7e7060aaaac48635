import AgentLang.Proofs.Tiling

/-!
# Other blanks between the same tokens

A source is written anew: the texts of its tokens in the same order, with other
blanks between them (`Respaced`). It is lexed to the same tokens
(`respacing_keeps_tokens`).

A token that lexing yields has no blank in it and is of its kind by its text alone
(`TokenKind.Whole`). So with a blank after it, it leads the text that starts with it,
whatever stood next to it before.
-/

namespace AgentLang

/-! ## Tokens on their own -/

/-- The token can be yielded by lexing, and has no blank in it. -/
structure TokenKind.Whole (k : TokenKind) : Prop where
  lexical : k.Lexical
  unbroken : ∀ c ∈ k.text.toList, isBlank c = false

theorem TokenKind.Lexical.text_ne_nil {k : TokenKind} (h : k.Lexical) : k.text.toList ≠ [] := by
  rcases h.proper_or_unknown with hproper | ⟨run, rfl⟩
  · have hstops : Stops k.goesOn [] := fun _ hc => by cases hc
    obtain ⟨c, cs, htext, -⟩ := munch_proper hproper hstops
    simp [htext]
  · obtain ⟨c, hc, -⟩ := h
    intro hnil
    rw [TokenKind.text] at hnil
    rw [hnil] at hc
    cases hc

theorem TokenKind.Whole.leads {k : TokenKind} (h : k.Whole) {rest : List Char}
    (hrest : Breaks rest) : k.Leads (k.text.toList ++ rest) rest :=
  ⟨rfl, h.lexical, h.unbroken, hrest.stops k⟩

/-- Every token of a text is whole. -/
theorem lexed_whole (here : Location) (text : List Char) :
    ∀ t ∈ tokensFrom here text, t.kind.Whole := by
  fun_induction tokensFrom here text with
  | case1 => exact List.forall_mem_nil _
  | case2 here c cs _ ih => exact ih
  | case3 here c cs hc there ih =>
      have hleads := leads_munch (by simpa using hc) cs
      exact List.forall_mem_cons.mpr ⟨⟨hleads.lexical, hleads.unbroken⟩, ih⟩

/-! ## Texts with other blanks -/

/-- The text consists of the words in order, with blanks between them. There may
also be blanks before the first and after the last. -/
inductive Respaced : List String → List Char → Prop
  | done {gap : List Char} : (∀ c ∈ gap, isBlank c = true) → Respaced [] gap
  | word {gap rest : List Char} {word : String} {words : List String} :
      (∀ c ∈ gap, isBlank c = true) → Breaks rest → Respaced words rest →
      Respaced (word :: words) (gap ++ word.toList ++ rest)

/-- Whole tokens with blanks between them are lexed to themselves. -/
theorem tokensFrom_respaced {ks : List TokenKind} (hks : ∀ k ∈ ks, k.Whole) :
    ∀ {text : List Char}, Respaced (ks.map TokenKind.text) text →
      ∀ here : Location, (tokensFrom here text).map Token.kind = ks := by
  induction ks with
  | nil =>
      rintro text (⟨hgap⟩ | _) here
      rw [← List.append_nil text, tokensFrom_blanks hgap, tokensFrom, List.map_nil]
  | cons k ks ih =>
      rw [List.forall_mem_cons] at hks
      intro text h here
      rw [List.map_cons] at h
      cases h with
      | @word gap rest _ _ hgap hrest hwords =>
          have hleads := hks.1.leads hrest
          obtain ⟨c, cs, htext⟩ := List.exists_cons_of_ne_nil hks.1.lexical.text_ne_nil
          have hc : isBlank c = false := hks.1.unbroken c (by simp [htext])
          rw [htext, List.cons_append] at hleads
          rw [List.append_assoc, tokensFrom_blanks hgap, htext, List.cons_append, tokensFrom,
            if_neg (by simp [hc])]
          simp only [munch_of_leads hleads, List.map_cons, ih hks.2 hwords, String.ofList_toList,
            TokenKind.ofText_text_of_lexical hks.1.lexical]

/-! ## Single spaces -/

/-- The texts of a source's tokens. -/
def lexemes (source : String) : List String := (lex source).tokens.map Token.lexeme

/-- The tokens of the source with single spaces between them. -/
def singleSpaced (source : String) : String := " ".intercalate (lexemes source)

theorem respaced_intercalate {words : List String} :
    ∀ {gap : List Char}, (∀ c ∈ gap, isBlank c = true) →
      Respaced words (gap ++ (" ".intercalate words).toList) := by
  induction words with
  | nil =>
      intro gap hgap
      rw [String.intercalate_nil, String.toList_empty, List.append_nil]
      exact .done hgap
  | cons w words ih =>
      intro gap hgap
      cases words with
      | nil =>
          rw [String.intercalate_singleton, ← List.append_nil (gap ++ w.toList)]
          exact .word hgap (fun c hc => by cases hc) (.done (List.forall_mem_nil _))
      | cons w' words =>
          have hspace : ∀ c ∈ " ".toList, isBlank c = true :=
            List.forall_mem_singleton.mpr (by decide)
          rw [String.intercalate_cons_cons, String.toList_append, String.toList_append,
            List.append_assoc, ← List.append_assoc gap]
          refine .word hgap ?_ (ih hspace)
          rintro c ⟨rfl⟩
          decide

/-- **Other blanks make no other tokens.** Whatever blanks are put between the
tokens of a source, and before and after them, the text has the same tokens; so
putting single spaces between them is done for good the first time. -/
theorem respacing_keeps_tokens (source : String) :
    (∀ text : String, Respaced (lexemes source) text.toList →
      (lex text).tokens.map Token.kind = (lex source).tokens.map Token.kind ∧
        lexemes text = lexemes source) ∧
    singleSpaced (singleSpaced source) = singleSpaced source := by
  have hrespaced : ∀ text : String, Respaced (lexemes source) text.toList →
      (lex text).tokens.map Token.kind = (lex source).tokens.map Token.kind ∧
        lexemes text = lexemes source := by
    intro text h
    have hlexemes (s : String) :
        lexemes s = ((lex s).tokens.map Token.kind).map TokenKind.text := by
      simp only [lexemes, List.map_map]
      rfl
    have hwhole : ∀ k ∈ (lex source).tokens.map Token.kind, k.Whole := by
      rw [List.forall_mem_map]
      exact lexed_whole _ _
    have hkinds : (lex text).tokens.map Token.kind = (lex source).tokens.map Token.kind :=
      tokensFrom_respaced hwhole (hlexemes source ▸ h) _
    exact ⟨hkinds, by rw [hlexemes, hlexemes, hkinds]⟩
  refine ⟨hrespaced, ?_⟩
  have hsingle : Respaced (lexemes source) (singleSpaced source).toList :=
    respaced_intercalate (List.forall_mem_nil _)
  rw [singleSpaced, (hrespaced _ hsingle).2, singleSpaced]

/-- Tokens that touch each other, the last of them a run with a `;` in it. -/
theorem touching_tokens_respaced :
    Respaced (lexemes "12ab???é;x") "\n12 ab\t?? ?\u00A0é;x ".toList ∧
    (lex "\n12 ab\t?? ?\u00A0é;x ").tokens.map Token.kind =
      [.number "12", .ident "ab", .symbol .queryQuery, .symbol .query, .unknown "é;x"] := by
  have hlexemes : lexemes "12ab???é;x" = ["12", "ab", "??", "?", "é;x"] := by decide +kernel
  have hblank : isBlank ' ' = true ∧ isBlank '\n' = true ∧ isBlank '\t' = true ∧
      isBlank '\u00A0' = true := by decide +kernel
  obtain ⟨hspace, hline, htab, hwide⟩ := hblank
  have hgap (c : Char) (hc : isBlank c = true) : ∀ d ∈ [c], isBlank d = true :=
    List.forall_mem_singleton.mpr hc
  have hbreaks (c : Char) (cs : List Char) (hc : isBlank c = true) : Breaks (c :: cs) := by
    rintro d ⟨rfl⟩
    exact hc
  have hspaced : Respaced (lexemes "12ab???é;x") "\n12 ab\t?? ?\u00A0é;x ".toList := by
    rw [hlexemes, show "\n12 ab\t?? ?\u00A0é;x ".toList = ['\n'] ++ "12".toList ++ ([' '] ++
      "ab".toList ++ (['\t'] ++ "??".toList ++ ([' '] ++ "?".toList ++ (['\u00A0'] ++
      "é;x".toList ++ [' '])))) by decide]
    exact .word (hgap _ hline) (hbreaks _ _ hspace) (.word (hgap _ hspace) (hbreaks _ _ htab)
      (.word (hgap _ htab) (hbreaks _ _ hspace) (.word (hgap _ hspace) (hbreaks _ _ hwide)
        (.word (hgap _ hwide) (hbreaks _ _ hspace) (.done (hgap _ hspace))))))
  refine ⟨hspaced, ?_⟩
  rw [((respacing_keeps_tokens _).1 _ hspaced).1]
  decide +kernel

end AgentLang
