import AgentLang.Token.Lexer

/-!
# Texts of tokens

A token leads a text if the text starts with it and it ends there
(`TokenKind.Leads`). What is munched off a text that does not start with a blank is
the one token that leads it (`leads_munch`, `munch_of_leads`). So a text that spells
proper tokens with blanks between them is lexed to these tokens
(`tokensFrom_spaced`), and no token of a source is the end of the file
(`lexed_kind`).
-/

namespace AgentLang

/-! ## Proper tokens -/

/-- A letter, then letters and digits, and not a keyword. -/
def isName (text : String) : Bool :=
  match text.toList with
  | [] => false
  | c :: cs => c.isAlpha && cs.all Char.isAlphanum && (Keyword.ofText? text).isNone

/-- One or more decimal digits. -/
def isNumeral (text : String) : Bool :=
  !text.toList.isEmpty && text.toList.all Char.isDigit

/-- Is the token one that a source can spell? -/
def TokenKind.proper : TokenKind → Bool
  | keyword _ => true
  | symbol _ => true
  | number digits => isNumeral digits
  | ident name => isName name
  | unknown _ => false
  | eof => false

/-- Some proper token starts with the character. -/
def StartsToken (c : Char) : Prop :=
  ∃ k : TokenKind, k.proper = true ∧ k.text.toList.head? = some c

/-- Is the token one that lexing can yield? An unrecognised run starts as no proper
token does. -/
def TokenKind.Lexical : TokenKind → Prop
  | unknown run => ∃ c ∈ run.toList.head?, ¬StartsToken c
  | k => k.proper = true

/-- Would the character, right after the token, be a part of it? -/
def TokenKind.goesOn : TokenKind → Char → Bool
  | keyword _, c => c.isAlphanum
  | ident _, c => c.isAlphanum
  | number _, c => c.isDigit
  | symbol .query, c => c == '?'
  | symbol _, _ => false
  | unknown _, c => !isBlank c
  | eof, _ => false

/-- Does not start with a character of the class. -/
def Stops (p : Char → Bool) (rest : List Char) : Prop := ∀ c ∈ rest.head?, p c = false

/-- Starts with a blank, or is empty. -/
def Breaks (rest : List Char) : Prop := ∀ c ∈ rest.head?, isBlank c = true

section Munch

variable {c : Char} {cs rest : List Char}

theorem Stops.takeWhile_eq {p : Char → Bool} (h : Stops p rest) : rest.takeWhile p = [] := by
  cases rest with
  | nil => rfl
  | cons c rest => simp [h c rfl]

theorem Stops.dropWhile_eq {p : Char → Bool} (h : Stops p rest) : rest.dropWhile p = rest := by
  cases rest with
  | nil => rfl
  | cons c rest => simp [h c rfl]

theorem stops_dropWhile (p : Char → Bool) (cs : List Char) : Stops p (cs.dropWhile p) := by
  intro c hc
  have hhead := List.head?_dropWhile_not p cs
  rw [Option.mem_def.mp hc] at hhead
  exact hhead

theorem isAlphanum_of_isBlank (c : Char) (h : isBlank c = true) : c.isAlphanum = false := by
  rw [Bool.eq_false_iff]
  intro hc
  rw [isBlank_of_isAlphanum hc] at h
  cases h

theorem isDigit_of_isBlank (c : Char) (h : isBlank c = true) : c.isDigit = false := by
  have := isAlphanum_of_isBlank c h
  simp only [Char.isAlphanum, Bool.or_eq_false_iff] at this
  exact this.2

theorem isAlpha_of_isDigit {c : Char} (h : c.isDigit = true) : c.isAlpha = false := by
  change (decide (48 ≤ c.val) && decide (c.val ≤ 57)) = true at h
  change (decide (65 ≤ c.val ∧ c.val ≤ 90) || decide (97 ≤ c.val) && decide (c.val ≤ 122)) = false
  simp only [Bool.and_eq_true, decide_eq_true_eq] at h
  simp only [Bool.or_eq_false_iff, Bool.and_eq_false_iff, decide_eq_false_iff_not]
  change 48 ≤ c.toNat ∧ c.toNat ≤ 57 at h
  change ¬(65 ≤ c.toNat ∧ c.toNat ≤ 90) ∧ (¬97 ≤ c.toNat ∨ ¬c.toNat ≤ 122)
  omega

theorem TokenKind.goesOn_of_isBlank (k : TokenKind) {c : Char} (h : isBlank c = true) :
    k.goesOn c = false := by
  have halnum := isAlphanum_of_isBlank c h
  have hdigit := isDigit_of_isBlank c h
  unfold goesOn
  split
  · exact halnum
  · exact halnum
  · exact hdigit
  · rw [beq_eq_false_iff_ne]
    rintro rfl
    exact absurd h (by decide)
  · rfl
  · simp [h]
  · rfl

theorem Breaks.stops (h : Breaks rest) (k : TokenKind) : Stops k.goesOn rest :=
  fun c hc => k.goesOn_of_isBlank (h c hc)

theorem munch_word (hc : c.isAlpha = true) (hcs : ∀ d ∈ cs, d.isAlphanum = true)
    (h : Stops Char.isAlphanum rest) : munch c (cs ++ rest) = (c :: cs, rest) := by
  simp only [munch, hc, if_true, List.takeWhile_append_of_pos hcs,
    List.dropWhile_append_of_pos hcs, h.takeWhile_eq, h.dropWhile_eq, List.append_nil]

theorem munch_numeral (hc : c.isDigit = true) (hcs : ∀ d ∈ cs, d.isDigit = true)
    (h : Stops Char.isDigit rest) : munch c (cs ++ rest) = (c :: cs, rest) := by
  simp only [munch, isAlpha_of_isDigit hc, hc, Bool.false_eq_true, if_false, if_true,
    List.takeWhile_append_of_pos hcs, List.dropWhile_append_of_pos hcs, h.takeWhile_eq,
    h.dropWhile_eq, List.append_nil]

theorem munch_single (halpha : c.isAlpha = false) (hdigit : c.isDigit = false) (hc : c ≠ '?')
    (h : (Symbol.ofText? (String.singleton c)).isSome = true) : munch c rest = ([c], rest) := by
  simp [munch, halpha, hdigit, hc, h]

theorem munch_symbol (s : Symbol) (h : Stops (TokenKind.symbol s).goesOn rest) :
    ∃ c cs, s.text.toList = c :: cs ∧ isBlank c = false ∧
      munch c (cs ++ rest) = (c :: cs, rest) := by
  cases s with
  | query =>
      refine ⟨'?', [], by decide, by decide, ?_⟩
      cases rest with
      | nil => decide
      | cons c rest =>
          have hc : c ≠ '?' := beq_eq_false_iff_ne.mp (h c rfl)
          rw [List.nil_append]
          unfold munch
          split <;> simp_all
  | queryQuery => exact ⟨'?', ['?'], by decide, by decide, by simp [munch]⟩
  | _ =>
      exact ⟨_, [], rfl, by decide, munch_single (by decide) (by decide) (by decide) (by decide)⟩

end Munch

theorem Keyword.text_of_ofText? {text : String} {w : Keyword}
    (h : Keyword.ofText? text = some w) : w.text = text := by
  simpa [Keyword.ofText?] using List.find?_some h

theorem Symbol.text_of_ofText? {text : String} {s : Symbol}
    (h : Symbol.ofText? text = some s) : s.text = text := by
  simpa [Symbol.ofText?] using List.find?_some h

theorem Keyword.text_alphanum (w : Keyword) :
    ∃ c cs, w.text.toList = c :: cs ∧ c.isAlpha = true ∧ ∀ d ∈ cs, d.isAlphanum = true := by
  cases w <;> exact ⟨_, _, rfl, by decide, List.all_eq_true.mp (by decide)⟩

theorem Symbol.text_not_alphanum (s : Symbol) :
    ∃ c cs, s.text.toList = c :: cs ∧ c.isAlphanum = false := by
  cases s <;> exact ⟨_, _, rfl, by decide⟩

theorem Symbol.ofText?_eq_none {text : String} {c : Char} {cs : List Char}
    (h : text.toList = c :: cs) (hc : c.isAlphanum = true) : Symbol.ofText? text = none := by
  cases hs : Symbol.ofText? text with
  | none => rfl
  | some s =>
      obtain ⟨d, ds, hd, hd'⟩ := s.text_not_alphanum
      rw [Symbol.text_of_ofText? hs, h] at hd
      obtain ⟨rfl, rfl⟩ := List.cons.inj hd
      rw [hc] at hd'
      cases hd'

theorem Keyword.ofText?_eq_none {text : String} {c : Char} {cs : List Char}
    (h : text.toList = c :: cs) (hc : c.isAlpha = false) : Keyword.ofText? text = none := by
  cases hw : Keyword.ofText? text with
  | none => rfl
  | some w =>
      obtain ⟨d, ds, hd, hd', -⟩ := w.text_alphanum
      rw [Keyword.text_of_ofText? hw, h] at hd
      obtain ⟨rfl, rfl⟩ := List.cons.inj hd
      rw [hc] at hd'
      cases hd'

theorem isName_cases {text : String} (h : isName text = true) :
    ∃ c cs, text.toList = c :: cs ∧ c.isAlpha = true ∧ (∀ d ∈ cs, d.isAlphanum = true) ∧
      Keyword.ofText? text = none := by
  unfold isName at h
  split at h
  · cases h
  · next c cs htext =>
    simp only [Bool.and_eq_true, List.all_eq_true, Option.isNone_iff_eq_none] at h
    exact ⟨c, cs, htext, h.1.1, h.1.2, h.2⟩

theorem isNumeral_cases {text : String} (h : isNumeral text = true) :
    ∃ c cs, text.toList = c :: cs ∧ c.isDigit = true ∧ ∀ d ∈ cs, d.isDigit = true := by
  unfold isNumeral at h
  cases htext : text.toList with
  | nil => simp [htext] at h
  | cons c cs =>
      simp only [htext, Bool.and_eq_true, List.all_cons, List.all_eq_true] at h
      exact ⟨c, cs, rfl, h.2.1, h.2.2⟩

/-- The text of a proper token gives the token. -/
theorem TokenKind.ofText_text {k : TokenKind} (h : k.proper = true) : ofText k.text = k := by
  cases k with
  | keyword w => simp [ofText, text]
  | symbol s =>
      have hw : Keyword.ofText? s.text = none := by cases s <;> decide
      simp [ofText, text, hw]
  | number digits =>
      obtain ⟨c, cs, htext, hc, -⟩ := isNumeral_cases h
      have halpha := isAlpha_of_isDigit hc
      have halnum : c.isAlphanum = true := by simp [Char.isAlphanum, hc]
      simp [ofText, text, Keyword.ofText?_eq_none htext halpha,
        Symbol.ofText?_eq_none htext halnum, htext, halpha, hc]
  | ident name =>
      obtain ⟨c, cs, htext, hc, -, hkey⟩ := isName_cases h
      have halnum : c.isAlphanum = true := by simp [Char.isAlphanum, hc]
      simp [ofText, text, hkey, Symbol.ofText?_eq_none htext halnum, htext, hc]
  | unknown => cases h
  | eof => cases h

/-- A proper token is munched off whole. -/
theorem munch_proper {k : TokenKind} {rest : List Char} (hk : k.proper = true)
    (h : Stops k.goesOn rest) :
    ∃ c cs, k.text.toList = c :: cs ∧ isBlank c = false ∧
      munch c (cs ++ rest) = (c :: cs, rest) := by
  cases k with
  | keyword w =>
      obtain ⟨c, cs, htext, hc, hcs⟩ := w.text_alphanum
      have hblank := isBlank_of_isAlphanum (by simp [Char.isAlphanum, hc] : c.isAlphanum = true)
      exact ⟨c, cs, htext, hblank, munch_word hc hcs h⟩
  | symbol s => exact munch_symbol s h
  | number digits =>
      obtain ⟨c, cs, htext, hc, hcs⟩ := isNumeral_cases hk
      have hblank := isBlank_of_isAlphanum (by simp [Char.isAlphanum, hc] : c.isAlphanum = true)
      exact ⟨c, cs, htext, hblank, munch_numeral hc hcs h⟩
  | ident name =>
      obtain ⟨c, cs, htext, hc, hcs, -⟩ := isName_cases hk
      have hblank := isBlank_of_isAlphanum (by simp [Char.isAlphanum, hc] : c.isAlphanum = true)
      exact ⟨c, cs, htext, hblank, munch_word hc hcs h⟩
  | unknown => cases hk
  | eof => cases hk

/-! ## Tokens that lexing yields -/

theorem Symbol.text_head (s : Symbol) :
    ∃ c, s.text.toList.head? = some c ∧
      (Symbol.ofText? (String.singleton c)).isSome = true := by
  cases s <;> exact ⟨_, rfl, by decide⟩

theorem Keyword.ofText?_singleton (c : Char) : Keyword.ofText? (String.singleton c) = none := by
  cases hw : Keyword.ofText? (String.singleton c) with
  | none => rfl
  | some w =>
      have hlength := congrArg (·.toList.length) (Keyword.text_of_ofText? hw)
      cases w <;> simp [Keyword.text] at hlength

theorem startsToken_iff {c : Char} :
    StartsToken c ↔ c.isAlpha = true ∨ c.isDigit = true ∨
      (Symbol.ofText? (String.singleton c)).isSome = true := by
  constructor
  · rintro ⟨k, hk, hhead⟩
    cases k with
    | keyword w =>
        obtain ⟨d, ds, htext, hd, -⟩ := w.text_alphanum
        rw [TokenKind.text, htext] at hhead
        obtain rfl := Option.some.inj hhead
        exact .inl hd
    | symbol s =>
        obtain ⟨d, hd, hs⟩ := s.text_head
        obtain rfl := Option.some.inj (hd.symm.trans hhead)
        exact .inr (.inr hs)
    | number digits =>
        obtain ⟨d, ds, htext, hd, -⟩ := isNumeral_cases hk
        rw [TokenKind.text, htext] at hhead
        obtain rfl := Option.some.inj hhead
        exact .inr (.inl hd)
    | ident name =>
        obtain ⟨d, ds, htext, hd, -⟩ := isName_cases hk
        rw [TokenKind.text, htext] at hhead
        obtain rfl := Option.some.inj hhead
        exact .inl hd
    | unknown => cases hk
    | eof => cases hk
  · rintro (hc | hc | hc)
    · refine ⟨.ident (String.singleton c), ?_, by simp [TokenKind.text]⟩
      simp [TokenKind.proper, isName, hc, Keyword.ofText?_singleton]
    · refine ⟨.number (String.singleton c), ?_, by simp [TokenKind.text]⟩
      simp [TokenKind.proper, isNumeral, hc]
    · obtain ⟨s, hs⟩ := Option.isSome_iff_exists.mp hc
      exact ⟨.symbol s, rfl, by simp [TokenKind.text, Symbol.text_of_ofText? hs]⟩

theorem TokenKind.Lexical.proper_or_unknown {k : TokenKind} (h : k.Lexical) :
    k.proper = true ∨ ∃ run, k = .unknown run := by
  cases k with
  | unknown run => exact .inr ⟨run, rfl⟩
  | keyword w => exact .inl h
  | symbol s => exact .inl h
  | number digits => exact .inl h
  | ident name => exact .inl h
  | eof => exact .inl h

/-- A run starts where no proper token does, and reaches to the next blank. -/
theorem munch_run {c : Char} (h : ¬StartsToken c) (cs : List Char) :
    munch c cs = (c :: cs.takeWhile (!isBlank ·), cs.dropWhile (!isBlank ·)) := by
  rw [startsToken_iff, not_or, not_or] at h
  obtain ⟨halpha, hdigit, hsymbol⟩ := h
  have hquery : c ≠ '?' := by
    rintro rfl
    exact hsymbol (by decide)
  simp only [munch, halpha, hdigit, hquery, hsymbol, Bool.false_eq_true, if_false]

/-- The text of a lexical token gives the token. -/
theorem TokenKind.ofText_text_of_lexical {k : TokenKind} (h : k.Lexical) : ofText k.text = k := by
  rcases h.proper_or_unknown with hk | ⟨run, rfl⟩
  · exact ofText_text hk
  · obtain ⟨c, hc, hstarts⟩ := h
    obtain ⟨cs, htext⟩ := List.head?_eq_some_iff.mp (Option.mem_def.mp hc)
    have hkeyword : Keyword.ofText? run = none := by
      rw [Option.eq_none_iff_forall_ne_some]
      intro w hw
      exact hstarts ⟨.keyword w, rfl, by rw [text, Keyword.text_of_ofText? hw]; exact hc⟩
    have hsymbol : Symbol.ofText? run = none := by
      rw [Option.eq_none_iff_forall_ne_some]
      intro s hs
      exact hstarts ⟨.symbol s, rfl, by rw [text, Symbol.text_of_ofText? hs]; exact hc⟩
    rw [startsToken_iff, not_or, not_or] at hstarts
    simp [ofText, text, hkeyword, hsymbol, htext, hstarts.1, hstarts.2.1]

/-- The text starts with the token, which ends before the rest. -/
structure TokenKind.Leads (k : TokenKind) (text rest : List Char) : Prop where
  append : k.text.toList ++ rest = text
  lexical : k.Lexical
  unbroken : ∀ c ∈ k.text.toList, isBlank c = false
  stops : Stops k.goesOn rest

/-- The token that leads a text is munched off it. -/
theorem munch_of_leads {k : TokenKind} {c : Char} {cs rest : List Char}
    (h : k.Leads (c :: cs) rest) : munch c cs = (k.text.toList, rest) := by
  obtain ⟨happend, hk, hunbroken, hstops⟩ := h
  rcases hk.proper_or_unknown with hproper | ⟨run, rfl⟩
  · obtain ⟨d, ds, htext, -, hmunch⟩ := munch_proper hproper hstops
    rw [htext, List.cons_append] at happend
    obtain ⟨rfl, rfl⟩ := List.cons.inj happend
    rw [hmunch, htext]
  · -- what a run is made of does not matter, except that no blank is in it
    obtain ⟨d, hd, hstarts⟩ := hk
    obtain ⟨ds, htext⟩ := List.head?_eq_some_iff.mp (Option.mem_def.mp hd)
    rw [TokenKind.text, htext] at happend hunbroken ⊢
    rw [List.cons_append] at happend
    obtain ⟨rfl, rfl⟩ := List.cons.inj happend
    have hds : ∀ d ∈ ds, (!isBlank d) = true := fun d hd => by
      simp [hunbroken d (List.mem_cons_of_mem _ hd)]
    have hrest : Stops (!isBlank ·) rest := hstops
    rw [munch_run hstarts, List.takeWhile_append_of_pos hds, List.dropWhile_append_of_pos hds,
      hrest.takeWhile_eq, hrest.dropWhile_eq, List.append_nil]

theorem exists_word_leads {c : Char} (hc : c.isAlpha = true) (cs : List Char) :
    ∃ k : TokenKind, k.Leads (c :: cs) (cs.dropWhile Char.isAlphanum) := by
  have halnum : ∀ d ∈ c :: cs.takeWhile Char.isAlphanum, d.isAlphanum = true := by
    rw [List.forall_mem_cons]
    exact ⟨by simp [Char.isAlphanum, hc], List.all_eq_true.mp List.all_takeWhile⟩
  have happend : c :: cs.takeWhile Char.isAlphanum ++ cs.dropWhile Char.isAlphanum = c :: cs := by
    simp
  let name := String.ofList (c :: cs.takeWhile Char.isAlphanum)
  have hname : name.toList = c :: cs.takeWhile Char.isAlphanum := String.toList_ofList
  cases hw : Keyword.ofText? name with
  | some w =>
      have htext := congrArg String.toList (Keyword.text_of_ofText? hw)
      rw [hname] at htext
      refine ⟨.keyword w, ?_, rfl, ?_, stops_dropWhile _ cs⟩
      · rw [TokenKind.text, htext, happend]
      · rw [TokenKind.text, htext]
        exact fun d hd => isBlank_of_isAlphanum (halnum d hd)
  | none =>
      refine ⟨.ident name, ?_, ?_, ?_, stops_dropWhile _ cs⟩
      · rw [TokenKind.text, hname, happend]
      · show isName name = true
        simp only [isName, hname, hc, List.all_takeWhile, hw, Option.isNone_none, Bool.and_self]
      · rw [TokenKind.text, hname]
        exact fun d hd => isBlank_of_isAlphanum (halnum d hd)

theorem exists_numeral_leads {c : Char} (hc : c.isDigit = true) (cs : List Char) :
    ∃ k : TokenKind, k.Leads (c :: cs) (cs.dropWhile Char.isDigit) := by
  have hdigits : ∀ d ∈ c :: cs.takeWhile Char.isDigit, d.isDigit = true := by
    rw [List.forall_mem_cons]
    exact ⟨hc, List.all_eq_true.mp List.all_takeWhile⟩
  let digits := String.ofList (c :: cs.takeWhile Char.isDigit)
  have htext : digits.toList = c :: cs.takeWhile Char.isDigit := String.toList_ofList
  refine ⟨.number digits, ?_, ?_, ?_, stops_dropWhile _ cs⟩
  · rw [TokenKind.text, htext, List.cons_append, List.takeWhile_append_dropWhile]
  · show isNumeral digits = true
    simp only [isNumeral, htext, List.all_eq_true.mpr hdigits, List.isEmpty_cons, Bool.not_false,
      Bool.and_self]
  · rw [TokenKind.text, htext]
    exact fun d hd => isBlank_of_isAlphanum (by simp [Char.isAlphanum, hdigits d hd])

theorem TokenKind.goesOn_symbol {s : Symbol} (h : s ≠ .query) (c : Char) :
    (symbol s).goesOn c = false := by
  cases s with
  | query => exact absurd rfl h
  | _ => rfl

theorem Symbol.text_unbroken (s : Symbol) : ∀ c ∈ s.text.toList, isBlank c = false := by
  have hall : s.text.toList.all (!isBlank ·) = true := by cases s <;> decide
  intro c hc
  simpa using List.all_eq_true.mp hall c hc

theorem Symbol.leads (s : Symbol) {rest : List Char} (h : Stops (TokenKind.symbol s).goesOn rest) :
    (TokenKind.symbol s).Leads (s.text.toList ++ rest) rest :=
  ⟨rfl, rfl, s.text_unbroken, h⟩

/-- A query mark takes a second one. -/
theorem exists_symbol_leads {c : Char} (hc : (Symbol.ofText? (String.singleton c)).isSome = true)
    (cs : List Char) : ∃ (k : TokenKind) (rest : List Char), k.Leads (c :: cs) rest := by
  obtain ⟨s, hs⟩ := Option.isSome_iff_exists.mp hc
  have htext : s.text.toList = [c] := by simp [Symbol.text_of_ofText? hs]
  by_cases hquery : s = .query ∧ cs.head? = some '?'
  · obtain ⟨rfl, hhead⟩ := hquery
    obtain ⟨rest, rfl⟩ := List.head?_eq_some_iff.mp hhead
    obtain rfl : '?' = c := (List.cons.inj htext).1
    exact ⟨_, rest, Symbol.queryQuery.leads fun _ _ => rfl⟩
  · have hstops : Stops (TokenKind.symbol s).goesOn cs := by
      intro d hd
      by_cases hs' : s = .query
      · subst hs'
        rw [TokenKind.goesOn, beq_eq_false_iff_ne]
        rintro rfl
        exact hquery ⟨rfl, hd⟩
      · exact TokenKind.goesOn_symbol hs' d
    have hleads := s.leads hstops
    rw [htext] at hleads
    exact ⟨.symbol s, cs, hleads⟩

theorem exists_run_leads {c : Char} (hstarts : ¬StartsToken c) (hc : isBlank c = false)
    (cs : List Char) : ∃ k : TokenKind, k.Leads (c :: cs) (cs.dropWhile (!isBlank ·)) := by
  let run := String.ofList (c :: cs.takeWhile (!isBlank ·))
  have htext : run.toList = c :: cs.takeWhile (!isBlank ·) := String.toList_ofList
  refine ⟨.unknown run, ?_, ⟨c, by simp [htext], hstarts⟩, ?_, stops_dropWhile _ cs⟩
  · rw [TokenKind.text, htext, List.cons_append, List.takeWhile_append_dropWhile]
  · rw [TokenKind.text, htext, List.forall_mem_cons]
    refine ⟨hc, fun d hd => ?_⟩
    simpa using List.all_eq_true.mp List.all_takeWhile d hd

/-- What is munched off a text is the token that leads it. -/
theorem leads_munch {c : Char} (hc : isBlank c = false) (cs : List Char) :
    (TokenKind.ofText (String.ofList (munch c cs).1)).Leads (c :: cs) (munch c cs).2 := by
  obtain ⟨k, rest, h⟩ : ∃ (k : TokenKind) (rest : List Char), k.Leads (c :: cs) rest := by
    by_cases hstarts : StartsToken c
    · rcases startsToken_iff.mp hstarts with halpha | hdigit | hsymbol
      · exact (exists_word_leads halpha cs).imp fun k hk => ⟨_, hk⟩
      · exact (exists_numeral_leads hdigit cs).imp fun k hk => ⟨_, hk⟩
      · exact exists_symbol_leads hsymbol cs
    · exact (exists_run_leads hstarts hc cs).imp fun k hk => ⟨_, hk⟩
  rw [munch_of_leads h, String.ofList_toList, TokenKind.ofText_text_of_lexical h.lexical]
  exact h

/-! ## Texts -/

/-- The text spells proper tokens, with one or more blanks between them. -/
inductive Spaced : List TokenKind → List Char → Prop
  | done {blanks : List Char} : (∀ c ∈ blanks, isBlank c = true) → Spaced [] blanks
  | token {blanks rest : List Char} {k : TokenKind} {ks : List TokenKind} :
      (∀ c ∈ blanks, isBlank c = true) → k.proper = true → Breaks rest → Spaced ks rest →
      Spaced (k :: ks) (blanks ++ k.text.toList ++ rest)

theorem tokensFrom_blanks {blanks : List Char} (h : ∀ c ∈ blanks, isBlank c = true)
    (rest : List Char) :
    ∀ here : Location,
      tokensFrom here (blanks ++ rest) = tokensFrom (here.steps blanks) rest := by
  induction blanks with
  | nil => exact fun _ => rfl
  | cons c blanks ih =>
      intro here
      rw [List.forall_mem_cons] at h
      rw [List.cons_append, tokensFrom, if_pos h.1, ih h.2, Location.steps_cons]

/-- Spaced tokens are lexed to themselves. -/
theorem tokensFrom_spaced {ks : List TokenKind} {text : List Char} (h : Spaced ks text) :
    ∀ here : Location, (tokensFrom here text).map Token.kind = ks := by
  induction h with
  | @done blanks hblanks =>
      intro here
      rw [← List.append_nil blanks, tokensFrom_blanks hblanks, tokensFrom]
      rfl
  | @token blanks rest k ks hblanks hk hbreaks _ ih =>
      intro here
      obtain ⟨c, cs, htext, hc, hmunch⟩ := munch_proper hk (hbreaks.stops k)
      rw [List.append_assoc, tokensFrom_blanks hblanks, htext, List.cons_append, tokensFrom,
        if_neg (by simp [hc])]
      simp only [hmunch, List.map_cons, ih]
      rw [← htext, String.ofList_toList, TokenKind.ofText_text hk]

/-! ## Tokens of a text -/

theorem lexed_kind (here : Location) (text : List Char) :
    ∀ t ∈ tokensFrom here text, t.kind.proper = true ∨ t.kind.isUnknown = true := by
  fun_induction tokensFrom here text with
  | case1 => exact List.forall_mem_nil _
  | case2 here c cs _ ih => exact ih
  | case3 here c cs hc there ih =>
      rw [List.forall_mem_cons]
      refine ⟨?_, ih⟩
      rcases (leads_munch (by simpa using hc) cs).lexical.proper_or_unknown with h | ⟨run, h⟩
      · exact .inl h
      · exact .inr (by rw [h]; rfl)

end AgentLang
