import AgentLang.Proofs.Legibility

/-!
# Reading rendered expressions

The text of an expression tells all of the expression but its spans
(`rendering_unambiguous`).

The first character tells names, literals and operations apart (`Expr.render_head`). Names
and literals are runs of letters, digits and minus signs, and what comes behind an operand
is a blank or a parenthesis, so a run ends with its operand. A minus that is an operator has
a blank on either side and is never taken for a sign. Hence operands can be read off the
front of a text, whatever comes behind them, and this is what the induction shows
(`Expr.render_append_inj`).
-/

namespace AgentLang

/-! ## Names and literals -/

/-- A letter, then letters and digits. A keyword is as good as any. -/
def isIdentifier (text : String) : Bool :=
  match text.toList with
  | [] => false
  | c :: cs => c.isAlpha && cs.all Char.isAlphanum

theorem isIdentifier_cases {text : String} (h : isIdentifier text = true) :
    ∃ c cs, text.toList = c :: cs ∧ c.isAlpha = true ∧ ∀ d ∈ cs, d.isAlphanum = true := by
  unfold isIdentifier at h
  split at h
  · cases h
  · next c cs htext =>
    simp only [Bool.and_eq_true, List.all_eq_true] at h
    exact ⟨c, cs, htext, h.1, h.2⟩

theorem isWord_of_isIdentifier {text : String} (h : isIdentifier text = true) :
    IsWord text := by
  obtain ⟨c, cs, htext, hc, hcs⟩ := isIdentifier_cases h
  exact isWord_of_toList htext hc hcs

theorem renderInteger_cases (v : Int64) :
    ∃ n : Nat, renderInteger v = toString n ∨ renderInteger v = "-" ++ toString n := by
  rw [renderInteger, Int.toString_eq_repr, Int.repr_eq_if]
  split
  · exact ⟨_, .inl rfl⟩
  · exact ⟨_, .inr rfl⟩

theorem toString_head (n : Nat) : ∃ c ∈ (toString n).toList.head?, c.isDigit = true := by
  have hne : Nat.toDigits 10 n ≠ [] := Nat.toDigits_ne_nil
  obtain ⟨c, cs, hdigits⟩ := List.exists_cons_of_ne_nil hne
  have htext : (toString n).toList = c :: cs := by
    rw [Nat.toString_eq_repr, Nat.toList_repr, hdigits]
  refine ⟨c, by rw [htext]; rfl, isDigits_toString n c ?_⟩
  rw [htext]
  exact List.mem_cons_self

/-- The characters of names and literals. -/
def inAtom (c : Char) : Bool := c.isAlphanum || c == '-'

theorem IsWord.atomic {s : String} (h : IsWord s) : ConsistsOf inAtom s :=
  h.mono fun c hc => by simp [inAtom, hc]

theorem renderInteger_atomic (v : Int64) : ConsistsOf inAtom (renderInteger v) := by
  obtain ⟨n, h | h⟩ := renderInteger_cases v
  · rw [h]
    exact (isWord_toString n).atomic
  · rw [h]
    exact consistsOf_append.mpr ⟨by simp [ConsistsOf, inAtom], (isWord_toString n).atomic⟩

theorem BinOp.text_append_inj {op op' : BinOp} {r r' : String}
    (h : op.text ++ r = op'.text ++ r') : op = op' ∧ r = r' := by
  have hone : ∀ o : BinOp, o.text.toList.length = 1 := by
    intro o
    cases o <;> rfl
  have h' : op.text.toList ++ r.toList = op'.text.toList ++ r'.toList := by
    simpa using congrArg String.toList h
  obtain ⟨hop, hrest⟩ := List.append_inj h' (by rw [hone, hone])
  refine ⟨?_, String.toList_inj.mp hrest⟩
  cases op <;> cases op' <;> first | rfl | cases hop

namespace Expr

/-- The names in the expression are identifiers. -/
def Legible (e : Expr) : Prop := ∀ name ∈ e.names, isIdentifier name = true

instance (e : Expr) : Decidable e.Legible :=
  inferInstanceAs (Decidable (∀ name ∈ e.names, isIdentifier name = true))

theorem legible_ident {name : String} {span : Span} :
    (ident name span).Legible ↔ isIdentifier name = true := by
  simp [Legible, names]

theorem legible_binary {op : BinOp} {left right : Expr} {span : Span} :
    (binary op left right span).Legible ↔ left.Legible ∧ right.Legible := by
  simp only [Legible, names, List.forall_mem_append]

/-! ## The first character -/

/-- What stands at the root of an expression. -/
inductive Form where
  | name | literal | operation

def form : Expr → Form
  | ident _ _ => .name
  | number _ _ => .literal
  | binary _ _ _ _ => .operation

/-- The form of the expressions whose text starts with the character. -/
def Form.ofChar (c : Char) : Form :=
  if c = '(' then .operation else if c.isAlpha then .name else .literal

theorem Form.ofChar_of_isAlpha {c : Char} (h : c.isAlpha = true) : ofChar c = .name := by
  have hne : c ≠ '(' := by
    rintro rfl
    exact absurd h (by decide)
  simp [ofChar, hne, h]

theorem Form.ofChar_of_isDigit {c : Char} (h : c.isDigit = true) : ofChar c = .literal := by
  have hne : c ≠ '(' := by
    rintro rfl
    exact absurd h (by decide)
  simp [ofChar, hne, isAlpha_of_isDigit h]

theorem render_head {e : Expr} (h : e.Legible) :
    ∃ c ∈ e.render.toList.head?, Form.ofChar c = e.form := by
  cases e with
  | ident name span =>
      obtain ⟨c, cs, htext, hc, -⟩ := isIdentifier_cases (legible_ident.mp h)
      exact ⟨c, by simp [render, htext], Form.ofChar_of_isAlpha hc⟩
  | number value span =>
      obtain ⟨n, hn | hn⟩ := renderInteger_cases value
      · obtain ⟨c, hhead, hc⟩ := toString_head n
        exact ⟨c, by rwa [render, hn], Form.ofChar_of_isDigit hc⟩
      · exact ⟨'-', by simp [render, hn], rfl⟩
  | binary op left right span => exact ⟨'(', by simp [render], rfl⟩

variable {e e' : Expr} {r r' : String}

theorem form_eq_of_render_append (he : e.Legible) (he' : e'.Legible)
    (h : e.render ++ r = e'.render ++ r') : e.form = e'.form := by
  obtain ⟨c, hc, hform⟩ := render_head he
  obtain ⟨c', hc', hform'⟩ := render_head he'
  have hhead := congrArg (·.toList.head?) h
  simp only [String.toList_append, List.head?_append, Option.mem_def.mp hc,
    Option.mem_def.mp hc', Option.some_or, Option.some.injEq] at hhead
  rw [← hform, ← hform', hhead]

/-! ## The whole text -/

theorem render_binary_append (op : BinOp) (left right : Expr) (span : Span) (r : String) :
    (binary op left right span).render ++ r =
      "(" ++ (left.render ++ (" " ++ (op.text ++ (" " ++ (right.render ++ (")" ++ r)))))) := by
  simp only [render, String.append_assoc]

/-- An expression at the front of a text is determined by the text, and so is what comes
behind it, as long as that does not go on like a name or a literal. -/
theorem render_append_inj (he : e.Legible) :
    ∀ {e' : Expr} {r r' : String}, e'.Legible → Stops inAtom r.toList → Stops inAtom r'.toList →
      e.render ++ r = e'.render ++ r' → e.erase = e'.erase ∧ r = r' := by
  induction e with
  | ident name span =>
      intro e' r r' he' hr hr' h
      have hform := form_eq_of_render_append he he' h
      cases e' with
      | ident name' span' =>
          have hname := isWord_of_isIdentifier (legible_ident.mp he)
          have hname' := isWord_of_isIdentifier (legible_ident.mp he')
          obtain ⟨rfl, hrest⟩ := hname.atomic.append_inj hname'.atomic hr hr' h
          exact ⟨rfl, hrest⟩
      | number => cases hform
      | binary => cases hform
  | number value span =>
      intro e' r r' he' hr hr' h
      have hform := form_eq_of_render_append he he' h
      cases e' with
      | ident => cases hform
      | number value' span' =>
          obtain ⟨hvalue, hrest⟩ :=
            (renderInteger_atomic value).append_inj (renderInteger_atomic value') hr hr' h
          obtain rfl := renderInteger_inj.mp hvalue
          exact ⟨rfl, hrest⟩
      | binary => cases hform
  | binary op left right span ihl ihr =>
      intro e' r r' he' hr hr' h
      have hform := form_eq_of_render_append he he' h
      cases e' with
      | ident => cases hform
      | number => cases hform
      | binary op' left' right' span' =>
          rw [legible_binary] at he he'
          rw [render_binary_append, render_binary_append, String.append_right_inj] at h
          -- the left operand ends at a blank, the right one at the parenthesis
          have hblank : ∀ t : String, Stops inAtom (" " ++ t).toList := by
            simp [Stops, inAtom]
          have hclose : ∀ t : String, Stops inAtom (")" ++ t).toList := by
            simp [Stops, inAtom]
          obtain ⟨hleft, hmid⟩ := ihl he.1 he'.1 (hblank _) (hblank _) h
          rw [String.append_right_inj] at hmid
          obtain ⟨rfl, hlast⟩ := BinOp.text_append_inj hmid
          rw [String.append_right_inj] at hlast
          obtain ⟨hright, hrest⟩ := ihr he.2 he'.2 (hclose _) (hclose _) hlast
          rw [String.append_right_inj] at hrest
          exact ⟨by simp only [erase, hleft, hright], hrest⟩

theorem render_erase (e : Expr) : e.erase.render = e.render := by
  induction e with
  | ident name span => rfl
  | number value span => rfl
  | binary op left right span ihl ihr => simp only [erase, render, ihl, ihr]

end Expr

/-- **The rendering is unambiguous.** Expressions whose names are identifiers have the same
text exactly if they are the same expression, up to spans. -/
theorem rendering_unambiguous {e e' : Expr} (he : e.Legible) (he' : e'.Legible) :
    e.render = e'.render ↔ e.erase = e'.erase := by
  constructor
  · intro h
    have hend : Stops inAtom "".toList := by simp [Stops]
    exact (Expr.render_append_inj he he' hend hend (congrArg (· ++ "") h)).1
  · intro h
    rw [← e.render_erase, ← e'.render_erase, h]

/-- `((plan - -1) - x2)`, with a span of its own for the name. -/
def groupedLeft (span : Span) : Expr :=
  .join .sub (.join .sub (.ident "plan" span) (.number (-1) .nowhere)) (.ident "x2" .nowhere)

/-- `(plan - (-1 - x2))` -/
def groupedRight : Expr :=
  .join .sub (.ident "plan" .nowhere)
    (.join .sub (.number (-1) .nowhere) (.ident "x2" .nowhere))

theorem grouping_shows_in_text :
    let moved : Span := ⟨⟨3, 1, 4⟩, ⟨7, 1, 8⟩⟩
    groupedLeft .nowhere ≠ groupedLeft moved ∧
      (groupedLeft .nowhere).render = (groupedLeft moved).render ∧
      (groupedLeft .nowhere).erase = (groupedLeft moved).erase ∧
      (groupedLeft .nowhere).render ≠ groupedRight.render := by
  intro moved
  have hleft : (groupedLeft .nowhere).Legible := by decide
  have hmoved : (groupedLeft moved).Legible := by decide
  have hright : groupedRight.Legible := by decide
  have htext : (groupedLeft .nowhere).render = (groupedLeft moved).render := rfl
  refine ⟨by decide, htext, (rendering_unambiguous hleft hmoved).mp htext, fun h => ?_⟩
  exact absurd ((rendering_unambiguous hleft hright).mp h) (by decide)

/-- A name that is no identifier can have the text of a literal. -/
example : (Expr.ident "-1" .nowhere).render = (Expr.number (-1) .nowhere).render := rfl

end AgentLang
