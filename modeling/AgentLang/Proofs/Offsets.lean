import AgentLang.Source.Locate
import Mathlib.Data.String.Basic

/-!
# Bytes and characters

Spans count bytes, texts are lists of characters. The two meet at the boundaries
of characters: the offset of a boundary determines the text before it
(`append_inj_of_utf8Len`), and its location is the one that is reached by
stepping through that text (`locate_append`). What stands between two boundaries is
a slice of the source (`IsSlice`).
-/

namespace AgentLang

open String (utf8Len)

/-! ## Boundaries -/

theorem length_le_utf8Len (cs : List Char) : cs.length ≤ utf8Len cs := by
  induction cs with
  | nil => exact Nat.le_refl _
  | cons c cs ih =>
      have hc := c.utf8Size_pos
      simp only [List.length_cons, String.utf8Len_cons]
      omega

theorem utf8Len_concat (cs : List Char) (c : Char) :
    utf8Len (cs ++ [c]) = utf8Len cs + c.utf8Size := by
  rw [String.utf8Len_append, String.utf8Len_cons, String.utf8Len_nil, Nat.zero_add]

theorem prefix_of_utf8Len_le {as as' bs bs' : List Char} (h : as ++ bs = as' ++ bs')
    (hle : utf8Len as ≤ utf8Len as') : as <+: as' := by
  rcases List.append_eq_append_iff.mp h with ⟨cs, rfl, -⟩ | ⟨cs, rfl, -⟩
  · exact List.prefix_append _ _
  · rw [String.utf8Len_append] at hle
    obtain rfl : cs = [] := String.utf8Len_eq_zero.mp (by omega)
    simp

/-- A boundary of the text is determined by its offset. -/
theorem append_inj_of_utf8Len {as as' bs bs' : List Char} (h : as ++ bs = as' ++ bs')
    (heq : utf8Len as = utf8Len as') : as = as' ∧ bs = bs' := by
  obtain ⟨cs, rfl⟩ := prefix_of_utf8Len_le h (Nat.le_of_eq heq)
  obtain rfl : cs = [] := String.utf8Len_eq_zero.mp (by rw [String.utf8Len_append] at heq; omega)
  exact ⟨by simp, by simpa using h⟩

/-- There is no boundary within a character. -/
theorem utf8Len_concat_le {as as' bs bs' : List Char} {c : Char} (h : as ++ c :: bs = as' ++ bs')
    (hlt : utf8Len as < utf8Len as') : utf8Len (as ++ [c]) ≤ utf8Len as' := by
  obtain ⟨cs, rfl⟩ := prefix_of_utf8Len_le h (Nat.le_of_lt hlt)
  rw [List.append_assoc, List.append_cancel_left_eq] at h
  cases cs with
  | nil => simp at hlt
  | cons d cs =>
      obtain ⟨rfl, -⟩ := List.cons.inj h
      simp only [String.utf8Len_append, String.utf8Len_cons, String.utf8Len_nil]
      omega

/-- The text stands between the two bytes of the source, both of which are
boundaries of characters. -/
def IsSlice (source : String) (start stop : Nat) (text : List Char) : Prop :=
  ∃ before after, source.toList = before ++ (text ++ after) ∧ utf8Len before = start ∧
    utf8Len (before ++ text) = stop

section IsSlice

variable {source : String} {start stop : Nat} {text before rest : List Char} {c : Char}

theorem isSlice_of_append (h : source.toList = before ++ (text ++ rest)) :
    IsSlice source (utf8Len before) (utf8Len (before ++ text)) text :=
  ⟨before, rest, h, rfl, rfl⟩

theorem IsSlice.stop_le_size (h : IsSlice source start stop text) :
    stop ≤ utf8Len source.toList := by
  obtain ⟨before, after, hs, -, rfl⟩ := h
  rw [hs, ← List.append_assoc, String.utf8Len_append (before ++ text)]
  omega

theorem IsSlice.start_lt_stop (h : IsSlice source start stop [c]) : start < stop := by
  obtain ⟨before, after, -, rfl, rfl⟩ := h
  have hc := c.utf8Size_pos
  simp only [String.utf8Len_append, String.utf8Len_cons, String.utf8Len_nil]
  omega

theorem IsSlice.at_boundary (h : IsSlice source (utf8Len before) stop text)
    (hs : source.toList = before ++ rest) :
    ∃ after, rest = text ++ after ∧ stop = utf8Len (before ++ text) := by
  obtain ⟨before', after, hs', hlen, rfl⟩ := h
  obtain ⟨rfl, rfl⟩ := append_inj_of_utf8Len (hs'.symm.trans hs) hlen
  exact ⟨after, rfl, rfl⟩

theorem IsSlice.start_ge (h : IsSlice source start stop text)
    (hs : source.toList = before ++ c :: rest) (hlt : utf8Len before < start) :
    utf8Len (before ++ [c]) ≤ start := by
  obtain ⟨before', after, hs', rfl, -⟩ := h
  exact utf8Len_concat_le (hs.symm.trans hs') hlt

theorem IsSlice.stop_le (h : IsSlice source start stop [c])
    (hs : source.toList = before ++ rest) (hlt : start < utf8Len before) :
    stop ≤ utf8Len before := by
  obtain ⟨before', after, hs', rfl, rfl⟩ := h
  exact utf8Len_concat_le (hs'.symm.trans hs) hlt

end IsSlice

/-! ## Locations of boundaries -/

theorem Location.offset_steps (cs : List Char) :
    ∀ l : Location, (l.steps cs).offset = l.offset + utf8Len cs := by
  induction cs with
  | nil => exact fun _ => rfl
  | cons c cs ih =>
      intro l
      rw [Location.steps_cons, ih, Location.step_offset, String.utf8Len_cons]
      omega

theorem offset_start_steps (cs : List Char) : (Location.start.steps cs).offset = utf8Len cs := by
  rw [Location.offset_steps]
  exact Nat.zero_add _

theorem locateFrom_append (as bs : List Char) :
    ∀ (here : Location) (lineStart : Nat),
      locateFrom here lineStart (here.offset + utf8Len as) (as ++ bs) = here.steps as := by
  induction as with
  | nil =>
      intro here lineStart
      cases bs <;> simp [locateFrom]
  | cons a as ih =>
      intro here lineStart
      have ha := a.utf8Size_pos
      have hoffset : here.offset + utf8Len (a :: as) = (here.step a).offset + utf8Len as := by
        rw [Location.step_offset, String.utf8Len_cons]
        omega
      have hstart : (here.step a).offset + utf8Len as ≠ here.offset := by
        rw [Location.step_offset]
        omega
      have hwithin : ¬ (here.step a).offset + utf8Len as < here.offset + a.utf8Size := by
        rw [Location.step_offset]
        omega
      rw [hoffset, List.cons_append, locateFrom, if_neg hstart, if_neg hwithin]
      exact ih _ _

/-- The location of a boundary is where stepping through the text before it ends. -/
theorem locate_append {source : String} {as bs : List Char} (h : source.toList = as ++ bs) :
    locate source (utf8Len as) = Location.start.steps as := by
  have hsteps := locateFrom_append as bs .start 0
  rw [show Location.start.offset = 0 from rfl, Nat.zero_add] at hsteps
  rw [locate, h, hsteps]

end AgentLang
