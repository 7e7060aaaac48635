import AgentLang.Proofs.Offsets
import Mathlib.Data.List.DropRight

/-!
# Lines and columns

The location of a byte is compared with what a reader counts. At a boundary of characters,
the end of the source included, the line is one more than the line breaks before it and
the column one more than the characters since the last of them (`Location.Counts`). Going
on in the text makes a location later, by its line or else by its column, so that line and
column together identify a boundary.

A byte within a character or behind the end belongs to the last line that starts before
it, and its column counts bytes (`Location.CountsBytes`).

Lines and columns are machine words. They do not overflow below `2 ^ 32 - 1` bytes, which
is where the source and the bytes asked for have to stay.
-/

namespace AgentLang

open String (utf8Len)

/-! ## Lines of a text -/

/-- The lines of the text that are ended by a line break. -/
def wholeLines (text : List Char) : List Char := text.rdropWhile (· ≠ '\n')

/-- What follows the last line break of the text. -/
def lastLine (text : List Char) : List Char := text.rtakeWhile (· ≠ '\n')

@[simp] theorem wholeLines_append_lastLine (text : List Char) :
    wholeLines text ++ lastLine text = text := List.rdropWhile_append_rtakeWhile ..

theorem wholeLines_isPrefix (text : List Char) : wholeLines text <+: text :=
  List.rdropWhile_prefix ..

theorem newline_notMem_lastLine (text : List Char) : '\n' ∉ lastLine text := fun h => by
  simpa using List.mem_rtakeWhile_imp h

@[simp] theorem wholeLines_concat_newline (text : List Char) :
    wholeLines (text ++ ['\n']) = text ++ ['\n'] :=
  List.rdropWhile_concat_neg _ _ _ (by simp)

@[simp] theorem lastLine_concat_newline (text : List Char) : lastLine (text ++ ['\n']) = [] :=
  List.rtakeWhile_concat_neg _ _ _ (by simp)

section Char

variable {c : Char} (hc : c ≠ '\n') (text : List Char)
include hc

theorem wholeLines_concat : wholeLines (text ++ [c]) = wholeLines text :=
  List.rdropWhile_concat_pos _ _ _ (by simpa using hc)

theorem lastLine_concat : lastLine (text ++ [c]) = lastLine text ++ [c] :=
  List.rtakeWhile_concat_pos _ _ _ (by simpa using hc)

end Char

theorem count_newline_wholeLines (text : List Char) :
    (wholeLines text).count '\n' = text.count '\n' := by
  conv => rhs; rw [← wholeLines_append_lastLine text, List.count_append]
  rw [List.count_eq_zero.mpr (newline_notMem_lastLine text), Nat.add_zero]

theorem lastLine_append {more : List Char} (h : '\n' ∉ more) (text : List Char) :
    lastLine (text ++ more) = lastLine text ++ more := by
  induction more using List.reverseRecOn with
  | nil => simp
  | append_singleton more c ih =>
      simp only [List.mem_append, List.mem_singleton, not_or] at h
      rw [← List.append_assoc, lastLine_concat (Ne.symm h.2), ih h.1, List.append_assoc]

/-- A text that is empty or ends with a line break, so that a line starts behind it. -/
def EndsLine (text : List Char) : Prop := text = [] ∨ ∃ line, text = line ++ ['\n']

theorem endsLine_wholeLines (text : List Char) : EndsLine (wholeLines text) := by
  induction text using List.reverseRecOn with
  | nil => exact .inl rfl
  | append_singleton text c ih =>
      by_cases hc : c = '\n'
      · subst hc
        exact .inr ⟨text, wholeLines_concat_newline text⟩
      · rw [wholeLines_concat hc]
        exact ih

/-- The whole lines of a text are the last place where a line starts. -/
theorem EndsLine.isPrefix_wholeLines {start text : List Char} (h : EndsLine start)
    (hs : start <+: text) : start <+: wholeLines text := by
  induction text using List.reverseRecOn with
  | nil => exact hs
  | append_singleton text c ih =>
      by_cases hc : c = '\n'
      · rw [hc, wholeLines_concat_newline, ← hc]
        exact hs
      · rw [wholeLines_concat hc]
        rcases List.prefix_concat_iff.mp hs with rfl | hs
        · rcases h with hnil | ⟨line, hline⟩
          · simp at hnil
          · exact absurd (List.append_inj' hline rfl).2 (by simpa using hc)
        · exact ih hs

/-! ## Counting -/

/-- The location of the place behind `before`, as a reader counts: lines by their breaks and
columns by characters. -/
structure Location.Counts (l : Location) (before : List Char) : Prop where
  offset : l.offset = utf8Len before
  line : l.line.toNat = 1 + before.count '\n'
  column : l.column.toNat = 1 + (lastLine before).length

theorem toNat_add_one {n : UInt32} (h : n.toNat < 2 ^ 32 - 1) : (n + 1).toNat = n.toNat + 1 := by
  rw [UInt32.toNat_add]
  exact Nat.mod_eq_of_lt (by simp; omega)

/-- One character more is counted by one step. -/
theorem Location.Counts.step {l : Location} {before : List Char} {c : Char} (h : l.Counts before)
    (hsize : utf8Len (before ++ [c]) < 2 ^ 32 - 1) : (l.step c).Counts (before ++ [c]) := by
  have hpos := c.utf8Size_pos
  have hlength := length_le_utf8Len before
  have hoffset : (l.step c).offset = utf8Len (before ++ [c]) := by
    rw [step_offset, h.offset, utf8Len_concat]
  rw [utf8Len_concat] at hsize
  by_cases hc : c = '\n'
  · subst hc
    have hcount : before.count '\n' ≤ before.length := List.count_le_length
    have hline := toNat_add_one (n := l.line) (by rw [h.line]; omega)
    refine ⟨hoffset, ?_, ?_⟩
    · rw [Location.step, if_pos rfl, hline, h.line, List.count_append, List.count_singleton_self]
      omega
    · rw [Location.step, if_pos rfl, lastLine_concat_newline]
      rfl
  · have hlast : (lastLine before).length ≤ before.length :=
      (List.rtakeWhile_suffix ..).length_le
    have hcolumn := toNat_add_one (n := l.column) (by rw [h.column]; omega)
    refine ⟨hoffset, ?_, ?_⟩
    · rw [Location.step, if_neg hc, h.line, List.count_append, List.count_singleton,
        beq_eq_false_iff_ne.mpr hc]
      rfl
    · rw [Location.step, if_neg hc, hcolumn, h.column, lastLine_concat hc, List.length_append,
        List.length_singleton]
      omega

theorem Location.counts_steps {before : List Char} (h : utf8Len before < 2 ^ 32 - 1) :
    (Location.start.steps before).Counts before := by
  induction before using List.reverseRecOn with
  | nil => exact ⟨rfl, rfl, rfl⟩
  | append_singleton before c ih =>
      have hbefore : utf8Len before < 2 ^ 32 - 1 := by
        rw [utf8Len_concat] at h
        omega
      rw [Location.steps_append]
      exact (ih hbefore).step h

/-! ## Reading order -/

/-- On an earlier line, or on the same line and further to the left. -/
def Location.Precedes (l m : Location) : Prop :=
  l.line < m.line ∨ l.line = m.line ∧ l.column < m.column

theorem Location.Precedes.asymm {l m : Location} (h : l.Precedes m) : ¬m.Precedes l := by
  simp only [Precedes, UInt32.lt_iff_toNat_lt, ← UInt32.toNat_inj] at h ⊢
  omega

theorem Location.Precedes.ne {l m : Location} (h : l.Precedes m) :
    (l.line, l.column) ≠ (m.line, m.column) := fun heq => by
  obtain ⟨hline, hcolumn⟩ := Prod.mk.inj heq
  simp [Precedes, hline, hcolumn] at h

/-- More text is further on, whether or not it breaks the line. -/
theorem Location.Counts.precedes {l m : Location} {before more : List Char} (hl : l.Counts before)
    (hm : m.Counts (before ++ more)) (hmore : more ≠ []) : l.Precedes m := by
  have hline := hm.line
  have hcolumn := hm.column
  rw [List.count_append] at hline
  simp only [Precedes, UInt32.lt_iff_toNat_lt, ← UInt32.toNat_inj, hl.line, hl.column, hline,
    hcolumn]
  by_cases hbreak : '\n' ∈ more
  · have := List.count_pos_iff.mpr hbreak
    omega
  · have := List.length_pos_iff.mpr hmore
    rw [lastLine_append hbreak, List.length_append, List.count_eq_zero.mpr hbreak]
    omega

/-! ## Bytes that are no boundary -/

/-- No character of the source lies on both sides of the byte. -/
def IsBoundary (source : String) (offset : Nat) : Prop :=
  ∃ before, before <+: source.toList ∧ utf8Len before = offset

/-- The location of a byte that is counted from the start of its line, which is behind
`before`: no line of the source starts between the two. -/
structure Location.CountsBytes (l : Location) (source : String) (byte : Nat)
    (before : List Char) : Prop where
  isPrefix : before <+: source.toList
  endsLine : EndsLine before
  reached : utf8Len before ≤ byte
  last : ∀ other, other <+: source.toList → EndsLine other → utf8Len other ≤ byte →
    utf8Len other ≤ utf8Len before
  offset : l.offset = byte
  line : l.line.toNat = 1 + before.count '\n'
  column : l.column.toNat = byte - utf8Len before + 1

section Inside

variable {source : String} {byte : Nat}

/-- The scan comes to the last boundary before the byte. What it has read by then tells the
line that the byte is on. -/
theorem exists_locateFrom_eq (hbyte : ¬IsBoundary source byte) (text : List Char) :
    ∀ before, source.toList = before ++ text → utf8Len before < byte →
      ∃ reached, reached <+: source.toList ∧ utf8Len reached < byte ∧
        (∀ other, other <+: source.toList → utf8Len other ≤ byte → other <+: reached) ∧
        locateFrom (Location.start.steps before) (utf8Len (wholeLines before)) byte text =
          (Location.start.steps reached).within (utf8Len (wholeLines reached)) byte := by
  induction text with
  | nil =>
      intro before hs hlt
      have hs' : source.toList = before := by simpa using hs
      refine ⟨before, hs' ▸ List.prefix_refl _, hlt, fun other ho _ => hs' ▸ ho, ?_⟩
      rw [locateFrom, offset_start_steps, if_neg (Nat.ne_of_gt hlt)]
  | cons c text ih =>
      intro before hs hlt
      have hbefore : before <+: source.toList := ⟨c :: text, hs.symm⟩
      rw [locateFrom, offset_start_steps, if_neg (Nat.ne_of_gt hlt)]
      have hnext := utf8Len_concat before c
      by_cases hinside : byte < utf8Len before + c.utf8Size
      · -- the next boundary is behind the byte, so none that the byte is behind was missed
        refine ⟨before, hbefore, hlt, ?_, if_pos hinside⟩
        rintro other ⟨rest, ho⟩ hle
        rcases Nat.lt_or_ge (utf8Len before) (utf8Len other) with hbehind | hbefore
        · have := utf8Len_concat_le (hs.symm.trans ho.symm) hbehind
          omega
        · exact prefix_of_utf8Len_le (ho.trans hs) hbefore
      · have hs' : source.toList = before ++ [c] ++ text := by simpa using hs
        have hne : utf8Len (before ++ [c]) ≠ byte := fun h => hbyte ⟨_, ⟨text, hs'.symm⟩, h⟩
        obtain ⟨reached, hprefix, hreached, hlast, heq⟩ := ih (before ++ [c]) hs' (by omega)
        refine ⟨reached, hprefix, hreached, hlast, ?_⟩
        rw [if_neg hinside, ← heq, Location.steps_append]
        by_cases hc : c = '\n'
        · subst hc
          simp [offset_start_steps, hnext]
        · simp [hc, wholeLines_concat hc]

theorem exists_countsBytes (hlt : byte < 2 ^ 32 - 1) (hbyte : ¬IsBoundary source byte) :
    ∃ before, (locate source byte).CountsBytes source byte before := by
  have hpos : utf8Len [] < byte :=
    Nat.pos_of_ne_zero fun h => hbyte ⟨[], List.nil_prefix, h.symm⟩
  obtain ⟨reached, hprefix, hreached, hlast, heq⟩ :=
    exists_locateFrom_eq hbyte source.toList [] rfl hpos
  have hlocate : locate source byte =
      (Location.start.steps reached).within (utf8Len (wholeLines reached)) byte := heq
  have hcounts : (Location.start.steps reached).Counts reached :=
    Location.counts_steps (Nat.lt_trans hreached hlt)
  have hstart : utf8Len (wholeLines reached) ≤ utf8Len reached :=
    String.utf8Len_le_of_prefix (wholeLines_isPrefix reached)
  refine ⟨wholeLines reached, ?_⟩
  rw [hlocate]
  exact {
    isPrefix := (wholeLines_isPrefix reached).trans hprefix
    endsLine := endsLine_wholeLines reached
    reached := by omega
    last := fun other ho hends hle =>
      String.utf8Len_le_of_prefix (hends.isPrefix_wholeLines (hlast other ho hle))
    offset := rfl
    line := by rw [count_newline_wholeLines]; exact hcounts.line
    column := by
      have hword : (byte - utf8Len (wholeLines reached)).toUInt32.toNat =
          byte - utf8Len (wholeLines reached) :=
        UInt32.toNat_ofNat_of_lt'
          (Nat.lt_of_le_of_lt (Nat.sub_le ..) (Nat.lt_trans hlt (by decide)))
      rw [Location.within, toNat_add_one (by omega), hword] }

end Inside

/-! ## Boundaries -/

section Boundaries

variable {source : String} (hsize : source.utf8ByteSize < 2 ^ 32 - 1)
include hsize

theorem counts_of_boundary {before : List Char} (h : before <+: source.toList) :
    (locate source (utf8Len before)).Counts before := by
  rw [← String.utf8Len_toList] at hsize
  obtain ⟨after, hs⟩ := h
  rw [locate_append hs.symm]
  exact Location.counts_steps
    (Nat.lt_of_le_of_lt (String.utf8Len_le_of_prefix ⟨after, hs⟩) hsize)

theorem precedes_of_lt {a b : Nat} (ha : IsBoundary source a) (hb : IsBoundary source b)
    (hlt : a < b) : (locate source a).Precedes (locate source b) := by
  obtain ⟨before, ⟨rest, hs⟩, rfl⟩ := ha
  obtain ⟨before', ⟨rest', hs'⟩, rfl⟩ := hb
  obtain ⟨more, rfl⟩ := prefix_of_utf8Len_le (hs.trans hs'.symm) (Nat.le_of_lt hlt)
  refine (counts_of_boundary hsize ⟨rest, hs⟩).precedes
    (counts_of_boundary hsize ⟨rest', hs'⟩) fun hmore => ?_
  simp [hmore] at hlt

/-- Boundaries follow each other as their locations do. -/
theorem lt_iff_precedes {a b : Nat} (ha : IsBoundary source a) (hb : IsBoundary source b) :
    a < b ↔ (locate source a).Precedes (locate source b) := by
  refine ⟨precedes_of_lt hsize ha hb, fun h => ?_⟩
  rcases Nat.lt_trichotomy a b with hlt | rfl | hgt
  · exact hlt
  · exact absurd h h.asymm
  · exact absurd h (precedes_of_lt hsize hb ha hgt).asymm

/-- Line and column identify a boundary. -/
theorem line_column_ne {a b : Nat} (ha : IsBoundary source a) (hb : IsBoundary source b)
    (hne : a ≠ b) :
    ((locate source a).line, (locate source a).column) ≠
      ((locate source b).line, (locate source b).column) := by
  rcases Nat.lt_or_gt_of_ne hne with hlt | hgt
  · exact (precedes_of_lt hsize ha hb hlt).ne
  · exact (precedes_of_lt hsize hb ha hgt).ne.symm

end Boundaries

end AgentLang
