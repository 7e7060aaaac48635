import AgentLang.Proofs.Lines
import AgentLang.Source.LineIndex

/-!
# Looking up bytes in an index of lines

Whatever byte is looked up, the index and a scan of the source agree
(`location?_ofSource`). The two meet in the longest text from the start of the source that
ends at or before the byte (`Reaches`). The lines that start within it are the ones that
halving separates from the others, and the last of them is where its whole lines end. From
there the text up to a boundary is its last line, while no text ends at any other byte.

Nothing here depends on the size of the source. That lines and columns do not overflow is
a matter of what the scan counts.
-/

namespace AgentLang

open String (utf8Len)

/-! ## Halving -/

section Halving

variable {α : Type} {p : α → Bool} {as bs : List α} (has : ∀ a ∈ as, p a = true)
  (hbs : ∀ b ∈ bs, p b = false)
include has hbs

/-- The border between the two parts stays between the bounds. -/
theorem search_append {lo hi : Nat} (h : hi ≤ (as ++ bs).toArray.size) (hlo : lo ≤ as.length)
    (hhi : as.length ≤ hi) : partitionPoint.search p (as ++ bs).toArray lo hi h = as.length := by
  fun_induction partitionPoint.search p (as ++ bs).toArray lo hi h with
  | case1 lo hi h hlt mid hmid hp ih =>
    refine ih ?_ hhi
    by_contra hle
    have hle' : as.length ≤ mid := by omega
    have hmem : (as ++ bs).toArray[mid] ∈ bs := by
      simp [List.getElem_append_right hle']
    exact Bool.false_ne_true ((hbs _ hmem).symm.trans hp)
  | case2 lo hi h hlt mid hmid hp ih =>
    refine ih hlo ?_
    by_contra hle
    have hlt' : mid < as.length := by omega
    have hmem : (as ++ bs).toArray[mid] ∈ as := by
      simp [List.getElem_append_left hlt']
    exact hp (has _ hmem)
  | case3 lo hi h hlt => omega

theorem partitionPoint_append : partitionPoint p (as ++ bs).toArray = as.length :=
  search_append has hbs _ (Nat.zero_le _) (by simp)

end Halving

/-! ## Texts between bytes -/

theorem splitBytes?_eq_some_iff {cs before after : List Char} {bytes : Nat} :
    splitBytes? cs bytes = some (before, after) ↔
      cs = before ++ after ∧ utf8Len before = bytes := by
  fun_induction splitBytes? cs bytes generalizing before with
  | case1 cs =>
    rw [String.utf8Len_eq_zero, Option.some.injEq, Prod.mk.injEq]
    constructor
    · rintro ⟨rfl, rfl⟩
      exact ⟨rfl, rfl⟩
    · rintro ⟨rfl, rfl⟩
      exact ⟨rfl, rfl⟩
  | case2 bytes hne =>
    refine iff_of_false (by simp) ?_
    rintro ⟨hnil, rfl⟩
    obtain ⟨rfl, -⟩ := List.append_eq_nil_iff.mp hnil.symm
    exact hne rfl
  | case3 bytes hne c rest hlt =>
    refine iff_of_false (by simp) ?_
    rintro ⟨heq, rfl⟩
    cases before with
    | nil => exact hne rfl
    | cons d before =>
      obtain ⟨rfl, -⟩ := List.cons.inj heq
      rw [String.utf8Len_cons] at hlt
      omega
  | case4 bytes hne c rest hle ih =>
    cases before with
    | nil =>
      refine iff_of_false (by simp) ?_
      rintro ⟨-, rfl⟩
      exact hne rfl
    | cons d before =>
      have hlen : utf8Len (c :: before) = bytes ↔ utf8Len before = bytes - c.utf8Size := by
        rw [String.utf8Len_cons]
        omega
      simp only [Option.map_eq_some_iff, Prod.exists, Prod.mk.injEq, List.cons.injEq,
        List.cons_append]
      constructor
      · rintro ⟨before', after', hsplit, ⟨rfl, rfl⟩, rfl⟩
        obtain ⟨heq, hbytes⟩ := ih.mp hsplit
        exact ⟨⟨rfl, heq⟩, hlen.mpr hbytes⟩
      · rintro ⟨⟨rfl, heq⟩, hbytes⟩
        exact ⟨before, after, ih.mpr ⟨heq, hlen.mp hbytes⟩, ⟨rfl, rfl⟩, rfl⟩

/-- What is read between two bytes is what stands between them. -/
theorem slice?_eq_some_iff {source : String} {start stop : Nat} {text : List Char} :
    slice? source start stop = some text ↔ IsSlice source start stop text := by
  unfold slice? IsSlice
  constructor
  · intro h
    split at h
    · cases h
    · next hle =>
      simp only [Option.bind_eq_some_iff, Option.map_eq_some_iff, Prod.exists] at h
      obtain ⟨before, rest, hbefore, text', after, htext, rfl⟩ := h
      obtain ⟨hs, rfl⟩ := splitBytes?_eq_some_iff.mp hbefore
      obtain ⟨rfl, hlen⟩ := splitBytes?_eq_some_iff.mp htext
      refine ⟨before, after, hs, rfl, ?_⟩
      rw [String.utf8Len_append]
      omega
  · rintro ⟨before, after, hs, rfl, rfl⟩
    have hlen : utf8Len (before ++ text) = utf8Len before + utf8Len text :=
      String.utf8Len_append ..
    have hrest : splitBytes? (text ++ after) (utf8Len (before ++ text) - utf8Len before) =
        some (text, after) := splitBytes?_eq_some_iff.mpr ⟨rfl, by omega⟩
    rw [if_neg (by omega), splitBytes?_eq_some_iff.mpr ⟨hs, rfl⟩]
    simp only [Option.bind_some, hrest, Option.map_some]

/-! ## Line starts -/

/-- The bytes behind the line breaks of a text that starts at byte `start`. -/
def lineStartsFrom (start : Nat) (text : List Char) : List Nat :=
  ((charOffsets start text).filter fun p => p.2 = '\n').map fun p => p.1 + 1

theorem lineStarts_ofSource (source : String) :
    (LineIndex.ofSource source).lineStarts = (0 :: lineStartsFrom 0 source.toList).toArray := by
  simp [LineIndex.ofSource, lineStartsFrom]

theorem charOffsets_append (as bs : List Char) (start : Nat) :
    charOffsets start (as ++ bs) =
      charOffsets start as ++ charOffsets (start + utf8Len as) bs := by
  induction as generalizing start with
  | nil => rfl
  | cons a as ih =>
    rw [List.cons_append, charOffsets, charOffsets, ih, String.utf8Len_cons, List.cons_append]
    simp only [Nat.add_assoc, Nat.add_comm a.utf8Size]

theorem lineStartsFrom_append (as bs : List Char) (start : Nat) :
    lineStartsFrom start (as ++ bs) =
      lineStartsFrom start as ++ lineStartsFrom (start + utf8Len as) bs := by
  simp only [lineStartsFrom, charOffsets_append, List.filter_append, List.map_append]

theorem lineStartsFrom_cons (c : Char) (text : List Char) (start : Nat) :
    lineStartsFrom start (c :: text) =
      if c = '\n' then (start + 1) :: lineStartsFrom (start + 1) text
      else lineStartsFrom (start + c.utf8Size) text := by
  by_cases hc : c = '\n'
  · subst hc
    rfl
  · simp [lineStartsFrom, charOffsets, hc]

theorem length_lineStartsFrom (text : List Char) :
    ∀ start, (lineStartsFrom start text).length = text.count '\n' := by
  induction text with
  | nil => exact fun _ => rfl
  | cons c text ih =>
    intro start
    rw [lineStartsFrom_cons]
    by_cases hc : c = '\n' <;> simp [hc, ih]

theorem bounds_of_mem_lineStartsFrom {n : Nat} {text : List Char} :
    ∀ {start}, n ∈ lineStartsFrom start text → start < n ∧ n ≤ start + utf8Len text := by
  induction text with
  | nil => simp [lineStartsFrom, charOffsets]
  | cons c text ih =>
    intro start hn
    have hpos := c.utf8Size_pos
    rw [String.utf8Len_cons]
    rw [lineStartsFrom_cons] at hn
    split at hn
    · next hc =>
      rcases List.mem_cons.mp hn with rfl | hn
      · omega
      · have := ih hn
        omega
    · have := ih hn
      omega

/-- No line starts before the end of the first character. -/
theorem le_of_mem_lineStartsFrom {n start : Nat} {c : Char} {text : List Char}
    (hn : n ∈ lineStartsFrom start (c :: text)) : start + c.utf8Size ≤ n := by
  rw [lineStartsFrom_cons] at hn
  split at hn
  · next hc =>
    have hsize : c.utf8Size = 1 := hc ▸ rfl
    rcases List.mem_cons.mp hn with rfl | hn
    · omega
    · have := bounds_of_mem_lineStartsFrom hn
      omega
  · have := bounds_of_mem_lineStartsFrom hn
    omega

/-- The last line that starts within a text starts behind its whole lines. -/
theorem getLast?_lineStartsFrom (text : List Char) :
    (0 :: lineStartsFrom 0 text).getLast? = some (utf8Len (wholeLines text)) := by
  induction text using List.reverseRecOn with
  | nil => rfl
  | append_singleton text c ih =>
    rw [lineStartsFrom_append, lineStartsFrom_cons, Nat.zero_add]
    by_cases hc : c = '\n'
    · subst hc
      have hlast : lineStartsFrom (utf8Len text + 1) [] = [] := rfl
      rw [if_pos rfl, hlast, ← List.cons_append, List.getLast?_concat,
        wholeLines_concat_newline, utf8Len_concat]
      rfl
    · rw [if_neg hc, wholeLines_concat hc, ← ih]
      simp [lineStartsFrom, charOffsets]

/-! ## Looking up -/

/-- The text is the longest from the start of the source that ends at or before the byte. -/
structure Reaches (source : String) (byte : Nat) (reached : List Char) : Prop where
  isPrefix : reached <+: source.toList
  le : utf8Len reached ≤ byte
  last : ∀ other, other <+: source.toList → utf8Len other ≤ byte → other <+: reached

theorem checkedSub_of_le {m n : Nat} (h : n ≤ m) : checkedSub m n = some (m - n) :=
  if_neg (Nat.not_lt.mpr h)

section Reaches

variable {source : String} {byte : Nat} {reached : List Char}

/-- The lines that start at or before the byte are those that start within the text. -/
theorem Reaches.lineStarts_eq (h : Reaches source byte reached) :
    ∃ later, (LineIndex.ofSource source).lineStarts =
        ((0 :: lineStartsFrom 0 reached) ++ later).toArray ∧
      (∀ n ∈ 0 :: lineStartsFrom 0 reached, n ≤ byte) ∧ ∀ n ∈ later, byte < n := by
  obtain ⟨rest, hs⟩ := h.isPrefix
  refine ⟨lineStartsFrom (utf8Len reached) rest, ?_, ?_, ?_⟩
  · rw [lineStarts_ofSource, ← hs, lineStartsFrom_append, Nat.zero_add, List.cons_append]
  · rw [List.forall_mem_cons]
    refine ⟨Nat.zero_le _, fun n hn => ?_⟩
    have := (bounds_of_mem_lineStartsFrom hn).2
    have := h.le
    omega
  · intro n hn
    cases rest with
    | nil => simp [lineStartsFrom, charOffsets] at hn
    | cons c rest =>
      refine Nat.lt_of_lt_of_le ?_ (le_of_mem_lineStartsFrom hn)
      rw [← utf8Len_concat]
      by_contra hle
      have hlonger := (h.last (reached ++ [c]) ⟨rest, by simpa using hs⟩ (by omega)).length_le
      simp at hlonger

/-- The line that is found, where it starts, and how the column is counted. -/
theorem Reaches.location?_eq (h : Reaches source byte reached) :
    (LineIndex.ofSource source).location? source byte =
      some ⟨byte, (1 + reached.count '\n').toUInt32,
        (((slice? source (utf8Len (wholeLines reached)) byte).map List.length).getD
          (byte - utf8Len (wholeLines reached))).toUInt32 + 1⟩ := by
  obtain ⟨later, hstarts, hbefore, hbehind⟩ := h.lineStarts_eq
  have hline : partitionPoint (fun start => decide (start ≤ byte))
      (LineIndex.ofSource source).lineStarts = 1 + reached.count '\n' := by
    rw [hstarts, partitionPoint_append (by simpa using hbefore) (by simpa using hbehind),
      List.length_cons, length_lineStartsFrom, Nat.add_comm]
  have hstart : (LineIndex.ofSource source).lineStarts[1 + reached.count '\n' - 1]? =
      some (utf8Len (wholeLines reached)) := by
    rw [← getLast?_lineStartsFrom, List.getLast?_eq_getElem?, hstarts, List.getElem?_toArray,
      List.getElem?_append_left (by simp [length_lineStartsFrom])]
    simp [length_lineStartsFrom]
  have hle : utf8Len (wholeLines reached) ≤ byte :=
    (String.utf8Len_le_of_prefix (wholeLines_isPrefix reached)).trans h.le
  simp only [LineIndex.location?, hline, checkedSub_of_le (Nat.le_add_right 1 _),
    checkedSub_of_le hle, hstart, bind, Option.bind_some, pure]

theorem reaches_of_boundary (h : reached <+: source.toList) :
    Reaches source (utf8Len reached) reached := by
  refine ⟨h, Nat.le_refl _, fun other ho hle => ?_⟩
  obtain ⟨rest, hs⟩ := h
  obtain ⟨rest', hs'⟩ := ho
  exact prefix_of_utf8Len_le (hs'.trans hs.symm) hle

/-- On a boundary the column counts the characters of the line before it. -/
theorem slice?_lastLine (h : reached <+: source.toList) :
    slice? source (utf8Len (wholeLines reached)) (utf8Len reached) = some (lastLine reached) := by
  obtain ⟨rest, hs⟩ := h
  refine slice?_eq_some_iff.mpr ⟨wholeLines reached, rest, ?_, rfl, ?_⟩
  · rw [← List.append_assoc, wholeLines_append_lastLine, hs]
  · rw [wholeLines_append_lastLine]

/-- Bytes that are no boundaries end no text. -/
theorem slice?_eq_none {start : Nat} (h : ¬IsBoundary source byte) :
    slice? source start byte = none := by
  rw [Option.eq_none_iff_forall_ne_some]
  intro text htext
  obtain ⟨before, after, hs, -, hlen⟩ := slice?_eq_some_iff.mp htext
  exact h ⟨before ++ text, ⟨after, by rw [hs, List.append_assoc]⟩, hlen⟩

end Reaches

theorem toUInt32_add_one (n : Nat) : (n + 1).toUInt32 = n.toUInt32 + 1 := UInt32.ofNat_add n 1

/-- Stepping through a text counts its line breaks, and the characters since the last one. -/
theorem start_steps_eq (text : List Char) :
    Location.start.steps text = ⟨utf8Len text, (1 + text.count '\n').toUInt32,
      (lastLine text).length.toUInt32 + 1⟩ := by
  induction text using List.reverseRecOn with
  | nil => rfl
  | append_singleton text c ih =>
    rw [Location.steps_append, ih, Location.steps_cons, Location.steps_nil, Location.step,
      utf8Len_concat]
    by_cases hc : c = '\n'
    · subst hc
      rw [if_pos rfl, lastLine_concat_newline, List.count_append, List.count_singleton_self,
        ← Nat.add_assoc, toUInt32_add_one]
      rfl
    · rw [if_neg hc, lastLine_concat hc, List.length_append, List.count_append,
        List.count_singleton, beq_eq_false_iff_ne.mpr hc, List.length_singleton,
        toUInt32_add_one]
      rfl

/-- **Looking up is counting.** The index of a source locates every byte, and where a scan of
the source does. -/
theorem location?_ofSource (source : String) (byte : Nat) :
    (LineIndex.ofSource source).location? source byte = some (locate source byte) := by
  by_cases hbyte : IsBoundary source byte
  · obtain ⟨before, hbefore, rfl⟩ := hbyte
    obtain ⟨rest, hs⟩ := hbefore
    rw [locate_append hs.symm, start_steps_eq, (reaches_of_boundary ⟨rest, hs⟩).location?_eq,
      slice?_lastLine ⟨rest, hs⟩, Option.map_some, Option.getD_some]
  · have hpos : utf8Len [] < byte :=
      Nat.pos_of_ne_zero fun h => hbyte ⟨[], List.nil_prefix, h.symm⟩
    obtain ⟨reached, hfront, hlt, hlast, heq⟩ :=
      exists_locateFrom_eq hbyte source.toList [] rfl hpos
    have hlocate : locate source byte =
        (Location.start.steps reached).within (utf8Len (wholeLines reached)) byte := heq
    have hreaches : Reaches source byte reached := ⟨hfront, Nat.le_of_lt hlt, hlast⟩
    rw [hlocate, start_steps_eq, hreaches.location?_eq, slice?_eq_none hbyte, Option.map_none,
      Option.getD_none, Location.within]

/-- **Line and column are right and identify the byte.** Every byte of a source of less than
`2 ^ 32 - 1` bytes is found in its index. The location of a boundary is what a reader counts,
and boundaries that follow each other have locations that do. Any other byte below that number
is located in bytes on its line. -/
theorem locations_right_and_distinct (source : String)
    (hsize : source.utf8ByteSize < 2 ^ 32 - 1) :
    (∀ before, before <+: source.toList →
      ∃ l, (LineIndex.ofSource source).location? source (utf8Len before) = some l ∧
        l.Counts before) ∧
    (∀ a b, IsBoundary source a → IsBoundary source b →
      ∃ l m, (LineIndex.ofSource source).location? source a = some l ∧
        (LineIndex.ofSource source).location? source b = some m ∧ (a < b ↔ l.Precedes m) ∧
        (a ≠ b → (l.line, l.column) ≠ (m.line, m.column))) ∧
    ∀ byte, byte < 2 ^ 32 - 1 → ¬IsBoundary source byte →
      ∃ l before, (LineIndex.ofSource source).location? source byte = some l ∧
        l.CountsBytes source byte before := by
  have hfind := location?_ofSource source
  refine ⟨fun before h => ⟨_, hfind _, counts_of_boundary hsize h⟩,
    fun a b ha hb => ⟨_, _, hfind a, hfind b, lt_iff_precedes hsize ha hb,
      line_column_ne hsize ha hb⟩, fun byte hlt hbyte => ?_⟩
  obtain ⟨before, hbefore⟩ := exists_countsBytes hlt hbyte
  exact ⟨_, before, hfind byte, hbefore⟩

/-- Two lines, the first with one character of two bytes. -/
def accented : String := "\u00e9\nx"

/-- The end of the source, both sides of its line break, a byte within the first character and
one behind the end. -/
theorem accented_located :
    let find := (LineIndex.ofSource accented).location? accented
    accented.utf8ByteSize < 2 ^ 32 - 1 ∧
      (∃ l, find 4 = some l ∧ l.Counts accented.toList) ∧
      (∃ l m, find 2 = some l ∧ find 3 = some m ∧ l.Precedes m) ∧
      (∃ l before, find 1 = some l ∧ l.CountsBytes accented 1 before) ∧
      ∃ l before, find 9 = some l ∧ l.CountsBytes accented 9 before := by
  have hsize : accented.utf8ByteSize < 2 ^ 32 - 1 := by decide
  obtain ⟨hcounts, horder, hbytes⟩ := locations_right_and_distinct accented hsize
  have hfirst : IsBoundary accented 2 := ⟨['\u00e9'], by decide, by decide⟩
  have hbreak : IsBoundary accented 3 := ⟨['\u00e9', '\n'], by decide, by decide⟩
  have hwithin : ¬IsBoundary accented 1 := by
    rintro ⟨before, ⟨rest, hs⟩, hlen⟩
    cases before with
    | nil => cases hlen
    | cons c before =>
        obtain rfl : c = '\u00e9' := (List.cons.inj hs).1
        simp [utf8Len, Char.utf8Size] at hlen
  have hbehind : ¬IsBoundary accented 9 := by
    rintro ⟨before, hfront, hlen⟩
    have : utf8Len before ≤ 4 := String.utf8Len_le_of_prefix hfront
    omega
  obtain ⟨l, m, hl, hm, hlt, -⟩ := horder 2 3 hfirst hbreak
  exact ⟨hsize, hcounts accented.toList (List.prefix_refl _),
    ⟨l, m, hl, hm, hlt.mp (by decide)⟩, hbytes 1 (by decide) hwithin,
    hbytes 9 (by decide) hbehind⟩

end AgentLang
