import AgentLang.Proofs.Lexemes
import AgentLang.Proofs.Offsets

/-!
# Tokens tile the source

The tokens of a source cover it, blanks apart, and there is only one way to do so:
a list of tokens is what lexing yields if and only if its tokens stand in the
source where their spans say, in order, with nothing but blanks outside of them,
and none of them could be longer (`lexing_tiles_source`).

The rules say nothing about how a source is scanned. They are met from the left to
the right: a blank belongs to no token (`tilingFrom_blank`), and at any other
character stands the one token that leads the text there (`tilingFrom_token`).
-/

namespace AgentLang

open String (utf8Len)

/-! ## Tilings -/

/-- The token stands in the source where its span says, it is one that lexing can
yield, and it could not be longer. -/
structure Token.IsTile (source : String) (t : Token) : Prop where
  nonempty : t.span.start.offset < t.span.stop.offset
  slice : IsSlice source t.span.start.offset t.span.stop.offset t.lexeme.toList
  start : t.span.start = locate source t.span.start.offset
  stop : t.span.stop = locate source t.span.stop.offset
  unbroken : ∀ c ∈ t.lexeme.toList, isBlank c = false
  lexical : t.kind.Lexical
  maximal : ∀ (c : Char) (next : Nat), IsSlice source t.span.stop.offset next [c] →
    t.kind.goesOn c = false

/-- The tokens tile the source from a byte on: they are disjoint and in order, and
what is outside of them is blank. -/
structure TilingFrom (source : String) (first : Nat) (tokens : List Token) : Prop where
  tiles : ∀ t ∈ tokens, t.IsTile source
  ordered : tokens.Pairwise fun t t' => t.span.stop.offset ≤ t'.span.start.offset
  within : ∀ t ∈ tokens, first ≤ t.span.start.offset
  covering : ∀ (c : Char) (here next : Nat), first ≤ here → IsSlice source here next [c] →
    isBlank c = false →
    ∃ t ∈ tokens, t.span.start.offset ≤ here ∧ next ≤ t.span.stop.offset

/-! ## Tiles are leading tokens -/

/-- The token of a text, between the places before and after it. -/
def tokenAfter (before : List Char) (k : TokenKind) : Token :=
  ⟨k, ⟨Location.start.steps before, Location.start.steps (before ++ k.text.toList)⟩⟩

section Tiles

variable {source : String} {before text rest cs : List Char} {c : Char} {k : TokenKind}
  {t : Token} {tokens : List Token}

@[simp] theorem start_tokenAfter :
    (tokenAfter before k).span.start.offset = utf8Len before := offset_start_steps _

@[simp] theorem stop_tokenAfter :
    (tokenAfter before k).span.stop.offset = utf8Len (before ++ k.text.toList) :=
  offset_start_steps _

theorem TokenKind.Leads.unique {k' : TokenKind} {rest' : List Char} (h : k.Leads (c :: cs) rest)
    (h' : k'.Leads (c :: cs) rest') : k = k' := by
  have hmunch := (munch_of_leads h).symm.trans (munch_of_leads h')
  have htext : k.text = k'.text := String.toList_injective (Prod.mk.inj hmunch).1
  rw [← k.ofText_text_of_lexical h.lexical, htext, k'.ofText_text_of_lexical h'.lexical]

theorem TokenKind.Leads.text_ne_nil (h : k.Leads (c :: cs) rest) : k.text.toList ≠ [] := by
  intro hnil
  have hlength := length_munch_le c cs
  have happend := congrArg List.length h.append
  rw [munch_of_leads h] at hlength
  simp only [hnil, List.nil_append, List.length_cons] at happend hlength
  omega

theorem TokenKind.Leads.isBlank_head (h : k.Leads (c :: cs) rest) : isBlank c = false := by
  obtain ⟨d, ds, htext⟩ := List.exists_cons_of_ne_nil h.text_ne_nil
  have happend := h.append
  rw [htext, List.cons_append] at happend
  obtain ⟨rfl, -⟩ := List.cons.inj happend
  exact h.unbroken d (by simp [htext])

theorem TokenKind.Leads.split (h : k.Leads text rest) (hs : source.toList = before ++ text) :
    source.toList = before ++ k.text.toList ++ rest := by
  rw [List.append_assoc, h.append]
  exact hs

theorem TokenKind.Leads.isTile (h : k.Leads (c :: cs) rest)
    (hs : source.toList = before ++ c :: cs) : (tokenAfter before k).IsTile source where
  nonempty := by
    have hpos : utf8Len k.text.toList ≠ 0 := fun h0 => h.text_ne_nil (String.utf8Len_eq_zero.mp h0)
    simp only [start_tokenAfter, stop_tokenAfter, String.utf8Len_append]
    omega
  slice := by
    rw [start_tokenAfter, stop_tokenAfter]
    exact isSlice_of_append (by rw [h.append]; exact hs)
  start := by
    rw [start_tokenAfter]
    exact (locate_append hs).symm
  stop := by
    rw [stop_tokenAfter]
    exact (locate_append (h.split hs)).symm
  unbroken := h.unbroken
  lexical := h.lexical
  maximal := by
    intro d next hd
    rw [stop_tokenAfter] at hd
    obtain ⟨after, rfl, -⟩ := hd.at_boundary (h.split hs)
    exact h.stops d rfl

theorem Token.IsTile.leads (h : t.IsTile source) (hs : source.toList = before ++ text)
    (hstart : t.span.start.offset = utf8Len before) :
    t = tokenAfter before t.kind ∧ ∃ rest, t.kind.Leads text rest := by
  have hslice := h.slice
  rw [hstart] at hslice
  obtain ⟨after, rfl, hstop⟩ := hslice.at_boundary hs
  have hs' : source.toList = before ++ t.lexeme.toList ++ after := by rw [hs, List.append_assoc]
  refine ⟨?_, after, rfl, h.lexical, h.unbroken, fun d hd => ?_⟩
  · have hstart' := h.start
    have hstop' := h.stop
    rw [hstart, locate_append hs] at hstart'
    rw [hstop, locate_append hs'] at hstop'
    exact congrArg (Token.mk t.kind) (congrArg₂ Span.mk hstart' hstop')
  · obtain ⟨after', rfl⟩ := List.head?_eq_some_iff.mp (Option.mem_def.mp hd)
    refine h.maximal d (utf8Len (before ++ t.lexeme.toList ++ [d])) ?_
    rw [hstop]
    exact isSlice_of_append hs'

/-! ## One step of a tiling -/

theorem tilingFrom_end (hs : source.toList = before) :
    TilingFrom source (utf8Len before) tokens ↔ tokens = [] := by
  constructor
  · intro h
    rw [List.eq_nil_iff_forall_not_mem]
    intro t ht
    have hfirst := h.within t ht
    have hlast := (h.tiles t ht).slice.stop_le_size
    have hlt := (h.tiles t ht).nonempty
    rw [hs] at hlast
    omega
  · rintro rfl
    refine ⟨List.forall_mem_nil _, .nil, List.forall_mem_nil _, fun c here next hhere hc _ => ?_⟩
    have hlast := hc.stop_le_size
    have hlt := hc.start_lt_stop
    rw [hs] at hlast
    omega

/-- A blank belongs to no token. -/
theorem tilingFrom_blank (hs : source.toList = before ++ c :: cs) (hc : isBlank c = true) :
    TilingFrom source (utf8Len before) tokens ↔
      TilingFrom source (utf8Len (before ++ [c])) tokens := by
  have hle : utf8Len before ≤ utf8Len (before ++ [c]) := by
    rw [String.utf8Len_append]
    omega
  constructor
  · intro h
    refine ⟨h.tiles, h.ordered, fun t ht => ?_, fun d here next hhere => ?_⟩
    · rcases Nat.eq_or_lt_of_le (h.within t ht) with heq | hlt
      · obtain ⟨-, rest, hleads⟩ := (h.tiles t ht).leads hs heq.symm
        rw [hleads.isBlank_head] at hc
        cases hc
      · exact (h.tiles t ht).slice.start_ge hs hlt
    · exact h.covering d here next (hle.trans hhere)
  · intro h
    refine ⟨h.tiles, h.ordered, fun t ht => hle.trans (h.within t ht), ?_⟩
    intro d here next hhere hd hblank
    rcases Nat.eq_or_lt_of_le hhere with rfl | hlt
    · obtain ⟨after, hafter, -⟩ := hd.at_boundary hs
      obtain ⟨rfl, -⟩ := List.cons.inj hafter
      rw [hc] at hblank
      cases hblank
    · exact h.covering d here next (hd.start_ge hs hlt) hd hblank

/-- The first token of a tiling starts at the first character that is no blank. -/
theorem TilingFrom.exists_cons (h : TilingFrom source (utf8Len before) tokens)
    (hs : source.toList = before ++ c :: cs) (hc : isBlank c = false) :
    ∃ t tokens', tokens = t :: tokens' ∧ t.span.start.offset = utf8Len before := by
  have hslice : IsSlice source (utf8Len before) (utf8Len (before ++ [c])) [c] :=
    isSlice_of_append hs
  obtain ⟨t, ht, hstart, -⟩ := h.covering c _ _ (Nat.le_refl _) hslice hc
  cases tokens with
  | nil => cases ht
  | cons t₀ tokens =>
      rcases List.mem_cons.mp ht with rfl | ht
      · exact ⟨t, tokens, rfl, Nat.le_antisymm hstart (h.within t List.mem_cons_self)⟩
      · -- a token before it would have to end where it starts
        have hbefore := (List.pairwise_cons.mp h.ordered).1 t ht
        have hlt := (h.tiles t₀ List.mem_cons_self).nonempty
        have hfirst := h.within t₀ List.mem_cons_self
        omega

/-- At a character that is no blank stands the token that leads the text. -/
theorem tilingFrom_token (hs : source.toList = before ++ c :: cs)
    (h : k.Leads (c :: cs) rest) :
    TilingFrom source (utf8Len before) tokens ↔
      ∃ tokens', tokens = tokenAfter before k :: tokens' ∧
        TilingFrom source (utf8Len (before ++ k.text.toList)) tokens' := by
  have hle : utf8Len before ≤ utf8Len (before ++ k.text.toList) := by
    rw [String.utf8Len_append]
    omega
  constructor
  · intro ht
    obtain ⟨t, tokens', rfl, hstart⟩ := ht.exists_cons hs h.isBlank_head
    obtain ⟨htoken, rest', hleads⟩ := (ht.tiles t List.mem_cons_self).leads hs hstart
    obtain rfl : k = t.kind := h.unique hleads
    have hordered := List.pairwise_cons.mp ht.ordered
    have hstop : t.span.stop.offset = utf8Len (before ++ t.kind.text.toList) := by
      rw [htoken]
      exact stop_tokenAfter
    refine ⟨tokens', by rw [← htoken], fun t' ht' => ht.tiles t' (List.mem_cons_of_mem _ ht'),
      hordered.2, fun t' ht' => hstop ▸ hordered.1 t' ht', ?_⟩
    intro d here next hhere hd hblank
    obtain ⟨t', ht', hstart', hnext⟩ := ht.covering d here next (hle.trans hhere) hd hblank
    -- the first token ends before the character
    rcases List.mem_cons.mp ht' with rfl | ht'
    · have hlt := hd.start_lt_stop
      omega
    · exact ⟨t', ht', hstart', hnext⟩
  · rintro ⟨tokens', rfl, ht⟩
    refine ⟨List.forall_mem_cons.mpr ⟨h.isTile hs, ht.tiles⟩,
      List.pairwise_cons.mpr ⟨fun t' ht' => ?_, ht.ordered⟩,
      List.forall_mem_cons.mpr ⟨by simp, fun t' ht' => hle.trans (ht.within t' ht')⟩, ?_⟩
    · rw [stop_tokenAfter]
      exact ht.within t' ht'
    · intro d here next hhere hd hblank
      rcases Nat.lt_or_ge here (utf8Len (before ++ k.text.toList)) with hlt | hge
      · refine ⟨_, List.mem_cons_self, by simpa using hhere, ?_⟩
        rw [stop_tokenAfter]
        exact hd.stop_le (h.split hs) hlt
      · obtain ⟨t', ht', hcover⟩ := ht.covering d here next hge hd hblank
        exact ⟨t', List.mem_cons_of_mem _ ht', hcover⟩

end Tiles

/-! ## Whole sources -/

theorem tilingFrom_iff (source : String) (here : Location) (text : List Char) :
    ∀ (before : List Char) (tokens : List Token), source.toList = before ++ text →
      here = Location.start.steps before →
      (TilingFrom source (utf8Len before) tokens ↔ tokens = tokensFrom here text) := by
  fun_induction tokensFrom here text with
  | case1 here =>
      intro before tokens hs _
      exact tilingFrom_end (by rw [hs, List.append_nil])
  | case2 here c cs hc ih =>
      intro before tokens hs hhere
      rw [tilingFrom_blank hs hc]
      refine ih _ _ (by rw [hs]; simp) ?_
      rw [hhere, Location.steps_append, Location.steps_cons, Location.steps_nil]
  | case3 here c cs hc there ih =>
      intro before tokens hs hhere
      have hleads := leads_munch (by simpa using hc) cs
      have htext : (TokenKind.ofText (String.ofList (munch c cs).1)).text.toList =
          (munch c cs).1 := (congrArg Prod.fst (munch_of_leads hleads)).symm
      have hs' := hleads.split hs
      rw [htext] at hs'
      have hthere : there = Location.start.steps (before ++ (munch c cs).1) := by
        rw [Location.steps_append, ← hhere]
      simp only [tilingFrom_token hs hleads, tokenAfter, htext, ← hhere, ← hthere,
        ih _ _ hs' hthere, exists_eq_right]

theorem endOf_eq_locate (source : String) : endOf source = locate source source.utf8ByteSize := by
  rw [← String.utf8Len_toList, locate_append (List.append_nil _).symm, endOf]

/-- **The tokens of a source tile it, and no other tokens do.** The list of tokens
ends with the empty span at the end of the source. -/
theorem lexing_tiles_source (source : String) (ts : List Token) :
    ts = (lex source).toList ↔
      ∃ tokens, TilingFrom source 0 tokens ∧
        ts = tokens ++ [⟨.eof, ⟨locate source source.utf8ByteSize,
          locate source source.utf8ByteSize⟩⟩] := by
  have htiling : ∀ tokens, TilingFrom source 0 tokens ↔ tokens = tokensFrom .start source.toList :=
    fun tokens => tilingFrom_iff source .start source.toList [] tokens rfl rfl
  simp only [htiling, exists_eq_left, TokenStream.toList, lex, endOf_eq_locate]

end AgentLang
