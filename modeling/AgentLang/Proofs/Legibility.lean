import AgentLang.Code.Listing
import AgentLang.Compile
import AgentLang.Proofs.Linkage
import AgentLang.Proofs.RoundTrip

/-!
# Reading listings

A listing leaves things out, and yet two flawless agents with one listing have
one type (`listing_determines_type`).

What is left out follows from the rest: the arity of a field is that of its
tuple type, the constructor has the name and the parameters of the agent, and
fields, methods, locals and instructions are numbered by their places.
What is written can be told apart: a line ends where it breaks, one column tells
which sort of line it is, and names, numbers and mnemonics are words, so that
each ends in front of the first character that is neither letter nor digit.
-/

namespace AgentLang

/-! ## Where texts end -/

/-- A run of elements with `p` ends in front of the first one without it. -/
theorem run_inj {α : Type} (p : α → Bool) {s s' r r' : List α} (hs : ∀ c ∈ s, p c = true)
    (hs' : ∀ c ∈ s', p c = true) (hr : ∀ c ∈ r.head?, p c = false)
    (hr' : ∀ c ∈ r'.head?, p c = false) (h : s ++ r = s' ++ r') : s = s' ∧ r = r' := by
  have stops : ∀ {t : List α}, (∀ c ∈ t.head?, p c = false) → t.takeWhile p = [] := by
    intro t ht
    cases t with
    | nil => rfl
    | cons c t => simp [ht c rfl]
  have hrun := congrArg (List.takeWhile p) h
  rw [List.takeWhile_append_of_pos hs, List.takeWhile_append_of_pos hs', stops hr, stops hr',
    List.append_nil, List.append_nil] at hrun
  subst hrun
  exact ⟨rfl, List.append_cancel_left h⟩

theorem forall_head?_append {α : Type} {P : α → Prop} {l r : List α} (hl : ∀ c ∈ l, P c)
    (hr : ∀ c ∈ r.head?, P c) : ∀ c ∈ (l ++ r).head?, P c := by
  cases l with
  | nil => exact hr
  | cons a l => simpa using hl a (by simp)

/-- All characters of the text have `p`. -/
def ConsistsOf (p : Char → Bool) (s : String) : Prop := ∀ c ∈ s.toList, p c = true

@[simp] theorem consistsOf_append {p : Char → Bool} {s t : String} :
    ConsistsOf p (s ++ t) ↔ ConsistsOf p s ∧ ConsistsOf p t := by
  simp only [ConsistsOf, String.toList_append, List.forall_mem_append]

theorem ConsistsOf.mono {p q : Char → Bool} {s : String} (h : ConsistsOf p s)
    (hpq : ∀ c, p c = true → q c = true) : ConsistsOf q s :=
  fun c hc => hpq c (h c hc)

/-- A text of one class of characters ends where other characters start. -/
theorem ConsistsOf.append_inj {p : Char → Bool} {s s' r r' : String} (hs : ConsistsOf p s)
    (hs' : ConsistsOf p s') (hr : Stops p r.toList) (hr' : Stops p r'.toList)
    (h : s ++ r = s' ++ r') : s = s' ∧ r = r' := by
  have h' : s.toList ++ r.toList = s'.toList ++ r'.toList := by
    simpa using congrArg String.toList h
  simpa [String.toList_inj] using run_inj p hs hs' hr hr' h'

/-- Letters and digits only. -/
abbrev IsWord : String → Prop := ConsistsOf Char.isAlphanum

theorem IsWord.not_mem {s : String} (h : IsWord s) {d : Char} (hd : d.isAlphanum = false) :
    d ∉ s.toList := by
  intro hmem
  rw [h d hmem] at hd
  cases hd

theorem isWord_of_toList {s : String} {c : Char} {cs : List Char} (hs : s.toList = c :: cs)
    (hc : c.isAlpha = true) (hcs : ∀ d ∈ cs, d.isAlphanum = true) : IsWord s := by
  rw [IsWord, ConsistsOf, hs, List.forall_mem_cons]
  exact ⟨by simp [Char.isAlphanum, hc], hcs⟩

theorem isWord_of_isName {s : String} (h : isName s = true) : IsWord s := by
  obtain ⟨c, cs, htext, hc, hcs, -⟩ := isName_cases h
  exact isWord_of_toList htext hc hcs

@[simp] theorem isDigits_toString (n : Nat) : ConsistsOf Char.isDigit (toString n) := by
  intro c hc
  rw [Nat.toString_eq_repr, Nat.toList_repr] at hc
  exact Nat.isDigit_of_mem_toDigits (by decide) (by decide) hc

@[simp] theorem isWord_toString (n : Nat) : IsWord (toString n) :=
  (isDigits_toString n).mono fun c hc => by simp [Char.isAlphanum, hc]

theorem word_sep_inj {s s' sep r r' : String} (hs : IsWord s) (hs' : IsWord s')
    (hsep : ∃ c, sep.toList.head? = some c ∧ c.isAlphanum = false) :
    s ++ (sep ++ r) = s' ++ (sep ++ r') ↔ s = s' ∧ r = r' := by
  obtain ⟨c, hc, hout⟩ := hsep
  have hends : ∀ t : String, ∀ d ∈ (sep ++ t).toList.head?, d.isAlphanum = false := by
    intro t d hd
    rw [String.toList_append, List.head?_append, hc] at hd
    obtain rfl : c = d := by simpa using hd
    exact hout
  refine ⟨fun h => ?_, fun ⟨h, h'⟩ => by rw [h, h']⟩
  obtain ⟨rfl, hrest⟩ := ConsistsOf.append_inj hs hs' (hends r) (hends r') h
  exact ⟨rfl, (String.append_right_inj sep).mp hrest⟩

/-! ## Lists of texts -/

/-- Texts without `stop`, each with `stop` after it, can be taken apart again. -/
theorem terminated_inj {stop : Char} {more : List Char} {texts : List String} :
    ∀ {texts' : List String}, (∀ s ∈ texts, stop ∉ s.toList) →
      (∀ s ∈ texts', stop ∉ s.toList) →
      texts.flatMap (·.toList ++ stop :: more) = texts'.flatMap (·.toList ++ stop :: more) →
      texts = texts' := by
  induction texts with
  | nil =>
      intro texts' _ _ h
      cases texts' with
      | nil => rfl
      | cons s' texts' => simp at h
  | cons s texts ih =>
      intro texts' hs hs' h
      cases texts' with
      | nil => simp at h
      | cons s' texts' =>
          rw [List.forall_mem_cons] at hs hs'
          simp only [List.flatMap_cons, List.append_assoc, List.cons_append] at h
          have hne : ∀ {t : String}, stop ∉ t.toList → ∀ c ∈ t.toList, (c != stop) = true :=
            fun ht c hc => bne_iff_ne.mpr fun heq => ht (heq ▸ hc)
          obtain ⟨hhead, htail⟩ :=
            run_inj (· != stop) (hne hs.1) (hne hs'.1) (by simp) (by simp) h
          have hrest := List.append_cancel_left (List.cons.inj htail).2
          rw [String.toList_inj.mp hhead, ih hs.2 hs'.2 hrest]

theorem commaSeparated_terminated {s : String} {texts : List String} :
    (commaSeparated (s :: texts) ++ ", ").toList =
      (s :: texts).flatMap (·.toList ++ ',' :: [' ']) := by
  induction texts generalizing s with
  | nil => simp [commaSeparated]
  | cons t texts ih =>
      rw [List.flatMap_cons, ← ih]
      simp [commaSeparated]

theorem commaSeparated_ne_empty {s : String} {texts : List String} (hs : s ≠ "") :
    commaSeparated (s :: texts) ≠ "" := by
  cases texts <;> simp [commaSeparated, hs, ← String.toList_inj]

theorem commaSeparated_inj {texts texts' : List String}
    (h : ∀ s ∈ texts, s ≠ "" ∧ ',' ∉ s.toList) (h' : ∀ s ∈ texts', s ≠ "" ∧ ',' ∉ s.toList)
    (heq : commaSeparated texts = commaSeparated texts') : texts = texts' := by
  cases texts with
  | nil =>
      cases texts' with
      | nil => rfl
      | cons s' texts' => exact absurd heq.symm (commaSeparated_ne_empty (h' s' (by simp)).1)
  | cons s texts =>
      cases texts' with
      | nil => exact absurd heq (commaSeparated_ne_empty (h s (by simp)).1)
      | cons s' texts' =>
          have hflat : (s :: texts).flatMap (·.toList ++ ',' :: [' ']) =
              (s' :: texts').flatMap (·.toList ++ ',' :: [' ']) := by
            rw [← commaSeparated_terminated, ← commaSeparated_terminated, heq]
          exact terminated_inj (fun t ht => (h t ht).2) (fun t ht => (h' t ht).2) hflat

theorem commaSeparated_unbroken {texts : List String} (h : ∀ s ∈ texts, '\n' ∉ s.toList) :
    '\n' ∉ (commaSeparated texts).toList := by
  cases texts with
  | nil => simp [commaSeparated]
  | cons s texts =>
      have hall : '\n' ∉ (commaSeparated (s :: texts) ++ ", ").toList := by
        rw [commaSeparated_terminated, List.mem_flatMap]
        rintro ⟨t, ht, hmem⟩
        exact h t ht (by simpa using hmem)
      simpa using hall

/-- Texts that tell what they were made from, place by place. -/
theorem map_zipIdx_inj {α β : Type} {f : α × Nat → β} {l : List α} :
    ∀ {l' : List α} {k : Nat}, (∀ a ∈ l, ∀ b ∈ l', ∀ i, f (a, i) = f (b, i) → a = b) →
      (l.zipIdx k).map f = (l'.zipIdx k).map f → l = l' := by
  induction l with
  | nil =>
      intro l' k _ h
      cases l' with
      | nil => rfl
      | cons b l' => simp at h
  | cons a l ih =>
      intro l' k hf h
      cases l' with
      | nil => simp at h
      | cons b l' =>
          simp only [List.zipIdx_cons, List.map_cons, List.cons.injEq] at h
          obtain rfl := hf a (by simp) b (by simp) k h.1
          rw [ih (fun a' ha' b' hb' => hf a' (by simp [ha']) b' (by simp [hb'])) h.2]

/-- Lines of one sort end where another character stands in their column. -/
theorem column_inj {k : Nat} {c : Char} {ls ls' rs rs' : List String}
    (hl : ∀ line ∈ ls, line.toList[k]? = some c) (hl' : ∀ line ∈ ls', line.toList[k]? = some c)
    (hr : ∀ line ∈ rs.head?, line.toList[k]? ≠ some c)
    (hr' : ∀ line ∈ rs'.head?, line.toList[k]? ≠ some c) (h : ls ++ rs = ls' ++ rs') :
    ls = ls' ∧ rs = rs' :=
  run_inj (fun line : String => line.toList[k]? == some c)
    (fun line hline => by simp [hl line hline]) (fun line hline => by simp [hl' line hline])
    (fun line hline => by simpa using hr line hline)
    (fun line hline => by simpa using hr' line hline) h

/-! ## Numbers and instructions -/

theorem repr_inj {m n : Nat} : m.repr = n.repr ↔ m = n := by
  refine ⟨fun h => ?_, congrArg Nat.repr⟩
  have hvalue := congrArg (fun s : String => Nat.ofDigitChars 10 s.toList 0) h
  simpa only [Nat.toList_repr, Nat.ofDigitChars_ten_toDigits] using hvalue

theorem toString_inj {m n : Nat} : toString m = toString n ↔ m = n := repr_inj

/-- No digit is a minus sign. -/
theorem negative_ne_repr (m n : Nat) : "-" ++ m.repr ≠ n.repr := by
  intro h
  have hdash : '-' ∈ (toString n).toList := by
    rw [Nat.toString_eq_repr, ← h]
    simp
  exact absurd (isDigits_toString n _ hdash) (by decide)

theorem renderInteger_inj {v w : Int64} : renderInteger v = renderInteger w ↔ v = w := by
  refine ⟨fun h => Int64.toInt_inj.mp ?_, congrArg renderInteger⟩
  simp only [renderInteger, Int.toString_eq_repr, Int.repr_eq_if] at h
  split at h <;> split at h
  · have := repr_inj.mp h
    omega
  · exact absurd h.symm (negative_ne_repr _ _)
  · exact absurd h (negative_ne_repr _ _)
  · have := repr_inj.mp ((String.append_right_inj _).mp h)
    omega

/-- The word that an instruction starts with. -/
def Instr.mnemonic : Instr → String
  | loadArg _ => "ldarg"
  | storeArg _ => "starg"
  | loadLocal _ => "ldloc"
  | storeLocal _ => "stloc"
  | loadField _ => "ldfld"
  | storeField _ => "stfld"
  | push _ => "push"
  | arith op => op.mnemonic
  | makeTuple _ => "mktuple"
  | tupleGet _ _ => "tget"
  | call _ _ => "call"
  | ret => "ret"

/-- What comes after the mnemonic. -/
def Instr.operands : Instr → String
  | loadArg slot => " " ++ toString slot
  | storeArg slot => " " ++ toString slot
  | loadLocal slot => " " ++ renderLocal slot
  | storeLocal slot => " " ++ renderLocal slot
  | loadField field => " " ++ renderField field
  | storeField field => " " ++ renderField field
  | push value => " " ++ renderInteger value
  | arith _ => ""
  | makeTuple tuple => " " ++ renderTuple tuple
  | tupleGet tuple index => " " ++ (renderTuple tuple ++ ("." ++ toString index))
  | call method argc => " " ++ (renderMethod method ++ ("/" ++ toString argc))
  | ret => ""

theorem Instr.render_eq (i : Instr) : i.render = i.mnemonic ++ i.operands := by
  cases i <;> simp [render, mnemonic, operands, ← String.append_assoc]

theorem Instr.isWord_mnemonic (i : Instr) : IsWord i.mnemonic := by
  cases i with
  | arith op => cases op <;> simp [mnemonic, BinOp.mnemonic, ConsistsOf]
  | _ => simp [mnemonic, ConsistsOf]

theorem Instr.operands_head (i : Instr) : ∀ c ∈ i.operands.toList.head?, c.isAlphanum = false := by
  cases i <;> simp [operands]

theorem isWord_numbered {letter : String} (h : IsWord letter) (n : Nat) :
    IsWord (letter ++ toString n) :=
  consistsOf_append.mpr ⟨h, isWord_toString n⟩

theorem isWord_renderTuple (t : TupleId) : IsWord (renderTuple t) :=
  isWord_numbered (by simp [ConsistsOf]) t

theorem isWord_renderMethod (m : MethodId) : IsWord (renderMethod m) :=
  isWord_numbered (by simp [ConsistsOf]) m

theorem renderTuple_inj {t t' : TupleId} : renderTuple t = renderTuple t' ↔ t = t' := by
  rw [renderTuple, renderTuple, String.append_right_inj, toString_inj]

theorem tupleGet_inj {t t' : TupleId} {n n' : Nat} :
    renderTuple t ++ ("." ++ toString n) = renderTuple t' ++ ("." ++ toString n') ↔
      t = t' ∧ n = n' := by
  rw [word_sep_inj (isWord_renderTuple t) (isWord_renderTuple t') ⟨'.', by simp, by decide⟩,
    renderTuple_inj, toString_inj]

theorem call_inj {m m' : MethodId} {n n' : Nat} :
    renderMethod m ++ ("/" ++ toString n) = renderMethod m' ++ ("/" ++ toString n') ↔
      m = m' ∧ n = n' := by
  rw [word_sep_inj (isWord_renderMethod m) (isWord_renderMethod m') ⟨'/', by simp, by decide⟩,
    renderMethod, renderMethod, String.append_right_inj, toString_inj, toString_inj]

theorem Instr.operands_inj {i j : Instr} (hm : i.mnemonic = j.mnemonic)
    (ho : i.operands = j.operands) : i = j := by
  -- the mnemonics leave pairs of the same constructor, and for these the operands decide
  rcases i with a | a | a | a | a | a | a | (_ | _ | _ | _) | a | ⟨t, n⟩ | ⟨m, n⟩ | _ <;>
  rcases j with b | b | b | b | b | b | b | (_ | _ | _ | _) | b | ⟨t', n'⟩ | ⟨m', n'⟩ | _ <;>
    simp only [mnemonic, BinOp.mnemonic, String.reduceEq] at hm <;>
    simp only [operands, String.append_right_inj, renderLocal, renderField, toString_inj,
      renderInteger_inj, renderTuple_inj, tupleGet_inj, call_inj] at ho <;>
    simp only [ho]

theorem Instr.render_injective : Function.Injective Instr.render := by
  intro i j h
  rw [render_eq, render_eq] at h
  obtain ⟨hm, ho⟩ :=
    i.isWord_mnemonic.append_inj j.isWord_mnemonic i.operands_head j.operands_head h
  exact operands_inj hm ho

/-! ## Parameters, tuple types and fields -/

def ParamDef.Legible (p : ParamDef) : Prop := IsWord p.name ∧ IsWord p.type

theorem ParamDef.render_inj {p q : ParamDef} (hp : p.Legible) (hq : q.Legible)
    (h : p.render = q.render) : p = q := by
  simp only [render, String.append_assoc] at h
  obtain ⟨hname, htype⟩ := (word_sep_inj hp.1 hq.1 ⟨':', by simp, by decide⟩).mp h
  cases p
  cases q
  exact congr (congrArg _ hname) htype

theorem ParamDef.Legible.not_mem {p : ParamDef} (h : p.Legible) {d : Char}
    (hd : d.isAlphanum = false) (hsep : d ≠ ':' ∧ d ≠ ' ') : d ∉ p.render.toList := by
  simp [render, h.1.not_mem hd, h.2.not_mem hd, hsep]

theorem renderParams_inj {ps qs : List ParamDef} (hps : ∀ p ∈ ps, p.Legible)
    (hqs : ∀ q ∈ qs, q.Legible) (h : renderParams ps = renderParams qs) : ps = qs := by
  have hplain : ∀ {p : ParamDef}, p.Legible → p.render ≠ "" ∧ ',' ∉ p.render.toList := by
    intro p hp
    refine ⟨fun hempty => ?_, hp.not_mem (by decide) (by decide)⟩
    have hchars := congrArg String.toList hempty
    simp [ParamDef.render] at hchars
  have hmap : ps.map ParamDef.render = qs.map ParamDef.render :=
    commaSeparated_inj (List.forall_mem_map.mpr fun p hp => hplain (hps p hp))
      (List.forall_mem_map.mpr fun q hq => hplain (hqs q hq)) h
  have hzip : (ps.zipIdx 0).map (ParamDef.render ∘ Prod.fst) =
      (qs.zipIdx 0).map (ParamDef.render ∘ Prod.fst) := by
    simpa only [← List.map_map, List.zipIdx_map_fst] using hmap
  exact map_zipIdx_inj (fun p hp q hq _ => ParamDef.render_inj (hps p hp) (hqs q hq)) hzip

theorem renderParams_unbroken {ps : List ParamDef} (h : ∀ p ∈ ps, p.Legible) :
    '\n' ∉ (renderParams ps).toList :=
  commaSeparated_unbroken (List.forall_mem_map.mpr fun p hp =>
    (h p hp).not_mem (by decide) (by decide))

theorem TupleDesc.line_injective : Function.Injective TupleDesc.line := by
  intro t t' h
  simp only [line, String.append_assoc, String.append_right_inj] at h
  obtain ⟨hid, hints⟩ := (word_sep_inj (isWord_renderTuple t.id) (isWord_renderTuple t'.id)
    ⟨' ', by simp, by decide⟩).mp h
  have hint : ∀ n, ∀ s ∈ List.replicate n "int", s ≠ "" ∧ ',' ∉ s.toList := by
    intro n s hs
    obtain rfl := List.eq_of_mem_replicate hs
    simp
  have harity := congrArg List.length (commaSeparated_inj (hint t.arity) (hint t'.arity)
    ((String.append_left_inj _).mp hints))
  rw [List.length_replicate, List.length_replicate] at harity
  cases t
  cases t'
  exact congr (congrArg _ (renderTuple_inj.mp hid)) harity

/-- What a field is said to hold is its tuple type, or else its arity. -/
theorem FieldDef.renderType_inj {f g : FieldDef} (h : f.renderType = g.renderType) :
    f.tuple = g.tuple ∧ (f.tuple = none → f.arity = g.arity) := by
  have hsome : ∀ (t : TupleId) (s : String), renderTuple t ≠ "<unsupported arity " ++ s := by
    intro t s heq
    have hchars := congrArg String.toList heq
    simp [renderTuple] at hchars
  unfold renderType at h
  cases hf : f.tuple <;> cases hg : g.tuple <;> simp only [hf, hg, String.append_assoc] at h
  · simpa [repr_inj] using h
  · exact absurd h.symm (hsome _ _)
  · exact absurd h (hsome _ _)
  · simpa [renderTuple_inj] using h

theorem FieldDef.line_inj {f g : FieldDef} (hf : IsWord f.name) (hg : IsWord g.name)
    {id : FieldId} (h : f.line id = g.line id) :
    f.name = g.name ∧ f.renderType = g.renderType := by
  simp only [line, String.append_assoc, String.append_right_inj] at h
  exact (word_sep_inj hf hg ⟨':', by simp, by decide⟩).mp h

/-! ## Methods -/

theorem padLeft_digits (n : Nat) : ConsistsOf Char.isDigit (padLeft 4 '0' (toString n)) := by
  refine consistsOf_append.mpr ⟨fun c hc => ?_, isDigits_toString n⟩
  rw [String.toList_ofList] at hc
  obtain rfl := List.eq_of_mem_replicate hc
  decide

/-- A line of code is indented, and no letter starts it. -/
theorem Instr.line_column (i : Instr) (number : Nat) :
    (i.line number).toList[2]? = some ' ' ∧ (i.line number).toList[4]? ≠ some 'l' := by
  have hdigits := padLeft_digits number
  rw [ConsistsOf] at hdigits
  simp only [line, String.toList_append]
  cases hpad : (padLeft 4 '0' (toString number)).toList with
  | nil => simp
  | cons c cs =>
      rw [hpad, List.forall_mem_cons] at hdigits
      refine ⟨by simp, ?_⟩
      rintro heq
      obtain rfl : c = 'l' := by simpa using heq
      exact absurd hdigits.1 (by decide)

def localLines (locals : List String) : List String :=
  locals.zipIdx.map fun (name, l) => "    local " ++ renderLocal l ++ " " ++ name

def codeLines (code : List Instr) : List String :=
  code.zipIdx.map fun (i, number) => i.line number

theorem localLines_injective : Function.Injective localLines := by
  intro locals locals' h
  exact map_zipIdx_inj (fun _ _ _ _ _ => (String.append_right_inj _).mp) h

theorem codeLines_injective : Function.Injective codeLines := by
  intro code code' h
  refine map_zipIdx_inj (fun i _ j _ number hij => ?_) h
  exact Instr.render_injective ((String.append_right_inj _).mp hij)

theorem localLines_column {locals : List String} :
    ∀ line ∈ localLines locals, line.toList[4]? = some 'l' := by
  refine List.forall_mem_map.mpr fun x _ => ?_
  simp

theorem codeLines_column {code : List Instr} :
    ∀ line ∈ codeLines code, line.toList[2]? = some ' ' ∧ line.toList[4]? ≠ some 'l' :=
  List.forall_mem_map.mpr fun x _ => x.1.line_column x.2

theorem MethodDef.lines_append (m : MethodDef) (heading : String) (rest : List String) :
    m.lines heading ++ rest = ("  " ++ heading ++ "(" ++ renderParams m.params ++ ") \x7b") ::
      (localLines m.locals ++ (codeLines m.code ++ "  \x7d" :: rest)) := by
  simp only [lines, localLines, codeLines, List.append_assoc, List.cons_append, List.nil_append]

/-- After its first line, a method says its locals and its code and where it ends. -/
theorem MethodDef.lines_inj {m m' : MethodDef} {heading heading' : String}
    {rest rest' : List String} (h : m.lines heading ++ rest = m'.lines heading' ++ rest') :
    heading ++ ("(" ++ renderParams m.params) = heading' ++ ("(" ++ renderParams m'.params) ∧
      m.locals = m'.locals ∧ m.code = m'.code ∧ rest = rest' := by
  rw [lines_append, lines_append, List.cons.injEq, String.append_left_inj] at h
  obtain ⟨hhead, h⟩ := h
  simp only [String.append_assoc, String.append_right_inj] at hhead
  -- one column tells locals from code, another one code from the end
  have hcode : ∀ (code : List Instr) (r : List String),
      ∀ line ∈ (codeLines code ++ "  \x7d" :: r).head?, line.toList[4]? ≠ some 'l' :=
    fun code r => forall_head?_append (fun line hline => (codeLines_column line hline).2) (by simp)
  obtain ⟨hlocals, h⟩ :=
    column_inj localLines_column localLines_column (hcode m.code rest) (hcode m'.code rest') h
  obtain ⟨hcodes, h⟩ := column_inj (fun line hline => (codeLines_column line hline).1)
    (fun line hline => (codeLines_column line hline).1) (by simp) (by simp) h
  exact ⟨hhead, localLines_injective hlocals, codeLines_injective hcodes, (List.cons.inj h).2⟩

/-- The names in the method are words. -/
structure MethodDef.Legible (m : MethodDef) : Prop where
  name : IsWord m.name
  params : ∀ p ∈ m.params, p.Legible
  locals : ∀ x ∈ m.locals, IsWord x

theorem MethodKind.isWord_text (k : MethodKind) : IsWord k.text := by
  cases k <;> simp [text, ConsistsOf]

theorem MethodKind.text_injective : Function.Injective MethodKind.text := by
  intro k k' h
  cases k <;> cases k' <;> first | rfl | simp [text] at h

theorem MethodDef.heading_inj {m m' : MethodDef} (hm : m.Legible) (hm' : m'.Legible)
    {id : MethodId} (h : m.heading id ++ ("(" ++ renderParams m.params) =
      m'.heading id ++ ("(" ++ renderParams m'.params)) :
    m.kind = m'.kind ∧ m.name = m'.name ∧ m.params = m'.params := by
  simp only [heading, String.append_assoc] at h
  obtain ⟨hkind, h⟩ := (word_sep_inj m.kind.isWord_text m'.kind.isWord_text
    ⟨' ', by simp, by decide⟩).mp h
  simp only [String.append_right_inj] at h
  obtain ⟨hname, h⟩ := (word_sep_inj hm.name hm'.name ⟨'(', by simp, by decide⟩).mp h
  exact ⟨MethodKind.text_injective hkind, hname, renderParams_inj hm.params hm'.params h⟩

/-- The lines of methods that are numbered from `k` on. -/
def methodLines (k : Nat) (methods : List MethodDef) : List String :=
  (methods.zipIdx k).flatMap fun (m, id) => "" :: m.lines (m.heading id)

theorem methodLines_inj {ms : List MethodDef} :
    ∀ {ms' : List MethodDef} {k : Nat}, (∀ m ∈ ms, m.Legible) → (∀ m ∈ ms', m.Legible) →
      methodLines k ms ++ ["\x7d"] = methodLines k ms' ++ ["\x7d"] → ms = ms' := by
  induction ms with
  | nil =>
      intro ms' k _ _ h
      cases ms' with
      | nil => rfl
      | cons m' ms' => simp [methodLines] at h
  | cons m ms ih =>
      intro ms' k hms hms' h
      cases ms' with
      | nil => simp [methodLines] at h
      | cons m' ms' =>
          rw [List.forall_mem_cons] at hms hms'
          simp only [methodLines, List.zipIdx_cons, List.flatMap_cons, List.cons_append,
            List.append_assoc, List.cons.injEq, true_and] at h
          obtain ⟨hhead, hlocals, hcode, hrest⟩ := MethodDef.lines_inj h
          obtain ⟨hkind, hname, hparams⟩ := MethodDef.heading_inj hms.1 hms'.1 hhead
          have hm : m = m' := by
            cases m
            cases m'
            simp_all
          rw [hm, ih hms.2 hms'.2 hrest]

/-! ## Agent types -/

/-- The names in the type are words, and what the listing leaves out is known from
the rest. -/
structure AgentType.Legible (type : AgentType) : Prop where
  name : IsWord type.name
  params : ∀ p ∈ type.params, p.Legible
  fields : ∀ f ∈ type.fields, IsWord f.name
  field_types : ∀ f ∈ type.fields, ∀ id, f.tuple = some id →
    type.tuples[id]? = some ⟨id, f.arity⟩
  constructor_header : type.constructor.header = (type.name, .constructor, type.params)
  constructor : type.constructor.Legible
  methods : ∀ m ∈ type.methods, m.Legible

def fieldLines (fields : List FieldDef) : List String :=
  fields.zipIdx.map fun (f, id) => f.line id

theorem tupleLines_column {tuples : List TupleDesc} :
    ∀ line ∈ tuples.map TupleDesc.line, line.toList[2]? = some 't' :=
  List.forall_mem_map.mpr fun t _ => by simp [TupleDesc.line]

theorem fieldLines_column {fields : List FieldDef} :
    ∀ line ∈ fieldLines fields, line.toList[2]? = some 'f' :=
  List.forall_mem_map.mpr fun x _ => by simp [FieldDef.line]

namespace AgentType

variable {type type' : AgentType}

theorem lines_eq (type : AgentType) :
    type.lines = ("agent " ++ type.name ++ "(" ++ renderParams type.params ++ ") \x7b") ::
      (type.tuples.map TupleDesc.line ++ (fieldLines type.fields ++ "" ::
        (type.constructor.lines type.constructor.kind.text ++
          (methodLines 0 type.methods ++ ["\x7d"])))) := by
  simp only [lines, fieldLines, methodLines, List.append_assoc, List.cons_append,
    List.nil_append]

/-- The arity that a field does not show is that of its tuple type. -/
theorem Legible.field_inj (h : type.Legible) (h' : type'.Legible)
    (htuples : type.tuples = type'.tuples) {f g : FieldDef} (hf : f ∈ type.fields)
    (hg : g ∈ type'.fields) {id : FieldId} (heq : f.line id = g.line id) : f = g := by
  obtain ⟨hname, htype⟩ := FieldDef.line_inj (h.fields f hf) (h'.fields g hg) heq
  obtain ⟨htuple, hnone⟩ := FieldDef.renderType_inj htype
  have harity : f.arity = g.arity := by
    cases hft : f.tuple with
    | none => exact hnone hft
    | some t =>
        have hf := h.field_types f hf t hft
        rw [htuples, h'.field_types g hg t (htuple ▸ hft)] at hf
        simpa using hf.symm
  cases f
  cases g
  simp_all

/-- The constructor has no more to say than its locals and its code. -/
theorem Legible.constructor_inj (h : type.Legible) (h' : type'.Legible)
    (hname : type.name = type'.name) (hparams : type.params = type'.params)
    (hlocals : type.constructor.locals = type'.constructor.locals)
    (hcode : type.constructor.code = type'.constructor.code) :
    type.constructor = type'.constructor := by
  have hheader : type.constructor.header = type'.constructor.header := by
    rw [h.constructor_header, h'.constructor_header, hname, hparams]
  simp only [MethodDef.header, Prod.mk.injEq] at hheader
  generalize type.constructor = m at *
  generalize type'.constructor = m' at *
  cases m
  cases m'
  simp_all

theorem Legible.lines_inj (h : type.Legible) (h' : type'.Legible)
    (heq : type.lines = type'.lines) : type = type' := by
  rw [lines_eq, lines_eq, List.cons.injEq, String.append_left_inj] at heq
  obtain ⟨hhead, heq⟩ := heq
  simp only [String.append_assoc, String.append_right_inj] at hhead
  obtain ⟨hname, hparams⟩ := (word_sep_inj h.name h'.name ⟨'(', by simp, by decide⟩).mp hhead
  have hparams := renderParams_inj h.params h'.params hparams
  have hfields : ∀ (fields : List FieldDef) (r : List String),
      ∀ line ∈ (fieldLines fields ++ "" :: r).head?, line.toList[2]? ≠ some 't' := by
    intro fields r
    refine forall_head?_append (fun line hline => ?_) (by simp)
    simp [fieldLines_column line hline]
  obtain ⟨htuples, heq⟩ := column_inj tupleLines_column tupleLines_column
    (hfields type.fields _) (hfields type'.fields _) heq
  have htuples := List.map_injective_iff.mpr TupleDesc.line_injective htuples
  obtain ⟨hfields, heq⟩ :=
    column_inj fieldLines_column fieldLines_column (by simp) (by simp) heq
  have hfields : type.fields = type'.fields :=
    map_zipIdx_inj (fun f hf g hg _ => h.field_inj h' htuples hf hg) hfields
  obtain ⟨-, hlocals, hcode, hrest⟩ := MethodDef.lines_inj (List.cons.inj heq).2
  have hconstructor := h.constructor_inj h' hname hparams hlocals hcode
  have hmethods := methodLines_inj h.methods h'.methods hrest
  cases type
  cases type'
  simp_all

end AgentType

/-! ## Unbroken lines -/

theorem IsWord.unbroken {s : String} (h : IsWord s) : '\n' ∉ s.toList := h.not_mem (by decide)

@[simp] theorem digits_unbroken (n : Nat) : '\n' ∉ Nat.toDigits 10 n := by
  simpa using (isWord_toString n).unbroken

@[simp] theorem renderInteger_unbroken (v : Int64) : '\n' ∉ (renderInteger v).toList := by
  rw [renderInteger, Int.toString_eq_repr, Int.repr_eq_if]
  split <;> simp

theorem Instr.line_unbroken (i : Instr) (number : Nat) : '\n' ∉ (i.line number).toList := by
  have hmnemonic := i.isWord_mnemonic.unbroken
  have hoperands : '\n' ∉ i.operands.toList := by
    cases i <;> simp [operands, renderLocal, renderField, renderTuple, renderMethod]
  simp [line, padLeft, render_eq, hmnemonic, hoperands]

theorem TupleDesc.line_unbroken (t : TupleDesc) : '\n' ∉ t.line.toList := by
  have hid := (isWord_renderTuple t.id).unbroken
  have hints : '\n' ∉ (commaSeparated (List.replicate t.arity "int")).toList :=
    commaSeparated_unbroken fun s hs => by simp [List.eq_of_mem_replicate hs]
  simp [line, hid, hints]

theorem FieldDef.line_unbroken {f : FieldDef} (h : IsWord f.name) (id : FieldId) :
    '\n' ∉ (f.line id).toList := by
  have hname := h.unbroken
  have htype : '\n' ∉ f.renderType.toList := by
    unfold renderType
    split <;> simp [renderTuple]
  simp [line, renderField, hname, htype]

theorem MethodDef.Legible.lines_unbroken {m : MethodDef} (h : m.Legible) {heading : String}
    (hh : '\n' ∉ heading.toList) : ∀ line ∈ m.lines heading, '\n' ∉ line.toList := by
  have hparams := renderParams_unbroken h.params
  simp only [lines, List.forall_mem_append, List.forall_mem_singleton]
  refine ⟨⟨⟨by simp [hh, hparams], ?_⟩, ?_⟩, by simp⟩
  · refine List.forall_mem_map.mpr fun x hx => ?_
    have hname := (h.locals x.1 (List.fst_mem_of_mem_zipIdx hx)).unbroken
    simp [renderLocal, hname]
  · exact List.forall_mem_map.mpr fun x _ => x.1.line_unbroken x.2

theorem MethodDef.Legible.heading_unbroken {m : MethodDef} (h : m.Legible) (id : MethodId) :
    '\n' ∉ (m.heading id).toList := by
  have hkind := m.kind.isWord_text.unbroken
  simp [heading, renderMethod, hkind, h.name.unbroken]

theorem AgentType.Legible.lines_unbroken {type : AgentType} (h : type.Legible) :
    ∀ line ∈ type.lines, '\n' ∉ line.toList := by
  have hname := h.name.unbroken
  have hparams := renderParams_unbroken h.params
  simp only [lines_eq, List.forall_mem_append, List.forall_mem_cons]
  refine ⟨by simp [hname, hparams], ?_, ?_, by simp, ?_, ?_, by simp⟩
  · exact List.forall_mem_map.mpr fun t _ => t.line_unbroken
  · exact List.forall_mem_map.mpr fun x hx =>
      FieldDef.line_unbroken (h.fields x.1 (List.fst_mem_of_mem_zipIdx hx)) x.2
  · exact h.constructor.lines_unbroken (MethodKind.isWord_text _).unbroken
  · refine List.forall_mem_flatMap.mpr fun x hx => ?_
    have hm := h.methods x.1 (List.fst_mem_of_mem_zipIdx hx)
    exact List.forall_mem_cons.mpr ⟨by simp, hm.lines_unbroken (hm.heading_unbroken x.2)⟩

/-- A type that is legible is known from its listing. -/
theorem AgentType.Legible.listing_inj {type type' : AgentType} (h : type.Legible)
    (h' : type'.Legible) (heq : type.listing = type'.listing) : type = type' := by
  have hflat : type.lines.flatMap (·.toList ++ '\n' :: []) =
      type'.lines.flatMap (·.toList ++ '\n' :: []) := by
    simpa [listing, String.toList_join, List.flatMap_map] using congrArg String.toList heq
  exact h.lines_inj h' (terminated_inj h.lines_unbroken h'.lines_unbroken hflat)

/-! ## Compiled sources -/

theorem Draft.bindTargets_locals (f : FieldId) (id : TupleId) (xs : List String) :
    ∀ (index : Nat) (d : Draft), (bindTargets f id index xs d).locals = d.locals ++ xs := by
  induction xs with
  | nil => exact fun _ d => (List.append_nil _).symm
  | cons x xs ih =>
      intro index d
      rw [bindTargets, ih]
      simp [bindTarget]

theorem Draft.Effect.locals {outer : Frame} {s : Stmt} {d d' : Draft}
    (h : Effect outer s d d') : d'.locals = d.locals ++ s.targets := by
  unfold Effect at h
  unfold Stmt.targets
  cases hk : s.kind with
  | query =>
      rw [hk] at h
      obtain ⟨f, id, xs, -, -, hxs, rfl⟩ := h
      rw [bindTargets_locals, filterMap_name?_eq hxs]
  | update =>
      rw [hk] at h
      obtain ⟨f, id, -, -, rfl⟩ := h
      simp [emit]
  | invoke =>
      rw [hk] at h
      obtain ⟨m, n, -, rfl⟩ := h
      simp [emit]

/-- The locals of a body are the targets of its queries. -/
theorem Draft.Effects.locals {outer : Frame} {stmts : List Stmt} :
    ∀ {d d' : Draft}, Effects outer stmts d d' →
      d'.locals = d.locals ++ stmts.flatMap Stmt.targets := by
  induction stmts with
  | nil =>
      rintro d d' rfl
      simp
  | cons s stmts ih =>
      rintro d d' ⟨d₁, heff, heffs⟩
      rw [ih heffs, heff.locals, List.flatMap_cons, List.append_assoc]

theorem Stmt.targets_subset_names (s : Stmt) : s.targets ⊆ s.names := by
  intro x hx
  unfold targets at hx
  split at hx
  · obtain ⟨e, he, hname⟩ := List.mem_filterMap.mp hx
    refine List.mem_cons_of_mem _ (List.mem_flatMap.mpr ⟨e, he, ?_⟩)
    cases e with
    | ident y span => simpa [Expr.names, Expr.name?, eq_comm] using hname
    | number value span => cases hname
    | binary op left right span => cases hname
  · cases hx
  · cases hx

theorem paramDefs_legible {params : List Param}
    (h : ∀ name ∈ params.flatMap Param.names, isName name = true) :
    ∀ p ∈ paramDefs params, p.Legible := by
  refine List.forall_mem_map.mpr fun p hp => ?_
  have hnames := List.forall_mem_flatMap.mp h p hp
  exact ⟨isWord_of_isName (hnames _ (by simp [Param.names])),
    isWord_of_isName (hnames _ (by simp [Param.names]))⟩

theorem member_legible {a : Agent} {k : Nat} {tuples : TupleTable} {m : Member}
    {method : MethodDef} (h : Assembly.CompiledMember a k tuples m method)
    (hnames : ∀ name ∈ m.names, isName name = true) : method.Legible := by
  obtain ⟨d, heff, rfl⟩ := h
  rw [Member.names, List.forall_mem_cons, List.forall_mem_append] at hnames
  refine ⟨isWord_of_isName hnames.1, paramDefs_legible hnames.2.1, fun x hx => ?_⟩
  have hlocals : d.locals = m.body.flatMap Stmt.targets := by
    rw [heff.locals, Draft.bindParams_eq]
    rfl
  obtain ⟨s, hs, hxs⟩ := List.mem_flatMap.mp (hlocals ▸ hx : x ∈ m.body.flatMap Stmt.targets)
  exact isWord_of_isName (hnames.2.2 x (List.mem_flatMap.mpr ⟨s, hs, s.targets_subset_names hxs⟩))

theorem constructor_legible {a : Agent} {tuples : TupleTable} {method : MethodDef}
    (h : Assembly.CompiledConstructor a tuples method) (hname : isName a.name.name = true)
    (hparams : ∀ name ∈ a.params.flatMap Param.names, isName name = true) : method.Legible := by
  obtain ⟨d, heff, rfl⟩ := h
  have hlocals : d.locals = [] := by
    rw [heff.shape.2.2.1, Draft.bindParams_eq]
    rfl
  refine ⟨isWord_of_isName hname, paramDefs_legible hparams, ?_⟩
  simp [Draft.finish, hlocals]

theorem compile_eq_ok {source : String} {options : CompileOptions} {type : AgentType}
    (h : compile source options = .ok type) : (parse source).2 = [] ∧
      generate options.checkArity (parse source).1 = .ok (type, []) := by
  unfold compile at h
  split at h
  · next agent hparse =>
    rw [hparse]
    split at h
    · cases h
    · next hgen => exact ⟨rfl, Except.ok.inj h ▸ hgen⟩
    · cases h
  · cases h

/-- The names in a source are words, and so are those in its type. -/
theorem compile_legible {source : String} {options : CompileOptions} {type : AgentType}
    (h : compile source options = .ok type) : type.Legible := by
  obtain ⟨hparse, hgen⟩ := compile_eq_ok h
  have hnames := (parse_printable hparse).names
  generalize (parse source).1 = a at hgen hnames
  obtain ⟨hlinked, -⟩ := generate_linked hgen
  obtain ⟨tuples, hcompiled⟩ : ∃ tuples, Compiled a tuples type := by
    rcases generate_cases hgen with ⟨-, -, hcompiled⟩ | ⟨-, hdiag⟩
    · exact hcompiled
    · exact absurd rfl hdiag
  rw [Agent.names, List.forall_mem_cons, List.forall_mem_append, List.forall_mem_append] at hnames
  obtain ⟨hname, ⟨hparams, hbeliefs⟩, hmembers⟩ := hnames
  constructor
  case name => exact hlinked.name ▸ isWord_of_isName hname
  case params => exact hlinked.params ▸ paramDefs_legible hparams
  case fields =>
    intro f hf
    have hmem : (f.name, f.arity) ∈ a.beliefs.map fun b => (b.name.name, b.arity) :=
      hlinked.fields ▸ List.mem_map.mpr ⟨f, hf, rfl⟩
    obtain ⟨b, hb, heq⟩ := List.mem_map.mp hmem
    rw [← (Prod.mk.inj heq).1]
    exact isWord_of_isName (List.forall_mem_flatMap.mp hbeliefs b hb _ (by simp [Belief.names]))
  case field_types => exact hlinked.field_types
  case constructor_header => rw [hlinked.constructor_header, hlinked.name, hlinked.params]
  case constructor => exact constructor_legible hcompiled.constructor_code hname hparams
  case methods =>
    intro method hmethod
    obtain ⟨k, hk⟩ := List.getElem?_of_mem hmethod
    have hlt : k < a.members.length :=
      hcompiled.methods_length ▸ (List.getElem?_eq_some_iff.mp hk).1
    have hm : a.members[k]? = some a.members[k] := List.getElem?_eq_getElem hlt
    obtain ⟨method', hk', hcode⟩ := hcompiled.methods_get k _ hm
    obtain rfl : method = method' := by simpa [hk] using hk'
    exact member_legible hcode (List.forall_mem_flatMap.mp hmembers _ (List.mem_of_getElem? hm))

/-- **The listing determines the type.** Sources that are compiled to the same text are
compiled to the same type. -/
theorem listing_determines_type {s s' : String} {o o' : CompileOptions} {type type' : AgentType}
    (h : compile s o = .ok type) (h' : compile s' o' = .ok type')
    (heq : type.listing = type'.listing) : type = type' :=
  (compile_legible h).listing_inj (compile_legible h') heq

/-- An agent that counts down. -/
def timer : String := "agent Timer(x: int) { bel b(x); plan p { ?b(y); +b(y - 1); } }"

/-- The same agent on several lines. -/
def timerSpread : String :=
  "agent Timer\n  (x: int)\n{ bel b(x)   plan p { ?b(y); +b(y-1); } }\n"

def timerType : AgentType where
  name := "Timer"
  params := [⟨"x", "int"⟩]
  fields := [⟨"b", 1, some 0⟩]
  tuples := [⟨0, 1⟩]
  constructor := ⟨"Timer", .constructor, [⟨"x", "int"⟩], [],
    [.loadArg 1, .makeTuple 0, .storeField 0, .ret]⟩
  methods := [⟨"p", .plan, [], ["y"], [.loadField 0, .tupleGet 0 0, .storeLocal 0, .loadLocal 0,
    .push 1, .arith .sub, .makeTuple 0, .storeField 0, .ret]⟩]

theorem timer_known_from_listing :
    ∃ type type', compile timer {} = .ok type ∧
      compile timerSpread { checkArity := false } = .ok type' ∧
      type.listing = type'.listing ∧ type = type' := by
  have h : compile timer {} = .ok timerType := by decide +kernel
  have h' : compile timerSpread { checkArity := false } = .ok timerType := by decide +kernel
  exact ⟨timerType, timerType, h, h', rfl, listing_determines_type h h' rfl⟩

end AgentLang
