import AgentLang.Proofs.Acceptance
import AgentLang.Proofs.Checker

/-!
# Writing and parsing agents

An agent can be written down if it is sayable and its names are names
(`Agent.Printable`). Every text of such an agent, whatever its spacing, its
optional signs and the order in which it mixes beliefs and members, is parsed
back to the agent, up to spans; and what is parsed without errors can be written
down again (`printing_inverts_parsing`).

Both halves rest on where the names of a tree stand in its phrases: a phrase
mentions all of them (`Agent.mentions`), and if all of them are proper it can be
spelled (`Agent.spellable`).
-/

namespace AgentLang

open Grammar

/-! ## Names of trees -/

def Param.names (p : Param) : List String := [p.name.name, p.type.name]

def Stmt.names (s : Stmt) : List String := s.term.name.name :: s.term.names

def Belief.names (b : Belief) : List String := b.name.name :: b.init.flatMap Expr.names

def Member.names (m : Member) : List String :=
  m.name.name :: (m.params.flatMap Param.names ++ m.body.flatMap Stmt.names)

/-- All names in an agent, those of types included. -/
def Agent.names (a : Agent) : List String :=
  a.name.name :: (a.params.flatMap Param.names ++ a.beliefs.flatMap Belief.names ++
    a.members.flatMap Member.names)

/-- An agent that can be written down. -/
structure Agent.Printable (a : Agent) : Prop where
  sayable : a.Sayable
  names : ∀ name ∈ a.names, isName name = true

instance (a : Agent) : Decidable a.Printable :=
  decidable_of_iff (a.Sayable ∧ a.names.all isName = true)
    ⟨fun h => ⟨h.1, List.all_eq_true.mp h.2⟩, fun h => ⟨h.sayable, List.all_eq_true.mpr h.names⟩⟩

/-- The source is a text of the agent, with blanks between its tokens. -/
def Agent.Renders (a : Agent) (source : String) : Prop :=
  ∃ ks ∈ a.phrases, Spaced ks source.toList

/-! ## Phrases mention the names of their tree -/

def Mentions (L : Language TokenKind) (name : String) : Prop := ∀ ks ∈ L, .ident name ∈ ks

section Mentions

variable {L M : Language TokenKind} {name : String}

theorem mentions_word : Mentions (word (.ident name)) name := by
  rintro ks rfl
  exact List.mem_singleton_self _

theorem Mentions.mul_right (h : Mentions L name) : Mentions (L * M) name := by
  rintro - ⟨ks, hks, ms, -, rfl⟩
  exact List.mem_append_left _ (h ks hks)

theorem Mentions.mul_left (h : Mentions M name) : Mentions (L * M) name := by
  rintro - ⟨ks, -, ms, hms, rfl⟩
  exact List.mem_append_right _ (h ms hms)

variable {β : Type} {f : β → Language TokenKind} {x : β} {l : List β}

theorem mentions_prod (hx : x ∈ l) (h : Mentions (f x) name) :
    Mentions (l.map f).prod name := by
  induction l with
  | nil => cases hx
  | cons y l ih =>
      rw [List.map_cons, List.prod_cons]
      cases hx with
      | head => exact h.mul_right
      | tail _ hx => exact (ih hx).mul_left

theorem mentions_listed (hx : x ∈ l) (h : Mentions (f x) name) :
    Mentions (listed (l.map f)) name := by
  cases l with
  | nil => cases hx
  | cons y l =>
      rw [List.map_cons, listed, afterCommas, List.map_map]
      cases hx with
      | head => exact h.mul_right
      | tail _ hx => exact (mentions_prod hx h.mul_left).mul_left

end Mentions

theorem Expr.mentions {e : Expr} {name : String} (h : name ∈ e.names) :
    Mentions e.phrases name := by
  induction e with
  | ident =>
      obtain rfl := List.mem_singleton.mp h
      exact mentions_word
  | number => cases h
  | binary op left right span ihl ihr =>
      rcases List.mem_append.mp h with hleft | hright
      · exact (ihl hleft).mul_right.mul_right
      · exact (ihr hright).mul_left

theorem exprs_mention {es : List Expr} {name : String} (h : name ∈ es.flatMap Expr.names) :
    Mentions (listed (es.map Expr.phrases)) name := by
  obtain ⟨e, he, hname⟩ := List.mem_flatMap.mp h
  exact mentions_listed he (Expr.mentions hname)

theorem Stmt.mentions {s : Stmt} {name : String} (h : name ∈ s.names) :
    Mentions s.phrases name := by
  refine Mentions.mul_left ?_
  rcases List.mem_cons.mp h with rfl | hargs
  · exact mentions_word.mul_right.mul_right.mul_right
  · exact (exprs_mention hargs).mul_left.mul_right

theorem params_mention {params : List Param} {name : String}
    (h : name ∈ params.flatMap Param.names) : Mentions (paramPhrases params) name := by
  obtain ⟨p, hp, hname⟩ := List.mem_flatMap.mp h
  have hparam : Mentions p.phrases name := by
    rcases List.mem_pair.mp hname with rfl | rfl
    · exact mentions_word.mul_right.mul_right
    · exact mentions_word.mul_left
  cases params with
  | nil => cases hp
  | cons q params => exact (mentions_listed hp hparam).mul_left.mul_right

theorem Belief.mentions {b : Belief} {name : String} (h : name ∈ b.names) :
    Mentions b.phrases name := by
  refine Mentions.mul_right (Mentions.mul_right ?_)
  rcases List.mem_cons.mp h with rfl | hinit
  · exact mentions_word.mul_left.mul_right.mul_right
  · exact (exprs_mention hinit).mul_left

theorem Member.mentions {m : Member} {name : String} (h : name ∈ m.names) :
    Mentions m.phrases name := by
  refine Mentions.mul_left (Mentions.mul_right ?_)
  rcases List.mem_cons.mp h with rfl | hrest
  · exact mentions_word.mul_right.mul_right.mul_right
  · rcases List.mem_append.mp hrest with hparams | hbody
    · exact (params_mention hparams).mul_left.mul_right.mul_right
    · obtain ⟨s, hs, hname⟩ := List.mem_flatMap.mp hbody
      exact (mentions_prod hs (Stmt.mentions hname).mul_right).mul_left

theorem Agent.mentions {a : Agent} {name : String} (h : name ∈ a.names) :
    Mentions a.phrases name := by
  rintro ks ⟨items, hbeliefs, hmembers, hks⟩
  refine (?_ : Mentions _ name) ks hks
  simp only [Agent.names, List.mem_cons, List.mem_append] at h
  refine Mentions.mul_right ?_
  rcases h with rfl | (hparams | hbelief) | hmember
  · exact mentions_word.mul_left.mul_right.mul_right.mul_right
  · exact (params_mention hparams).mul_left.mul_right.mul_right
  · obtain ⟨b, hb, hname⟩ := List.mem_flatMap.mp hbelief
    rw [← hbeliefs] at hb
    exact (mentions_prod (mem_beliefs_iff.mp hb) (Belief.mentions hname)).mul_left
  · obtain ⟨m, hm, hname⟩ := List.mem_flatMap.mp hmember
    rw [← hmembers] at hm
    exact (mentions_prod (mem_members_iff.mp hm) (Member.mentions hname)).mul_left

/-! ## Phrases that can be spelled -/

def Spellable (L : Language TokenKind) : Prop := ∃ ks ∈ L, ∀ k ∈ ks, k.proper = true

section Spellable

variable {L M : Language TokenKind} {Ls : List (Language TokenKind)}

theorem spellable_one : Spellable 1 := ⟨[], rfl, List.forall_mem_nil _⟩

@[grind ←] theorem spellable_mul (hL : Spellable L) (hM : Spellable M) : Spellable (L * M) := by
  obtain ⟨ks, hks, hproper⟩ := hL
  obtain ⟨ms, hms, hproper'⟩ := hM
  exact ⟨ks ++ ms, Language.append_mem_mul hks hms,
    List.forall_mem_append.mpr ⟨hproper, hproper'⟩⟩

theorem spellable_word {k : TokenKind} (h : k.proper = true) : Spellable (word k) :=
  ⟨[k], rfl, List.forall_mem_singleton.mpr h⟩

@[grind ←] theorem spellable_sym (s : Symbol) : Spellable (sym s) := spellable_word rfl

@[grind ←] theorem spellable_key (w : Keyword) : Spellable (key w) := spellable_word rfl

@[grind ←] theorem spellable_name {name : String} (h : isName name = true) :
    Spellable (word (.ident name)) := spellable_word h

@[grind ←] theorem spellable_optional : Spellable (optional L) :=
  ⟨[], .inl rfl, List.forall_mem_nil _⟩

theorem spellable_prod (h : ∀ L ∈ Ls, Spellable L) : Spellable Ls.prod := by
  induction Ls with
  | nil => exact spellable_one
  | cons L Ls ih =>
      rw [List.forall_mem_cons] at h
      rw [List.prod_cons]
      exact spellable_mul h.1 (ih h.2)

theorem spellable_listed (h : ∀ L ∈ Ls, Spellable L) : Spellable (listed Ls) := by
  cases Ls with
  | nil => exact spellable_one
  | cons L Ls =>
      rw [List.forall_mem_cons] at h
      refine spellable_mul h.1 (spellable_prod ?_)
      rw [List.forall_mem_map]
      exact fun M hM => spellable_mul (spellable_sym _) (h.2 M hM)

end Spellable

theorem exists_digits {value : Int64} (h : 0 ≤ value) :
    ∃ digits, isNumeral digits = true ∧ integerOfDigits? digits = some value := by
  have hlt := value.toNatClampNeg_lt
  have hnat : naturalOfDigits value.toNatClampNeg.repr = value.toNatClampNeg := by
    rw [naturalOfDigits, Nat.toList_repr, Nat.ofDigitChars_ten_toDigits]
  refine ⟨value.toNatClampNeg.repr, ?_, ?_⟩
  · simp only [isNumeral, Nat.toList_repr, Bool.and_eq_true, Bool.not_eq_true',
      List.isEmpty_eq_false_iff, List.all_eq_true]
    exact ⟨Nat.toDigits_ne_nil, fun c hc => Nat.isDigit_of_mem_toDigits (by omega) le_rfl hc⟩
  · rw [integerOfDigits?_eq_some, hnat, Int64.ofNat_toNatClampNeg value h]
    exact ⟨by omega, rfl⟩

theorem Expr.spellable {e : Expr} (hs : ∀ v ∈ e.literals, 0 ≤ v)
    (h : ∀ name ∈ e.names, isName name = true) : Spellable e.phrases := by
  induction e with
  | ident name => exact spellable_name (h name (List.mem_singleton_self _))
  | number value =>
      obtain ⟨digits, hproper, hvalue⟩ := exists_digits (hs value (List.mem_singleton_self _))
      exact ⟨[.number digits], ⟨digits, rfl, hvalue⟩, List.forall_mem_singleton.mpr hproper⟩
  | binary op left right span ihl ihr =>
      simp only [Expr.literals, Expr.names, List.mem_append, or_imp, forall_and] at hs h
      exact spellable_mul (spellable_mul (ihl hs.1 h.1) (spellable_sym _)) (ihr hs.2 h.2)

theorem exprs_spellable {es : List Expr} (hs : ∀ e ∈ es, e.Sayable)
    (h : ∀ name ∈ es.flatMap Expr.names, isName name = true) :
    Spellable (listed (es.map Expr.phrases)) := by
  refine spellable_listed (List.forall_mem_map.mpr fun e he => ?_)
  exact Expr.spellable (hs e he).literals fun name hname =>
    h name (List.mem_flatMap.mpr ⟨e, he, hname⟩)

theorem params_spellable {params : List Param}
    (h : ∀ name ∈ params.flatMap Param.names, isName name = true) :
    Spellable (paramPhrases params) := by
  cases params with
  | nil => exact spellable_optional
  | cons p params =>
      have hlist : Spellable (listed ((p :: params).map Param.phrases)) := by
        refine spellable_listed (List.forall_mem_map.mpr fun q hq => ?_)
        have hname := h q.name.name (List.mem_flatMap.mpr ⟨q, hq, by simp [Param.names]⟩)
        have htype := h q.type.name (List.mem_flatMap.mpr ⟨q, hq, by simp [Param.names]⟩)
        grind [Param.phrases]
      grind [paramPhrases]

theorem Stmt.spellable {s : Stmt} (hs : ∀ e ∈ s.term.args, e.Sayable)
    (h : ∀ name ∈ s.names, isName name = true) : Spellable s.phrases := by
  rw [Stmt.names, List.forall_mem_cons] at h
  have hname := spellable_name h.1
  have hargs := exprs_spellable hs h.2
  unfold phrases Term.phrases
  grind

theorem Belief.spellable {b : Belief} (hs : b.Sayable)
    (h : ∀ name ∈ b.names, isName name = true) : Spellable b.phrases := by
  rw [Belief.names, List.forall_mem_cons] at h
  have hname := spellable_name h.1
  have hinit := exprs_spellable hs.exprs h.2
  unfold phrases
  grind

theorem Member.spellable {m : Member} (hs : m.Sayable)
    (h : ∀ name ∈ m.names, isName name = true) : Spellable m.phrases := by
  rw [Member.names, List.forall_mem_cons, List.forall_mem_append] at h
  have hname := spellable_name h.1
  have hparams := params_spellable h.2.1
  have hbody : Spellable (blockPhrases m.body) := by
    refine spellable_prod (List.forall_mem_map.mpr fun s hmem => ?_)
    refine spellable_mul (Stmt.spellable (hs s hmem) fun name hname => ?_) (spellable_sym _)
    exact h.2.2 name (List.mem_flatMap.mpr ⟨s, hmem, hname⟩)
  unfold phrases
  grind

theorem Agent.spellable {a : Agent} (h : a.Printable) : Spellable a.phrases := by
  have hnames := h.names
  rw [Agent.names, List.forall_mem_cons, List.forall_mem_append, List.forall_mem_append] at hnames
  obtain ⟨hname, ⟨hparams, hbeliefs⟩, hmembers⟩ := hnames
  have hword := spellable_name hname
  have hps := params_spellable hparams
  have hitems : Spellable
      (itemPhrases (a.beliefs.map Item.belief ++ a.members.map Item.member)) := by
    refine spellable_prod ?_
    rw [List.forall_mem_map, List.forall_mem_append, List.forall_mem_map, List.forall_mem_map]
    refine ⟨fun b hb => ?_, fun m hm => ?_⟩
    · exact Belief.spellable (h.sayable.beliefs b hb) fun name hname =>
        hbeliefs name (List.mem_flatMap.mpr ⟨b, hb, hname⟩)
    · exact Member.spellable (h.sayable.members m hm) fun name hname =>
        hmembers name (List.mem_flatMap.mpr ⟨m, hm, hname⟩)
  obtain ⟨ks, hks, hproper⟩ : Spellable (key .agent * word (.ident a.name.name) *
      paramPhrases a.params * sym .lbrace *
      itemPhrases (a.beliefs.map Item.belief ++ a.members.map Item.member) * sym .rbrace) := by
    grind
  refine ⟨ks, ⟨_, ?_, ?_, hks⟩, hproper⟩
  · simp [List.filterMap_append, List.filterMap_map, Function.comp_def, Item.belief?]
  · simp [List.filterMap_append, List.filterMap_map, Function.comp_def, Item.member?]

/-! ## Texts -/

/-- The tokens, each after a space. -/
def spell (ks : List TokenKind) : List Char := ks.flatMap fun k => ' ' :: k.text.toList

theorem spaced_spell {ks : List TokenKind} (h : ∀ k ∈ ks, k.proper = true) :
    Spaced ks (spell ks) := by
  induction ks with
  | nil => exact .done (List.forall_mem_nil _)
  | cons k ks ih =>
      rw [List.forall_mem_cons] at h
      have hbreaks : Breaks (spell ks) := by
        cases ks with
        | nil => exact fun c hc => by cases hc
        | cons k' ks =>
            rintro c ⟨rfl⟩
            decide
      show Spaced (k :: ks) ([' '] ++ k.text.toList ++ spell ks)
      exact .token (List.forall_mem_singleton.mpr (by decide)) h.1 hbreaks (ih h.2)

/-- What can be written down has a text. -/
theorem Agent.exists_renders {a : Agent} (h : a.Printable) : ∃ source, a.Renders source := by
  obtain ⟨ks, hks, hproper⟩ := Agent.spellable h
  exact ⟨String.ofList (spell ks), ks, hks, by simpa using spaced_spell hproper⟩

theorem tokenKinds_of_spaced {source : String} {ks : List TokenKind}
    (h : Spaced ks source.toList) : tokenKinds source = ks :=
  tokensFrom_spaced h _

/-- What is parsed without errors can be written down. -/
theorem parse_printable {source : String} (h : (parse source).2 = []) :
    (parse source).1.Printable := by
  refine ⟨parse_sayable source, fun name hname => ?_⟩
  have hmem := Agent.mentions hname _ (tokenKinds_mem_phrases h)
  rcases tokenKinds_cases hmem with hproper | hunknown
  · exact hproper
  · cases hunknown

/-- Parsing undoes printing, and its results can be printed. -/
theorem printing_inverts_parsing :
    (∀ (a : Agent), a.Printable → (∃ source, a.Renders source) ∧
      ∀ source, a.Renders source → (parse source).2 = [] ∧ (parse source).1.erase = a.erase) ∧
    (∀ source, (parse source).2 = [] → (parse source).1.Printable) ∧
    ∀ source, (parse source).1.Sayable := by
  refine ⟨fun a ha => ⟨Agent.exists_renders ha, ?_⟩, fun source => parse_printable, parse_sayable⟩
  rintro source ⟨ks, hks, hspaced⟩
  rw [← tokenKinds_of_spaced hspaced] at hks
  exact (parse_of_mem_phrases ha.sayable hks).symm

theorem counter_printed :
    counter.Printable ∧ ∃ source, counter.Renders source ∧
      (parse source).2 = [] ∧ (parse source).1.erase = counter := by
  have hprintable : counter.Printable := by decide
  obtain ⟨⟨source, hsource⟩, hparse⟩ := printing_inverts_parsing.1 counter hprintable
  exact ⟨hprintable, source, hsource, hparse source hsource⟩

end AgentLang
