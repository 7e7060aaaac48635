import AgentLang.Agent
import AgentLang.Token
import Mathlib.Computability.Language
import Mathlib.Order.CompletePartialOrder

/-!
# The grammar

The sentences of the language, production by production, as languages over
kinds of tokens (`Grammar.agent`). Beside them stand the phrases of a tree:
every way to write it down as tokens (`Agent.phrases`).

The two say the same. What can be written for a tree is a sentence
(`Agent.phrases_le`), and a sentence whose numbers are not too large is a
phrase of some tree of the shape that precedence and associativity give
(`exists_agent`).
-/

open scoped Computability

namespace AgentLang

/-! ## Sentences -/

namespace Grammar

def word (k : TokenKind) : Language TokenKind := {[k]}

def sym (s : Symbol) : Language TokenKind := word (.symbol s)

def key (w : Keyword) : Language TokenKind := word (.keyword w)

def ident : Language TokenKind := {ks | ∃ name, ks = [.ident name]}

def number : Language TokenKind := {ks | ∃ digits, ks = [.number digits]}

def optional (L : Language TokenKind) : Language TokenKind := 1 + L

/-- One or more, with commas between them. -/
def commaList (L : Language TokenKind) : Language TokenKind := L * (sym .comma * L)∗

def atom : Language TokenKind := ident + number

def product : Language TokenKind := atom * ((sym .star + sym .slash) * atom)∗

def expr : Language TokenKind := product * ((sym .plus + sym .minus) * product)∗

def term : Language TokenKind :=
  ident * sym .lparen * optional (commaList expr) * sym .rparen

def statement : Language TokenKind := (sym .query + sym .plus + sym .bang) * term

def params : Language TokenKind := optional (commaList (ident * sym .colon * ident))

def procedure : Language TokenKind :=
  ident * optional (sym .lparen * params * sym .rparen) * sym .lbrace *
    (statement * sym .semi)∗ * sym .rbrace

def belief : Language TokenKind :=
  key .bel * ident * sym .lparen * optional (commaList atom) * sym .rparen *
    optional (sym .semi)

def member : Language TokenKind := belief + key .on * procedure + key .plan * procedure

def agent : Language TokenKind :=
  key .agent * ident * optional (sym .lparen * params * sym .rparen) * sym .lbrace *
    member∗ * sym .rbrace

end Grammar

open Grammar

/-! ## Phrases of trees -/

def BinOp.symbol : BinOp → Symbol
  | add => .plus
  | sub => .minus
  | mul => .star
  | div => .slash

def StmtKind.symbol : StmtKind → Symbol
  | query => .query
  | update => .plus
  | invoke => .bang

def MemberKind.opener : MemberKind → Keyword
  | plan => .plan
  | handler => .on

/-- A literal may be written with any digits that denote it. -/
def Expr.phrases : Expr → Language TokenKind
  | ident name _ => word (.ident name)
  | number value _ =>
    {ks | ∃ digits, ks = [.number digits] ∧ integerOfDigits? digits = some value}
  | binary op left right _ => left.phrases * sym op.symbol * right.phrases

/-- Each after a comma. -/
def afterCommas (Ls : List (Language TokenKind)) : Language TokenKind :=
  (Ls.map (sym .comma * ·)).prod

/-- All of them, with commas between them. -/
def listed : List (Language TokenKind) → Language TokenKind
  | [] => 1
  | L :: Ls => L * afterCommas Ls

def Term.phrases (t : Term) : Language TokenKind :=
  word (.ident t.name.name) * sym .lparen * listed (t.args.map Expr.phrases) * sym .rparen

def Stmt.phrases (s : Stmt) : Language TokenKind := sym s.kind.symbol * s.term.phrases

def blockPhrases (stmts : List Stmt) : Language TokenKind :=
  (stmts.map fun s => s.phrases * sym .semi).prod

def Param.phrases (p : Param) : Language TokenKind :=
  word (.ident p.name.name) * sym .colon * word (.ident p.type.name)

/-- No parameters are written `()` or left out. -/
def paramPhrases : List Param → Language TokenKind
  | [] => optional (sym .lparen * sym .rparen)
  | p :: params => sym .lparen * listed ((p :: params).map Param.phrases) * sym .rparen

def Belief.phrases (b : Belief) : Language TokenKind :=
  key .bel * word (.ident b.name.name) * sym .lparen * listed (b.init.map Expr.phrases) *
    sym .rparen * optional (sym .semi)

def Member.phrases (m : Member) : Language TokenKind :=
  key m.kind.opener * (word (.ident m.name.name) * paramPhrases m.params * sym .lbrace *
    blockPhrases m.body * sym .rbrace)

def Item.phrases : Item → Language TokenKind
  | belief b => b.phrases
  | member m => m.phrases

def itemPhrases (items : List Item) : Language TokenKind := (items.map Item.phrases).prod

/-- Beliefs and members may be mixed, each of the two in its order. -/
def Agent.phrases (a : Agent) : Language TokenKind :=
  {ks | ∃ items : List Item, items.filterMap Item.belief? = a.beliefs ∧
    items.filterMap Item.member? = a.members ∧
    ks ∈ key .agent * word (.ident a.name.name) * paramPhrases a.params * sym .lbrace *
      itemPhrases items * sym .rbrace}

theorem mem_beliefs_iff {items : List Item} {b : Belief} :
    b ∈ items.filterMap Item.belief? ↔ .belief b ∈ items := by
  rw [List.mem_filterMap]
  constructor
  · rintro ⟨item, hitem, hsome⟩
    cases item with
    | belief c => exact Option.some.inj hsome ▸ hitem
    | member => cases hsome
  · exact fun h => ⟨_, h, rfl⟩

theorem mem_members_iff {items : List Item} {m : Member} :
    m ∈ items.filterMap Item.member? ↔ .member m ∈ items := by
  rw [List.mem_filterMap]
  constructor
  · rintro ⟨item, hitem, hsome⟩
    cases item with
    | belief => cases hsome
    | member n => exact Option.some.inj hsome ▸ hitem
  · exact fun h => ⟨_, h, rfl⟩

/-! ## Trees that have a text -/

def Expr.isAtom : Expr → Bool
  | ident .. => true
  | number .. => true
  | binary .. => false

def BinOp.isSum : BinOp → Bool
  | add => true
  | sub => true
  | mul => false
  | div => false

def Expr.isSum : Expr → Bool
  | binary op .. => op.isSum
  | _ => false

/-- No `+` and no `-` anywhere. -/
def Expr.sumFree : Expr → Bool
  | binary op left right _ => !op.isSum && left.sumFree && right.sumFree
  | _ => true

/-- The shape that precedence and left associativity give to an expression
without parentheses. -/
def Expr.canonical : Expr → Bool
  | binary op left right _ =>
    left.canonical && right.canonical &&
      if op.isSum then !right.isSum
      else left.sumFree && right.sumFree && right.isAtom
  | _ => true

def Expr.literals : Expr → List Int64
  | ident .. => []
  | number value _ => [value]
  | binary _ left right _ => left.literals ++ right.literals

/-- An expression that has a text: canonical, and without negative literals. -/
structure Expr.Sayable (e : Expr) : Prop where
  canonical : e.canonical = true
  literals : ∀ v ∈ e.literals, 0 ≤ v

instance (e : Expr) : Decidable e.Sayable :=
  decidable_of_iff (e.canonical = true ∧ e.literals.all (0 ≤ ·) = true)
    ⟨fun h => ⟨h.1, by simpa using h.2⟩, fun h => ⟨h.canonical, by simpa using h.literals⟩⟩

theorem Expr.sumFree_of_isAtom {e : Expr} (h : e.isAtom = true) : e.sumFree = true := by
  cases e with
  | ident => rfl
  | number => rfl
  | binary => cases h

theorem Expr.isSum_of_sumFree {e : Expr} (h : e.sumFree = true) : e.isSum = false := by
  cases e with
  | ident => rfl
  | number => rfl
  | binary op left right span =>
      simp only [sumFree, Bool.and_eq_true, Bool.not_eq_true'] at h
      exact h.1.1

theorem Expr.sayable_product {op : BinOp} {left right : Expr} {span : Span}
    (hop : op.isSum = false) (hl : left.sumFree = true ∧ left.Sayable)
    (hr : right.isAtom = true ∧ right.Sayable) :
    (binary op left right span).sumFree = true ∧ (binary op left right span).Sayable := by
  have hfree := sumFree_of_isAtom hr.1
  refine ⟨by simp [sumFree, hop, hl.1, hfree], ?_, ?_⟩
  · simp [Expr.canonical, hop, hl.2.canonical, hr.2.canonical, hl.1, hfree, hr.1]
  · simpa [Expr.literals, or_imp, forall_and] using ⟨hl.2.literals, hr.2.literals⟩

theorem Expr.sayable_sum {op : BinOp} {left right : Expr} {span : Span}
    (hop : op.isSum = true) (hl : left.Sayable)
    (hr : right.sumFree = true ∧ right.Sayable) : (binary op left right span).Sayable := by
  have hsum := isSum_of_sumFree hr.1
  refine ⟨by simp [Expr.canonical, hop, hl.canonical, hr.2.canonical, hsum], ?_⟩
  simpa [Expr.literals, or_imp, forall_and] using ⟨hl.literals, hr.2.literals⟩

/-- A belief whose initial values are names and literals. -/
structure Belief.Sayable (b : Belief) : Prop where
  atoms : ∀ e ∈ b.init, e.isAtom = true
  exprs : ∀ e ∈ b.init, e.Sayable

instance (b : Belief) : Decidable b.Sayable :=
  decidable_of_iff ((∀ e ∈ b.init, e.isAtom = true) ∧ ∀ e ∈ b.init, e.Sayable)
    ⟨fun h => ⟨h.1, h.2⟩, fun h => ⟨h.atoms, h.exprs⟩⟩

def Member.Sayable (m : Member) : Prop := ∀ s ∈ m.body, ∀ e ∈ s.term.args, e.Sayable

instance (m : Member) : Decidable m.Sayable :=
  inferInstanceAs (Decidable (∀ s ∈ m.body, ∀ e ∈ s.term.args, e.Sayable))

def Item.Sayable : Item → Prop
  | belief b => b.Sayable
  | member m => m.Sayable

structure Agent.Sayable (a : Agent) : Prop where
  beliefs : ∀ b ∈ a.beliefs, b.Sayable
  members : ∀ m ∈ a.members, m.Sayable

instance (a : Agent) : Decidable a.Sayable :=
  decidable_of_iff ((∀ b ∈ a.beliefs, b.Sayable) ∧ ∀ m ∈ a.members, m.Sayable)
    ⟨fun h => ⟨h.1, h.2⟩, fun h => ⟨h.beliefs, h.members⟩⟩

/-! ## Phrases are sentences -/

theorem word_ident_le (name : String) : word (.ident name) ≤ ident := by
  rintro ks rfl
  exact ⟨name, rfl⟩

theorem prod_le_kstar {β : Type} {f : β → Language TokenKind} {L : Language TokenKind}
    {l : List β} (h : ∀ x ∈ l, f x ≤ L) : (l.map f).prod ≤ L∗ := by
  induction l with
  | nil => exact one_le_kstar
  | cons x l ih =>
      rw [List.forall_mem_cons] at h
      rw [List.map_cons, List.prod_cons]
      exact (mul_le_mul' h.1 (ih h.2)).trans mul_kstar_le_kstar

theorem listed_le {β : Type} {f : β → Language TokenKind} {L : Language TokenKind}
    {l : List β} (h : ∀ x ∈ l, f x ≤ L) : listed (l.map f) ≤ optional (commaList L) := by
  cases l with
  | nil => exact le_sup_left
  | cons x l =>
      rw [List.forall_mem_cons] at h
      refine le_trans ?_ le_sup_right
      rw [List.map_cons, listed, afterCommas, List.map_map]
      exact mul_le_mul' h.1 (prod_le_kstar fun y hy => mul_le_mul_right (h.2 y hy) _)

/-- A chain takes one more link at its end. -/
theorem chain_mul_le (A B : Language TokenKind) : A * B∗ * B ≤ A * B∗ := by
  rw [mul_assoc]
  exact mul_le_mul_right kstar_mul_le_kstar _

theorem le_chain (A B : Language TokenKind) : A ≤ A * B∗ :=
  le_mul_of_one_le_right' one_le_kstar

theorem Expr.phrases_le_atom {e : Expr} (h : e.isAtom = true) : e.phrases ≤ Grammar.atom := by
  cases e with
  | ident name _ => exact (word_ident_le name).trans le_sup_left
  | number value _ =>
      rintro ks ⟨digits, rfl, -⟩
      exact Or.inr ⟨digits, rfl⟩
  | binary => cases h

theorem BinOp.symbol_le (op : BinOp) :
    sym op.symbol ≤ if op.isSum then sym .plus + sym .minus else sym .star + sym .slash := by
  cases op with
  | add => exact le_sup_left
  | sub => exact le_sup_right
  | mul => exact le_sup_left
  | div => exact le_sup_right

theorem Expr.phrases_le_product {e : Expr} (hc : e.canonical = true)
    (hs : e.sumFree = true) : e.phrases ≤ Grammar.product := by
  induction e with
  | ident name span => exact (phrases_le_atom rfl).trans (le_chain _ _)
  | number value span => exact (phrases_le_atom rfl).trans (le_chain _ _)
  | binary op left right span ihl ihr =>
      simp only [canonical, sumFree, Bool.and_eq_true, Bool.not_eq_true'] at hc hs
      have hop := op.symbol_le
      simp only [hs.1.1, Bool.false_eq_true, if_false, Bool.and_eq_true] at hc hop
      rw [phrases, mul_assoc]
      refine le_trans ?_ (chain_mul_le _ _)
      exact mul_le_mul' (ihl hc.1.1 hs.1.2) (mul_le_mul' hop (phrases_le_atom hc.2.2))

theorem Expr.sumFree_of_canonical {e : Expr} (hc : e.canonical = true)
    (hs : e.isSum = false) : e.sumFree = true := by
  cases e with
  | ident => rfl
  | number => rfl
  | binary op left right span =>
      simp only [isSum] at hs
      simp only [canonical, hs, Bool.and_eq_true, Bool.false_eq_true, if_false] at hc
      simp [sumFree, hs, hc.2.1.1, hc.2.1.2]

theorem Expr.phrases_le_expr {e : Expr} (hc : e.canonical = true) :
    e.phrases ≤ Grammar.expr := by
  induction e with
  | ident name span => exact (phrases_le_product hc rfl).trans (le_chain _ _)
  | number value span => exact (phrases_le_product hc rfl).trans (le_chain _ _)
  | binary op left right span ihl ihr =>
      cases hop : op.isSum with
      | false => exact (phrases_le_product hc (sumFree_of_canonical hc hop)).trans (le_chain _ _)
      | true =>
          have hle := op.symbol_le
          simp only [canonical, hop, Bool.and_eq_true, if_true, Bool.not_eq_true'] at hc hle
          rw [phrases, mul_assoc]
          refine le_trans ?_ (chain_mul_le _ _)
          exact mul_le_mul' (ihl hc.1.1) (mul_le_mul' hle
            (phrases_le_product hc.1.2 (sumFree_of_canonical hc.1.2 hc.2)))

theorem Term.phrases_le {t : Term} (h : ∀ e ∈ t.args, e.Sayable) :
    t.phrases ≤ Grammar.term := by
  unfold phrases Grammar.term
  gcongr
  · exact word_ident_le _
  · exact listed_le fun e he => Expr.phrases_le_expr (h e he).canonical

theorem Stmt.phrases_le {s : Stmt} (h : ∀ e ∈ s.term.args, e.Sayable) :
    s.phrases ≤ Grammar.statement := by
  refine mul_le_mul' ?_ (Term.phrases_le h)
  cases s.kind with
  | query => exact le_sup_of_le_left le_sup_left
  | update => exact le_sup_of_le_left le_sup_right
  | invoke => exact le_sup_right

theorem Param.phrases_le (p : Param) : p.phrases ≤ ident * sym .colon * ident := by
  unfold phrases
  gcongr <;> exact word_ident_le _

theorem paramPhrases_le (params : List Param) :
    paramPhrases params ≤ optional (sym .lparen * Grammar.params * sym .rparen) := by
  cases params with
  | nil =>
      refine sup_le_sup_left (mul_le_mul_left ?_ _) _
      exact le_mul_of_one_le_right' le_sup_left
  | cons p params =>
      refine le_trans ?_ le_sup_right
      exact mul_le_mul_left (mul_le_mul_right (listed_le fun p _ => p.phrases_le) _) _

theorem Belief.phrases_le {b : Belief} (h : b.Sayable) : b.phrases ≤ Grammar.belief := by
  unfold phrases Grammar.belief
  gcongr
  · exact word_ident_le _
  · exact listed_le fun e he => Expr.phrases_le_atom (h.atoms e he)

theorem Member.phrases_le {m : Member} (h : m.Sayable) : m.phrases ≤ Grammar.member := by
  have hbody : word (.ident m.name.name) * paramPhrases m.params * sym .lbrace *
      blockPhrases m.body * sym .rbrace ≤ Grammar.procedure := by
    unfold Grammar.procedure
    gcongr
    · exact word_ident_le _
    · exact paramPhrases_le _
    · exact prod_le_kstar fun s hs => mul_le_mul_left (Stmt.phrases_le (h s hs)) _
  unfold phrases
  cases m.kind with
  | plan => exact le_sup_of_le_right (mul_le_mul_right hbody _)
  | handler => exact le_sup_of_le_left (le_sup_of_le_right (mul_le_mul_right hbody _))

/-- What can be written for a tree is a sentence. -/
theorem Agent.phrases_le {a : Agent} (h : a.Sayable) : a.phrases ≤ Grammar.agent := by
  rintro ks ⟨items, hbeliefs, hmembers, hks⟩
  refine (?_ : _ ≤ Grammar.agent) hks
  unfold Grammar.agent
  gcongr
  · exact word_ident_le _
  · exact paramPhrases_le _
  · refine prod_le_kstar fun item hitem => ?_
    cases item with
    | belief b =>
        have hb : b ∈ a.beliefs := hbeliefs ▸ mem_beliefs_iff.mpr hitem
        exact le_sup_of_le_left (le_sup_of_le_left (Belief.phrases_le (h.beliefs b hb)))
    | member m =>
        have hm : m ∈ a.members := hmembers ▸ mem_members_iff.mpr hitem
        exact Member.phrases_le (h.members m hm)

/-! ## Sentences are phrases -/

/-- No number is too large for an integer of the language. -/
def InRange (ks : List TokenKind) : Prop :=
  ∀ digits, .number digits ∈ ks → naturalOfDigits digits ≤ 9223372036854775807

theorem inRange_append {ks ks' : List TokenKind} :
    InRange (ks ++ ks') ↔ InRange ks ∧ InRange ks' := by
  simp only [InRange, List.mem_append]
  exact ⟨fun h => ⟨fun d hd => h d (Or.inl hd), fun d hd => h d (Or.inr hd)⟩,
    fun h d hd => hd.elim (h.1 d) (h.2 d)⟩

theorem integerOfDigits?_eq_some {digits : String} {value : Int64} :
    integerOfDigits? digits = some value ↔
      naturalOfDigits digits ≤ 9223372036854775807 ∧
        value = Int64.ofNat (naturalOfDigits digits) := by
  simp only [integerOfDigits?]
  split
  · next h => simp [h, eq_comm]
  · next h => simp [h]

theorem integerOfDigits?_nonneg {digits : String} {value : Int64}
    (h : integerOfDigits? digits = some value) : 0 ≤ value := by
  obtain ⟨hle, rfl⟩ := integerOfDigits?_eq_some.mp h
  rw [Int64.le_iff_toInt_le, Int64.toInt_ofNat_of_lt (by omega)]
  exact Int.natCast_nonneg _

theorem exists_atom {ks : List TokenKind} (h : ks ∈ Grammar.atom) (hr : InRange ks) :
    ∃ e : Expr, (e.isAtom = true ∧ e.Sayable) ∧ ks ∈ e.phrases := by
  rcases h with ⟨name, rfl⟩ | ⟨digits, rfl⟩
  · exact ⟨.ident name .nowhere, ⟨rfl, ⟨rfl, by simp [Expr.literals]⟩⟩, rfl⟩
  · have hv := integerOfDigits?_eq_some.mpr ⟨hr digits (by simp), rfl⟩
    refine ⟨.number _ .nowhere, ⟨rfl, ⟨rfl, ?_⟩⟩, digits, rfl, hv⟩
    simpa [Expr.literals] using integerOfDigits?_nonneg hv

/-- A chain of operands of one precedence is a phrase of the tree that leans to
the left. -/
theorem exists_chain {P Q : Expr → Prop} {C : BinOp → Prop} {O A : Language TokenKind}
    (hop : ∀ ks ∈ O, ∃ op, C op ∧ ks = [.symbol op.symbol])
    (hoperand : ∀ ks ∈ A, InRange ks → ∃ e, Q e ∧ ks ∈ e.phrases)
    (hjoin : ∀ op left right, C op → P left → Q right →
      P (.binary op left right .nowhere))
    {links : List (List TokenKind)} :
    ∀ {ks : List TokenKind} {e : Expr}, (∀ y ∈ links, y ∈ O * A) → P e → ks ∈ e.phrases →
      InRange links.flatten → ∃ e', P e' ∧ ks ++ links.flatten ∈ e'.phrases := by
  induction links with
  | nil =>
      intro ks e _ he hks _
      exact ⟨e, he, by simpa using hks⟩
  | cons y links ih =>
      intro ks e hlinks he hks hr
      rw [List.forall_mem_cons] at hlinks
      obtain ⟨⟨o, ho, kr, hkr, rfl⟩, hlinks⟩ := hlinks
      obtain ⟨op, hlink, rfl⟩ := hop o ho
      simp only [List.flatten_cons, inRange_append] at hr
      obtain ⟨right, hright, hphrase⟩ := hoperand kr hkr hr.1.2
      have hks' : ks ++ [.symbol op.symbol] ++ kr ∈ (Expr.binary op e right .nowhere).phrases :=
        Language.append_mem_mul (Language.append_mem_mul hks rfl) hphrase
      obtain ⟨e', he', hphrase'⟩ := ih hlinks (hjoin op e right hlink he hright) hks' hr.2
      exact ⟨e', he', by simpa using hphrase'⟩

theorem exists_product {ks : List TokenKind} (h : ks ∈ Grammar.product) (hr : InRange ks) :
    ∃ e : Expr, (e.sumFree = true ∧ e.Sayable) ∧ ks ∈ e.phrases := by
  obtain ⟨ka, ha, kl, ⟨links, rfl, hlinks⟩, rfl⟩ := h
  rw [inRange_append] at hr
  obtain ⟨e, ⟨hatom, hsay⟩, hka⟩ := exists_atom ha hr.1
  refine exists_chain (C := fun op => op.isSum = false) ?_ (fun ks => exists_atom)
    (fun _ _ _ => Expr.sayable_product) hlinks ⟨Expr.sumFree_of_isAtom hatom, hsay⟩ hka hr.2
  rintro ks (rfl | rfl)
  · exact ⟨.mul, rfl, rfl⟩
  · exact ⟨.div, rfl, rfl⟩

theorem exists_expr {ks : List TokenKind} (h : ks ∈ Grammar.expr) (hr : InRange ks) :
    ∃ e : Expr, e.Sayable ∧ ks ∈ e.phrases := by
  obtain ⟨kp, hp, kl, ⟨links, rfl, hlinks⟩, rfl⟩ := h
  rw [inRange_append] at hr
  obtain ⟨e, ⟨-, hsay⟩, hkp⟩ := exists_product hp hr.1
  refine exists_chain (C := fun op => op.isSum = true) ?_ (fun ks => exists_product)
    (fun _ _ _ => Expr.sayable_sum) hlinks hsay hkp hr.2
  rintro ks (rfl | rfl)
  · exact ⟨.add, rfl, rfl⟩
  · exact ⟨.sub, rfl, rfl⟩

/-- Repeated sentences are the phrases of a list of trees. -/
theorem exists_prod {β : Type} {P : β → Prop} {f : β → Language TokenKind}
    {L : Language TokenKind} (h : ∀ ks ∈ L, InRange ks → ∃ x, P x ∧ ks ∈ f x)
    {ks : List TokenKind} (hks : ks ∈ L∗) (hr : InRange ks) :
    ∃ l : List β, (∀ x ∈ l, P x) ∧ ks ∈ (l.map f).prod := by
  obtain ⟨parts, rfl, hparts⟩ := hks
  induction parts with
  | nil => exact ⟨[], by simp, rfl⟩
  | cons y parts ih =>
      rw [List.forall_mem_cons] at hparts
      rw [List.flatten_cons, inRange_append] at hr
      obtain ⟨x, hx, hy⟩ := h y hparts.1 hr.1
      obtain ⟨l, hl, hmem⟩ := ih hparts.2 hr.2
      refine ⟨x :: l, List.forall_mem_cons.mpr ⟨hx, hl⟩, ?_⟩
      rw [List.map_cons, List.prod_cons, List.flatten_cons]
      exact Language.append_mem_mul hy hmem

theorem exists_listed {β : Type} {P : β → Prop} {f : β → Language TokenKind}
    {L : Language TokenKind} (h : ∀ ks ∈ L, InRange ks → ∃ x, P x ∧ ks ∈ f x)
    {ks : List TokenKind} (hks : ks ∈ optional (commaList L)) (hr : InRange ks) :
    ∃ l : List β, (∀ x ∈ l, P x) ∧ ks ∈ listed (l.map f) := by
  rcases hks with hnil | ⟨kx, hx, kl, hl, rfl⟩
  · exact ⟨[], by simp, hnil⟩
  · rw [inRange_append] at hr
    obtain ⟨x, hxP, hxmem⟩ := h kx hx hr.1
    have hcomma : ∀ ks ∈ sym .comma * L, InRange ks → ∃ x, P x ∧ ks ∈ sym .comma * f x := by
      rintro - ⟨kc, rfl, ky, hy, rfl⟩ hr
      rw [inRange_append] at hr
      obtain ⟨y, hyP, hymem⟩ := h ky hy hr.2
      exact ⟨y, hyP, Language.append_mem_mul rfl hymem⟩
    obtain ⟨l, hlP, hlmem⟩ := exists_prod hcomma hl hr.2
    refine ⟨x :: l, List.forall_mem_cons.mpr ⟨hxP, hlP⟩, ?_⟩
    rw [List.map_cons, listed, afterCommas, List.map_map]
    exact Language.append_mem_mul hxmem hlmem

theorem exists_term {ks : List TokenKind} (h : ks ∈ Grammar.term) (hr : InRange ks) :
    ∃ t : Term, (∀ e ∈ t.args, e.Sayable) ∧ ks ∈ t.phrases := by
  obtain ⟨-, ⟨-, ⟨-, ⟨name, rfl⟩, -, rfl, rfl⟩, ka, ha, rfl⟩, -, rfl, rfl⟩ := h
  simp only [inRange_append] at hr
  obtain ⟨args, hsay, hargs⟩ := exists_listed (fun ks => exists_expr) ha hr.1.2
  refine ⟨⟨⟨name, .nowhere⟩, args, .nowhere⟩, hsay, ?_⟩
  exact Language.append_mem_mul (Language.append_mem_mul (Language.append_mem_mul rfl rfl) hargs)
    rfl

theorem exists_statement {ks : List TokenKind} (h : ks ∈ Grammar.statement)
    (hr : InRange ks) :
    ∃ s : Stmt, (∀ e ∈ s.term.args, e.Sayable) ∧ ks ∈ s.phrases := by
  obtain ⟨kk, hk, kt, ht, rfl⟩ := h
  rw [inRange_append] at hr
  obtain ⟨t, hsay, hmem⟩ := exists_term ht hr.2
  rcases hk with (rfl | rfl) | rfl
  · exact ⟨⟨.query, t, .nowhere⟩, hsay, Language.append_mem_mul rfl hmem⟩
  · exact ⟨⟨.update, t, .nowhere⟩, hsay, Language.append_mem_mul rfl hmem⟩
  · exact ⟨⟨.invoke, t, .nowhere⟩, hsay, Language.append_mem_mul rfl hmem⟩

theorem exists_params {ks : List TokenKind}
    (h : ks ∈ optional (sym .lparen * Grammar.params * sym .rparen)) (hr : InRange ks) :
    ∃ params : List Param, ks ∈ paramPhrases params := by
  rcases h with hnil | ⟨-, ⟨-, rfl, kp, hp, rfl⟩, -, rfl, rfl⟩
  · exact ⟨[], Or.inl hnil⟩
  · have hparam : ∀ ks ∈ ident * sym .colon * ident, InRange ks →
        ∃ p : Param, True ∧ ks ∈ p.phrases := by
      rintro - ⟨-, ⟨-, ⟨name, rfl⟩, -, rfl, rfl⟩, -, ⟨type, rfl⟩, rfl⟩ -
      exact ⟨⟨⟨name, .nowhere⟩, ⟨type, .nowhere⟩, .nowhere⟩, trivial,
        Language.append_mem_mul (Language.append_mem_mul rfl rfl) rfl⟩
    simp only [inRange_append] at hr
    obtain ⟨params, -, hmem⟩ := exists_listed hparam hp hr.1.2
    have hwritten := Language.append_mem_mul
      (Language.append_mem_mul (l := sym .lparen) rfl hmem) (m := sym .rparen) rfl
    cases params with
    | nil =>
        refine ⟨[], Or.inr ?_⟩
        rwa [List.map_nil, listed, mul_one] at hwritten
    | cons p params => exact ⟨p :: params, hwritten⟩

theorem exists_belief {ks : List TokenKind} (h : ks ∈ Grammar.belief) (hr : InRange ks) :
    ∃ b : Belief, b.Sayable ∧ ks ∈ b.phrases := by
  obtain ⟨-, ⟨-, ⟨-, ⟨-, ⟨-, rfl, -, ⟨name, rfl⟩, rfl⟩, -, rfl, rfl⟩, ki, hi, rfl⟩, -, rfl, rfl⟩,
    kend, hend, rfl⟩ := h
  simp only [inRange_append] at hr
  obtain ⟨init, hsay, hmem⟩ := exists_listed (fun ks => exists_atom) hi hr.1.1.2
  refine ⟨⟨⟨name, .nowhere⟩, init, .nowhere⟩, ⟨fun e he => (hsay e he).1,
    fun e he => (hsay e he).2⟩, ?_⟩
  exact Language.append_mem_mul (Language.append_mem_mul (Language.append_mem_mul
    (Language.append_mem_mul (Language.append_mem_mul rfl rfl) rfl) hmem) rfl) hend

theorem exists_member {ks : List TokenKind} (kind : MemberKind)
    (h : ks ∈ key kind.opener * Grammar.procedure) (hr : InRange ks) :
    ∃ m : Member, m.Sayable ∧ ks ∈ m.phrases := by
  obtain ⟨-, rfl, -, ⟨-, ⟨-, ⟨-, ⟨-, ⟨name, rfl⟩, kp, hp, rfl⟩, -, rfl, rfl⟩, kb, hb, rfl⟩,
    -, rfl, rfl⟩, rfl⟩ := h
  simp only [inRange_append] at hr
  obtain ⟨params, hparams⟩ := exists_params hp hr.2.1.1.1.2
  have hstmt : ∀ ks ∈ Grammar.statement * sym .semi, InRange ks →
      ∃ s : Stmt, (∀ e ∈ s.term.args, e.Sayable) ∧ ks ∈ s.phrases * sym .semi := by
    rintro - ⟨ks, hs, -, rfl, rfl⟩ hr
    obtain ⟨s, hsay, hmem⟩ := exists_statement hs (inRange_append.mp hr).1
    exact ⟨s, hsay, Language.append_mem_mul hmem rfl⟩
  obtain ⟨body, hsay, hbody⟩ := exists_prod hstmt hb hr.2.1.2
  refine ⟨⟨kind, ⟨name, .nowhere⟩, params, body, .nowhere⟩, hsay, ?_⟩
  exact Language.append_mem_mul rfl (Language.append_mem_mul (Language.append_mem_mul
    (Language.append_mem_mul (Language.append_mem_mul rfl hparams) rfl) hbody) rfl)

theorem exists_item {ks : List TokenKind} (h : ks ∈ Grammar.member) (hr : InRange ks) :
    ∃ item : Item, item.Sayable ∧ ks ∈ item.phrases := by
  rcases h with (hb | hm) | hm
  · obtain ⟨b, hsay, hmem⟩ := exists_belief hb hr
    exact ⟨.belief b, hsay, hmem⟩
  · obtain ⟨m, hsay, hmem⟩ := exists_member .handler hm hr
    exact ⟨.member m, hsay, hmem⟩
  · obtain ⟨m, hsay, hmem⟩ := exists_member .plan hm hr
    exact ⟨.member m, hsay, hmem⟩

theorem Agent.ofItems_sayable {name : Ident} {params : List Param} {items : List Item}
    {span : Span} (h : ∀ item ∈ items, item.Sayable) :
    (ofItems name params items span).Sayable :=
  ⟨fun _ hb => h _ (mem_beliefs_iff.mp hb), fun _ hm => h _ (mem_members_iff.mp hm)⟩

/-- A sentence without a number that is too large is a phrase of a tree. -/
theorem exists_agent {ks : List TokenKind} (h : ks ∈ Grammar.agent) (hr : InRange ks) :
    ∃ a : Agent, a.Sayable ∧ ks ∈ a.phrases := by
  obtain ⟨-, ⟨-, ⟨-, ⟨-, ⟨-, rfl, -, ⟨name, rfl⟩, rfl⟩, kp, hp, rfl⟩, -, rfl, rfl⟩, ki, hi, rfl⟩,
    -, rfl, rfl⟩ := h
  simp only [inRange_append] at hr
  obtain ⟨params, hparams⟩ := exists_params hp hr.1.1.1.2
  obtain ⟨items, hsay, hitems⟩ := exists_prod (fun ks => exists_item) hi hr.1.2
  refine ⟨.ofItems ⟨name, .nowhere⟩ params items .nowhere, Agent.ofItems_sayable hsay,
    items, rfl, rfl, ?_⟩
  exact Language.append_mem_mul (Language.append_mem_mul (Language.append_mem_mul
    (Language.append_mem_mul (Language.append_mem_mul rfl rfl) hparams) rfl) hitems) rfl

end AgentLang
