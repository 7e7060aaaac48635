import AgentLang.Compile
import AgentLang.Proofs.Acceptance
import AgentLang.Proofs.Checker
import AgentLang.Proofs.Offsets
import AgentLang.Proofs.Reuse
import Mathlib.Algebra.GroupWithZero.Nat
import Mathlib.Algebra.Order.BigOperators.Group.List

/-!
# Internal errors are unreachable

Generation keeps track of its scopes: each operation leaves as many open as it
found, so none ever meets an empty stack, and the scope of the agent is the last
to be closed. What is left to fail is the numbering of slots
(`OnlyOverflows`, one lemma for each operation), and that takes a list which is
too long. A source has no more tokens than bytes, and no list of its agent is
longer than its tokens (`Agent.countable_of_phrase`), so sources of less than
`2 ^ 32 - 1` bytes never fail in this way (`internal_errors_unreachable`).
-/

namespace AgentLang

/-! ## Failing by overflow only -/

/-- If the computation fails, a number was too large. -/
def OnlyOverflows {α : Type} (x : Except InternalError α) : Prop :=
  ∀ e, x = .error e → ∃ what, e = .slotOverflow what

section OnlyOverflows

variable {α β : Type}

theorem OnlyOverflows.ok (a : α) : OnlyOverflows (.ok a) := nofun

theorem OnlyOverflows.of_exists {x : Except InternalError α} (h : ∃ a, x = .ok a) :
    OnlyOverflows x := by
  obtain ⟨a, rfl⟩ := h
  exact .ok a

theorem OnlyOverflows.bind {x : Except InternalError α} {f : α → Except InternalError β}
    (hx : OnlyOverflows x) (hf : ∀ a, x = .ok a → OnlyOverflows (f a)) :
    OnlyOverflows (x >>= f) := by
  cases x with
  | error e =>
      intro e' h
      obtain rfl := Except.error.inj h
      exact hx e rfl
  | ok a => exact hf a rfl

theorem onlyOverflows_slotIndex (n : Nat) (what : String) : OnlyOverflows (slotIndex n what) := by
  unfold slotIndex
  split
  · exact .ok n
  · intro e h
    exact ⟨what, (Except.error.inj h).symm⟩

end OnlyOverflows

namespace Draft

theorem onlyOverflows_declareParams {params : List Param} :
    ∀ {slot : Nat} {d : Draft}, 0 < d.scopes.depth →
      OnlyOverflows (declareParams slot params d) := by
  induction params with
  | nil => exact fun _ => .ok _
  | cons p params ih =>
      intro slot d hd
      refine .bind (onlyOverflows_slotIndex _ _) fun index _ => ?_
      refine .bind (.of_exists (declare_total hd _ _ _)) fun d' h' => ?_
      exact ih ((grows_declare h').depth ▸ hd)

theorem onlyOverflows_queryTarget {d : Draft} (hd : 0 < d.scopes.depth) (belief : String)
    (f : FieldId) (arity index : Nat) (arg : Expr) :
    OnlyOverflows (d.queryTarget belief f arity index arg) := by
  unfold queryTarget
  split
  · exact .ok _
  · next name _ =>
    refine .bind (.bind (onlyOverflows_slotIndex _ _) fun _ _ => .ok _) fun r hr => ?_
    obtain ⟨-, rfl⟩ := newLocal_eq_ok.mp hr
    have hg : Grows 0 { d with locals := d.locals ++ [name] } _ :=
      ((grows_emit _ [.loadField f]).trans (grows_project _ arity index arg.span)).trans
        (grows_emit _ [.storeLocal d.locals.length])
    exact .of_exists (declare_total (Nat.lt_of_lt_of_eq hd hg.depth.symm) _ _ _)

theorem onlyOverflows_queryTargets {belief : String} {f : FieldId} {arity : Nat}
    {args : List Expr} :
    ∀ {index : Nat} {d : Draft}, 0 < d.scopes.depth →
      OnlyOverflows (queryTargets belief f arity index args d) := by
  induction args with
  | nil => exact fun _ => .ok _
  | cons arg args ih =>
      intro index d hd
      refine .bind (onlyOverflows_queryTarget hd _ _ _ _ _) fun d' h' => ?_
      exact ih ((grows_queryTarget h').depth ▸ hd)

theorem onlyOverflows_query {d : Draft} (hd : 0 < d.scopes.depth) (t : Term) :
    OnlyOverflows (d.query t) := by
  have hb := grows_belief d t.name
  unfold query
  split
  · exact .ok _
  · next f arity d₁ h₁ =>
    rw [h₁] at hb
    have hc := hb.trans (grows_checkBeliefArity d₁ t arity)
    split
    · exact .ok _
    · next d₂ h₂ =>
      rw [h₂] at hc
      have ht := hc.trans (grows_tupleFor d₂ arity t.span)
      split
      · exact .ok _
      · next id d₃ h₃ =>
        rw [h₃] at ht
        exact onlyOverflows_queryTargets (ht.depth ▸ hd)

theorem onlyOverflows_invoke (checkArity : Bool) (d : Draft) (t : Term) :
    OnlyOverflows (d.invoke checkArity t) := by
  unfold invoke
  simp only
  split
  · exact .ok _
  · split
    · exact .ok _
    · exact .bind (onlyOverflows_slotIndex _ _) fun _ _ => .ok _

theorem onlyOverflows_statement (checkArity : Bool) {d : Draft} (hd : 0 < d.scopes.depth)
    (s : Stmt) : OnlyOverflows (d.statement checkArity s) := by
  unfold statement
  split
  · exact onlyOverflows_query hd s.term
  · exact .ok _
  · exact onlyOverflows_invoke checkArity d s.term

theorem onlyOverflows_statements (checkArity : Bool) {stmts : List Stmt} :
    ∀ {d : Draft}, 0 < d.scopes.depth → OnlyOverflows (statements checkArity stmts d) := by
  induction stmts with
  | nil => exact fun _ => .ok _
  | cons s stmts ih =>
      intro d hd
      refine .bind (onlyOverflows_statement checkArity hd s) fun d' h' => ?_
      exact ih ((grows_statement h').depth ▸ hd)

theorem onlyOverflows_initBeliefs {fields : List FieldDef} {beliefs : List Belief} :
    ∀ {index : Nat} {d : Draft}, OnlyOverflows (initBeliefs fields index beliefs d) := by
  induction beliefs with
  | nil => exact .ok _
  | cons b beliefs ih =>
      intro index d
      refine .bind ?_ fun d' _ => ih
      unfold initBelief
      simp only
      split
      · exact .bind (onlyOverflows_slotIndex _ _) fun _ _ => .ok _
      · exact .ok _

end Draft

namespace Assembly

theorem onlyOverflows_declareBeliefs {beliefs : List Belief} :
    ∀ {u : Assembly}, 0 < u.scopes.depth → OnlyOverflows (declareBeliefs beliefs u) := by
  induction beliefs with
  | nil => exact fun _ => .ok _
  | cons b beliefs ih =>
      intro u hu
      refine .bind ?_ fun u' h' => ih ((declareBelief_grows h').1.depth ▸ hu)
      simp only [declareBelief]
      refine .bind (onlyOverflows_slotIndex _ _) fun field _ => ?_
      exact .of_exists (declare_total (by exact hu) _ _)

theorem onlyOverflows_constructor (u : Assembly) (a : Agent) :
    OnlyOverflows (u.constructor a) := by
  have hstart : 0 < (Draft.start u.scopes u.tuples).scopes.depth := by simp [Draft.start]
  refine .bind (Draft.onlyOverflows_declareParams hstart) fun d₁ h₁ => ?_
  refine .bind Draft.onlyOverflows_initBeliefs fun d₂ h₂ => ?_
  have hg := (Draft.grows_declareParams h₁).trans (Draft.grows_initBeliefs h₂)
  exact .bind (.of_exists (close_total rfl hg)) fun _ _ => .ok _

theorem onlyOverflows_member (checkArity : Bool) {u : Assembly} (hu : 0 < u.scopes.depth)
    (m : Member) : OnlyOverflows (u.member checkArity m) := by
  refine .bind (onlyOverflows_slotIndex _ _) fun id _ => ?_
  refine .bind (.of_exists (declare_total hu _ _)) fun u₁ _ => ?_
  have hstart : 0 < (Draft.start u₁.scopes u₁.tuples).scopes.depth := by simp [Draft.start]
  refine .bind (Draft.onlyOverflows_declareParams hstart) fun d₁ h₁ => ?_
  have hg₁ := Draft.grows_declareParams h₁
  refine .bind (Draft.onlyOverflows_statements checkArity (hg₁.depth ▸ hstart)) fun d₂ h₂ => ?_
  exact .bind (.of_exists (close_total rfl (hg₁.trans (Draft.grows_statements h₂))))
    fun _ _ => .ok _

theorem onlyOverflows_members (checkArity : Bool) {ms : List Member} :
    ∀ {u : Assembly}, 0 < u.scopes.depth → OnlyOverflows (members checkArity ms u) := by
  induction ms with
  | nil => exact fun _ => .ok _
  | cons m ms ih =>
      intro u hu
      refine .bind (onlyOverflows_member checkArity hu m) fun u' h' => ?_
      exact ih ((member_grows h').1.depth ▸ hu)

end Assembly

namespace Generator

/-- The scope of the agent is the last one that is open, and it is closed. -/
theorem onlyOverflows_generate {g : Generator} (hg : g.scopes.depth = 0) (a : Agent) :
    OnlyOverflows (g.generate a) := by
  have hdepth : g.toAssembly.enter.scopes.depth = 1 := by
    simp [Assembly.enter, hg]
  refine .bind (Assembly.onlyOverflows_declareBeliefs (by omega)) fun u₁ h₁ => ?_
  refine .bind (Assembly.onlyOverflows_constructor u₁ a) fun r h₂ => ?_
  obtain ⟨ctor, u₂⟩ := r
  have hdepth₂ : u₂.scopes.depth = 1 := by
    rw [(Assembly.constructor_grows h₂).1.depth, (Assembly.declareBeliefs_grows h₁).1.depth,
      hdepth]
  refine .bind (Assembly.onlyOverflows_members g.checkArity (by simp [hdepth₂])) fun u₃ h₃ => ?_
  have hdepth₃ : u₃.scopes.depth = 1 := (Assembly.members_grows h₃).depth.trans hdepth₂
  obtain ⟨F, hF⟩ := List.length_eq_one_iff.mp hdepth₃
  have hclose : u₃.scopes.close = .ok .empty := by
    simp [Scopes.close, Scopes.exit, hF, Scopes.empty]
  rw [hclose]
  exact .ok _

/-- A generator that has compiled an agent holds nothing but diagnostics. -/
theorem idle_of_generate {g g' : Generator} {a : Agent} {type : AgentType}
    (h : g.generate a = .ok (type, g')) : ∃ diagnostics, g' = idle g.checkArity diagnostics := by
  obtain ⟨u₁, -, h⟩ := bind_eq_ok.mp h
  obtain ⟨⟨ctor, u₂⟩, -, h⟩ := bind_eq_ok.mp h
  obtain ⟨u₃, -, h⟩ := bind_eq_ok.mp h
  obtain ⟨scopes, -, h⟩ := bind_eq_ok.mp h
  split at h
  · cases h
  · next hdepth =>
    obtain ⟨-, rfl⟩ := Prod.mk.inj (Except.ok.inj h)
    exact ⟨u₃.diagnostics, by rw [Scopes.eq_empty_of_depth (Decidable.not_not.mp hdepth)]; rfl⟩

/-- The generators that there are: new ones, and those that have compiled agents. -/
inductive Reachable : Generator → Prop
  | new (checkArity : Bool) : Reachable (.new checkArity)
  | generate {g g' : Generator} {a : Agent} {type : AgentType} :
      Reachable g → g.generate a = .ok (type, g') → Reachable g'

theorem Reachable.idle {g : Generator} (h : g.Reachable) :
    ∃ checkArity diagnostics, g = .idle checkArity diagnostics := by
  cases h with
  | new checkArity => exact ⟨checkArity, [], rfl⟩
  | generate _ h => exact ⟨_, idle_of_generate h⟩

theorem Reachable.generate_total {g : Generator} (h : g.Reachable) {a : Agent}
    (ha : a.Countable) : ∃ r, g.generate a = .ok r := by
  obtain ⟨checkArity, diagnostics, rfl⟩ := h.idle
  obtain ⟨r, hr⟩ := AgentLang.generate_total checkArity ha
  rw [generate_idle, hr]
  exact ⟨_, rfl⟩

end Generator

/-! ## Long phrases -/

/-- No word of the language is shorter than that. -/
def AtLeast (n : Nat) (L : Language TokenKind) : Prop := ∀ ks ∈ L, n ≤ ks.length

section AtLeast

variable {L M : Language TokenKind} {n m : Nat}

theorem atLeast_zero : AtLeast 0 L := fun _ _ => Nat.zero_le _

theorem atLeast_word (k : TokenKind) : AtLeast 1 (Grammar.word k) := by
  rintro ks rfl
  exact Nat.le_refl _

theorem AtLeast.mono (h : AtLeast n L) (hm : m ≤ n) : AtLeast m L :=
  fun ks hks => hm.trans (h ks hks)

theorem AtLeast.mul (hL : AtLeast n L) (hM : AtLeast m M) : AtLeast (n + m) (L * M) := by
  rintro - ⟨ks, hks, ms, hms, rfl⟩
  have hk := hL ks hks
  have hm := hM ms hms
  simp only [List.length_append]
  omega

theorem AtLeast.mul_right (h : AtLeast n L) : AtLeast n (L * M) := h.mul atLeast_zero

theorem AtLeast.mul_left (h : AtLeast n M) : AtLeast n (L * M) :=
  (atLeast_zero.mul h).mono (by omega)

variable {β : Type} {f : β → Language TokenKind} {l : List β}

theorem atLeast_prod {size : β → Nat} (h : ∀ x ∈ l, AtLeast (size x) (f x)) :
    AtLeast (l.map size).sum (l.map f).prod := by
  induction l with
  | nil => exact atLeast_zero
  | cons x l ih =>
      rw [List.forall_mem_cons] at h
      simp only [List.map_cons, List.sum_cons, List.prod_cons]
      exact h.1.mul (ih h.2)

theorem atLeast_listed (h : ∀ x ∈ l, AtLeast 1 (f x)) :
    AtLeast l.length (listed (l.map f)) := by
  cases l with
  | nil => exact atLeast_zero
  | cons x l =>
      rw [List.forall_mem_cons] at h
      have hrest : AtLeast (l.map fun _ => 1).sum (l.map fun y => Grammar.sym .comma * f y).prod :=
        atLeast_prod fun y hy => (h.2 y hy).mul_left
      have hsum : (l.map fun _ => 1).sum = l.length := by simp
      rw [List.map_cons, listed, afterCommas, List.map_map]
      exact (h.1.mul hrest).mono (by rw [List.length_cons, hsum]; omega)

end AtLeast

theorem Expr.atLeast (e : Expr) : AtLeast 1 e.phrases := by
  cases e with
  | ident name => exact atLeast_word _
  | number value =>
      rintro ks ⟨digits, rfl, -⟩
      exact Nat.le_refl _
  | binary op left right => exact (atLeast_word _).mul_left.mul_right

theorem Stmt.atLeast (s : Stmt) : AtLeast s.term.args.length s.phrases :=
  (atLeast_listed fun e _ => e.atLeast).mul_left.mul_right.mul_left

theorem params_atLeast (params : List Param) : AtLeast params.length (paramPhrases params) := by
  cases params with
  | nil => exact atLeast_zero
  | cons p params =>
      have hlist : AtLeast (p :: params).length (listed ((p :: params).map Param.phrases)) :=
        atLeast_listed fun q _ => (atLeast_word _).mul_left
      exact hlist.mul_left.mul_right

/-- The number of parameters and of arguments in a member. -/
def Member.breadth (m : Member) : Nat :=
  m.params.length + (m.body.map (·.term.args.length)).sum

theorem Member.atLeast (m : Member) : AtLeast (1 + m.breadth) m.phrases := by
  have hbody : AtLeast (m.body.map (·.term.args.length)).sum (blockPhrases m.body) :=
    atLeast_prod fun s _ => s.atLeast.mul_right
  have hparams := params_atLeast m.params
  exact (atLeast_word _).mul (((hparams.mul_left.mul_right).mul hbody).mul_right)

def Item.breadth : Item → Nat
  | belief _ => 0
  | member m => m.breadth

theorem Item.atLeast (item : Item) : AtLeast (1 + item.breadth) item.phrases := by
  cases item with
  | belief b => exact (atLeast_word _).mul_right.mul_right.mul_right.mul_right.mul_right
  | member m => exact m.atLeast

/-- The lists of an agent are not longer than its phrases. -/
theorem Agent.countable_of_phrase {a : Agent} {ks : List TokenKind} (h : ks ∈ a.phrases)
    (hks : ks.length < 4294967295) : a.Countable := by
  obtain ⟨items, hbeliefs, hmembers, hks'⟩ := h
  have hitems : AtLeast (items.map fun item => 1 + item.breadth).sum (itemPhrases items) :=
    atLeast_prod fun item _ => item.atLeast
  have hall := (((params_atLeast a.params).mul_left.mul_right).mul hitems).mul_right ks hks'
  -- an item has a token besides those of its lists, so the sum bounds the number of items too
  have hcount : items.length ≤ (items.map fun item => 1 + item.breadth).sum := by
    calc items.length = (items.map fun _ => 1).sum := by simp
      _ ≤ _ := List.sum_le_sum fun item _ => Nat.le_add_right _ _
  have hmember : ∀ m ∈ a.members, m.breadth < 4294967295 := by
    intro m hm
    rw [← hmembers, mem_members_iff] at hm
    have hle := List.le_sum_of_mem (List.mem_map_of_mem (f := fun item => 1 + Item.breadth item) hm)
    have hbreadth : (Item.member m).breadth = m.breadth := rfl
    omega
  refine ⟨?_, ?_, by omega, ?_, ?_, ?_⟩
  · have := List.length_filterMap_le Item.belief? items
    rw [hbeliefs] at this
    omega
  · have := List.length_filterMap_le Item.member? items
    rw [hmembers] at this
    omega
  · intro m hm
    have := hmember m hm
    unfold Member.breadth at this
    omega
  · intro m hm s hs
    have hle := List.le_sum_of_mem (List.mem_map_of_mem (f := fun s => s.term.args.length) hs)
    have := hmember m hm
    unfold Member.breadth at this
    omega
  · intro m hm
    have hle : (m.body.map fun s => s.targets.length).sum ≤
        (m.body.map fun s => s.term.args.length).sum := by
      refine List.sum_le_sum fun s _ => ?_
      unfold Stmt.targets
      split
      · exact List.length_filterMap_le _ _
      · exact Nat.zero_le _
      · exact Nat.zero_le _
    have := hmember m hm
    unfold Member.breadth at this
    rw [List.length_flatMap]
    omega

/-- Each token takes a character of its own. -/
theorem length_tokensFrom_le (here : Location) (text : List Char) :
    (tokensFrom here text).length ≤ text.length := by
  fun_induction tokensFrom here text with
  | case1 => exact Nat.le_refl _
  | case2 here c cs _ ih => exact Nat.le_succ_of_le ih
  | case3 here c cs _ there ih =>
      have := length_munch_le c cs
      simp only [List.length_cons]
      omega

theorem length_tokenKinds_le (source : String) :
    (tokenKinds source).length ≤ source.utf8ByteSize := by
  rw [tokenKinds, List.length_map, ← String.utf8Len_toList]
  exact (length_tokensFrom_le _ _).trans (length_le_utf8Len _)

/-! ## Whole sources -/

theorem countable_of_parse {source : String} {a : Agent} (h : parse source = (a, []))
    (hlen : source.utf8ByteSize < 4294967295) : a.Countable := by
  have hsilent : (parse source).2 = [] := by rw [h]
  have hphrase := tokenKinds_mem_phrases hsilent
  rw [h] at hphrase
  exact Agent.countable_of_phrase hphrase
    (Nat.lt_of_le_of_lt (length_tokenKinds_le source) hlen)

theorem compile_ne_internal {source : String} (hlen : source.utf8ByteSize < 4294967295)
    (options : CompileOptions) (e : InternalError) :
    compile source options ≠ .error (.internal e) := by
  intro h
  unfold compile at h
  split at h
  · next a hparse =>
    obtain ⟨⟨type, errors⟩, hr⟩ :=
      generate_total options.checkArity (countable_of_parse hparse hlen)
    rw [hr] at h
    cases errors with
    | nil => cases h
    | cons error errors => cases h
  · cases h

/-- **Internal errors are unreachable.** A generator without open scopes compiles
an agent and has no open scope afterwards, or it runs out of numbers, which for
generators in use takes a list of `2 ^ 32 - 1` or more elements. A source of fewer
bytes never gets there. -/
theorem internal_errors_unreachable :
    (∀ (g : Generator) (a : Agent), g.scopes.depth = 0 →
      (∃ type g', g.generate a = .ok (type, g') ∧ g'.scopes.depth = 0) ∨
      ∃ what, g.generate a = .error (.slotOverflow what) ∧ (g.Reachable → ¬a.Countable)) ∧
    (∀ g : Generator, g.Reachable → g.scopes.depth = 0) ∧
    ∀ (source : String) (options : CompileOptions), source.utf8ByteSize < 4294967295 →
      ∀ e, compile source options ≠ .error (.internal e) := by
  refine ⟨fun g a hg => ?_, fun g hg => ?_, fun source options hlen =>
    compile_ne_internal hlen options⟩
  · cases hr : g.generate a with
    | ok r =>
        obtain ⟨diagnostics, hidle⟩ := Generator.idle_of_generate hr
        exact .inl ⟨r.1, r.2, rfl, by rw [hidle]; rfl⟩
    | error e =>
        obtain ⟨what, rfl⟩ := Generator.onlyOverflows_generate hg a e hr
        refine .inr ⟨what, rfl, fun hreach ha => ?_⟩
        obtain ⟨r, hok⟩ := hreach.generate_total ha
        rw [hok] at hr
        cases hr
  · obtain ⟨checkArity, diagnostics, rfl⟩ := hg.idle
    rfl

/-- A belief that starts with a name nobody has declared. -/
def unboundBelief : String := "agent A { bel b(x) }"

theorem new_generator_compiles :
    (Generator.new true).scopes.depth = 0 ∧ (Generator.new true).Reachable ∧
      (∃ type g', (Generator.new true).generate counter = .ok (type, g') ∧
        g'.scopes.depth = 0) ∧
      unboundBelief.utf8ByteSize < 4294967295 ∧
      (∀ e, compile unboundBelief {} ≠ .error (.internal e)) ∧
      ∃ errors, compile unboundBelief {} = .error (.semantic errors) := by
  have hlen : unboundBelief.utf8ByteSize < 4294967295 := by decide +kernel
  have hno := internal_errors_unreachable.2.2 unboundBelief {} hlen
  have hdepth := internal_errors_unreachable.2.1 _ (.new true)
  refine ⟨hdepth, .new true, ?_, hlen, hno, ?_⟩
  · rcases internal_errors_unreachable.1 (.new true) counter hdepth with h | ⟨what, -, h⟩
    · exact h
    · exact absurd counter_countable (h (.new true))
  · exact ⟨[.notInScope "x" ⟨⟨16, 1, 17⟩, ⟨17, 1, 18⟩⟩], by decide +kernel⟩

end AgentLang
