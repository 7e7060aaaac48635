import AgentLang.Proofs.StaticRules

/-!
# What the operations on a draft do

One lemma for each operation on a `Draft`, so that nothing after this file
unfolds one. There are two kinds of them.

- Whatever is wrong with the agent, an operation that returns leaves the
  scopes around the innermost one alone, only adds diagnostics, and hands out
  no more locals than the tree has targets (`Draft.Grows`).
- An operation adds no diagnostic exactly if the names it meets stand for what
  it needs, and then what it adds to the code is known to the letter.
-/

namespace AgentLang

/-! ## Frames -/

theorem isSome_lookup_iff {F : Frame} {x : String} :
    (F.lookup x).isSome = true ↔ x ∈ F.map Prod.fst := by
  rw [List.lookup_isSome_iff]
  simp

theorem lookup_eq_some_iff_mem {α : Type} {F : List (String × α)}
    (h : (F.map Prod.fst).Nodup) {x : String} {b : α} :
    F.lookup x = some b ↔ (x, b) ∈ F := by
  induction F with
  | nil => simp
  | cons p F ih =>
      obtain ⟨y, c⟩ := p
      rw [List.map_cons, List.nodup_cons] at h
      rw [List.lookup_cons]
      by_cases hxy : x = y
      · subst hxy
        have hnot : (x, b) ∉ F := fun hm => h.1 (List.mem_map.mpr ⟨_, hm, rfl⟩)
        simp [hnot, eq_comm]
      · simp [hxy, beq_eq_false_iff_ne.mpr hxy, ih h.2]

/-- Declaring in an open scope cannot fail; a name that is there already is
reported and keeps its meaning. -/
theorem Scopes.declare_eq {s : Scopes} {F : Frame} {rest : List Frame}
    (hs : s.frames = F :: rest) (x : String) (span : Span) (b : Binding) :
    s.declare x span b =
      .ok (if x ∈ F.map Prod.fst then (s, [.redeclared x span])
        else (⟨((x, b) :: F) :: rest⟩, [])) := by
  by_cases hx : x ∈ F.map Prod.fst
  · have hsome := isSome_lookup_iff.mpr hx
    simp [declare, register, hs, hsome, hx]
  · have hnone : (F.lookup x).isSome = false := by
      rw [Bool.eq_false_iff]
      exact fun h => hx (isSome_lookup_iff.mp h)
    simp [declare, register, hs, hnone, hx]

theorem slotIndex_eq_ok {n k : Nat} {what : String} :
    slotIndex n what = .ok k ↔ n < 4294967296 ∧ k = n := by
  unfold slotIndex
  split
  · next h => simp [h, eq_comm]
  · next h => simp [h]

theorem bind_eq_ok {ε α β : Type} {x : Except ε α} {f : α → Except ε β} {b : β} :
    x >>= f = .ok b ↔ ∃ a, x = .ok a ∧ f a = .ok b := by
  cases x <;> simp [bind, Except.bind]

/-- Steps that commute with `f` and `g` do so together. -/
theorem bind_map {ε α α' β β' : Type} {f : α → α'} {g : β → β'} {x : Except ε α}
    {x' : Except ε α'} {k : α → Except ε β} {k' : α' → Except ε β'} (hx : x' = x.map f)
    (hk : ∀ a, k' (f a) = (k a).map g) : (x' >>= k') = (x >>= k).map g := by
  subst hx
  cases x with
  | error e => rfl
  | ok a => exact hk a

theorem bind_map_same {ε α β β' : Type} {g : β → β'} {x : Except ε α} {k : α → Except ε β}
    {k' : α → Except ε β'} (hk : ∀ a, k' a = (k a).map g) : (x >>= k') = (x >>= k).map g :=
  bind_map (f := id) (congrFun Except.map_id x).symm hk

/-! ## Expressions -/

/-- An expression is faultless if each of its names stands for an integer. -/
theorem Expr.faults_eq_nil_iff (s : Scopes) (e : Expr) :
    e.faults s = [] ↔
      ∀ x ∈ e.names, ((s.lookup x).bind Binding.loadInteger?).isSome = true := by
  induction e with
  | ident name span =>
      simp only [faults, names, List.mem_singleton, forall_eq]
      cases s.lookup name with
      | none => simp
      | some b => cases hb : b.loadInteger?.isSome <;> simp [hb]
  | number value span => simp [faults, names]
  | binary op left right span ihl ihr =>
      simp only [faults, names, List.append_eq_nil_iff, List.mem_append, ihl, ihr]
      constructor
      · rintro ⟨hl, hr⟩ x (hx | hx)
        · exact hl x hx
        · exact hr x hx
      · intro h
        exact ⟨fun x hx => h x (Or.inl hx), fun x hx => h x (Or.inr hx)⟩

theorem flatMap_faults_eq_nil_iff (s : Scopes) (es : List Expr) :
    es.flatMap (·.faults s) = [] ↔
      ∀ x ∈ es.flatMap Expr.names,
        ((s.lookup x).bind Binding.loadInteger?).isSome = true := by
  simp only [List.flatMap_eq_nil_iff, Expr.faults_eq_nil_iff, List.mem_flatMap]
  constructor
  · rintro h x ⟨e, he, hx⟩
    exact h e he x hx
  · intro h e he x hx
    exact h x ⟨e, he, hx⟩

namespace Draft

/-! ## What every operation keeps -/

/-- `d'` came out of `d` with at most `n` new locals. -/
structure Grows (n : Nat) (d d' : Draft) : Prop where
  depth : d'.scopes.depth = d.scopes.depth
  outer : d'.scopes.frames.tail = d.scopes.frames.tail
  diagnostics : d.diagnostics <+: d'.diagnostics
  locals : d'.locals.length ≤ d.locals.length + n

theorem Grows.refl (d : Draft) : Grows 0 d d :=
  ⟨rfl, rfl, List.prefix_refl _, Nat.le_refl _⟩

theorem Grows.trans {n m : Nat} {d d' d'' : Draft} (h : Grows n d d')
    (h' : Grows m d' d'') : Grows (n + m) d d'' :=
  ⟨h'.depth.trans h.depth, h'.outer.trans h.outer,
    h.diagnostics.trans h'.diagnostics, by
      have := h.locals
      have := h'.locals
      omega⟩

theorem Grows.mono {n m : Nat} {d d' : Draft} (h : Grows n d d') (hnm : n ≤ m) :
    Grows m d d' :=
  ⟨h.depth, h.outer, h.diagnostics, by have := h.locals; omega⟩

theorem Grows.silent {n : Nat} {d d' : Draft} (h : Grows n d d')
    (hd : d'.diagnostics = []) : d.diagnostics = [] :=
  List.prefix_nil.mp (hd ▸ h.diagnostics)

theorem grows_emit (d : Draft) (code : List Instr) : Grows 0 d (d.emit code) :=
  ⟨rfl, rfl, List.prefix_refl _, Nat.le_refl _⟩

theorem grows_report (d : Draft) (es : List SemanticError) : Grows 0 d (d.report es) :=
  ⟨rfl, rfl, List.prefix_append _ _, Nat.le_refl _⟩

theorem grows_tuples (d : Draft) (t : TupleTable) : Grows 0 d { d with tuples := t } :=
  ⟨rfl, rfl, List.prefix_refl _, Nat.le_refl _⟩

theorem grows_evaluate (d : Draft) (es : List Expr) : Grows 0 d (d.evaluate es) :=
  (grows_emit d _).trans (grows_report _ _)

theorem grows_declare {d d' : Draft} {x : String} {span : Span} {b : Binding}
    (h : d.declare x span b = .ok d') : Grows 0 d d' := by
  cases hs : d.scopes.frames with
  | nil => simp [declare, Scopes.declare, Scopes.register, hs, bind, Except.bind] at h
  | cons F rest =>
      simp only [declare, Scopes.declare_eq hs, bind, Except.bind, pure, Except.pure,
        Except.ok.injEq] at h
      subst h
      split
      · exact ⟨rfl, rfl, List.prefix_append _ _, Nat.le_refl _⟩
      · exact ⟨by simp [Scopes.depth, report, hs], by simp [report, hs],
          List.prefix_append _ _, Nat.le_refl _⟩

theorem grows_declareParams {params : List Param} :
    ∀ {slot : Nat} {d d' : Draft}, declareParams slot params d = .ok d' → Grows 0 d d' := by
  induction params with
  | nil =>
      intro slot d d' h
      obtain rfl : d = d' := by simpa [declareParams] using h
      exact .refl d
  | cons p params ih =>
      intro slot d d' h
      simp only [declareParams, bind, Except.bind] at h
      split at h
      · cases h
      · split at h
        · cases h
        · next hd => exact (grows_declare hd).trans (ih h)

theorem grows_tupleFor (d : Draft) (arity : Nat) (span : Span) :
    Grows 0 d (d.tupleFor arity span).2 := by
  unfold tupleFor
  split
  · exact grows_tuples d _
  · exact (grows_tuples d _).trans (grows_report _ _)

theorem grows_pack (d : Draft) (arity : Nat) (span : Span) :
    Grows 0 d (d.pack arity span).2 := by
  unfold pack
  split
  · exact (grows_tuples d _).trans (grows_emit _ _)
  · exact (grows_tuples d _).trans (grows_report _ _)

theorem grows_project (d : Draft) (arity index : Nat) (span : Span) :
    Grows 0 d (d.project arity index span) := by
  unfold project
  split
  · exact (grows_tuples d _).trans (grows_emit _ _)
  · exact (grows_tuples d _).trans (grows_report _ _)

theorem grows_belief (d : Draft) (name : Ident) : Grows 0 d (d.belief name).2 := by
  unfold belief
  split
  · exact .refl d
  · exact .refl d
  · exact grows_report d _

theorem grows_callable (d : Draft) (name : Ident) : Grows 0 d (d.callable name).2 := by
  unfold callable
  split
  · exact .refl d
  · exact .refl d
  · exact grows_report d _

theorem grows_checkBeliefArity (d : Draft) (t : Term) (arity : Nat) :
    Grows 0 d (d.checkBeliefArity t arity).2 := by
  unfold checkBeliefArity
  split
  · exact .refl d
  · exact grows_report d _

theorem newLocal_eq_ok {d : Draft} {x : String} {r : LocalId × Draft} :
    d.newLocal x = .ok r ↔
      d.locals.length < 4294967296 ∧
        r = (d.locals.length, { d with locals := d.locals ++ [x] }) := by
  simp only [newLocal, bind_eq_ok, slotIndex_eq_ok, pure, Except.pure, Except.ok.injEq]
  constructor
  · rintro ⟨_, ⟨hlt, rfl⟩, rfl⟩
    exact ⟨hlt, rfl⟩
  · rintro ⟨hlt, rfl⟩
    exact ⟨_, ⟨hlt, rfl⟩, rfl⟩

theorem grows_queryTarget {d d' : Draft} {belief : String} {f : FieldId}
    {arity index : Nat} {arg : Expr}
    (h : d.queryTarget belief f arity index arg = .ok d') :
    Grows arg.name?.toList.length d d' := by
  unfold queryTarget at h
  split at h
  · next hn =>
    obtain rfl := Except.ok.inj h
    exact hn ▸ grows_report d _
  · next name hn =>
    obtain ⟨r, hr, hd⟩ := bind_eq_ok.mp h
    obtain ⟨-, rfl⟩ := newLocal_eq_ok.mp hr
    rw [hn]
    have hnew : Grows 1 d { d with locals := d.locals ++ [name] } :=
      ⟨rfl, rfl, List.prefix_refl _, by simp⟩
    exact (((hnew.trans (grows_emit _ _)).trans (grows_project _ _ _ _)).trans
      (grows_emit _ _)).trans (grows_declare hd)

theorem grows_queryTargets {belief : String} {f : FieldId} {arity : Nat}
    {args : List Expr} :
    ∀ {index : Nat} {d d' : Draft}, queryTargets belief f arity index args d = .ok d' →
      Grows (args.filterMap Expr.name?).length d d' := by
  induction args with
  | nil =>
      intro index d d' h
      obtain rfl : d = d' := by simpa [queryTargets] using h
      exact .refl d
  | cons arg args ih =>
      intro index d d' h
      obtain ⟨d₁, h₁, h₂⟩ := bind_eq_ok.mp h
      have hg := (grows_queryTarget h₁).trans (ih h₂)
      refine hg.mono (Nat.le_of_eq ?_)
      cases hn : arg.name? <;> simp [hn, Nat.add_comm]

theorem grows_query {d d' : Draft} {t : Term} (h : d.query t = .ok d') :
    Grows (t.args.filterMap Expr.name?).length d d' := by
  have hb := grows_belief d t.name
  unfold query at h
  split at h
  · next d₁ h₁ =>
    obtain rfl := Except.ok.inj h
    rw [h₁] at hb
    exact hb.mono (Nat.zero_le _)
  · next f arity d₁ h₁ =>
    rw [h₁] at hb
    have hc := hb.trans (grows_checkBeliefArity d₁ t arity)
    split at h
    · next d₂ h₂ =>
      obtain rfl := Except.ok.inj h
      rw [h₂] at hc
      exact hc.mono (Nat.zero_le _)
    · next d₂ h₂ =>
      rw [h₂] at hc
      have ht := hc.trans (grows_tupleFor d₂ arity t.span)
      split at h
      · next d₃ h₃ =>
        obtain rfl := Except.ok.inj h
        rw [h₃] at ht
        exact ht.mono (Nat.zero_le _)
      · next id d₃ h₃ =>
        rw [h₃] at ht
        exact (ht.trans (grows_queryTargets h)).mono (by omega)

/-- An update ends with the diagnostics of its look-up and of its arguments. -/
theorem grows_update_args (d : Draft) (t : Term) :
    Grows 0 ((d.belief t.name).2.evaluate t.args) (d.update t) := by
  unfold update
  simp only
  split
  · exact .refl _
  · next f arity _ =>
    have hc := grows_checkBeliefArity ((d.belief t.name).2.evaluate t.args) t arity
    split
    · next d₂ h₂ => rw [h₂] at hc; exact hc
    · next d₂ h₂ =>
      rw [h₂] at hc
      have hp := hc.trans (grows_pack d₂ arity t.span)
      split
      · next d₃ h₃ => rw [h₃] at hp; exact hp
      · next d₃ h₃ => rw [h₃] at hp; exact hp.trans (grows_emit _ _)

theorem grows_update (d : Draft) (t : Term) : Grows 0 d (d.update t) :=
  ((grows_belief d t.name).trans (grows_evaluate _ t.args)).trans (grows_update_args d t)

theorem grows_invoke_args {checkArity : Bool} {d d' : Draft} {t : Term}
    (h : d.invoke checkArity t = .ok d') :
    Grows 0 (((d.callable t.name).2.emit [.loadArg 0]).evaluate t.args) d' := by
  unfold invoke at h
  simp only at h
  split at h
  · obtain rfl := Except.ok.inj h
    exact .refl _
  · split at h
    · obtain rfl := Except.ok.inj h
      exact grows_report _ _
    · obtain ⟨argc, -, hr⟩ := bind_eq_ok.mp h
      obtain rfl := Except.ok.inj hr
      exact grows_emit _ _

theorem grows_invoke {checkArity : Bool} {d d' : Draft} {t : Term}
    (h : d.invoke checkArity t = .ok d') : Grows 0 d d' :=
  (((grows_callable d t.name).trans (grows_emit _ _)).trans
    (grows_evaluate _ t.args)).trans (grows_invoke_args h)

theorem grows_statement {checkArity : Bool} {d d' : Draft} {s : Stmt}
    (h : d.statement checkArity s = .ok d') : Grows s.targets.length d d' := by
  unfold statement at h
  unfold Stmt.targets
  cases hk : s.kind with
  | query =>
      rw [hk] at h
      exact grows_query h
  | update =>
      rw [hk] at h
      obtain rfl := Except.ok.inj h
      exact grows_update d _
  | invoke =>
      rw [hk] at h
      exact grows_invoke h

theorem grows_statements {checkArity : Bool} {stmts : List Stmt} :
    ∀ {d d' : Draft}, statements checkArity stmts d = .ok d' →
      Grows (stmts.flatMap Stmt.targets).length d d' := by
  induction stmts with
  | nil =>
      intro d d' h
      obtain rfl : d = d' := by simpa [statements] using h
      exact .refl d
  | cons s stmts ih =>
      intro d d' h
      obtain ⟨d₁, h₁, h₂⟩ := bind_eq_ok.mp h
      have hg := (grows_statement h₁).trans (ih h₂)
      exact hg.mono (by simp)

theorem grows_initBelief {fields : List FieldDef} {index : Nat} {b : Belief}
    {d d' : Draft} (h : d.initBelief fields index b = .ok d') : Grows 0 d d' := by
  unfold initBelief at h
  simp only at h
  split at h
  · obtain ⟨field, -, hr⟩ := bind_eq_ok.mp h
    obtain rfl := Except.ok.inj hr
    exact ((grows_evaluate d b.init).trans (grows_pack _ _ _)).trans (grows_emit _ _)
  · obtain rfl := Except.ok.inj h
    exact grows_evaluate d b.init

theorem grows_initBeliefs {fields : List FieldDef} {beliefs : List Belief} :
    ∀ {index : Nat} {d d' : Draft}, initBeliefs fields index beliefs d = .ok d' →
      Grows 0 d d' := by
  induction beliefs with
  | nil =>
      intro index d d' h
      obtain rfl : d = d' := by simpa [initBeliefs] using h
      exact .refl d
  | cons b beliefs ih =>
      intro index d d' h
      obtain ⟨d₁, h₁, h₂⟩ := bind_eq_ok.mp h
      exact (grows_initBelief h₁).trans (ih h₂)

/-! ## When an operation returns

An open scope, and numbers left for slots, are all that generation needs. -/

theorem declare_total {d : Draft} (hd : 0 < d.scopes.depth) (x : String) (span : Span)
    (b : Binding) : ∃ d', d.declare x span b = .ok d' := by
  obtain ⟨F, rest, hs⟩ := List.exists_cons_of_length_pos hd
  simp only [declare, Scopes.declare_eq hs]
  exact ⟨_, rfl⟩

theorem declareParams_total {params : List Param} :
    ∀ {slot : Nat} {d : Draft}, 0 < d.scopes.depth →
      slot + params.length ≤ 4294967296 → ∃ d', declareParams slot params d = .ok d' := by
  induction params with
  | nil => exact fun _ _ => ⟨_, rfl⟩
  | cons p params ih =>
      intro slot d hd hlen
      simp only [List.length_cons] at hlen
      obtain ⟨d₁, h₁⟩ := declare_total hd p.name.name p.name.span (.argument slot)
      have hd₁ : 0 < d₁.scopes.depth := (grows_declare h₁).depth ▸ hd
      obtain ⟨d₂, h₂⟩ : ∃ d₂, declareParams (slot + 1) params d₁ = .ok d₂ :=
        ih hd₁ (by omega)
      refine ⟨d₂, bind_eq_ok.mpr ⟨slot, slotIndex_eq_ok.mpr ⟨by omega, rfl⟩, ?_⟩⟩
      exact bind_eq_ok.mpr ⟨d₁, h₁, h₂⟩

theorem queryTarget_total {d : Draft} (hd : 0 < d.scopes.depth) (belief : String)
    (f : FieldId) (arity index : Nat) (arg : Expr)
    (hlen : d.locals.length + arg.name?.toList.length ≤ 4294967296) :
    ∃ d', d.queryTarget belief f arity index arg = .ok d' := by
  unfold queryTarget
  split
  · exact ⟨_, rfl⟩
  · next name hn =>
    rw [hn] at hlen
    simp only [Option.toList_some, List.length_singleton] at hlen
    have hnew := (newLocal_eq_ok (d := d) (x := name)).mpr ⟨by omega, rfl⟩
    have hg : Grows 0 { d with locals := d.locals ++ [name] } _ :=
      ((grows_emit _ [.loadField f]).trans (grows_project _ arity index arg.span)).trans
        (grows_emit _ [.storeLocal d.locals.length])
    obtain ⟨d', h'⟩ := declare_total (Nat.lt_of_lt_of_eq hd hg.depth.symm) name arg.span
      (.localSlot d.locals.length)
    exact ⟨d', bind_eq_ok.mpr ⟨_, hnew, h'⟩⟩

theorem queryTargets_total {belief : String} {f : FieldId} {arity : Nat}
    {args : List Expr} :
    ∀ {index : Nat} {d : Draft}, 0 < d.scopes.depth →
      d.locals.length + (args.filterMap Expr.name?).length ≤ 4294967296 →
      ∃ d', queryTargets belief f arity index args d = .ok d' := by
  induction args with
  | nil => exact fun _ _ => ⟨_, rfl⟩
  | cons arg args ih =>
      intro index d hd hlen
      have hsplit : ((arg :: args).filterMap Expr.name?).length =
          arg.name?.toList.length + (args.filterMap Expr.name?).length := by
        cases hn : arg.name? <;> simp [hn, Nat.add_comm]
      obtain ⟨d₁, h₁⟩ := queryTarget_total hd belief f arity index arg (by omega)
      have hg := grows_queryTarget h₁
      have hl := hg.locals
      obtain ⟨d₂, h₂⟩ : ∃ d₂, queryTargets belief f arity (index + 1) args d₁ = .ok d₂ :=
        ih (hg.depth ▸ hd) (by omega)
      exact ⟨d₂, bind_eq_ok.mpr ⟨d₁, h₁, h₂⟩⟩

theorem query_total {d : Draft} (hd : 0 < d.scopes.depth) (t : Term)
    (hlen : d.locals.length + (t.args.filterMap Expr.name?).length ≤ 4294967296) :
    ∃ d', d.query t = .ok d' := by
  have hb := grows_belief d t.name
  unfold query
  split
  · exact ⟨_, rfl⟩
  · next f arity d₁ h₁ =>
    rw [h₁] at hb
    have hc := hb.trans (grows_checkBeliefArity d₁ t arity)
    split
    · exact ⟨_, rfl⟩
    · next d₂ h₂ =>
      rw [h₂] at hc
      have ht := hc.trans (grows_tupleFor d₂ arity t.span)
      split
      · exact ⟨_, rfl⟩
      · next id d₃ h₃ =>
        rw [h₃] at ht
        have hl := ht.locals
        exact queryTargets_total (ht.depth ▸ hd) (by simp only at hl; omega)

theorem invoke_total (checkArity : Bool) (d : Draft) (t : Term)
    (hlen : t.args.length < 4294967295) : ∃ d', d.invoke checkArity t = .ok d' := by
  unfold invoke
  simp only
  split
  · exact ⟨_, rfl⟩
  · split
    · exact ⟨_, rfl⟩
    · exact ⟨_, bind_eq_ok.mpr ⟨_, slotIndex_eq_ok.mpr ⟨by omega, rfl⟩, rfl⟩⟩

theorem statement_total (checkArity : Bool) {d : Draft} (hd : 0 < d.scopes.depth)
    (s : Stmt) (hargs : s.term.args.length < 4294967295)
    (hlen : d.locals.length + s.targets.length ≤ 4294967296) :
    ∃ d', d.statement checkArity s = .ok d' := by
  unfold statement
  unfold Stmt.targets at hlen
  split
  · next hk => rw [hk] at hlen; exact query_total hd s.term hlen
  · exact ⟨_, rfl⟩
  · exact invoke_total checkArity d s.term hargs

theorem statements_total (checkArity : Bool) {stmts : List Stmt} :
    ∀ {d : Draft}, 0 < d.scopes.depth → (∀ s ∈ stmts, s.term.args.length < 4294967295) →
      d.locals.length + (stmts.flatMap Stmt.targets).length ≤ 4294967296 →
      ∃ d', statements checkArity stmts d = .ok d' := by
  induction stmts with
  | nil => exact fun _ _ _ => ⟨_, rfl⟩
  | cons s stmts ih =>
      intro d hd hargs hlen
      simp only [List.flatMap_cons, List.length_append] at hlen
      obtain ⟨d₁, h₁⟩ := statement_total checkArity hd s (hargs s (by simp)) (by omega)
      have hg := grows_statement h₁
      have hl := hg.locals
      obtain ⟨d₂, h₂⟩ := ih (hg.depth ▸ hd)
        (fun s' hs' => hargs s' (List.mem_cons_of_mem _ hs')) (by omega)
      exact ⟨d₂, bind_eq_ok.mpr ⟨d₁, h₁, h₂⟩⟩

theorem initBeliefs_total {fields : List FieldDef} {beliefs : List Belief} :
    ∀ {index : Nat} {d : Draft}, index + beliefs.length ≤ 4294967296 →
      ∃ d', initBeliefs fields index beliefs d = .ok d' := by
  induction beliefs with
  | nil => exact fun _ => ⟨_, rfl⟩
  | cons b beliefs ih =>
      intro index d hlen
      simp only [List.length_cons] at hlen
      obtain ⟨d₁, h₁⟩ : ∃ d₁, d.initBelief fields index b = .ok d₁ := by
        unfold initBelief
        simp only
        split
        · exact ⟨_, bind_eq_ok.mpr ⟨_, slotIndex_eq_ok.mpr ⟨by omega, rfl⟩, rfl⟩⟩
        · exact ⟨_, rfl⟩
      obtain ⟨d₂, h₂⟩ : ∃ d₂, initBeliefs fields (index + 1) beliefs d₁ = .ok d₂ :=
        ih (by omega)
      exact ⟨d₂, bind_eq_ok.mpr ⟨d₁, h₁, h₂⟩⟩

end Draft

end AgentLang
