import AgentLang.Proofs.Drafting

/-!
# How the names of a body are resolved

A body is compiled in two open scopes: its own, which binds the integers that
are known so far, and the one around it, which binds the beliefs and members
of the agent. `Draft.Tracks` ties the first of them to the list of known names
that the static rules speak of.

Each statement then has exactly two outcomes. Either it resolves
(`Stmt.Resolves`, the static rule read off the outer scope) and its effect on
the draft is known to the letter (`Draft.Effect`), or it does not and the
draft holds a diagnostic (`Draft.statement_cases`, `Draft.statements_cases`).
-/

namespace AgentLang

/-- The scopes after binding a new name in the innermost one. -/
def Scopes.extend (s : Scopes) (x : String) (b : Binding) : Scopes :=
  ⟨((x, b) :: s.frames.headD []) :: s.frames.tail⟩

theorem Scopes.lookup_extend (s : Scopes) (x y : String) (b : Binding) :
    (s.extend x b).lookup y = if y = x then some b else s.lookup y := by
  obtain ⟨frames⟩ := s
  by_cases hy : y = x
  · simp [extend, lookup, hy]
  · cases frames <;>
      simp [extend, lookup, hy, List.findSome?_cons, List.lookup_cons,
        beq_eq_false_iff_ne.mpr hy]

namespace Draft

theorem belief_cases (d : Draft) (name : Ident) :
    (∃ f n, d.scopes.lookup name.name = some (.field f n) ∧
      d.belief name = (some (f, n), d)) ∨
    ((∀ f n, d.scopes.lookup name.name ≠ some (.field f n)) ∧
      ∃ e, d.belief name = (none, d.report [e])) := by
  unfold belief Scopes.lookupAs
  cases d.scopes.lookup name.name with
  | none => exact Or.inr ⟨by simp, _, rfl⟩
  | some b =>
      cases b with
      | field f n => exact Or.inl ⟨f, n, rfl, rfl⟩
      | argument _ => exact Or.inr ⟨by simp, _, rfl⟩
      | localSlot _ => exact Or.inr ⟨by simp, _, rfl⟩
      | callable _ _ => exact Or.inr ⟨by simp, _, rfl⟩

theorem callable_cases (d : Draft) (name : Ident) :
    (∃ m n, d.scopes.lookup name.name = some (.callable m n) ∧
      d.callable name = (some (m, n), d)) ∨
    ((∀ m n, d.scopes.lookup name.name ≠ some (.callable m n)) ∧
      ∃ e, d.callable name = (none, d.report [e])) := by
  unfold callable Scopes.lookupAs
  cases d.scopes.lookup name.name with
  | none => exact Or.inr ⟨by simp, _, rfl⟩
  | some b =>
      cases b with
      | callable m n => exact Or.inl ⟨m, n, rfl, rfl⟩
      | argument _ => exact Or.inr ⟨by simp, _, rfl⟩
      | localSlot _ => exact Or.inr ⟨by simp, _, rfl⟩
      | field _ _ => exact Or.inr ⟨by simp, _, rfl⟩

/-! ## Known names -/

/-- The names `env` are bound to integers in the innermost scope of the
draft, and `outer` is the scope around it. -/
structure Tracks (d : Draft) (outer : Frame) (env : List String) : Prop where
  frames : ∃ F, d.scopes.frames = [F, outer] ∧ F.map Prod.fst = env.reverse ∧
    ∀ p ∈ F, (∃ s, p.2 = .argument s) ∨ ∃ l < d.locals.length, p.2 = .localSlot l
  globals : ∀ x b, outer.lookup x = some b → b.loadInteger? = none
  ready : ∀ x f n, outer.lookup x = some (.field f n) →
    ∃ id, d.tuples.describe n = (.ok id, d.tuples)

section Tracks

variable {d : Draft} {outer : Frame} {env : List String} {x : String}

theorem Tracks.slot_of_mem (h : d.Tracks outer env) (hx : x ∈ env) :
    ∃ b, d.scopes.lookup x = some b ∧
      ((∃ s, b = .argument s) ∨ ∃ l < d.locals.length, b = .localSlot l) := by
  obtain ⟨F, hF, hkeys, hval⟩ := h.frames
  have hsome : (F.lookup x).isSome = true :=
    isSome_lookup_iff.mpr (by rw [hkeys]; exact List.mem_reverse.mpr hx)
  obtain ⟨b, hb⟩ := Option.isSome_iff_exists.mp hsome
  refine ⟨b, by simp [Scopes.lookup, hF, hb], ?_⟩
  obtain ⟨l₁, l₂, rfl, -⟩ := List.lookup_eq_some_iff.mp hb
  exact hval (x, b) (by simp)

theorem Tracks.lookup_of_mem (h : d.Tracks outer env) (hx : x ∈ env) :
    ∃ b, d.scopes.lookup x = some b ∧ b.loadInteger?.isSome = true := by
  obtain ⟨b, hb, ⟨s, rfl⟩ | ⟨l, -, rfl⟩⟩ := h.slot_of_mem hx
  · exact ⟨_, hb, rfl⟩
  · exact ⟨_, hb, rfl⟩

theorem Tracks.lookup_of_not_mem (h : d.Tracks outer env) (hx : x ∉ env) :
    d.scopes.lookup x = outer.lookup x := by
  obtain ⟨F, hF, hkeys, -⟩ := h.frames
  have hnone : F.lookup x = none := by
    rw [← Option.not_isSome_iff_eq_none]
    intro hs
    have hmem := isSome_lookup_iff.mp hs
    rw [hkeys] at hmem
    exact hx (List.mem_reverse.mp hmem)
  cases ho : outer.lookup x <;> simp [Scopes.lookup, hF, hnone, ho]

/-- The names that can be read are the known ones. -/
theorem Tracks.integer_iff (h : d.Tracks outer env) :
    ((d.scopes.lookup x).bind Binding.loadInteger?).isSome = true ↔ x ∈ env := by
  by_cases hx : x ∈ env
  · obtain ⟨b, hb, hi⟩ := h.lookup_of_mem hx
    simpa [hb, hx] using hi
  · rw [h.lookup_of_not_mem hx]
    cases ho : outer.lookup x with
    | none => simp [hx]
    | some b => simp [hx, h.globals x b ho]

theorem Tracks.lookup_global_iff (h : d.Tracks outer env) {b : Binding}
    (hb : b.loadInteger? = none) :
    d.scopes.lookup x = some b ↔ x ∉ env ∧ outer.lookup x = some b := by
  by_cases hx : x ∈ env
  · obtain ⟨c, hc, hi⟩ := h.lookup_of_mem hx
    simp only [hc, Option.some.injEq, hx, not_true_eq_false, false_and, iff_false]
    rintro rfl
    simp [hb] at hi
  · simp [h.lookup_of_not_mem hx, hx]

theorem Tracks.field_iff (h : d.Tracks outer env) {f n : Nat} :
    d.scopes.lookup x = some (.field f n) ↔
      x ∉ env ∧ outer.lookup x = some (.field f n) :=
  h.lookup_global_iff rfl

theorem Tracks.callable_iff (h : d.Tracks outer env) {m n : Nat} :
    d.scopes.lookup x = some (.callable m n) ↔
      x ∉ env ∧ outer.lookup x = some (.callable m n) :=
  h.lookup_global_iff rfl

/-- A new integer in the innermost scope is one more known name. -/
theorem Tracks.extend (h : d.Tracks outer env) {d' : Draft} {b : Binding}
    (hs : d'.scopes = d.scopes.extend x b) (ht : d'.tuples = d.tuples)
    (hl : d.locals.length ≤ d'.locals.length)
    (hb : (∃ s, b = .argument s) ∨ ∃ l < d'.locals.length, b = .localSlot l) :
    d'.Tracks outer (env ++ [x]) := by
  obtain ⟨F, hF, hkeys, hval⟩ := h.frames
  refine ⟨⟨(x, b) :: F, by simp [hs, Scopes.extend, hF], by simp [hkeys], ?_⟩,
    h.globals, ht ▸ h.ready⟩
  intro p hp
  rcases List.mem_cons.mp hp with rfl | hp
  · exact hb
  · rcases hval p hp with harg | ⟨l, hlt, hpl⟩
    · exact Or.inl harg
    · exact Or.inr ⟨l, Nat.lt_of_lt_of_le hlt hl, hpl⟩

theorem Tracks.emit (h : d.Tracks outer env) (code : List Instr) :
    (d.emit code).Tracks outer env :=
  ⟨h.frames, h.globals, h.ready⟩

end Tracks

/-! ## Parameters -/

def bindParams : Nat → List Param → Draft → Draft
  | _, [], d => d
  | slot, p :: params, d =>
    bindParams (slot + 1) params
      { d with scopes := d.scopes.extend p.name.name (.argument slot) }

theorem bindParams_eq (params : List Param) :
    ∀ (slot : Nat) (d : Draft),
      bindParams slot params d = { d with scopes := (bindParams slot params d).scopes } := by
  induction params with
  | nil => exact fun _ _ => rfl
  | cons p params ih => exact fun slot d => ih (slot + 1) _

theorem Tracks.bindParams {outer : Frame} (params : List Param) :
    ∀ {d : Draft} {env : List String} (slot : Nat), d.Tracks outer env →
      (Draft.bindParams slot params d).Tracks outer (env ++ paramNames params) := by
  induction params with
  | nil =>
      intro d env slot h
      simpa [Draft.bindParams, paramNames] using h
  | cons p params ih =>
      intro d env slot h
      have hp : Tracks { d with scopes := d.scopes.extend p.name.name (.argument slot) }
          outer (env ++ [p.name.name]) :=
        h.extend rfl rfl (Nat.le_refl _) (Or.inl ⟨slot, rfl⟩)
      simpa [Draft.bindParams, paramNames] using ih (slot + 1) hp

/-- Parameters are bound if they are distinct and new. -/
theorem declareParams_cases {outer : Frame} {params : List Param} :
    ∀ {slot : Nat} {d d' : Draft} {env : List String}, d.Tracks outer env → env.Nodup →
      declareParams slot params d = .ok d' →
      ((env ++ paramNames params).Nodup ∧ d' = bindParams slot params d) ∨
      (¬(env ++ paramNames params).Nodup ∧ d'.diagnostics ≠ []) := by
  induction params with
  | nil =>
      intro slot d d' env _ hnodup h
      obtain rfl : d = d' := by simpa [declareParams] using h
      exact Or.inl ⟨by simpa [paramNames] using hnodup, rfl⟩
  | cons p params ih =>
      intro slot d d' env ht hnodup h
      obtain ⟨i, hslot, h⟩ := bind_eq_ok.mp h
      rw [(slotIndex_eq_ok.mp hslot).2] at h
      obtain ⟨d₁, h₁, h₂⟩ := bind_eq_ok.mp h
      have hnames : env ++ paramNames (p :: params) =
          (env ++ [p.name.name]) ++ paramNames params := by simp [paramNames]
      obtain ⟨F, hF, hkeys, -⟩ := ht.frames
      simp only [declare, Scopes.declare_eq hF, hkeys, List.mem_reverse, bind,
        Except.bind, pure, Except.pure, Except.ok.injEq] at h₁
      rw [hnames]
      by_cases hp : p.name.name ∈ env
      · refine Or.inr ⟨fun hnd => ?_, fun hnil => ?_⟩
        · have hnd' := (List.nodup_append.mp hnd).1
          exact (List.nodup_append.mp hnd').2.2 _ hp _ (by simp) rfl
        · have := (grows_declareParams h₂).silent hnil
          subst h₁
          simp [hp, report] at this
      · have hd₁ : d₁ = { d with
            scopes := d.scopes.extend p.name.name (.argument slot) } := by
          subst h₁
          simp [hp, report, Scopes.extend, hF]
        subst hd₁
        have hnodup' : (env ++ [p.name.name]).Nodup := by
          rw [List.nodup_append]
          refine ⟨hnodup, List.pairwise_singleton _ _, ?_⟩
          intro x hx y hy hxy
          rw [List.mem_singleton.mp hy] at hxy
          exact hp (hxy ▸ hx)
        exact ih (ht.extend rfl rfl (Nat.le_refl _) (Or.inl ⟨slot, rfl⟩)) hnodup' h₂

/-! ## Queries -/

/-- The effect of binding `x` to element `index` of a belief. -/
def bindTarget (f : FieldId) (id : TupleId) (index : Nat) (x : String) (d : Draft) :
    Draft :=
  { d with
    scopes := d.scopes.extend x (.localSlot d.locals.length)
    locals := d.locals ++ [x]
    code := d.code ++ [.loadField f, .tupleGet id index, .storeLocal d.locals.length] }

def bindTargets (f : FieldId) (id : TupleId) : Nat → List String → Draft → Draft
  | _, [], d => d
  | index, x :: xs, d => bindTargets f id (index + 1) xs (d.bindTarget f id index x)

theorem bindTargets_shape (f : FieldId) (id : TupleId) (xs : List String) :
    ∀ (index : Nat) (d : Draft), (bindTargets f id index xs d).tuples = d.tuples ∧
      (bindTargets f id index xs d).diagnostics = d.diagnostics := by
  induction xs with
  | nil => exact fun _ _ => ⟨rfl, rfl⟩
  | cons x xs ih => exact fun index d => ih (index + 1) (d.bindTarget f id index x)

theorem Tracks.bindTarget {d : Draft} {outer : Frame} {env : List String}
    (h : d.Tracks outer env) (f : FieldId) (id : TupleId) (index : Nat) (x : String) :
    (d.bindTarget f id index x).Tracks outer (env ++ [x]) :=
  h.extend rfl rfl (by simp [Draft.bindTarget])
    (Or.inr ⟨d.locals.length, by simp [Draft.bindTarget], rfl⟩)

theorem Tracks.bindTargets {outer : Frame} (f : FieldId) (id : TupleId)
    (xs : List String) :
    ∀ {d : Draft} {env : List String} (index : Nat), d.Tracks outer env →
      (Draft.bindTargets f id index xs d).Tracks outer (env ++ xs) := by
  induction xs with
  | nil =>
      intro d env index h
      simpa [Draft.bindTargets] using h
  | cons x xs ih =>
      intro d env index h
      have := ih (index + 1) (h.bindTarget f id index x)
      simpa [Draft.bindTargets] using this

/-- The arguments of a query are the names `xs`, all of them new. -/
def NewNames (env : List String) (args : List Expr) (xs : List String) : Prop :=
  args.map Expr.name? = xs.map some ∧ xs.Nodup ∧ ∀ x ∈ xs, x ∉ env

theorem newNames_cons_iff {env : List String} {arg : Expr} {args : List Expr}
    {ys : List String} :
    NewNames env (arg :: args) ys ↔
      ∃ x xs, ys = x :: xs ∧ arg.name? = some x ∧ x ∉ env ∧
        NewNames (env ++ [x]) args xs := by
  constructor
  · rintro ⟨hmap, hnodup, hnew⟩
    cases ys with
    | nil => simp at hmap
    | cons x xs =>
        simp only [List.map_cons, List.cons.injEq] at hmap
        rw [List.nodup_cons] at hnodup
        refine ⟨x, xs, rfl, hmap.1, hnew x (by simp), hmap.2, hnodup.2, ?_⟩
        intro y hy hmem
        rcases List.mem_append.mp hmem with hmem | hmem
        · exact hnew y (List.mem_cons_of_mem _ hy) hmem
        · exact hnodup.1 (List.mem_singleton.mp hmem ▸ hy)
  · rintro ⟨x, xs, rfl, hname, hx, hmap, hnodup, hnew⟩
    refine ⟨by simp [hname, hmap], List.nodup_cons.mpr ⟨?_, hnodup⟩, ?_⟩
    · intro hmem
      exact hnew x hmem (by simp)
    · intro y hy
      rcases List.mem_cons.mp hy with rfl | hy
      · exact hx
      · exact fun hmem => hnew y hy (List.mem_append_left _ hmem)

theorem project_eq {d : Draft} {n index : Nat} {id : TupleId} {span : Span}
    (hready : d.tuples.describe n = (.ok id, d.tuples)) (hi : index < n) :
    d.project n index span = d.emit [.tupleGet id index] := by
  simp [project, TupleTable.project, hready, Nat.not_le.mpr hi, emit]

theorem pack_eq {d : Draft} {n : Nat} {id : TupleId}
    (hready : d.tuples.describe n = (.ok id, d.tuples)) (span : Span) :
    d.pack n span = (true, d.emit [.makeTuple id]) := by
  simp [pack, TupleTable.create, hready, emit]

/-- A target that is a new name is bound; any other leaves a diagnostic. -/
theorem queryTarget_cases {d d' : Draft} {outer : Frame} {env : List String}
    (h : d.Tracks outer env) {belief : String} {f : FieldId} {n index : Nat}
    {id : TupleId} (hready : d.tuples.describe n = (.ok id, d.tuples)) (hi : index < n)
    {arg : Expr} (hq : d.queryTarget belief f n index arg = .ok d') :
    (∃ x, arg.name? = some x ∧ x ∉ env ∧ d' = d.bindTarget f id index x) ∨
    ((∀ x, arg.name? = some x → x ∈ env) ∧ d'.diagnostics ≠ []) := by
  obtain ⟨F, hF, hkeys, -⟩ := h.frames
  unfold queryTarget at hq
  split at hq
  · next hn =>
    obtain rfl := Except.ok.inj hq
    exact Or.inr ⟨by simp [hn], by simp [report]⟩
  · next name hn =>
    obtain ⟨r, hr, hd⟩ := bind_eq_ok.mp hq
    obtain ⟨-, rfl⟩ := newLocal_eq_ok.mp hr
    simp only at hd
    rw [project_eq (by simpa [emit] using hready) hi] at hd
    simp only [emit, declare, Scopes.declare_eq hF, hkeys, List.mem_reverse, bind,
      Except.bind, pure, Except.pure, Except.ok.injEq] at hd
    by_cases hx : name ∈ env
    · refine Or.inr ⟨by simp [hn, hx], ?_⟩
      subst hd
      simp [hx, report]
    · refine Or.inl ⟨name, hn, hx, ?_⟩
      subst hd
      simp [hx, report, Draft.bindTarget, Scopes.extend, hF]

theorem queryTargets_cases {outer : Frame} {belief : String} {f : FieldId} {n : Nat}
    {id : TupleId} {args : List Expr} :
    ∀ {index : Nat} {d d' : Draft} {env : List String}, d.Tracks outer env →
      d.tuples.describe n = (.ok id, d.tuples) → index + args.length ≤ n →
      queryTargets belief f n index args d = .ok d' →
      (∃ xs, NewNames env args xs ∧ d' = bindTargets f id index xs d) ∨
      ((∀ xs, ¬NewNames env args xs) ∧ d'.diagnostics ≠ []) := by
  induction args with
  | nil =>
      intro index d d' env _ _ _ hq
      obtain rfl : d = d' := by simpa [queryTargets] using hq
      exact Or.inl ⟨[], ⟨rfl, List.nodup_nil, by simp⟩, rfl⟩
  | cons arg args ih =>
      intro index d d' env h hready hlen hq
      simp only [List.length_cons] at hlen
      obtain ⟨d₁, h₁, h₂⟩ := bind_eq_ok.mp hq
      rcases queryTarget_cases h hready (by omega) h₁ with ⟨x, hn, hx, rfl⟩ | ⟨hno, hdiag⟩
      · rcases ih (h.bindTarget f id index x) hready (by omega) h₂ with
          ⟨xs, hxs, rfl⟩ | ⟨hno, hdiag⟩
        · exact Or.inl ⟨x :: xs, newNames_cons_iff.mpr ⟨x, xs, rfl, hn, hx, hxs⟩, rfl⟩
        · refine Or.inr ⟨?_, hdiag⟩
          intro ys hys
          obtain ⟨y, xs, rfl, hn', -, hxs⟩ := newNames_cons_iff.mp hys
          obtain rfl := Option.some.inj (hn.symm.trans hn')
          exact hno xs hxs
      · refine Or.inr ⟨?_, fun hd' => hdiag ((grows_queryTargets h₂).silent hd')⟩
        intro ys hys
        obtain ⟨y, xs, rfl, hn', hy, -⟩ := newNames_cons_iff.mp hys
        exact hy (hno y hn')

theorem checkBeliefArity_eq {d : Draft} {t : Term} {n : Nat} (h : t.args.length = n) :
    d.checkBeliefArity t n = (true, d) := by
  simp [checkBeliefArity, h]

theorem checkBeliefArity_ne {d : Draft} {t : Term} {n : Nat} (h : t.args.length ≠ n) :
    ∃ e, d.checkBeliefArity t n = (false, d.report [e]) :=
  ⟨_, by simp only [checkBeliefArity, h, if_false]; rfl⟩

theorem query_cases {d d' : Draft} {outer : Frame} {env : List String}
    (h : d.Tracks outer env) {t : Term} (hq : d.query t = .ok d') :
    (∃ f id xs, d.scopes.lookup t.name.name = some (.field f t.args.length) ∧
      d.tuples.describe t.args.length = (.ok id, d.tuples) ∧ NewNames env t.args xs ∧
      d' = bindTargets f id 0 xs d) ∨
    (((∀ f, d.scopes.lookup t.name.name ≠ some (.field f t.args.length)) ∨
      ∀ xs, ¬NewNames env t.args xs) ∧ d'.diagnostics ≠ []) := by
  unfold query at hq
  rcases belief_cases d t.name with ⟨f, n, hl, hb⟩ | ⟨hno, e, hb⟩
  · simp only [hb] at hq
    by_cases hlen : t.args.length = n
    · subst hlen
      obtain ⟨id, hready⟩ := h.ready _ _ _ (h.field_iff.mp hl).2
      simp only [checkBeliefArity_eq, tupleFor, hready] at hq
      rcases queryTargets_cases h hready (by omega) hq with ⟨xs, hxs, rfl⟩ | ⟨hxs, hdiag⟩
      · exact Or.inl ⟨f, id, xs, hl, hready, hxs, rfl⟩
      · exact Or.inr ⟨Or.inr hxs, hdiag⟩
    · obtain ⟨e, he⟩ := checkBeliefArity_ne (d := d) hlen
      simp only [he, Except.ok.injEq] at hq
      subst hq
      refine Or.inr ⟨Or.inl ?_, by simp [report]⟩
      intro g hg
      have := hl.symm.trans hg
      simp_all
  · simp only [hb, Except.ok.injEq] at hq
    subst hq
    exact Or.inr ⟨Or.inl fun f => hno f _, by simp [report]⟩

/-! ## Updates and invocations -/

theorem evaluate_cases {d : Draft} {outer : Frame} {env : List String}
    (h : d.Tracks outer env) (es : List Expr) :
    ((∀ x ∈ es.flatMap Expr.names, x ∈ env) ∧
      d.evaluate es = d.emit (es.flatMap (·.code d.scopes))) ∨
    (¬(∀ x ∈ es.flatMap Expr.names, x ∈ env) ∧ (d.evaluate es).diagnostics ≠ []) := by
  have hiff : es.flatMap (·.faults d.scopes) = [] ↔
      ∀ x ∈ es.flatMap Expr.names, x ∈ env :=
    (flatMap_faults_eq_nil_iff d.scopes es).trans (forall₂_congr fun _ _ => h.integer_iff)
  by_cases hnames : ∀ x ∈ es.flatMap Expr.names, x ∈ env
  · exact Or.inl ⟨hnames, by simp [evaluate, report, emit, hiff.mpr hnames]⟩
  · refine Or.inr ⟨hnames, fun hnil => hnames (hiff.mp ?_)⟩
    exact (List.append_eq_nil_iff.mp hnil).2

theorem update_cases {d : Draft} {outer : Frame} {env : List String}
    (h : d.Tracks outer env) (t : Term) :
    (∃ f id, d.scopes.lookup t.name.name = some (.field f t.args.length) ∧
      d.tuples.describe t.args.length = (.ok id, d.tuples) ∧ (∀ x ∈ t.names, x ∈ env) ∧
      d.update t =
        d.emit (t.args.flatMap (·.code d.scopes) ++ [.makeTuple id, .storeField f])) ∨
    (((∀ f, d.scopes.lookup t.name.name ≠ some (.field f t.args.length)) ∨
      ¬∀ x ∈ t.names, x ∈ env) ∧ (d.update t).diagnostics ≠ []) := by
  have hg := grows_update_args d t
  rcases belief_cases d t.name with ⟨f, n, hl, hb⟩ | ⟨hno, e, hb⟩
  · rw [hb] at hg
    rcases evaluate_cases h t.args with ⟨hnames, he⟩ | ⟨hnames, he⟩
    · by_cases hlen : t.args.length = n
      · subst hlen
        obtain ⟨id, hready⟩ := h.ready _ _ _ (h.field_iff.mp hl).2
        refine Or.inl ⟨f, id, hl, hready, hnames, ?_⟩
        have hpack := pack_eq (d := d.emit (t.args.flatMap (·.code d.scopes)))
          (by simpa [emit] using hready) t.span
        simp only [update, hb, he, checkBeliefArity_eq, hpack]
        simp [emit]
      · obtain ⟨e, hc⟩ := checkBeliefArity_ne
          (d := d.emit (t.args.flatMap (·.code d.scopes))) hlen
        refine Or.inr ⟨Or.inl ?_, by simp [update, hb, he, hc, report]⟩
        intro g hg
        have := hl.symm.trans hg
        simp_all
    · exact Or.inr ⟨Or.inr hnames, fun hnil => he (hg.silent hnil)⟩
  · rw [hb] at hg
    refine Or.inr ⟨Or.inl fun f => hno f _, fun hnil => ?_⟩
    have := (grows_evaluate _ _).silent (hg.silent hnil)
    simp [report] at this

theorem invoke_cases {checkArity : Bool} {d d' : Draft} {outer : Frame}
    {env : List String} (h : d.Tracks outer env) {t : Term}
    (hi : d.invoke checkArity t = .ok d') :
    (∃ m n, d.scopes.lookup t.name.name = some (.callable m n) ∧
      (checkArity = true → t.args.length = n) ∧ (∀ x ∈ t.names, x ∈ env) ∧
      d' = d.emit (.loadArg 0 :: t.args.flatMap (·.code d.scopes) ++
        [.call m (t.args.length + 1)])) ∨
    (((∀ m n, d.scopes.lookup t.name.name = some (.callable m n) →
      checkArity = true ∧ t.args.length ≠ n) ∨ ¬∀ x ∈ t.names, x ∈ env) ∧
      d'.diagnostics ≠ []) := by
  have hg := grows_invoke_args hi
  rcases callable_cases d t.name with ⟨m, n, hl, hb⟩ | ⟨hno, e, hb⟩
  · rw [hb] at hg
    rcases evaluate_cases (h.emit [.loadArg 0]) t.args with ⟨hnames, he⟩ | ⟨hnames, he⟩
    · simp only [invoke, hb, he] at hi
      split at hi
      · next hc =>
        obtain rfl := Except.ok.inj hi
        refine Or.inr ⟨Or.inl ?_, by simp [report]⟩
        intro m' n' hl'
        have := hl.symm.trans hl'
        simp_all
      · next hc =>
        obtain ⟨argc, hargc, hr⟩ := bind_eq_ok.mp hi
        obtain ⟨-, rfl⟩ := slotIndex_eq_ok.mp hargc
        obtain rfl := Except.ok.inj hr
        refine Or.inl ⟨m, n, hl, ?_, hnames, by simp [emit]⟩
        intro hca
        simpa [hca] using hc
    · exact Or.inr ⟨Or.inr hnames, fun hnil => he (hg.silent hnil)⟩
  · rw [hb] at hg
    refine Or.inr ⟨Or.inl fun m n hl => absurd hl (hno m n), fun hnil => ?_⟩
    have := (grows_evaluate _ _).silent (hg.silent hnil)
    simp [report, emit] at this

/-! ## Initial values -/

/-- What initial values that resolve do to a draft. -/
def InitEffects : Nat → List Belief → Draft → Draft → Prop
  | _, [], d, d' => d' = d
  | index, b :: beliefs, d, d' =>
    ∃ id, d.tuples.describe b.arity = (.ok id, d.tuples) ∧
      InitEffects (index + 1) beliefs
        (d.emit (b.init.flatMap (·.code d.scopes) ++ [.makeTuple id, .storeField index])) d'

theorem InitEffects.shape {beliefs : List Belief} :
    ∀ {index : Nat} {d d' : Draft}, InitEffects index beliefs d d' →
      d'.scopes = d.scopes ∧ d'.tuples = d.tuples ∧ d'.locals = d.locals ∧
        d'.diagnostics = d.diagnostics := by
  induction beliefs with
  | nil =>
      rintro index d d' rfl
      exact ⟨rfl, rfl, rfl, rfl⟩
  | cons b beliefs ih =>
      rintro index d d' ⟨id, -, h⟩
      have hshape := ih h
      exact hshape

theorem initBelief_cases {d d' : Draft} {outer : Frame} {env : List String}
    (h : d.Tracks outer env) {fields : List FieldDef} {index : Nat} {b : Belief}
    {id : TupleId} (hready : d.tuples.describe b.arity = (.ok id, d.tuples))
    (hfield : (fields[index]?.bind FieldDef.tuple).isSome = true)
    (hi : d.initBelief fields index b = .ok d') :
    ((∀ x ∈ b.init.flatMap Expr.names, x ∈ env) ∧
      d' = d.emit (b.init.flatMap (·.code d.scopes) ++ [.makeTuple id, .storeField index])) ∨
    (¬(∀ x ∈ b.init.flatMap Expr.names, x ∈ env) ∧ d'.diagnostics ≠ []) := by
  simp only [initBelief, hfield, if_true] at hi
  obtain ⟨field, hslot, hr⟩ := bind_eq_ok.mp hi
  rw [(slotIndex_eq_ok.mp hslot).2] at hr
  obtain rfl := Except.ok.inj hr
  rcases evaluate_cases h b.init with ⟨hnames, he⟩ | ⟨hnames, he⟩
  · refine Or.inl ⟨hnames, ?_⟩
    rw [he, pack_eq (by simpa [emit] using hready)]
    simp [emit]
  · refine Or.inr ⟨hnames, fun hnil => he ?_⟩
    exact ((grows_pack _ _ _).trans (grows_emit _ _)).silent hnil

theorem initBeliefs_cases {outer : Frame} {env : List String} {fields : List FieldDef}
    {beliefs : List Belief} :
    ∀ {index : Nat} {d d' : Draft}, d.Tracks outer env →
      (∀ (i : Nat) (b : Belief), beliefs[i]? = some b →
        (fields[index + i]?.bind FieldDef.tuple).isSome = true ∧
          ∃ id, d.tuples.describe b.arity = (.ok id, d.tuples)) →
      initBeliefs fields index beliefs d = .ok d' →
      ((∀ b ∈ beliefs, ∀ x ∈ b.init.flatMap Expr.names, x ∈ env) ∧
        InitEffects index beliefs d d') ∨
      (¬(∀ b ∈ beliefs, ∀ x ∈ b.init.flatMap Expr.names, x ∈ env) ∧
        d'.diagnostics ≠ []) := by
  induction beliefs with
  | nil =>
      intro index d d' _ _ h
      obtain rfl : d = d' := by simpa [initBeliefs] using h
      exact Or.inl ⟨by simp, rfl⟩
  | cons b beliefs ih =>
      intro index d d' ht hall h
      obtain ⟨d₁, h₁, h₂⟩ := bind_eq_ok.mp h
      obtain ⟨hfield, id, hready⟩ := hall 0 b rfl
      rcases initBelief_cases ht hready hfield h₁ with ⟨hnames, rfl⟩ | ⟨hnames, hdiag⟩
      · have hrest := ih (ht.emit _) (fun i c hc => by
          have := hall (i + 1) c (by simpa using hc)
          rwa [Nat.add_comm i 1, ← Nat.add_assoc] at this) h₂
        rcases hrest with ⟨hn, heff⟩ | ⟨hn, hdiag⟩
        · exact Or.inl ⟨List.forall_mem_cons.mpr ⟨hnames, hn⟩, id, hready, heff⟩
        · exact Or.inr ⟨fun hc => hn (List.forall_mem_cons.mp hc).2, hdiag⟩
      · exact Or.inr ⟨fun hc => hnames (List.forall_mem_cons.mp hc).1,
          fun hnil => hdiag ((grows_initBeliefs h₂).silent hnil)⟩

/-! ## Statements and bodies -/

/-- The static rule for a statement, read off the scope around the body. -/
def Resolves (checkArity : Bool) (outer : Frame) (env : List String) (s : Stmt) : Prop :=
  s.term.name.name ∉ env ∧
    match s.kind with
    | .query =>
      (∃ f, outer.lookup s.term.name.name = some (.field f s.term.args.length)) ∧
        ∃ xs, NewNames env s.term.args xs
    | .update =>
      (∃ f, outer.lookup s.term.name.name = some (.field f s.term.args.length)) ∧
        ∀ x ∈ s.term.names, x ∈ env
    | .invoke =>
      (∃ m n, outer.lookup s.term.name.name = some (.callable m n) ∧
        (checkArity = true → s.term.args.length = n)) ∧
        ∀ x ∈ s.term.names, x ∈ env

/-- What a statement that resolves does to a draft. -/
def Effect (outer : Frame) (s : Stmt) (d d' : Draft) : Prop :=
  match s.kind with
  | .query =>
    ∃ f id xs, outer.lookup s.term.name.name = some (.field f s.term.args.length) ∧
      d.tuples.describe s.term.args.length = (.ok id, d.tuples) ∧
      s.term.args.map Expr.name? = xs.map some ∧ d' = bindTargets f id 0 xs d
  | .update =>
    ∃ f id, outer.lookup s.term.name.name = some (.field f s.term.args.length) ∧
      d.tuples.describe s.term.args.length = (.ok id, d.tuples) ∧
      d' = d.emit (s.term.args.flatMap (·.code d.scopes) ++ [.makeTuple id, .storeField f])
  | .invoke =>
    ∃ m n, outer.lookup s.term.name.name = some (.callable m n) ∧
      d' = d.emit (.loadArg 0 :: s.term.args.flatMap (·.code d.scopes) ++
        [.call m (s.term.args.length + 1)])

theorem statement_cases {checkArity : Bool} {d d' : Draft} {outer : Frame}
    {env : List String} (h : d.Tracks outer env) {s : Stmt}
    (hs : d.statement checkArity s = .ok d') :
    (Resolves checkArity outer env s ∧ Effect outer s d d') ∨
    (¬Resolves checkArity outer env s ∧ d'.diagnostics ≠ []) := by
  unfold statement at hs
  unfold Resolves Effect
  cases hk : s.kind with
  | query =>
      simp only [hk] at hs ⊢
      rcases query_cases h hs with ⟨f, id, xs, hl, hready, hxs, rfl⟩ | ⟨hno, hdiag⟩
      · obtain ⟨henv, hl⟩ := h.field_iff.mp hl
        exact Or.inl ⟨⟨henv, ⟨f, hl⟩, xs, hxs⟩, f, id, xs, hl, hready, hxs.1, rfl⟩
      · refine Or.inr ⟨?_, hdiag⟩
        rintro ⟨henv, ⟨f, hl⟩, xs, hxs⟩
        rcases hno with hno | hno
        · exact hno f (h.field_iff.mpr ⟨henv, hl⟩)
        · exact hno xs hxs
  | update =>
      simp only [hk, Except.ok.injEq] at hs ⊢
      subst hs
      rcases update_cases h s.term with ⟨f, id, hl, hready, hnames, heq⟩ | ⟨hno, hdiag⟩
      · obtain ⟨henv, hl⟩ := h.field_iff.mp hl
        exact Or.inl ⟨⟨henv, ⟨f, hl⟩, hnames⟩, f, id, hl, hready, heq⟩
      · refine Or.inr ⟨?_, hdiag⟩
        rintro ⟨henv, ⟨f, hl⟩, hnames⟩
        rcases hno with hno | hno
        · exact hno f (h.field_iff.mpr ⟨henv, hl⟩)
        · exact hno hnames
  | invoke =>
      simp only [hk] at hs ⊢
      rcases invoke_cases h hs with ⟨m, n, hl, hlen, hnames, heq⟩ | ⟨hno, hdiag⟩
      · obtain ⟨henv, hl⟩ := h.callable_iff.mp hl
        exact Or.inl ⟨⟨henv, ⟨m, n, hl, hlen⟩, hnames⟩, m, n, hl, heq⟩
      · refine Or.inr ⟨?_, hdiag⟩
        rintro ⟨henv, ⟨m, n, hl, hlen⟩, hnames⟩
        rcases hno with hno | hno
        · obtain ⟨hc, hne⟩ := hno m n (h.callable_iff.mpr ⟨henv, hl⟩)
          exact hne (hlen hc)
        · exact hno hnames

theorem Effect.shape {outer : Frame} {s : Stmt} {d d' : Draft}
    (h : Effect outer s d d') : d'.tuples = d.tuples ∧ d'.diagnostics = d.diagnostics := by
  unfold Effect at h
  split at h
  · obtain ⟨f, id, xs, -, -, -, rfl⟩ := h
    exact bindTargets_shape f id xs 0 d
  · obtain ⟨f, id, -, -, rfl⟩ := h
    exact ⟨rfl, rfl⟩
  · obtain ⟨m, n, -, rfl⟩ := h
    exact ⟨rfl, rfl⟩

theorem filterMap_name?_eq {args : List Expr} {xs : List String}
    (h : args.map Expr.name? = xs.map some) : args.filterMap Expr.name? = xs := by
  have : args.filterMap Expr.name? = (args.map Expr.name?).filterMap id := by
    simp [List.filterMap_map]
  rw [this, h]
  simp [List.filterMap_map]

theorem Effect.tracks {outer : Frame} {env : List String} {s : Stmt} {d d' : Draft}
    (he : Effect outer s d d') (h : d.Tracks outer env) :
    d'.Tracks outer (env ++ s.targets) := by
  unfold Effect at he
  unfold Stmt.targets
  cases hk : s.kind with
  | query =>
      rw [hk] at he
      obtain ⟨f, id, xs, -, -, hxs, rfl⟩ := he
      simpa only [filterMap_name?_eq hxs] using h.bindTargets f id xs 0
  | update =>
      rw [hk] at he
      obtain ⟨f, id, -, -, rfl⟩ := he
      simpa using h.emit _
  | invoke =>
      rw [hk] at he
      obtain ⟨m, n, -, rfl⟩ := he
      simpa using h.emit _

def BodyResolves (checkArity : Bool) (outer : Frame) : List String → List Stmt → Prop
  | _, [] => True
  | env, s :: stmts =>
    Resolves checkArity outer env s ∧ BodyResolves checkArity outer (env ++ s.targets) stmts

def Effects (outer : Frame) : List Stmt → Draft → Draft → Prop
  | [], d, d' => d' = d
  | s :: stmts, d, d' => ∃ d₁, Effect outer s d d₁ ∧ Effects outer stmts d₁ d'

/-- A body resolves as a whole, or the draft holds a diagnostic in the end. -/
theorem statements_cases {checkArity : Bool} {outer : Frame} {stmts : List Stmt} :
    ∀ {d d' : Draft} {env : List String}, d.Tracks outer env →
      statements checkArity stmts d = .ok d' →
      (BodyResolves checkArity outer env stmts ∧ Effects outer stmts d d') ∨
      (¬BodyResolves checkArity outer env stmts ∧ d'.diagnostics ≠ []) := by
  induction stmts with
  | nil =>
      intro d d' env _ h
      obtain rfl : d = d' := by simpa [statements] using h
      exact Or.inl ⟨trivial, rfl⟩
  | cons s stmts ih =>
      intro d d' env ht h
      obtain ⟨d₁, h₁, h₂⟩ := bind_eq_ok.mp h
      rcases statement_cases ht h₁ with ⟨hres, heff⟩ | ⟨hres, hdiag⟩
      · rcases ih (heff.tracks ht) h₂ with ⟨hrest, heffs⟩ | ⟨hrest, hdiag⟩
        · exact Or.inl ⟨⟨hres, hrest⟩, d₁, heff, heffs⟩
        · exact Or.inr ⟨fun hbody => hrest hbody.2, hdiag⟩
      · exact Or.inr ⟨fun hbody => hres hbody.1,
          fun hnil => hdiag ((grows_statements h₂).silent hnil)⟩

theorem Effects.shape {outer : Frame} {stmts : List Stmt} :
    ∀ {d d' : Draft}, Effects outer stmts d d' →
      d'.tuples = d.tuples ∧ d'.diagnostics = d.diagnostics := by
  induction stmts with
  | nil =>
      rintro d d' rfl
      exact ⟨rfl, rfl⟩
  | cons s stmts ih =>
      rintro d d' ⟨d₁, heff, heffs⟩
      obtain ⟨ht, hd⟩ := heff.shape
      obtain ⟨ht', hd'⟩ := ih heffs
      exact ⟨ht'.trans ht, hd'.trans hd⟩

theorem Effects.tracks {outer : Frame} {stmts : List Stmt} :
    ∀ {d d' : Draft} {env : List String}, Effects outer stmts d d' →
      d.Tracks outer env → d'.Tracks outer (env ++ stmts.flatMap Stmt.targets) := by
  induction stmts with
  | nil =>
      rintro d d' env rfl h
      simpa using h
  | cons s stmts ih =>
      rintro d d' env ⟨d₁, heff, heffs⟩ h
      simpa using ih heffs (heff.tracks h)

end Draft

end AgentLang
