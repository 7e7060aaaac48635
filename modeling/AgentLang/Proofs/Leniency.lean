import AgentLang.Compile
import AgentLang.Proofs.Independence

/-!
# What the check of calls adds

Generation runs with or without the check that a call passes as many arguments as
its method takes. The two runs go in lockstep (`Draft.Relaxed`, one lemma for each
operation): the check adds its own diagnostics and leaves out the calls that they
are about, and otherwise nobody can tell the runs apart
(`arity_check_only_adds`).

The check may also save a run, because a call that is left out needs no number for
its arguments. The lemmas about whole bodies therefore ask for argument lists that
can be numbered, unless nothing is reported in the end.
-/

namespace AgentLang

/-! ## Misfits -/

/-- How many arguments a method takes and a call of it passes, if they differ. The
methods take as many as `callees` says, the receiver included. -/
def Instr.misfit? (callees : List Nat) : Instr → Option (Nat × Nat)
  | call method argc => callees[method]?.bind fun n => if argc = n then none else some (n, argc)
  | _ => none

/-- How many arguments were expected and found, the receiver included. -/
def SemanticError.misfit? : SemanticError → Option (Nat × Nat)
  | callArityMismatch _ expected found _ => some (expected + 1, found + 1)
  | _ => none

/-- The method without the calls that pass a wrong number of arguments. -/
def MethodDef.checked (callees : List Nat) (m : MethodDef) : MethodDef :=
  { m with code := m.code.filter fun i => (i.misfit? callees).isNone }

/-- The numbers of arguments that the methods take, the receiver included. -/
def AgentType.callees (type : AgentType) : List Nat := type.methods.map MethodDef.argc

/-- The type without the calls that pass a wrong number of arguments. -/
def AgentType.checked (type : AgentType) : AgentType :=
  { type with methods := type.methods.map (MethodDef.checked type.callees) }

/-- What the calls that pass a wrong number of arguments should pass and do, in
order. -/
def AgentType.misfits (type : AgentType) : List (Nat × Nat) :=
  (type.methods.flatMap MethodDef.code).filterMap (Instr.misfit? type.callees)

section Misfits

variable {callees : List Nat}

theorem filter_isNone_of_forall {α β : Type} {f : α → Option β} {l : List α}
    (h : ∀ x ∈ l, f x = none) : l.filter (fun x => (f x).isNone) = l :=
  List.filter_eq_self.mpr fun x hx => by simp [h x hx]

theorem AgentType.checked_eq_self {type : AgentType} (h : type.misfits = []) :
    type.checked = type := by
  have hcode : ∀ m ∈ type.methods, m.checked type.callees = m := by
    intro m hm
    have hfits : ∀ i ∈ m.code, i.misfit? type.callees = none := fun i hi =>
      List.filterMap_eq_nil_iff.mp h i (List.mem_flatMap.mpr ⟨m, hm, hi⟩)
    simp [MethodDef.checked, filter_isNone_of_forall hfits]
  have hmethods : type.methods.map (MethodDef.checked type.callees) = type.methods :=
    (List.map_congr_left hcode).trans (List.map_id _)
  rw [checked, hmethods]

theorem Expr.code_misfit (s : Scopes) (e : Expr) :
    ∀ i ∈ e.code s, i.misfit? callees = none := by
  induction e with
  | ident name span =>
      intro i hi
      obtain ⟨b, -, hb⟩ := Option.bind_eq_some_iff.mp (Option.mem_toList.mp hi)
      cases b with
      | argument slot => obtain rfl := Option.some.inj hb; rfl
      | localSlot slot => obtain rfl := Option.some.inj hb; rfl
      | field f n => cases hb
      | callable m n => cases hb
  | number value span => simp [code, Instr.misfit?]
  | binary op left right span ihl ihr =>
      simp only [code, List.forall_mem_append, List.forall_mem_singleton]
      exact ⟨⟨ihl, ihr⟩, rfl⟩

theorem Expr.faults_misfit (s : Scopes) (e : Expr) :
    ∀ err ∈ e.faults s, err.misfit? = none := by
  induction e with
  | ident name span =>
      unfold faults
      split
      · simp [SemanticError.misfit?]
      · split <;> simp [SemanticError.misfit?]
  | number value span => exact List.forall_mem_nil _
  | binary op left right span ihl ihr =>
      simp only [faults, List.forall_mem_append]
      exact ⟨ihl, ihr⟩

theorem Scopes.declare_misfit {s s' : Scopes} {x : String} {span : Span} {b : Binding}
    {errors : List SemanticError} (h : s.declare x span b = .ok (s', errors)) :
    ∀ err ∈ errors, err.misfit? = none := by
  unfold declare at h
  split at h
  · obtain ⟨-, rfl⟩ := Prod.mk.inj (Except.ok.inj h)
    exact List.forall_mem_nil _
  · obtain ⟨-, rfl⟩ := Prod.mk.inj (Except.ok.inj h)
    simp [SemanticError.misfit?]
  · cases h

theorem ofLookup_misfit (e : LookupError) (span : Span) :
    (SemanticError.ofLookup e span).misfit? = none := by
  cases e <;> rfl

end Misfits

/-! ## Drafts in lockstep -/

namespace Draft

/-- `e` is what `d` would be without the check. -/
structure Relaxed (callees : List Nat) (d e : Draft) : Prop where
  scopes : e.scopes = d.scopes
  tuples : e.tuples = d.tuples
  locals : e.locals = d.locals
  code : d.code = e.code.filter fun i => (i.misfit? callees).isNone
  diagnostics : e.diagnostics = d.diagnostics.filter fun err => err.misfit?.isNone
  misfits : e.code.filterMap (Instr.misfit? callees) =
    d.diagnostics.filterMap SemanticError.misfit?

section Relaxed

variable {callees : List Nat} {d d' e : Draft}

theorem relaxed_start (callees : List Nat) (s : Scopes) (t : TupleTable) :
    Relaxed callees (start s t) (start s t) :=
  ⟨rfl, rfl, rfl, rfl, rfl, rfl⟩

theorem Relaxed.emit (h : Relaxed callees d e) {code : List Instr}
    (hc : ∀ i ∈ code, i.misfit? callees = none) :
    Relaxed callees (d.emit code) (e.emit code) where
  scopes := h.scopes
  tuples := h.tuples
  locals := h.locals
  code := by simp [Draft.emit, h.code, filter_isNone_of_forall hc]
  diagnostics := h.diagnostics
  misfits := by simp [Draft.emit, h.misfits, List.filterMap_eq_nil_iff.mpr hc]

theorem Relaxed.emit_one (h : Relaxed callees d e) {i : Instr} (hi : i.misfit? callees = none) :
    Relaxed callees (d.emit [i]) (e.emit [i]) :=
  h.emit (List.forall_mem_singleton.mpr hi)

theorem Relaxed.report (h : Relaxed callees d e) {errors : List SemanticError}
    (he : ∀ err ∈ errors, err.misfit? = none) :
    Relaxed callees (d.report errors) (e.report errors) where
  scopes := h.scopes
  tuples := h.tuples
  locals := h.locals
  code := h.code
  diagnostics := by simp [Draft.report, h.diagnostics, filter_isNone_of_forall he]
  misfits := by simp [Draft.report, h.misfits, List.filterMap_eq_nil_iff.mpr he]

theorem Relaxed.report_one (h : Relaxed callees d e) {err : SemanticError}
    (he : err.misfit? = none) : Relaxed callees (d.report [err]) (e.report [err]) :=
  h.report (List.forall_mem_singleton.mpr he)

theorem Relaxed.withTuples (h : Relaxed callees d e) (t : TupleTable) :
    Relaxed callees { d with tuples := t } { e with tuples := t } :=
  ⟨h.scopes, rfl, h.locals, h.code, h.diagnostics, h.misfits⟩

/-- Where the check makes no difference, no call is reported. -/
theorem Relaxed.quiet (h : Relaxed callees d d) : ∀ err ∈ d.diagnostics, err.misfit? = none :=
  fun err herr => Option.isNone_iff_eq_none.mp (List.filter_eq_self.mp h.diagnostics.symm err herr)

theorem Relaxed.evaluate (h : Relaxed callees d e) (es : List Expr) :
    Relaxed callees (d.evaluate es) (e.evaluate es) := by
  unfold Draft.evaluate
  rw [h.scopes]
  refine (h.emit fun i hi => ?_).report fun err herr => ?_
  · obtain ⟨x, -, hi⟩ := List.mem_flatMap.mp hi
    exact x.code_misfit d.scopes i hi
  · obtain ⟨x, -, herr⟩ := List.mem_flatMap.mp herr
    exact x.faults_misfit d.scopes err herr

theorem Relaxed.declare (h : Relaxed callees d e) {x : String} {span : Span} {b : Binding}
    (hd : d.declare x span b = .ok d') :
    ∃ e', e.declare x span b = .ok e' ∧ Relaxed callees d' e' := by
  obtain ⟨⟨scopes, errors⟩, hs, hd⟩ := bind_eq_ok.mp hd
  obtain rfl := Except.ok.inj hd
  refine ⟨_, bind_eq_ok.mpr ⟨(scopes, errors), h.scopes ▸ hs, rfl⟩, ?_⟩
  have hscopes : Relaxed callees { d with scopes } { e with scopes } :=
    ⟨rfl, h.tuples, h.locals, h.code, h.diagnostics, h.misfits⟩
  exact hscopes.report (Scopes.declare_misfit hs)

theorem Relaxed.declareParams {params : List Param} :
    ∀ {slot : Nat} {d d' e : Draft}, Relaxed callees d e →
      Draft.declareParams slot params d = .ok d' →
      ∃ e', Draft.declareParams slot params e = .ok e' ∧ Relaxed callees d' e' := by
  induction params with
  | nil =>
      intro slot d d' e h hd
      obtain rfl : d = d' := by simpa [Draft.declareParams] using hd
      exact ⟨e, rfl, h⟩
  | cons p params ih =>
      intro slot d d' e h hd
      obtain ⟨index, hslot, hd⟩ := bind_eq_ok.mp hd
      obtain ⟨d₁, h₁, h₂⟩ := bind_eq_ok.mp hd
      obtain ⟨e₁, he₁, hr₁⟩ := h.declare h₁
      obtain ⟨e₂, he₂, hr₂⟩ := ih hr₁ h₂
      exact ⟨e₂, bind_eq_ok.mpr ⟨index, hslot, bind_eq_ok.mpr ⟨e₁, he₁, he₂⟩⟩, hr₂⟩

/-! ### Look-ups and tuples -/

theorem Relaxed.belief (h : Relaxed callees d e) (name : Ident) :
    ∃ r d' e', d.belief name = (r, d') ∧ e.belief name = (r, e') ∧
      Relaxed callees d' e' := by
  unfold Draft.belief
  rw [h.scopes]
  split
  · exact ⟨_, _, _, rfl, rfl, h⟩
  · exact ⟨_, _, _, rfl, rfl, h⟩
  · exact ⟨_, _, _, rfl, rfl, h.report_one (ofLookup_misfit _ _)⟩

theorem Relaxed.callable (h : Relaxed callees d e) (name : Ident) :
    ∃ r d' e', d.callable name = (r, d') ∧ e.callable name = (r, e') ∧
      Relaxed callees d' e' := by
  unfold Draft.callable
  rw [h.scopes]
  split
  · exact ⟨_, _, _, rfl, rfl, h⟩
  · exact ⟨_, _, _, rfl, rfl, h⟩
  · exact ⟨_, _, _, rfl, rfl, h.report_one (ofLookup_misfit _ _)⟩

theorem Relaxed.checkBeliefArity (h : Relaxed callees d e) (t : Term) (n : Nat) :
    ∃ r d' e', d.checkBeliefArity t n = (r, d') ∧ e.checkBeliefArity t n = (r, e') ∧
      Relaxed callees d' e' := by
  unfold Draft.checkBeliefArity
  split
  · exact ⟨_, _, _, rfl, rfl, h⟩
  · exact ⟨_, _, _, rfl, rfl, h.report_one rfl⟩

theorem Relaxed.tupleFor (h : Relaxed callees d e) (n : Nat) (span : Span) :
    ∃ r d' e', d.tupleFor n span = (r, d') ∧ e.tupleFor n span = (r, e') ∧
      Relaxed callees d' e' := by
  unfold Draft.tupleFor
  rw [h.tuples]
  split
  · exact ⟨_, _, _, rfl, rfl, h.withTuples _⟩
  · exact ⟨_, _, _, rfl, rfl, (h.withTuples _).report_one rfl⟩

theorem create_misfit {t t' : TupleTable} {n : Nat} {i : Instr}
    (h : t.create n = (.ok i, t')) : i.misfit? callees = none := by
  unfold TupleTable.create at h
  split at h
  · cases h
  · obtain rfl := Except.ok.inj (Prod.mk.inj h).1
    rfl

theorem Relaxed.pack (h : Relaxed callees d e) (n : Nat) (span : Span) :
    ∃ r d' e', d.pack n span = (r, d') ∧ e.pack n span = (r, e') ∧
      Relaxed callees d' e' := by
  unfold Draft.pack
  rw [h.tuples]
  split
  · next hc => exact ⟨_, _, _, rfl, rfl, (h.withTuples _).emit_one (create_misfit hc)⟩
  · exact ⟨_, _, _, rfl, rfl, (h.withTuples _).report_one rfl⟩

theorem project_misfit {t t' : TupleTable} {n index : Nat} {i : Instr}
    (h : t.project n index = (.ok i, t')) : i.misfit? callees = none := by
  unfold TupleTable.project at h
  split at h
  · cases h
  · split at h
    · cases h
    · obtain rfl := Except.ok.inj (Prod.mk.inj h).1
      rfl

theorem Relaxed.project (h : Relaxed callees d e) (n index : Nat) (span : Span) :
    Relaxed callees (d.project n index span) (e.project n index span) := by
  unfold Draft.project
  rw [h.tuples]
  split
  · next hp => exact (h.withTuples _).emit_one (project_misfit hp)
  · exact (h.withTuples _).report_one rfl

/-! ### Statements -/

theorem Relaxed.queryTarget (h : Relaxed callees d e) {belief : String} {f : FieldId}
    {n index : Nat} {arg : Expr} (hq : d.queryTarget belief f n index arg = .ok d') :
    ∃ e', e.queryTarget belief f n index arg = .ok e' ∧ Relaxed callees d' e' := by
  unfold Draft.queryTarget at hq ⊢
  split at hq
  · next hn =>
    obtain rfl := Except.ok.inj hq
    exact ⟨_, rfl, h.report_one rfl⟩
  · next name hn =>
    obtain ⟨r, hr, hd⟩ := bind_eq_ok.mp hq
    obtain ⟨hlt, rfl⟩ := newLocal_eq_ok.mp hr
    have hnew : Relaxed callees { d with locals := d.locals ++ [name] }
        { e with locals := e.locals ++ [name] } :=
      ⟨h.scopes, h.tuples, by simp [h.locals], h.code, h.diagnostics, h.misfits⟩
    have hstore := ((hnew.emit_one (i := .loadField f) rfl).project n index
      arg.span).emit_one (i := .storeLocal d.locals.length) rfl
    obtain ⟨e', he', hr'⟩ := hstore.declare hd
    rw [← h.locals] at he'
    exact ⟨e', bind_eq_ok.mpr ⟨_, newLocal_eq_ok.mpr ⟨h.locals ▸ hlt, rfl⟩, he'⟩, hr'⟩

theorem Relaxed.queryTargets {belief : String} {f : FieldId} {n : Nat} {args : List Expr} :
    ∀ {index : Nat} {d d' e : Draft}, Relaxed callees d e →
      Draft.queryTargets belief f n index args d = .ok d' →
      ∃ e', Draft.queryTargets belief f n index args e = .ok e' ∧ Relaxed callees d' e' := by
  induction args with
  | nil =>
      intro index d d' e h hq
      obtain rfl : d = d' := by simpa [Draft.queryTargets] using hq
      exact ⟨e, rfl, h⟩
  | cons arg args ih =>
      intro index d d' e h hq
      obtain ⟨d₁, h₁, h₂⟩ := bind_eq_ok.mp hq
      obtain ⟨e₁, he₁, hr₁⟩ := h.queryTarget h₁
      obtain ⟨e₂, he₂, hr₂⟩ := ih hr₁ h₂
      exact ⟨e₂, bind_eq_ok.mpr ⟨e₁, he₁, he₂⟩, hr₂⟩

theorem Relaxed.query (h : Relaxed callees d e) {t : Term} (hq : d.query t = .ok d') :
    ∃ e', e.query t = .ok e' ∧ Relaxed callees d' e' := by
  obtain ⟨target, d₁, e₁, hd₁, he₁, h₁⟩ := h.belief t.name
  unfold Draft.query at hq ⊢
  rw [hd₁] at hq
  rw [he₁]
  cases target with
  | none =>
      obtain rfl := Except.ok.inj hq
      exact ⟨e₁, rfl, h₁⟩
  | some target =>
    obtain ⟨fits, d₂, e₂, hd₂, he₂, h₂⟩ := h₁.checkBeliefArity t target.2
    simp only [hd₂] at hq
    simp only [he₂]
    cases fits with
    | false =>
        obtain rfl := Except.ok.inj hq
        exact ⟨e₂, rfl, h₂⟩
    | true =>
      obtain ⟨id, d₃, e₃, hd₃, he₃, h₃⟩ := h₂.tupleFor target.2 t.span
      simp only [hd₃] at hq
      simp only [he₃]
      cases id with
      | none =>
          obtain rfl := Except.ok.inj hq
          exact ⟨e₃, rfl, h₃⟩
      | some id => exact h₃.queryTargets hq

theorem Relaxed.update (h : Relaxed callees d e) (t : Term) :
    Relaxed callees (d.update t) (e.update t) := by
  obtain ⟨target, d₁, e₁, hd₁, he₁, h₁⟩ := h.belief t.name
  have hargs := h₁.evaluate t.args
  unfold Draft.update
  rw [hd₁, he₁]
  cases target with
  | none => exact hargs
  | some target =>
    obtain ⟨fits, d₂, e₂, hd₂, he₂, h₂⟩ := hargs.checkBeliefArity t target.2
    simp only [hd₂, he₂]
    cases fits with
    | false => exact h₂
    | true =>
      obtain ⟨packed, d₃, e₃, hd₃, he₃, h₃⟩ := h₂.pack target.2 t.span
      simp only [hd₃, he₃]
      cases packed with
      | false => exact h₃
      | true => exact h₃.emit_one rfl

/-- Here the runs part: with the check the call is left out and reported. -/
theorem Relaxed.invoke {L : Linkage} {table : TupleTable} (h : Relaxed L.callees d e)
    (hd : d.Linked L table) {t : Term} (hi : d.invoke true t = .ok d')
    (hfit : d'.diagnostics = [] ∨ t.args.length < 4294967295) :
    ∃ e', e.invoke false t = .ok e' ∧ Relaxed L.callees d' e' := by
  obtain ⟨-, hcallee⟩ := hd.callable t.name
  obtain ⟨target, d₁, e₁, hd₁, he₁, h₁⟩ := h.callable t.name
  have hargs := (h₁.emit_one (i := .loadArg 0) rfl).evaluate t.args
  unfold Draft.invoke at hi ⊢
  rw [hd₁] at hi hcallee
  rw [he₁]
  cases target with
  | none =>
      obtain rfl := Except.ok.inj hi
      exact ⟨_, rfl, hargs⟩
  | some target =>
    obtain ⟨m, n⟩ := target
    have hn : L.callees[m]? = some (n + 1) := hcallee m n rfl
    by_cases hlen : t.args.length = n
    · simp only [hlen, bne_self_eq_false, Bool.and_false, Bool.false_eq_true, if_false] at hi ⊢
      obtain ⟨argc, hslot, hi⟩ := bind_eq_ok.mp hi
      obtain rfl := Except.ok.inj hi
      obtain ⟨-, rfl⟩ := slotIndex_eq_ok.mp hslot
      refine ⟨_, bind_eq_ok.mpr ⟨_, hslot, rfl⟩, hargs.emit_one ?_⟩
      simp [Instr.misfit?, hn]
    · -- a call on one side, a diagnostic about it on the other
      have hmisfit : (Instr.call m (t.args.length + 1)).misfit? L.callees =
          some (n + 1, t.args.length + 1) := by
        simp [Instr.misfit?, hn, hlen]
      simp only [bne_iff_ne.mpr hlen, Bool.and_self, if_true, Except.ok.injEq] at hi
      subst hi
      have hslot : t.args.length < 4294967295 := hfit.resolve_left (by simp [Draft.report])
      refine ⟨_, bind_eq_ok.mpr ⟨_, slotIndex_eq_ok.mpr ⟨by omega, rfl⟩, rfl⟩,
        hargs.scopes, hargs.tuples, hargs.locals, ?_, ?_, ?_⟩
      · simpa [Draft.emit, Draft.report, hmisfit] using hargs.code
      · simpa [Draft.emit, Draft.report, SemanticError.misfit?] using hargs.diagnostics
      · simpa [Draft.emit, Draft.report, hmisfit, SemanticError.misfit?] using hargs.misfits

theorem Relaxed.statement {L : Linkage} {table : TupleTable} (h : Relaxed L.callees d e)
    (hd : d.Linked L table) {s : Stmt} (hs : d.statement true s = .ok d')
    (hfit : d'.diagnostics = [] ∨ s.term.args.length < 4294967295) :
    ∃ e', e.statement false s = .ok e' ∧ Relaxed L.callees d' e' := by
  unfold Draft.statement at hs ⊢
  split at hs
  · exact h.query hs
  · obtain rfl := Except.ok.inj hs
    exact ⟨_, rfl, h.update s.term⟩
  · exact h.invoke hd hs hfit

theorem Relaxed.statements {L : Linkage} {table : TupleTable} (hL : L.Describes table)
    (hargc : 0 < L.argc) (hcheck : L.checkArity = true) {stmts : List Stmt} :
    ∀ {d d' e : Draft}, Relaxed L.callees d e → d.Linked L table →
      Draft.statements true stmts d = .ok d' →
      (d'.diagnostics = [] ∨ ∀ s ∈ stmts, s.term.args.length < 4294967295) →
      ∃ e', Draft.statements false stmts e = .ok e' ∧ Relaxed L.callees d' e' := by
  induction stmts with
  | nil =>
      intro d d' e h _ hs _
      obtain rfl : d = d' := by simpa [Draft.statements] using hs
      exact ⟨e, rfl, h⟩
  | cons s stmts ih =>
      intro d d' e h hd hs hfit
      obtain ⟨d₁, h₁, h₂⟩ := bind_eq_ok.mp hs
      rw [List.forall_mem_cons] at hfit
      obtain ⟨e₁, he₁, hr₁⟩ :=
        h.statement hd h₁ (hfit.imp (grows_statements h₂).silent And.left)
      have hd₁ : d₁.Linked L table := hd.statement hL hargc (hcheck ▸ h₁)
      obtain ⟨e₂, he₂, hr₂⟩ := ih hr₁ hd₁ h₂ (hfit.imp_right And.right)
      exact ⟨e₂, bind_eq_ok.mpr ⟨e₁, he₁, he₂⟩, hr₂⟩

/-! ### Initial values -/

theorem Relaxed.initBelief (h : Relaxed callees d e) {fields : List FieldDef} {index : Nat}
    {b : Belief} (hi : d.initBelief fields index b = .ok d') :
    ∃ e', e.initBelief fields index b = .ok e' ∧ Relaxed callees d' e' := by
  have hr := h.evaluate b.init
  unfold Draft.initBelief at hi ⊢
  simp only at hi ⊢
  split at hi
  · next hsome =>
    obtain ⟨field, hslot, hi⟩ := bind_eq_ok.mp hi
    obtain rfl := Except.ok.inj hi
    rw [if_pos hsome]
    obtain ⟨packed, d₁, e₁, hd₁, he₁, h₁⟩ := hr.pack b.arity b.span
    rw [hd₁, he₁]
    exact ⟨_, bind_eq_ok.mpr ⟨field, hslot, rfl⟩, h₁.emit_one rfl⟩
  · next hnone =>
    obtain rfl := Except.ok.inj hi
    rw [if_neg hnone]
    exact ⟨_, rfl, hr⟩

theorem Relaxed.initBeliefs {fields : List FieldDef} {beliefs : List Belief} :
    ∀ {index : Nat} {d d' e : Draft}, Relaxed callees d e →
      Draft.initBeliefs fields index beliefs d = .ok d' →
      ∃ e', Draft.initBeliefs fields index beliefs e = .ok e' ∧ Relaxed callees d' e' := by
  induction beliefs with
  | nil =>
      intro index d d' e h hi
      obtain rfl : d = d' := by simpa [Draft.initBeliefs] using hi
      exact ⟨e, rfl, h⟩
  | cons b beliefs ih =>
      intro index d d' e h hi
      obtain ⟨d₁, h₁, h₂⟩ := bind_eq_ok.mp hi
      obtain ⟨e₁, he₁, hr₁⟩ := h.initBelief h₁
      obtain ⟨e₂, he₂, hr₂⟩ := ih hr₁ h₂
      exact ⟨e₂, bind_eq_ok.mpr ⟨e₁, he₁, he₂⟩, hr₂⟩

end Relaxed

end Draft

/-! ## Assemblies in lockstep -/

namespace Assembly

/-- `v` is what `u` would be without the check. -/
structure Relaxed (callees : List Nat) (u v : Assembly) : Prop where
  scopes : v.scopes = u.scopes
  tuples : v.tuples = u.tuples
  fields : v.fields = u.fields
  methods : u.methods = v.methods.map (MethodDef.checked callees)
  diagnostics : v.diagnostics = u.diagnostics.filter fun err => err.misfit?.isNone
  misfits : (v.methods.flatMap MethodDef.code).filterMap (Instr.misfit? callees) =
    u.diagnostics.filterMap SemanticError.misfit?

section Relaxed

variable {callees : List Nat} {u u' v : Assembly}

theorem relaxed_enter_empty (callees : List Nat) :
    Relaxed callees (enter .empty) (enter .empty) :=
  ⟨rfl, rfl, rfl, rfl, rfl, rfl⟩

theorem Relaxed.report (h : Relaxed callees u v) {errors : List SemanticError}
    (he : ∀ err ∈ errors, err.misfit? = none) :
    Relaxed callees (u.report errors) (v.report errors) where
  scopes := h.scopes
  tuples := h.tuples
  fields := h.fields
  methods := h.methods
  diagnostics := by simp [Assembly.report, h.diagnostics, filter_isNone_of_forall he]
  misfits := by simp [Assembly.report, h.misfits, List.filterMap_eq_nil_iff.mpr he]

theorem Relaxed.withTables (h : Relaxed callees u v) (scopes : Scopes) (tuples : TupleTable)
    (fields : List FieldDef) :
    Relaxed callees { u with scopes, tuples, fields } { v with scopes, tuples, fields } :=
  ⟨rfl, rfl, rfl, h.methods, h.diagnostics, h.misfits⟩

theorem Relaxed.declare (h : Relaxed callees u v) {name : Ident} {b : Binding}
    (hd : u.declare name b = .ok u') :
    ∃ v', v.declare name b = .ok v' ∧ Relaxed callees u' v' := by
  obtain ⟨⟨scopes, errors⟩, hs, hd⟩ := bind_eq_ok.mp hd
  obtain rfl := Except.ok.inj hd
  refine ⟨_, bind_eq_ok.mpr ⟨(scopes, errors), h.scopes ▸ hs, rfl⟩, ?_⟩
  rw [h.tuples, h.fields]
  exact (h.withTables scopes u.tuples u.fields).report (Scopes.declare_misfit hs)

theorem Relaxed.declareBelief (h : Relaxed callees u v) {b : Belief}
    (hd : u.declareBelief b = .ok u') :
    ∃ v', v.declareBelief b = .ok v' ∧ Relaxed callees u' v' := by
  simp only [Assembly.declareBelief, h.scopes, h.tuples, h.fields] at hd ⊢
  obtain ⟨field, hslot, hd⟩ := bind_eq_ok.mp hd
  obtain ⟨v', hv', hr⟩ := ((h.withTables u.scopes _ _).report
    (by split <;> simp [SemanticError.misfit?])).declare hd
  exact ⟨v', bind_eq_ok.mpr ⟨field, hslot, hv'⟩, hr⟩

theorem Relaxed.declareBeliefs {beliefs : List Belief} :
    ∀ {u u' v : Assembly}, Relaxed callees u v → Assembly.declareBeliefs beliefs u = .ok u' →
      ∃ v', Assembly.declareBeliefs beliefs v = .ok v' ∧ Relaxed callees u' v' := by
  induction beliefs with
  | nil =>
      intro u u' v h hd
      obtain rfl : u = u' := by simpa [Assembly.declareBeliefs] using hd
      exact ⟨v, rfl, h⟩
  | cons b beliefs ih =>
      intro u u' v h hd
      obtain ⟨u₁, h₁, h₂⟩ := bind_eq_ok.mp hd
      obtain ⟨v₁, hv₁, hr₁⟩ := h.declareBelief h₁
      obtain ⟨v₂, hv₂, hr₂⟩ := ih hr₁ h₂
      exact ⟨v₂, bind_eq_ok.mpr ⟨v₁, hv₁, hv₂⟩, hr₂⟩

/-- A constructor calls nothing. -/
theorem Relaxed.constructor (h : Relaxed callees u v) {a : Agent} {method : MethodDef}
    (hc : u.constructor a = .ok (method, u')) :
    ∃ v', v.constructor a = .ok (method, v') ∧ Relaxed callees u' v' := by
  obtain ⟨d₁, h₁, hc⟩ := bind_eq_ok.mp hc
  obtain ⟨d₂, h₂, hc⟩ := bind_eq_ok.mp hc
  obtain ⟨u₁, h₃, hc⟩ := bind_eq_ok.mp hc
  obtain ⟨rfl, rfl⟩ := Prod.mk.inj (Except.ok.inj hc)
  obtain ⟨scopes, hs, h₃⟩ := bind_eq_ok.mp h₃
  obtain rfl := Except.ok.inj h₃
  obtain ⟨e₁, he₁, hr₁⟩ := (Draft.relaxed_start callees u.scopes u.tuples).declareParams h₁
  obtain rfl : d₁ = e₁ := Except.ok.inj (h₁.symm.trans he₁)
  obtain ⟨e₂, he₂, hr₂⟩ := hr₁.initBeliefs h₂
  obtain rfl : d₂ = e₂ := Except.ok.inj (h₂.symm.trans he₂)
  refine ⟨{ v with scopes, tuples := d₂.tuples }.report d₂.diagnostics, ?_, ?_⟩
  · simp only [Assembly.constructor, h.scopes, h.tuples, h.fields, h₁, h₂, Assembly.close, hs,
      bind, Except.bind, pure, Except.pure]
  · rw [h.fields]
    exact (h.withTables scopes d₂.tuples u.fields).report hr₂.quiet

theorem checked_finish {d e : Draft} (h : d.Relaxed callees e) (name : String)
    (kind : MethodKind) (params : List ParamDef) :
    (e.finish name kind params).checked callees = d.finish name kind params := by
  simp [MethodDef.checked, Draft.finish, h.locals, h.code, Instr.misfit?]

/-- The draft of a member knows how many arguments all visible members take. -/
theorem Linked.start_member {checkArity : Bool} {beliefs : List Belief} {done : List Member}
    (h : u.Linked checkArity beliefs done) {m : Member}
    (hcallees : u.methods.map MethodDef.argc ++ [m.params.length + 1] <+: callees)
    (hd : u.declare m.name (.callable u.methods.length m.params.length) = .ok u') :
    (Draft.start u'.scopes u'.tuples).Linked
      (u.linkage checkArity callees (m.params.length + 1)) u.tuples := by
  obtain ⟨scopes, errors, rfl, -, -, hfit⟩ := declare_fits hd
  refine start_draft (hfit _ _ (fun F hF p hp => ?_) ?_)
  · exact (h.scopes F hF p hp).mono (Nat.le_refl _) (Nat.zero_le _) (List.prefix_refl _)
      ((List.prefix_append _ _).trans hcallees)
  · exact getElem?_of_prefix hcallees (by simp)

theorem Relaxed.member {beliefs : List Belief} {done : List Member}
    (h : Relaxed callees u v) (hu : u.Linked true beliefs done) {m : Member}
    (hcallees : u.methods.map MethodDef.argc ++ [m.params.length + 1] <+: callees)
    (hm : u.member true m = .ok u')
    (hfit : u'.diagnostics = [] ∨ ∀ s ∈ m.body, s.term.args.length < 4294967295) :
    ∃ v', v.member false m = .ok v' ∧ Relaxed callees u' v' := by
  obtain ⟨id, hid, hm⟩ := bind_eq_ok.mp hm
  obtain ⟨u₁, h₁, hm⟩ := bind_eq_ok.mp hm
  obtain ⟨d₁, h₂, hm⟩ := bind_eq_ok.mp hm
  obtain ⟨d₂, h₃, hm⟩ := bind_eq_ok.mp hm
  obtain ⟨u₂, h₄, hm⟩ := bind_eq_ok.mp hm
  obtain rfl := Except.ok.inj hm
  obtain ⟨scopes, hs, h₄⟩ := bind_eq_ok.mp h₄
  obtain rfl := Except.ok.inj h₄
  obtain ⟨v₁, hv₁, hr⟩ := h.declare h₁
  let L := u.linkage true callees (m.params.length + 1)
  have hstart : (Draft.start u₁.scopes u₁.tuples).Linked L u.tuples :=
    hu.start_member hcallees ((slotIndex_eq_ok.mp hid).2 ▸ h₁)
  have hd₁ : d₁.Linked L u.tuples := hstart.declareParams (Nat.le_of_eq (Nat.add_comm _ _)) h₂
  obtain ⟨e₁, he₁, hr₁⟩ := (Draft.relaxed_start callees u₁.scopes u₁.tuples).declareParams h₂
  obtain ⟨e₂, he₂, hr₂⟩ : ∃ e₂, Draft.statements false m.body e₁ = .ok e₂ ∧
      d₂.Relaxed callees e₂ :=
    Draft.Relaxed.statements (L := L) (hu.describes _ _) (Nat.succ_pos _) rfl hr₁ hd₁ h₃
      (hfit.imp_left fun hnil => (List.append_eq_nil_iff.mp hnil).2)
  have hid' : slotIndex v.methods.length "methods" = .ok id := by
    rw [← hid, h.methods, List.length_map]
  have hstart' : Draft.declareParams 1 m.params (.start v₁.scopes v₁.tuples) = .ok e₁ := by
    rw [hr.scopes, hr.tuples]
    exact he₁
  refine ⟨_, bind_eq_ok.mpr ⟨id, hid', bind_eq_ok.mpr ⟨v₁, hv₁, bind_eq_ok.mpr ⟨e₁, hstart',
    bind_eq_ok.mpr ⟨e₂, he₂, bind_eq_ok.mpr
      ⟨_, bind_eq_ok.mpr ⟨scopes, hr₂.scopes ▸ hs, rfl⟩, rfl⟩⟩⟩⟩⟩, ?_⟩
  exact {
    scopes := rfl
    tuples := hr₂.tuples
    fields := hr.fields
    methods := by simp [Assembly.report, hr.methods, checked_finish hr₂]
    diagnostics := by simp [Assembly.report, hr.diagnostics, hr₂.diagnostics]
    misfits := by
      simp only [Assembly.report, List.flatMap_append, List.filterMap_append, hr.misfits]
      simp [Draft.finish, hr₂.misfits, Instr.misfit?] }

theorem argc_eq_of_header {ms : List MethodDef} {members : List Member}
    (h : ms.map MethodDef.header = members.map Member.header) :
    ms.map MethodDef.argc = members.map (·.params.length + 1) := by
  calc ms.map MethodDef.argc
      = (ms.map MethodDef.header).map (·.2.2.length + 1) := by rw [List.map_map]; rfl
    _ = (members.map Member.header).map (·.2.2.length + 1) := by rw [h]
    _ = members.map (·.params.length + 1) := by simp [Member.header, paramDefs]

theorem Relaxed.members {beliefs : List Belief} {ms : List Member} :
    ∀ {done : List Member} {u u' v : Assembly}, Relaxed callees u v →
      u.Linked true beliefs done → (done ++ ms).map (·.params.length + 1) = callees →
      Assembly.members true ms u = .ok u' →
      (u'.diagnostics = [] ∨ ∀ m ∈ ms, ∀ s ∈ m.body, s.term.args.length < 4294967295) →
      ∃ v', Assembly.members false ms v = .ok v' ∧ Relaxed callees u' v' := by
  induction ms with
  | nil =>
      intro done u u' v h _ _ hm _
      obtain rfl : u = u' := by simpa [Assembly.members] using hm
      exact ⟨v, rfl, h⟩
  | cons m ms ih =>
      intro done u u' v h hu hcallees hm hfit
      obtain ⟨u₁, h₁, h₂⟩ := bind_eq_ok.mp hm
      rw [List.forall_mem_cons] at hfit
      have hprefix : u.methods.map MethodDef.argc ++ [m.params.length + 1] <+: callees := by
        rw [argc_eq_of_header hu.methods, ← hcallees]
        exact ⟨ms.map (·.params.length + 1), by simp⟩
      obtain ⟨v₁, hv₁, hr₁⟩ :=
        h.member hu hprefix h₁ (hfit.imp (members_grows h₂).silent And.left)
      obtain ⟨v₂, hv₂, hr₂⟩ := ih hr₁ (hu.member h₁) (by simpa using hcallees) h₂
        (hfit.imp_right And.right)
      exact ⟨v₂, bind_eq_ok.mpr ⟨v₁, hv₁, hv₂⟩, hr₂⟩

end Relaxed

end Assembly

/-! ## Whole agents -/

/-- The runs end with two types, and the check has left calls out of one of them. -/
theorem generate_relaxed {a : Agent} {type : AgentType} {diagnostics : List SemanticError}
    (h : generate true a = .ok (type, diagnostics)) (hfit : diagnostics = [] ∨ a.Countable) :
    ∃ lax, generate false a = .ok (lax, diagnostics.filter fun err => err.misfit?.isNone) ∧
      type = lax.checked ∧ lax.misfits = diagnostics.filterMap SemanticError.misfit? := by
  obtain ⟨u₁, ctor, u₂, u₃, h₁, h₂, h₃, heq⟩ := generate_eq_ok h
  obtain ⟨rfl, rfl⟩ := Prod.mk.inj heq
  let callees := a.members.map (·.params.length + 1)
  obtain ⟨v₁, hv₁, hr₁⟩ := (Assembly.relaxed_enter_empty callees).declareBeliefs h₁
  obtain ⟨v₂, hv₂, hr₂⟩ := hr₁.constructor h₂
  have hu₁ : u₁.Linked true a.beliefs [] := Assembly.start_linked.declareBeliefs h₁
  obtain ⟨errors, rfl, herr, -⟩ := Assembly.constructor_eq_ok hu₁ h₂
  have hu₂ := hu₁.report herr
  obtain ⟨v₃, hv₃, hr₃⟩ := hr₂.members hu₂ rfl h₃ (hfit.imp_right Agent.Countable.args)
  have hcallees : v₃.methods.map MethodDef.argc = callees := by
    have hargc := Assembly.argc_eq_of_header (hu₂.members h₃).1.methods
    rw [hr₃.methods, List.map_map] at hargc
    exact hargc
  refine ⟨_, hr₃.diagnostics ▸ generate_of_phases hv₁ hv₂ hv₃, ?_, ?_⟩
  · simp only [AgentType.checked, AgentType.callees, hcallees, ← hr₃.methods, hr₃.fields,
      hr₃.tuples]
  · simp only [AgentType.misfits, AgentType.callees, hcallees]
    exact hr₃.misfits

/-- A type that the check has nothing to say about is the type without the check. -/
theorem generate_lax_of_silent {a : Agent} {type : AgentType}
    (h : generate true a = .ok (type, [])) : generate false a = .ok (type, []) := by
  obtain ⟨lax, hlax, rfl, hmisfits⟩ := generate_relaxed h (.inl rfl)
  rw [AgentType.checked_eq_self hmisfits]
  exact hlax

/-- **The check of calls only adds to the diagnostics.** Without it the same things
are reported, in the same order, except that no call has a wrong number of
arguments. The types differ in nothing but these calls, one for each diagnostic of
the check, which are left out with it. What compiles with the check compiles
without it to the same type. -/
theorem arity_check_only_adds :
    (∀ a : Agent, a.Countable → ∃ strict lax diagnostics,
      generate true a = .ok (strict, diagnostics) ∧
      generate false a = .ok (lax, diagnostics.filter fun err => err.misfit?.isNone) ∧
      strict = lax.checked ∧ lax.misfits = diagnostics.filterMap SemanticError.misfit?) ∧
    (∀ (a : Agent) (type : AgentType), generate true a = .ok (type, []) →
      generate false a = .ok (type, [])) ∧
    ∀ (source : String) (options : CompileOptions) (type : AgentType),
      compile source { options with checkArity := true } = .ok type →
      compile source { options with checkArity := false } = .ok type := by
  refine ⟨fun a ha => ?_, fun a type => generate_lax_of_silent, fun source options type h => ?_⟩
  · obtain ⟨⟨strict, diagnostics⟩, h⟩ := generate_total true ha
    obtain ⟨lax, hlax, hchecked, hmisfits⟩ := generate_relaxed h (.inr ha)
    exact ⟨strict, lax, diagnostics, h, hlax, hchecked, hmisfits⟩
  · unfold compile at h ⊢
    split at h
    · next a hparse =>
      split at h
      · cases h
      · next type' hgenerate =>
        obtain rfl := Except.ok.inj h
        simp only [generate_lax_of_silent hgenerate]
      · cases h
    · cases h

/-- A plan that calls itself. -/
def selfCall : String := "agent A { plan p(x: int) { !p(x); } }"

theorem clumsy_relaxed :
    clumsy.Countable ∧
      (∃ strict lax diagnostics, generate true clumsy = .ok (strict, diagnostics) ∧
        generate false clumsy = .ok (lax, diagnostics.filter fun err => err.misfit?.isNone) ∧
        strict = lax.checked ∧ lax.misfits = [(2, 3)] ∧ diagnostics.length = 10) ∧
      ∃ type, compile selfCall { checkArity := true } = .ok type ∧
        compile selfCall { checkArity := false } = .ok type := by
  have hcountable : clumsy.Countable :=
    ⟨by decide, by decide, by decide, by decide, by decide, by decide⟩
  refine ⟨hcountable, ?_, ?_⟩
  · obtain ⟨strict, lax, diagnostics, h, hlax, hchecked, hmisfits⟩ :=
      arity_check_only_adds.1 clumsy hcountable
    have hreports : (generate true clumsy).map
        (fun r => (r.2.filterMap SemanticError.misfit?, r.2.length)) = .ok ([(2, 3)], 10) := by
      decide
    rw [h] at hreports
    obtain ⟨hmisfits', hlength⟩ := Prod.mk.inj (Except.ok.inj hreports)
    exact ⟨strict, lax, diagnostics, h, hlax, hchecked, hmisfits.trans hmisfits', hlength⟩
  · cases h : compile selfCall { checkArity := true } with
    | ok type => exact ⟨type, rfl, arity_check_only_adds.2.2 selfCall {} type h⟩
    | error e =>
        have hok : (compile selfCall { checkArity := true }).isOk = true := by decide +kernel
        rw [h] at hok
        cases hok

end AgentLang
