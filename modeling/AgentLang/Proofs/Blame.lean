import AgentLang.Proofs.Checker

/-!
# Every diagnostic blames a node

Whatever generation finds wrong is about one node of the tree: a name, an expression, a
term or a belief. The diagnostic has the span of that node and repeats the name, and
for a term the number of arguments, that the node holds (`generate_blamed`).

The errors that can be reported of a node are said without the generator
(`Agent.Blamed` and the predicates before it). Each operation on a draft or an
assembly then adds only errors of the nodes it is given.
-/

namespace AgentLang

/-! ## Errors of nodes -/

/-- An error about a name, at the place where the name is written. -/
inductive Ident.Blamed (i : Ident) : SemanticError → Prop
  | notInScope : Blamed i (.notInScope i.name i.span)
  | wrongKind (expected found : BindingKind) : Blamed i (.wrongKind i.name expected found i.span)
  | notAValue (found : BindingKind) : Blamed i (.notAValue i.name found i.span)
  | redeclared : Blamed i (.redeclared i.name i.span)

/-- An error about a name of the expression, or about the expression as the target of
a query. -/
inductive Expr.Blamed : Expr → SemanticError → Prop
  | name {name : String} {span : Span} {e : SemanticError} :
      Ident.Blamed ⟨name, span⟩ e → Blamed (.ident name span) e
  | left {op : BinOp} {left right : Expr} {span : Span} {e : SemanticError} :
      Blamed left e → Blamed (.binary op left right span) e
  | right {op : BinOp} {left right : Expr} {span : Span} {e : SemanticError} :
      Blamed right e → Blamed (.binary op left right span) e
  | target (x : Expr) (belief : String) : Blamed x (.queryTargetNotIdent belief x.span)
  | element (x : Expr) (cause : TupleError) : Blamed x (.tuple cause x.span)

inductive Term.Blamed (t : Term) : SemanticError → Prop
  | name {e : SemanticError} : t.name.Blamed e → Blamed t e
  | arg {x : Expr} {e : SemanticError} : x ∈ t.args → x.Blamed e → Blamed t e
  | beliefArity (expected : Nat) :
      Blamed t (.beliefArityMismatch t.name.name expected t.args.length t.span)
  | callArity (expected : Nat) :
      Blamed t (.callArityMismatch t.name.name expected t.args.length t.span)
  | tuple (cause : TupleError) : Blamed t (.tuple cause t.span)

inductive Belief.Blamed (b : Belief) : SemanticError → Prop
  | name {e : SemanticError} : b.name.Blamed e → Blamed b e
  | init {x : Expr} {e : SemanticError} : x ∈ b.init → x.Blamed e → Blamed b e
  | tuple (cause : TupleError) : Blamed b (.tuple cause b.span)

inductive Member.Blamed (m : Member) : SemanticError → Prop
  | name {e : SemanticError} : m.name.Blamed e → Blamed m e
  | param {p : Param} {e : SemanticError} : p ∈ m.params → p.name.Blamed e → Blamed m e
  | term {s : Stmt} {e : SemanticError} : s ∈ m.body → s.term.Blamed e → Blamed m e

inductive Agent.Blamed (a : Agent) : SemanticError → Prop
  | param {p : Param} {e : SemanticError} : p ∈ a.params → p.name.Blamed e → Blamed a e
  | belief {b : Belief} {e : SemanticError} : b ∈ a.beliefs → b.Blamed e → Blamed a e
  | member {m : Member} {e : SemanticError} : m ∈ a.members → m.Blamed e → Blamed a e

/-! ## Names -/

theorem Expr.faults_blamed (s : Scopes) (x : Expr) : ∀ e ∈ x.faults s, x.Blamed e := by
  induction x with
  | ident name span =>
      simp only [faults]
      split
      · exact List.forall_mem_singleton.mpr (.name .notInScope)
      · split
        · exact List.forall_mem_nil _
        · exact List.forall_mem_singleton.mpr (.name (.notAValue _))
  | number value span => exact List.forall_mem_nil _
  | binary op left right span ihl ihr =>
      exact List.forall_mem_append.mpr ⟨fun e he => .left (ihl e he), fun e he => .right (ihr e he)⟩

theorem Scopes.register_redeclared {s s' : Scopes} {x y : String} {b : Binding}
    (h : s.register x b = (.error (.redeclared y), s')) : y = x := by
  unfold register at h
  split at h
  · cases (Prod.mk.inj h).1
  · split at h
    · exact (ScopeError.redeclared.inj (Except.error.inj (Prod.mk.inj h).1)).symm
    · cases (Prod.mk.inj h).1

theorem Scopes.declare_blamed {s s' : Scopes} {i : Ident} {b : Binding}
    {errors : List SemanticError} (h : s.declare i.name i.span b = .ok (s', errors)) :
    ∀ e ∈ errors, i.Blamed e := by
  unfold declare at h
  split at h
  · obtain ⟨-, rfl⟩ := Prod.mk.inj (Except.ok.inj h)
    exact List.forall_mem_nil _
  · next y s₁ hy =>
    obtain ⟨-, rfl⟩ := Prod.mk.inj (Except.ok.inj h)
    rw [register_redeclared hy]
    exact List.forall_mem_singleton.mpr .redeclared
  · cases h

/-- A failed look-up is reported under the name that was looked up. -/
theorem Scopes.lookupAs_blamed {s : Scopes} {i : Ident} {kind : BindingKind} {err : LookupError}
    (h : s.lookupAs i.name kind = .error err) : i.Blamed (.ofLookup err i.span) := by
  unfold lookupAs at h
  split at h
  · obtain rfl := Except.error.inj h
    exact .notInScope
  · split at h
    · cases h
    · obtain rfl := Except.error.inj h
      exact .wrongKind _ _

/-! ## Drafts -/

namespace Draft

/-- What was found wrong so far are errors that `S` allows. -/
def Within (S : SemanticError → Prop) (d : Draft) : Prop := ∀ e ∈ d.diagnostics, S e

section Within

variable {S : SemanticError → Prop} {d d' : Draft}

theorem Within.report (h : d.Within S) {errors : List SemanticError} (he : ∀ e ∈ errors, S e) :
    (d.report errors).Within S :=
  List.forall_mem_append.mpr ⟨h, he⟩

theorem Within.report_one (h : d.Within S) {e : SemanticError} (he : S e) :
    (d.report [e]).Within S :=
  h.report (List.forall_mem_singleton.mpr he)

theorem Within.evaluate (h : d.Within S) {xs : List Expr} (hxs : ∀ x ∈ xs, ∀ e, x.Blamed e → S e) :
    (d.evaluate xs).Within S := by
  refine Within.report (d := d.emit _) h fun e he => ?_
  obtain ⟨x, hx, he⟩ := List.mem_flatMap.mp he
  exact hxs x hx e (x.faults_blamed _ e he)

theorem Within.declare (h : d.Within S) {i : Ident} {b : Binding} (hi : ∀ e, i.Blamed e → S e)
    (hd : d.declare i.name i.span b = .ok d') : d'.Within S := by
  obtain ⟨⟨scopes, errors⟩, hs, hd⟩ := bind_eq_ok.mp hd
  obtain rfl := Except.ok.inj hd
  exact Within.report (d := { d with scopes }) h fun e he => hi e (Scopes.declare_blamed hs e he)

theorem Within.declareParams {params : List Param}
    (hparams : ∀ p ∈ params, ∀ e, p.name.Blamed e → S e) :
    ∀ {slot : Nat} {d d' : Draft}, d.Within S → Draft.declareParams slot params d = .ok d' →
      d'.Within S := by
  induction params with
  | nil =>
      intro slot d d' h hd
      obtain rfl : d = d' := by simpa [Draft.declareParams] using hd
      exact h
  | cons p params ih =>
      intro slot d d' h hd
      obtain ⟨hp, hparams⟩ := List.forall_mem_cons.mp hparams
      obtain ⟨index, -, hd⟩ := bind_eq_ok.mp hd
      obtain ⟨d₁, h₁, h₂⟩ := bind_eq_ok.mp hd
      exact ih hparams (h.declare hp h₁) h₂

/-! ### Look-ups and tuples -/

theorem Within.belief (h : d.Within S) {name : Ident} (hname : ∀ e, name.Blamed e → S e) :
    (d.belief name).2.Within S := by
  unfold Draft.belief
  split
  · exact h
  · exact h
  · next err herr => exact h.report_one (hname _ (Scopes.lookupAs_blamed herr))

theorem Within.callable (h : d.Within S) {name : Ident} (hname : ∀ e, name.Blamed e → S e) :
    (d.callable name).2.Within S := by
  unfold Draft.callable
  split
  · exact h
  · exact h
  · next err herr => exact h.report_one (hname _ (Scopes.lookupAs_blamed herr))

theorem Within.checkBeliefArity (h : d.Within S) {t : Term} (ht : ∀ e, t.Blamed e → S e)
    (arity : Nat) : (d.checkBeliefArity t arity).2.Within S := by
  unfold Draft.checkBeliefArity
  split
  · exact h
  · exact h.report_one (ht _ (.beliefArity arity))

theorem Within.tupleFor (h : d.Within S) (arity : Nat) {span : Span}
    (hspan : ∀ cause, S (.tuple cause span)) : (d.tupleFor arity span).2.Within S := by
  unfold Draft.tupleFor
  split
  · exact h
  · exact Within.report_one (d := { d with tuples := _ }) h (hspan _)

theorem Within.pack (h : d.Within S) (arity : Nat) {span : Span}
    (hspan : ∀ cause, S (.tuple cause span)) : (d.pack arity span).2.Within S := by
  unfold Draft.pack
  split
  · exact h
  · exact Within.report_one (d := { d with tuples := _ }) h (hspan _)

theorem Within.project (h : d.Within S) (arity index : Nat) {span : Span}
    (hspan : ∀ cause, S (.tuple cause span)) : (d.project arity index span).Within S := by
  unfold Draft.project
  split
  · exact h
  · exact Within.report_one (d := { d with tuples := _ }) h (hspan _)

/-! ### Statements -/

theorem Within.queryTarget (h : d.Within S) {belief : String} {f : FieldId} {arity index : Nat}
    {arg : Expr} (harg : ∀ e, arg.Blamed e → S e)
    (hq : d.queryTarget belief f arity index arg = .ok d') : d'.Within S := by
  unfold Draft.queryTarget at hq
  split at hq
  · obtain rfl := Except.ok.inj hq
    exact h.report_one (harg _ (.target arg belief))
  · next name hname =>
    obtain ⟨r, hr, hd⟩ := bind_eq_ok.mp hq
    obtain ⟨-, rfl⟩ := newLocal_eq_ok.mp hr
    have hnew : (Draft.emit { d with locals := d.locals ++ [name] } [.loadField f]).Within S := h
    have hload := hnew.project arity index fun cause => harg _ (.element arg cause)
    -- the target is a name, and its span is the span of the name
    have hident : ∀ e, Ident.Blamed ⟨name, arg.span⟩ e → S e := by
      cases arg with
      | ident x span =>
          obtain rfl := Option.some.inj hname
          exact fun e he => harg e (.name he)
      | number value span => cases hname
      | binary op left right span => cases hname
    exact Within.declare (d := Draft.emit _ _) hload hident hd

theorem Within.queryTargets {belief : String} {f : FieldId} {arity : Nat} {args : List Expr}
    (hargs : ∀ x ∈ args, ∀ e, x.Blamed e → S e) :
    ∀ {index : Nat} {d d' : Draft}, d.Within S →
      Draft.queryTargets belief f arity index args d = .ok d' → d'.Within S := by
  induction args with
  | nil =>
      intro index d d' h hq
      obtain rfl : d = d' := by simpa [Draft.queryTargets] using hq
      exact h
  | cons arg args ih =>
      intro index d d' h hq
      obtain ⟨harg, hargs⟩ := List.forall_mem_cons.mp hargs
      obtain ⟨d₁, h₁, h₂⟩ := bind_eq_ok.mp hq
      exact ih hargs (h.queryTarget harg h₁) h₂

theorem Within.query (h : d.Within S) {t : Term} (ht : ∀ e, t.Blamed e → S e)
    (hq : d.query t = .ok d') : d'.Within S := by
  have hb := h.belief fun e he => ht e (.name he)
  unfold Draft.query at hq
  split at hq
  · next d₁ h₁ =>
    obtain rfl := Except.ok.inj hq
    rw [h₁] at hb
    exact hb
  · next f arity d₁ h₁ =>
    rw [h₁] at hb
    have hc := hb.checkBeliefArity ht arity
    split at hq
    · next d₂ h₂ =>
      obtain rfl := Except.ok.inj hq
      rw [h₂] at hc
      exact hc
    · next d₂ h₂ =>
      rw [h₂] at hc
      have hp := hc.tupleFor arity fun cause => ht _ (.tuple cause)
      split at hq
      · next d₃ h₃ =>
        obtain rfl := Except.ok.inj hq
        rw [h₃] at hp
        exact hp
      · next id d₃ h₃ =>
        rw [h₃] at hp
        exact hp.queryTargets (fun x hx e he => ht e (.arg hx he)) hq

theorem Within.update (h : d.Within S) {t : Term} (ht : ∀ e, t.Blamed e → S e) :
    (d.update t).Within S := by
  have hb := (h.belief fun e he => ht e (.name he)).evaluate fun x hx e he => ht e (.arg hx he)
  unfold Draft.update
  simp only
  split
  · exact hb
  · next f arity _ =>
    have hc := hb.checkBeliefArity ht arity
    split
    · next d₂ h₂ =>
      rw [h₂] at hc
      exact hc
    · next d₂ h₂ =>
      rw [h₂] at hc
      have hp := hc.pack arity fun cause => ht _ (.tuple cause)
      split
      · next d₃ h₃ =>
        rw [h₃] at hp
        exact hp
      · next d₃ h₃ =>
        rw [h₃] at hp
        exact hp

theorem Within.invoke {checkArity : Bool} (h : d.Within S) {t : Term}
    (ht : ∀ e, t.Blamed e → S e) (hi : d.invoke checkArity t = .ok d') : d'.Within S := by
  have hc := h.callable fun e he => ht e (.name he)
  have hargs : (((d.callable t.name).2.emit [.loadArg 0]).evaluate t.args).Within S :=
    Within.evaluate (d := Draft.emit _ _) hc fun x hx e he => ht e (.arg hx he)
  unfold Draft.invoke at hi
  simp only at hi
  split at hi
  · obtain rfl := Except.ok.inj hi
    exact hargs
  · split at hi
    · obtain rfl := Except.ok.inj hi
      exact hargs.report_one (ht _ (.callArity _))
    · obtain ⟨argc, -, hr⟩ := bind_eq_ok.mp hi
      obtain rfl := Except.ok.inj hr
      exact hargs

theorem Within.statement {checkArity : Bool} (h : d.Within S) {s : Stmt}
    (hs : ∀ e, s.term.Blamed e → S e) (hd : d.statement checkArity s = .ok d') :
    d'.Within S := by
  unfold Draft.statement at hd
  split at hd
  · exact h.query hs hd
  · obtain rfl := Except.ok.inj hd
    exact h.update hs
  · exact h.invoke hs hd

theorem Within.statements {checkArity : Bool} {stmts : List Stmt}
    (hstmts : ∀ s ∈ stmts, ∀ e, s.term.Blamed e → S e) :
    ∀ {d d' : Draft}, d.Within S → Draft.statements checkArity stmts d = .ok d' →
      d'.Within S := by
  induction stmts with
  | nil =>
      intro d d' h hd
      obtain rfl : d = d' := by simpa [Draft.statements] using hd
      exact h
  | cons s stmts ih =>
      intro d d' h hd
      obtain ⟨hs, hstmts⟩ := List.forall_mem_cons.mp hstmts
      obtain ⟨d₁, h₁, h₂⟩ := bind_eq_ok.mp hd
      exact ih hstmts (h.statement hs h₁) h₂

/-! ### Initial values -/

theorem Within.initBelief (h : d.Within S) {fields : List FieldDef} {index : Nat} {b : Belief}
    (hb : ∀ e, b.Blamed e → S e) (hd : d.initBelief fields index b = .ok d') : d'.Within S := by
  have hinit := h.evaluate fun x hx e he => hb e (.init hx he)
  unfold Draft.initBelief at hd
  simp only at hd
  split at hd
  · obtain ⟨field, -, hr⟩ := bind_eq_ok.mp hd
    obtain rfl := Except.ok.inj hr
    exact hinit.pack b.arity fun cause => hb _ (.tuple cause)
  · obtain rfl := Except.ok.inj hd
    exact hinit

theorem Within.initBeliefs {fields : List FieldDef} {beliefs : List Belief}
    (hbeliefs : ∀ b ∈ beliefs, ∀ e, b.Blamed e → S e) :
    ∀ {index : Nat} {d d' : Draft}, d.Within S →
      Draft.initBeliefs fields index beliefs d = .ok d' → d'.Within S := by
  induction beliefs with
  | nil =>
      intro index d d' h hd
      obtain rfl : d = d' := by simpa [Draft.initBeliefs] using hd
      exact h
  | cons b beliefs ih =>
      intro index d d' h hd
      obtain ⟨hb, hbeliefs⟩ := List.forall_mem_cons.mp hbeliefs
      obtain ⟨d₁, h₁, h₂⟩ := bind_eq_ok.mp hd
      exact ih hbeliefs (h.initBelief hb h₁) h₂

end Within

end Draft

/-! ## Assemblies -/

namespace Assembly

/-- What was found wrong so far are errors that `S` allows. -/
def Within (S : SemanticError → Prop) (u : Assembly) : Prop := ∀ e ∈ u.diagnostics, S e

section Within

variable {S : SemanticError → Prop} {u u' : Assembly}

theorem Within.report (h : u.Within S) {errors : List SemanticError} (he : ∀ e ∈ errors, S e) :
    (u.report errors).Within S :=
  List.forall_mem_append.mpr ⟨h, he⟩

theorem Within.withTables (h : u.Within S) (scopes : Scopes) (tuples : TupleTable)
    (fields : List FieldDef) : { u with scopes, tuples, fields }.Within S := h

theorem Within.declare (h : u.Within S) {i : Ident} {b : Binding} (hi : ∀ e, i.Blamed e → S e)
    (hd : u.declare i b = .ok u') : u'.Within S := by
  obtain ⟨⟨scopes, errors⟩, hs, hd⟩ := bind_eq_ok.mp hd
  obtain rfl := Except.ok.inj hd
  exact (h.withTables scopes u.tuples u.fields).report fun e he =>
    hi e (Scopes.declare_blamed hs e he)

theorem Within.declareBelief (h : u.Within S) {b : Belief} (hb : ∀ e, b.Blamed e → S e)
    (hd : u.declareBelief b = .ok u') : u'.Within S := by
  simp only [Assembly.declareBelief] at hd
  obtain ⟨field, -, hd⟩ := bind_eq_ok.mp hd
  refine ((h.withTables u.scopes _ _).report ?_).declare (fun e he => hb e (.name he)) hd
  split
  · exact List.forall_mem_nil _
  · exact List.forall_mem_singleton.mpr (hb _ (.tuple _))

theorem Within.declareBeliefs {beliefs : List Belief}
    (hbeliefs : ∀ b ∈ beliefs, ∀ e, b.Blamed e → S e) :
    ∀ {u u' : Assembly}, u.Within S → Assembly.declareBeliefs beliefs u = .ok u' →
      u'.Within S := by
  induction beliefs with
  | nil =>
      intro u u' h hd
      obtain rfl : u = u' := by simpa [Assembly.declareBeliefs] using hd
      exact h
  | cons b beliefs ih =>
      intro u u' h hd
      obtain ⟨hb, hbeliefs⟩ := List.forall_mem_cons.mp hbeliefs
      obtain ⟨u₁, h₁, h₂⟩ := bind_eq_ok.mp hd
      exact ih hbeliefs (h.declareBelief hb h₁) h₂

theorem Within.close (h : u.Within S) {d : Draft} (hd : d.Within S) (hc : u.close d = .ok u') :
    u'.Within S := by
  obtain ⟨scopes, -, hc⟩ := bind_eq_ok.mp hc
  obtain rfl := Except.ok.inj hc
  exact (h.withTables scopes d.tuples u.fields).report hd

theorem Within.constructor (h : u.Within S) {a : Agent} {method : MethodDef}
    (hparams : ∀ p ∈ a.params, ∀ e, p.name.Blamed e → S e)
    (hbeliefs : ∀ b ∈ a.beliefs, ∀ e, b.Blamed e → S e)
    (hc : u.constructor a = .ok (method, u')) : u'.Within S := by
  obtain ⟨d₁, h₁, hc⟩ := bind_eq_ok.mp hc
  obtain ⟨d₂, h₂, hc⟩ := bind_eq_ok.mp hc
  obtain ⟨u₁, h₃, hc⟩ := bind_eq_ok.mp hc
  obtain ⟨-, rfl⟩ := Prod.mk.inj (Except.ok.inj hc)
  have hstart : (Draft.start u.scopes u.tuples).Within S := List.forall_mem_nil _
  exact h.close (.initBeliefs hbeliefs (.declareParams hparams hstart h₁) h₂) h₃

theorem Within.member {checkArity : Bool} (h : u.Within S) {m : Member}
    (hm : ∀ e, m.Blamed e → S e) (hd : u.member checkArity m = .ok u') : u'.Within S := by
  obtain ⟨id, -, hd⟩ := bind_eq_ok.mp hd
  obtain ⟨u₁, h₁, hd⟩ := bind_eq_ok.mp hd
  obtain ⟨d₁, h₂, hd⟩ := bind_eq_ok.mp hd
  obtain ⟨d₂, h₃, hd⟩ := bind_eq_ok.mp hd
  obtain ⟨u₂, h₄, hd⟩ := bind_eq_ok.mp hd
  obtain rfl := Except.ok.inj hd
  have hstart : (Draft.start u₁.scopes u₁.tuples).Within S := List.forall_mem_nil _
  have hparams := Draft.Within.declareParams (fun p hp e he => hm e (.param hp he)) hstart h₂
  have hbody := Draft.Within.statements (fun s hs e he => hm e (.term hs he)) hparams h₃
  change u₂.Within S
  exact (h.declare (fun e he => hm e (.name he)) h₁).close hbody h₄

theorem Within.members {checkArity : Bool} {members : List Member}
    (hmembers : ∀ m ∈ members, ∀ e, m.Blamed e → S e) :
    ∀ {u u' : Assembly}, u.Within S → Assembly.members checkArity members u = .ok u' →
      u'.Within S := by
  induction members with
  | nil =>
      intro u u' h hd
      obtain rfl : u = u' := by simpa [Assembly.members] using hd
      exact h
  | cons m members ih =>
      intro u u' h hd
      obtain ⟨hm, hmembers⟩ := List.forall_mem_cons.mp hmembers
      obtain ⟨u₁, h₁, h₂⟩ := bind_eq_ok.mp hd
      exact ih hmembers (h.member hm h₁) h₂

end Within

end Assembly

/-! ## Agents -/

/-- Every diagnostic is an error of a node of the agent. -/
theorem generate_blamed {checkArity : Bool} {a : Agent} {type : AgentType}
    {diagnostics : List SemanticError}
    (h : generate checkArity a = .ok (type, diagnostics)) : ∀ e ∈ diagnostics, a.Blamed e := by
  obtain ⟨u₁, ctor, u₂, u₃, h₁, h₂, h₃, heq⟩ := generate_eq_ok h
  obtain ⟨-, rfl⟩ := Prod.mk.inj heq
  have hstart : (Assembly.enter .empty).Within a.Blamed := List.forall_mem_nil _
  have hbeliefs : ∀ b ∈ a.beliefs, ∀ e, b.Blamed e → a.Blamed e := fun _ hb _ he => .belief hb he
  have hdeclared := Assembly.Within.declareBeliefs hbeliefs hstart h₁
  have hctor := hdeclared.constructor (fun p hp e he => .param hp he) hbeliefs h₂
  exact hctor.members (fun m hm e he => .member hm he) h₃

end AgentLang
