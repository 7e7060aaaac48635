import AgentLang.Proofs.Linkage

/-!
# Members are compiled independently

All members of an agent share one assembly, and yet the body of a member has no
effect on what is made of the others (`members_independent`). Two facts are
behind it. A member sees no more of an assembly than its scopes, its tuple types
and the number of its methods (`Assembly.member_alike`), and of these its body
changes nothing (`Assembly.member_body`).

Which diagnostics belong to which member is said by cutting the agent off after
some of its members (`Agent.upTo`).
-/

namespace AgentLang

/-- The agent without the members from number `k` on. -/
def Agent.upTo (a : Agent) (k : Nat) : Agent := { a with members := a.members.take k }

/-- The agent with another body for member `j`. -/
def Agent.withBody (a : Agent) (j : Nat) (body : List Stmt) : Agent :=
  { a with members := a.members.modify j fun m => { m with body } }

/-- The types differ at most in the locals and the code of method `j`. -/
structure AgentType.SameBut (j : Nat) (type type' : AgentType) : Prop where
  name : type.name = type'.name
  params : type.params = type'.params
  fields : type.fields = type'.fields
  tuples : type.tuples = type'.tuples
  constructor_eq : type.constructor = type'.constructor
  others : ∀ i, i ≠ j → type.methods[i]? = type'.methods[i]?
  header : type.methods[j]?.map MethodDef.header = type'.methods[j]?.map MethodDef.header

namespace Assembly

/-! ## What a member sees -/

/-- No member can tell the assemblies apart. -/
structure Alike (u v : Assembly) : Prop where
  scopes : u.scopes = v.scopes
  tuples : u.tuples = v.tuples
  count : u.methods.length = v.methods.length

/-- All that was added to `u` besides names and tuple types. -/
structure Adds (u u' : Assembly) (methods : List MethodDef) (errors : List SemanticError) :
    Prop where
  fields : u'.fields = u.fields
  methods : u'.methods = u.methods ++ methods
  diagnostics : u'.diagnostics = u.diagnostics ++ errors

theorem Adds.refl (u : Assembly) : Adds u u [] [] := ⟨rfl, by simp, by simp⟩

theorem Adds.trans {u u' u'' : Assembly} {ms ms' : List MethodDef}
    {es es' : List SemanticError} (h : Adds u u' ms es) (h' : Adds u' u'' ms' es') :
    Adds u u'' (ms ++ ms') (es ++ es') :=
  ⟨h'.fields.trans h.fields, by rw [h'.methods, h.methods, List.append_assoc],
    by rw [h'.diagnostics, h.diagnostics, List.append_assoc]⟩

variable {checkArity : Bool} {u u' v : Assembly}

theorem member_alike {m : Member} (h : Alike u v) (hu : u.member checkArity m = .ok u') :
    ∃ v' method errors, v.member checkArity m = .ok v' ∧ Alike u' v' ∧
      Adds u u' [method] errors ∧ Adds v v' [method] errors := by
  obtain ⟨id, hid, hu⟩ := bind_eq_ok.mp hu
  obtain ⟨u₁, h₁, hu⟩ := bind_eq_ok.mp hu
  obtain ⟨d₁, h₂, hu⟩ := bind_eq_ok.mp hu
  obtain ⟨d₂, h₃, hu⟩ := bind_eq_ok.mp hu
  obtain ⟨u₂, h₄, hu⟩ := bind_eq_ok.mp hu
  obtain ⟨⟨scopes, errors⟩, hdeclare, h₁⟩ := bind_eq_ok.mp h₁
  obtain ⟨scopes', hclose, h₄⟩ := bind_eq_ok.mp h₄
  obtain rfl := Except.ok.inj h₁
  obtain rfl := Except.ok.inj h₄
  obtain rfl := Except.ok.inj hu
  rw [h.count] at hid
  rw [h.scopes] at hdeclare
  have htuples : ({ u with scopes }.report errors).tuples = v.tuples := h.tuples
  rw [htuples] at h₂
  refine ⟨_, d₂.finish m.name.name m.kind.methodKind (paramDefs m.params),
    errors ++ d₂.diagnostics, bind_eq_ok.mpr ⟨id, hid, bind_eq_ok.mpr
      ⟨{ v with scopes }.report errors, bind_eq_ok.mpr ⟨_, hdeclare, rfl⟩,
        bind_eq_ok.mpr ⟨d₁, h₂, bind_eq_ok.mpr ⟨d₂, h₃, bind_eq_ok.mpr
          ⟨_, bind_eq_ok.mpr ⟨scopes', hclose, rfl⟩, rfl⟩⟩⟩⟩⟩, ?_, ?_, ?_⟩
  · exact ⟨rfl, rfl, by simp [report, h.count]⟩
  · exact ⟨rfl, rfl, by simp [report]⟩
  · exact ⟨rfl, rfl, by simp [report]⟩

theorem members_alike {members : List Member} :
    ∀ {u v u' : Assembly}, Alike u v → Assembly.members checkArity members u = .ok u' →
      ∃ v' methods errors, Assembly.members checkArity members v = .ok v' ∧ Alike u' v' ∧
        Adds u u' methods errors ∧ Adds v v' methods errors := by
  induction members with
  | nil =>
      intro u v u' h hu
      obtain rfl : u = u' := by simpa [Assembly.members] using hu
      exact ⟨v, [], [], rfl, h, .refl u, .refl v⟩
  | cons m members ih =>
      intro u v u' h hu
      obtain ⟨u₁, h₁, h₂⟩ := bind_eq_ok.mp hu
      obtain ⟨v₁, method, errors, hv₁, h', hadd, hadd'⟩ := member_alike h h₁
      obtain ⟨v₂, methods, errors', hv₂, h'', hadd₂, hadd₂'⟩ := ih h' h₂
      exact ⟨v₂, _, _, bind_eq_ok.mpr ⟨v₁, hv₁, hv₂⟩, h'', hadd.trans hadd₂,
        hadd'.trans hadd₂'⟩

theorem members_append (checkArity : Bool) (ms ms' : List Member) (u : Assembly) :
    Assembly.members checkArity (ms ++ ms') u =
      Assembly.members checkArity ms u >>= Assembly.members checkArity ms' := by
  induction ms generalizing u with
  | nil => rfl
  | cons m ms ih =>
      simp only [List.cons_append, Assembly.members]
      cases u.member checkArity m with
      | error e => rfl
      | ok u₁ => exact ih u₁

theorem members_split {pre post : List Member} {m : Member} {z : Assembly} :
    Assembly.members checkArity (pre ++ m :: post) u = .ok z ↔
      ∃ v w, Assembly.members checkArity pre u = .ok v ∧ v.member checkArity m = .ok w ∧
        Assembly.members checkArity post w = .ok z := by
  rw [members_append, bind_eq_ok]
  constructor
  · rintro ⟨v, hpre, h⟩
    obtain ⟨w, hm, hpost⟩ := bind_eq_ok.mp h
    exact ⟨v, w, hpre, hm, hpost⟩
  · rintro ⟨v, w, hpre, hm, hpost⟩
    exact ⟨v, hpre, bind_eq_ok.mpr ⟨w, hm, hpost⟩⟩

/-! ## What a body changes -/

/-- Members that differ in their bodies leave assemblies that no later member can
tell apart. -/
theorem member_body {beliefs : List Belief} {done : List Member}
    (h : u.Linked checkArity beliefs done) {m : Member} {body : List Stmt} {v : Assembly}
    (hu : u.member checkArity m = .ok u')
    (hv : u.member checkArity { m with body } = .ok v) :
    Alike u' v ∧ ∃ method method' errors errors', method.header = method'.header ∧
      Adds u u' [method] errors ∧ Adds u v [method'] errors' := by
  obtain ⟨u₁, method, errors, hd, rfl, -, hheader, -⟩ := member_eq_ok h hu
  obtain ⟨v₁, method', errors', hd', rfl, -, hheader', -⟩ := member_eq_ok h hv
  obtain rfl : u₁ = v₁ := Except.ok.inj (hd.symm.trans hd')
  obtain ⟨scopes, declared, rfl, -⟩ := declare_fits hd
  refine ⟨⟨rfl, rfl, by simp⟩, method, method', declared ++ errors, declared ++ errors',
    hheader.trans hheader'.symm, ?_, ?_⟩
  · exact ⟨rfl, rfl, by simp [report]⟩
  · exact ⟨rfl, rfl, by simp [report]⟩

/-- Two runs over members that differ in one body: they are one run up to that
member, and afterwards they go on alike. -/
theorem members_body {beliefs : List Belief} (h : u.Linked checkArity beliefs [])
    {pre post : List Member} {m : Member} {body : List Stmt} {z z' : Assembly}
    (hz : Assembly.members checkArity (pre ++ m :: post) u = .ok z)
    (hz' : Assembly.members checkArity (pre ++ { m with body } :: post) u = .ok z') :
    ∃ v w w', Assembly.members checkArity pre u = .ok v ∧ v.methods.length = pre.length ∧
      v.member checkArity m = .ok w ∧ v.member checkArity { m with body } = .ok w' ∧
      Alike z z' ∧ ∃ method method' methods own own' after,
        method.header = method'.header ∧ Adds v w [method] own ∧ Adds v w' [method'] own' ∧
        Adds v z (method :: methods) (own ++ after) ∧
        Adds v z' (method' :: methods) (own' ++ after) := by
  obtain ⟨v, w, hpre, hm, hpost⟩ := members_split.mp hz
  obtain ⟨v', w', hpre', hm', hpost'⟩ := members_split.mp hz'
  obtain rfl : v = v' := Except.ok.inj (hpre.symm.trans hpre')
  obtain ⟨hv, -⟩ := h.members hpre
  obtain ⟨halike, method, method', own, own', hheader, hadd, hadd'⟩ := member_body hv hm hm'
  obtain ⟨z'', methods, after, hz'', halike', hrest, hrest'⟩ := members_alike halike hpost
  obtain rfl : z' = z'' := Except.ok.inj (hpost'.symm.trans hz'')
  have hcount := congrArg List.length hv.methods
  rw [List.length_map, List.length_map, List.nil_append] at hcount
  exact ⟨v, w, w', hpre, hcount, hm, hm', halike', method, method', methods, own, own', after,
    hheader, hadd, hadd', hadd.trans hrest, hadd'.trans hrest'⟩

end Assembly

/-! ## Whole agents -/

/-- The phases of generation make the type, and leave no scope open. -/
theorem generate_of_phases {checkArity : Bool} {a : Agent} {u₁ u₂ u₃ : Assembly}
    {ctor : MethodDef} (h₁ : Assembly.declareBeliefs a.beliefs (.enter .empty) = .ok u₁)
    (h₂ : u₁.constructor a = .ok (ctor, u₂))
    (h₃ : Assembly.members checkArity a.members u₂ = .ok u₃) :
    generate checkArity a = .ok (⟨a.name.name, paramDefs a.params, u₃.fields,
      u₃.tuples.descriptors, ctor, u₃.methods⟩, u₃.diagnostics) := by
  have hdepth : u₃.scopes.depth = 1 := by
    rw [(Assembly.members_grows h₃).depth, (Assembly.constructor_grows h₂).1.depth,
      (Assembly.declareBeliefs_grows h₁).1.depth]
    rfl
  obtain ⟨F, hF⟩ := List.length_eq_one_iff.mp hdepth
  have hclose : u₃.scopes.close = .ok ⟨[]⟩ := by simp [Scopes.close, Scopes.exit, hF]
  exact bind_eq_ok.mpr ⟨_, bind_eq_ok.mpr ⟨u₁, h₁, bind_eq_ok.mpr ⟨(ctor, u₂), h₂,
    bind_eq_ok.mpr ⟨u₃, h₃, bind_eq_ok.mpr ⟨⟨[]⟩, hclose, rfl⟩⟩⟩⟩, rfl⟩

/-- The diagnostics of the members up to one of them. -/
theorem generate_upTo {checkArity : Bool} {a : Agent} {pre post : List Member} {m : Member}
    (ha : a.members = pre ++ m :: post) {u₁ u₂ v w : Assembly} {ctor : MethodDef}
    (h₁ : Assembly.declareBeliefs a.beliefs (.enter .empty) = .ok u₁)
    (h₂ : u₁.constructor a = .ok (ctor, u₂))
    (hpre : Assembly.members checkArity pre u₂ = .ok v)
    (hm : v.member checkArity m = .ok w) :
    ∃ t, generate checkArity (a.upTo (pre.length + 1)) = .ok (t, w.diagnostics) := by
  have htake : (a.upTo (pre.length + 1)).members = pre ++ [m] := by
    simp [Agent.upTo, ha, List.take_length_add_append]
  have hmembers : Assembly.members checkArity (pre ++ [m]) u₂ = .ok w :=
    Assembly.members_split.mpr ⟨v, w, hpre, hm, rfl⟩
  exact ⟨_, generate_of_phases (a := a.upTo (pre.length + 1)) h₁ h₂ (htake ▸ hmembers)⟩

/-- Lists that differ in one place agree in all others. -/
theorem getElem?_append_cons_ne {α : Type} (ms ns : List α) (x y : α) {i : Nat}
    (hi : i ≠ ms.length) : (ms ++ x :: ns)[i]? = (ms ++ y :: ns)[i]? := by
  rcases Nat.lt_or_ge i ms.length with hlt | hge
  · rw [List.getElem?_append_left hlt, List.getElem?_append_left hlt]
  · obtain ⟨k, hk⟩ : ∃ k, i - ms.length = k + 1 := ⟨i - ms.length - 1, by omega⟩
    rw [List.getElem?_append_right hge, List.getElem?_append_right hge, hk]
    rfl

/-- **Members are compiled independently.** Two agents that differ in the body of
member `j` have types that differ in method `j` alone. Their diagnostics differ
only in those of member `j`, which stand between the diagnostics of all that is
before it and of all that is after it. No body has a part in the tuple types. -/
theorem members_independent (checkArity : Bool) {a : Agent} {j : Nat}
    (hj : j < a.members.length) (body : List Stmt) (ha : a.Countable)
    (hb : (a.withBody j body).Countable) :
    ∃ type type' before own own' after,
      generate checkArity a = .ok (type, before ++ own ++ after) ∧
      generate checkArity (a.withBody j body) = .ok (type', before ++ own' ++ after) ∧
      type.SameBut j type' ∧
      (∃ t, generate checkArity (a.upTo j) = .ok (t, before)) ∧
      (∃ t, generate checkArity (a.upTo (j + 1)) = .ok (t, before ++ own)) ∧
      (∃ t, generate checkArity ((a.withBody j body).upTo (j + 1)) = .ok (t, before ++ own')) ∧
      ∃ t ds, generate checkArity (a.upTo 0) = .ok (t, ds) ∧ t.tuples = type.tuples := by
  have hsplit : a.members = a.members.take j ++ a.members[j] :: a.members.drop (j + 1) := by
    rw [← List.drop_eq_getElem_cons hj, List.take_append_drop]
  have hsplit' : (a.withBody j body).members =
      a.members.take j ++ { a.members[j] with body } :: a.members.drop (j + 1) :=
    List.modify_eq_take_cons_drop hj
  have hlen : (a.members.take j).length = j := by simp [Nat.le_of_lt hj]
  obtain ⟨r, hr⟩ := generate_total checkArity ha
  obtain ⟨r', hr'⟩ := generate_total checkArity hb
  obtain ⟨u₁, ctor, u₂, z, h₁, h₂, h₃, rfl⟩ := generate_eq_ok hr
  obtain ⟨u₁', ctor', u₂', z', h₁', h₂', h₃', rfl⟩ := generate_eq_ok hr'
  -- beliefs and constructor do not see the members
  obtain rfl : u₁ = u₁' := Except.ok.inj (h₁.symm.trans h₁')
  obtain ⟨rfl, rfl⟩ : ctor = ctor' ∧ u₂ = u₂' :=
    Prod.mk.inj (Except.ok.inj (h₂.symm.trans h₂'))
  have hu₁ : u₁.Linked checkArity a.beliefs [] := Assembly.start_linked.declareBeliefs h₁
  obtain ⟨errors, rfl, herr, -⟩ := Assembly.constructor_eq_ok hu₁ h₂
  have hu₂ := hu₁.report herr
  obtain ⟨-, -, htuples⟩ := hu₂.members h₃
  rw [hsplit] at h₃
  rw [hsplit'] at h₃'
  obtain ⟨v, w, w', hpre, hcount, hm, hm', halike, method, method', methods, own, own', after,
    hheader, hw, hw', hz, hz'⟩ := Assembly.members_body hu₂ h₃ h₃'
  rw [hlen] at hcount
  rw [hz.diagnostics, ← List.append_assoc] at hr
  rw [hz'.diagnostics, ← List.append_assoc] at hr'
  refine ⟨_, _, v.diagnostics, own, own', after, hr, hr', ?_, ?_, ?_, ?_, ?_⟩
  · refine ⟨rfl, rfl, hz.fields.trans hz'.fields.symm,
      congrArg TupleTable.descriptors halike.tuples, rfl, fun i hi => ?_, ?_⟩
    · rw [hz.methods, hz'.methods]
      exact getElem?_append_cons_ne _ _ _ _ (hcount ▸ hi)
    · simp [hz.methods, hz'.methods, ← hcount, hheader]
  · exact ⟨_, generate_of_phases (a := a.upTo j) h₁ h₂ hpre⟩
  · have hupTo := generate_upTo hsplit h₁ h₂ hpre hm
    rwa [hlen, hw.diagnostics] at hupTo
  · have hupTo := generate_upTo hsplit' h₁' h₂' hpre hm'
    rwa [hlen, hw'.diagnostics] at hupTo
  · exact ⟨_, _, generate_of_phases (a := a.upTo 0) h₁ h₂ rfl,
      congrArg TupleTable.descriptors htuples.symm⟩

/-- A call of a plan that the counter does not have. -/
def strayCall : Stmt := ⟨.invoke, ⟨⟨"reset", .nowhere⟩, [], .nowhere⟩, .nowhere⟩

theorem counter_independent :
    counter.Countable ∧ (counter.withBody 0 [strayCall]).Countable ∧
    ∃ type type', generate true counter = .ok (type, []) ∧
      generate true (counter.withBody 0 [strayCall]) =
        .ok (type', [.notInScope "reset" .nowhere]) ∧ type.SameBut 0 type' := by
  have hb : (counter.withBody 0 [strayCall]).Countable :=
    ⟨by decide, by decide, by decide, by decide, by decide, by decide⟩
  refine ⟨counter_countable, hb, ?_⟩
  obtain ⟨type, type', before, own, own', after, h, h', hsame, -⟩ :=
    members_independent true (by decide) [strayCall] counter_countable hb
  have hsilent : (generate true counter).map Prod.snd = .ok [] := by decide
  have hstray : (generate true (counter.withBody 0 [strayCall])).map Prod.snd =
      .ok [.notInScope "reset" .nowhere] := by decide
  rw [h] at hsilent
  rw [h'] at hstray
  exact ⟨type, type', Except.ok.inj hsilent ▸ h, Except.ok.inj hstray ▸ h', hsame⟩

end AgentLang
