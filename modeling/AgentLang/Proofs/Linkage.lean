import AgentLang.Proofs.Fitting

/-!
# The numbers in compiled agents

Whatever is wrong with an agent, its type is linked: fields and methods stand for
beliefs and members, tuple types are numbered by their places, and every number
in the code of a method is good (`generate_links`).

The drafts of the methods take care of themselves. What is left is that an
assembly keeps its tables in order while beliefs and members are added to it
(`Assembly.Linked`), and that a finished draft leaves nothing behind but its
method and its diagnostics (`Assembly.constructor_eq_ok`, `Assembly.member_eq_ok`).
-/

namespace AgentLang

/-! ## Linked types -/

/-- The body of a method fits, and after it the method returns. -/
def MethodDef.Linked (L : Linkage) (m : MethodDef) : Prop :=
  ∃ body, m.code = body ++ [.ret] ∧ CodeFits L m.locals.length body

/-- What a method of the type may refer to, if it may call the first `visible`
methods. -/
def AgentType.linkage (checkArity : Bool) (type : AgentType) (visible : Nat)
    (m : MethodDef) : Linkage where
  checkArity
  fields := type.fields
  tuples := type.tuples
  callees := (type.methods.take visible).map MethodDef.argc
  argc := m.argc

def MethodDef.header (m : MethodDef) : String × MethodKind × List ParamDef :=
  (m.name, m.kind, m.params)

def Member.header (m : Member) : String × MethodKind × List ParamDef :=
  (m.name.name, m.kind.methodKind, paramDefs m.params)

/-- The type has a field for each belief and a method for each member, and all
numbers in it are good. A constructor calls nothing, a method only itself and
methods before it. -/
structure AgentType.Linked (checkArity : Bool) (a : Agent) (type : AgentType) : Prop where
  name : type.name = a.name.name
  params : type.params = paramDefs a.params
  fields : type.fields.map (fun f => (f.name, f.arity)) =
    a.beliefs.map fun b => (b.name.name, b.arity)
  methods : type.methods.map MethodDef.header = a.members.map Member.header
  tuple_ids : ∀ (id : Nat) (desc : TupleDesc), type.tuples[id]? = some desc → desc.id = id
  tuple_arities : (type.tuples.map TupleDesc.arity).Nodup
  tuple_supported : ∀ t ∈ type.tuples, 1 ≤ t.arity ∧ t.arity ≤ 8
  field_types : ∀ f ∈ type.fields, ∀ id, f.tuple = some id →
    type.tuples[id]? = some ⟨id, f.arity⟩
  field_untyped : ∀ f ∈ type.fields, f.tuple = none ↔ ¬(1 ≤ f.arity ∧ f.arity ≤ 8)
  constructor_header : type.constructor.header =
    (a.name.name, .constructor, paramDefs a.params)
  constructor_linked :
    type.constructor.Linked (type.linkage checkArity 0 type.constructor)
  method_linked : ∀ (k : Nat) (m : MethodDef), type.methods[k]? = some m →
    m.Linked (type.linkage checkArity (k + 1) m)

/-! ## The table of tuple types -/

namespace TupleTable

/-- Supported arities, each once. -/
structure Proper (t : TupleTable) : Prop where
  nodup : t.arities.Nodup
  supported : ∀ n ∈ t.arities, 1 ≤ n ∧ n ≤ 8

/-- Asking again gives the same answer, also after other types were asked for. -/
theorem describe_again {t t' : TupleTable} {n : Nat} {r : Except TupleError TupleId}
    (h : t.describe n = (r, t)) (hp : t.arities <+: t'.arities) :
    t'.describe n = (r, t') := by
  unfold describe at h ⊢
  split at h
  · next hn => simpa [hn] using h
  · next hn =>
    obtain ⟨more, hmore⟩ := hp
    split at h
    · next id hid =>
      have hid' : t'.arities.idxOf? n = some id := by
        rw [List.idxOf?] at hid ⊢
        rw [← hmore, List.findIdx?_append, hid, Option.some_or]
      simpa [hn, hid'] using h
    · have hself := congrArg (·.2.arities.length) h
      simp at hself

theorem describe_settles {t t' : TupleTable} {n : Nat} {r : Except TupleError TupleId}
    (h : t.describe n = (r, t')) : t'.describe n = (r, t') ∧ t.arities <+: t'.arities := by
  have hd := h
  unfold describe at h
  split at h
  · obtain ⟨rfl, rfl⟩ := Prod.mk.inj h
    exact ⟨hd, List.prefix_refl _⟩
  · next hn =>
    split at h
    · obtain ⟨rfl, rfl⟩ := Prod.mk.inj h
      exact ⟨hd, List.prefix_refl _⟩
    · next hnone =>
      obtain ⟨rfl, rfl⟩ := Prod.mk.inj h
      refine ⟨?_, List.prefix_append _ _⟩
      have hlast : (t.arities ++ [n]).idxOf? n = some t.arities.length := by
        rw [List.idxOf?] at hnone ⊢
        rw [List.findIdx?_append, hnone]
        simp
      simp [describe, hn, hlast]

theorem Proper.describe {t t' : TupleTable} (h : t.Proper) {n : Nat}
    {r : Except TupleError TupleId} (hd : t.describe n = (r, t')) : t'.Proper := by
  unfold TupleTable.describe at hd
  split at hd
  · obtain ⟨-, rfl⟩ := Prod.mk.inj hd
    exact h
  · next hn =>
    split at hd
    · obtain ⟨-, rfl⟩ := Prod.mk.inj hd
      exact h
    · next hnone =>
      obtain ⟨-, rfl⟩ := Prod.mk.inj hd
      have hnew : n ∉ t.arities := List.idxOf?_eq_none_iff.mp hnone
      refine ⟨by simpa using h.nodup.concat hnew, ?_⟩
      simp only [maxTupleArity] at hn
      exact List.forall_mem_append.mpr ⟨h.supported, by simp; omega⟩

end TupleTable

/-! ## Assemblies -/

namespace Assembly

/-- What the code of a method refers to, if it is compiled now and may call the
given methods. -/
def linkage (u : Assembly) (checkArity : Bool) (callees : List Nat) (argc : Nat) : Linkage :=
  ⟨checkArity, u.fields, u.tuples.descriptors, callees, argc⟩

/-- The beliefs and members so far have their fields and methods, and all numbers
in them are good. The scope of the agent binds neither arguments nor locals. -/
structure Linked (checkArity : Bool) (beliefs : List Belief) (members : List Member)
    (u : Assembly) : Prop where
  fields : u.fields.map (fun f => (f.name, f.arity)) =
    beliefs.map fun b => (b.name.name, b.arity)
  methods : u.methods.map MethodDef.header = members.map Member.header
  table : u.tuples.Proper
  described : ∀ fd ∈ u.fields, u.tuples.describe fd.arity = (fd.described, u.tuples)
  depth : u.scopes.depth = 1
  scopes : u.scopes.Fit (u.linkage checkArity (u.methods.map MethodDef.argc) 0) 0
  linked : ∀ (k : Nat) (m : MethodDef), u.methods[k]? = some m →
    m.Linked (u.linkage checkArity ((u.methods.take (k + 1)).map MethodDef.argc) m.argc)
  diagnostics : ∀ e ∈ u.diagnostics, e.Genuine

section Linked

variable {checkArity : Bool} {beliefs : List Belief} {done : List Member}
  {u u' : Assembly}

theorem start_linked : Assembly.empty.enter.Linked checkArity [] [] where
  fields := rfl
  methods := rfl
  table := ⟨List.nodup_nil, List.forall_mem_nil _⟩
  described := List.forall_mem_nil _
  depth := rfl
  scopes := by simp [Scopes.Fit, enter, empty, Scopes.enter, Scopes.empty]
  linked := by simp [enter, empty]
  diagnostics := List.forall_mem_nil _

theorem Linked.describes (h : u.Linked checkArity beliefs done) (callees : List Nat)
    (argc : Nat) : (u.linkage checkArity callees argc).Describes u.tuples :=
  ⟨rfl, h.described⟩

/-- Declaring binds a name or reports it, and changes nothing else. -/
theorem declare_fits {name : Ident} {b : Binding} (hd : u.declare name b = .ok u') :
    ∃ scopes errors, u' = { u with scopes }.report errors ∧
      scopes.depth = u.scopes.depth ∧ (∀ e ∈ errors, e.Genuine) ∧
      ∀ L locals, u.scopes.Fit L locals → b.Fits L locals → scopes.Fit L locals := by
  cases hF : u.scopes.frames with
  | nil => simp [declare, Scopes.declare, Scopes.register, hF, bind, Except.bind] at hd
  | cons F rest =>
      rw [declare_eq hF, Except.ok.injEq] at hd
      subst hd
      split
      · refine ⟨u.scopes, _, rfl, rfl, ?_, fun L locals hs _ => hs⟩
        simp [SemanticError.Genuine]
      · refine ⟨⟨((name.name, b) :: F) :: rest⟩, [], by simp [report],
          by simp [Scopes.depth, hF], List.forall_mem_nil _, fun L locals hs hb => ?_⟩
        simp only [Scopes.Fit, hF, List.forall_mem_cons] at hs ⊢
        exact ⟨⟨hb, hs.1⟩, hs.2⟩

theorem declareBelief_eq_ok {b : Belief} (hd : u.declareBelief b = .ok u') :
    ∃ fd tuples errors, fd.name = b.name.name ∧ fd.arity = b.arity ∧
      u.tuples.describe b.arity = (fd.described, tuples) ∧ (∀ e ∈ errors, e.Genuine) ∧
      ({ u with tuples, fields := u.fields ++ [fd] }.report errors).declare b.name
        (.field u.fields.length b.arity) = .ok u' := by
  simp only [declareBelief] at hd
  obtain ⟨field, hslot, hd⟩ := bind_eq_ok.mp hd
  obtain ⟨-, rfl⟩ := slotIndex_eq_ok.mp hslot
  rcases hdesc : u.tuples.describe b.arity with ⟨r, tuples⟩
  rw [hdesc] at hd
  cases r with
  | ok id =>
      exact ⟨⟨b.name.name, b.arity, some id⟩, tuples, [], rfl, rfl, rfl,
        List.forall_mem_nil _, hd⟩
  | error e =>
      have he : e = .unsupportedArity b.arity := by
        unfold TupleTable.describe at hdesc
        split at hdesc
        · simpa using (congrArg Prod.fst hdesc).symm
        · split at hdesc <;> simp at hdesc
      subst he
      refine ⟨⟨b.name.name, b.arity, none⟩, tuples, _, rfl, rfl, rfl, ?_, hd⟩
      simp [SemanticError.Genuine]

theorem Linked.declareBelief (h : u.Linked checkArity beliefs []) {b : Belief}
    (hd : u.declareBelief b = .ok u') : u'.Linked checkArity (beliefs ++ [b]) [] := by
  obtain ⟨fd, tuples, errors, hname, harity, hdesc, herr, hd⟩ := declareBelief_eq_ok hd
  obtain ⟨scopes, errors', rfl, hdepth, herr', hfit⟩ := declare_fits hd
  obtain ⟨hsettled, hprefix⟩ := TupleTable.describe_settles hdesc
  have hnone : u.methods = [] := by simpa using h.methods
  refine ⟨?_, h.methods, h.table.describe hdesc, ?_, hdepth.trans h.depth, ?_, ?_, ?_⟩
  · simp [report, h.fields, hname, harity]
  · refine List.forall_mem_append.mpr ⟨fun g hg => ?_, List.forall_mem_singleton.mpr ?_⟩
    · exact TupleTable.describe_again (h.described g hg) hprefix
    · rw [harity]
      exact hsettled
  · refine hfit _ _ (fun F hF p hp => ?_) ⟨fd, by simp [linkage, report], harity⟩
    exact (h.scopes F hF p hp).mono (Nat.le_refl _) (Nat.le_refl _) (List.prefix_append _ _)
      (List.prefix_refl _)
  · simp [report, hnone]
  · exact List.forall_mem_append.mpr
      ⟨List.forall_mem_append.mpr ⟨h.diagnostics, herr⟩, herr'⟩

theorem Linked.declareBeliefs {more : List Belief} :
    ∀ {beliefs : List Belief} {u u' : Assembly}, u.Linked checkArity beliefs [] →
      Assembly.declareBeliefs more u = .ok u' →
      u'.Linked checkArity (beliefs ++ more) [] := by
  induction more with
  | nil =>
      intro beliefs u u' h hd
      obtain rfl : u = u' := by simpa [Assembly.declareBeliefs] using hd
      simpa using h
  | cons b more ih =>
      intro beliefs u u' h hd
      obtain ⟨u₁, h₁, h₂⟩ := bind_eq_ok.mp hd
      simpa using ih (h.declareBelief h₁) h₂

/-! ### Constructor and members -/

/-- A draft that starts in the scope of an agent. -/
theorem start_draft {L : Linkage} {table : TupleTable} {s : Scopes} (hs : s.Fit L 0) :
    (Draft.start s table).Linked L table := by
  refine ⟨rfl, ?_, codeFits_nil, List.forall_mem_nil _⟩
  intro F hF
  rcases List.mem_cons.mp hF with rfl | hF
  · exact List.forall_mem_nil _
  · exact hs F hF

theorem finish_linked {L : Linkage} {table : TupleTable} {d : Draft} (h : d.Linked L table)
    (name : String) (kind : MethodKind) (params : List ParamDef) :
    (d.finish name kind params).Linked L :=
  ⟨d.code, rfl, h.code⟩

/-- Closing the scope of a draft leads back to the scope around it, and the draft
has left the tuple types alone. -/
theorem close_linked {L : Linkage} {s : Scopes} {table : TupleTable} {d : Draft} {n : Nat}
    (hg : Draft.Grows n (.start s table) d) (h : d.Linked L table)
    (hc : u.close d = .ok u') :
    u' = { u with scopes := s, tuples := table }.report d.diagnostics := by
  have houter : d.scopes.frames.tail = s.frames := hg.outer
  cases hF : d.scopes.frames with
  | nil => simp [close, Scopes.close, Scopes.exit, hF, bind, Except.bind] at hc
  | cons F rest =>
      rw [close_eq hF, Except.ok.injEq, h.tuples] at hc
      rw [hF, List.tail_cons] at houter
      rw [← hc, houter]

theorem Linked.field_of_belief (h : u.Linked checkArity beliefs done) {i : Nat}
    {b : Belief} (hb : beliefs[i]? = some b) :
    ∃ fd, u.fields[i]? = some fd ∧ fd.arity = b.arity := by
  have hi := congrArg (·[i]?) h.fields
  simp only [List.getElem?_map, hb, Option.map_some, Option.map_eq_some_iff] at hi
  obtain ⟨fd, hfd, heq⟩ := hi
  exact ⟨fd, hfd, (Prod.mk.inj heq).2⟩

theorem constructor_eq_ok {a : Agent} (h : u.Linked checkArity a.beliefs [])
    {method : MethodDef} (hc : u.constructor a = .ok (method, u')) :
    ∃ errors, u' = u.report errors ∧ (∀ e ∈ errors, e.Genuine) ∧
      method.header = (a.name.name, .constructor, paramDefs a.params) ∧
      method.Linked (u.linkage checkArity [] method.argc) := by
  obtain ⟨d₁, h₁, hc⟩ := bind_eq_ok.mp hc
  obtain ⟨d₂, h₂, hc⟩ := bind_eq_ok.mp hc
  obtain ⟨u₁, h₃, hc⟩ := bind_eq_ok.mp hc
  obtain ⟨rfl, rfl⟩ := Prod.mk.inj (Except.ok.inj hc)
  have hnone : u.methods = [] := by simpa using h.methods
  let L := u.linkage checkArity [] (a.params.length + 1)
  have hL : L.Describes u.tuples := h.describes _ _
  have hstart : (Draft.start u.scopes u.tuples).Linked L u.tuples := by
    refine start_draft fun F hF p hp => ?_
    refine (h.scopes F hF p hp).mono (Nat.le_refl _) (Nat.zero_le _) (List.prefix_refl _) ?_
    simp [linkage, hnone]
  have hd₁ : d₁.Linked L u.tuples := hstart.declareParams (Nat.le_of_eq (Nat.add_comm _ _)) h₁
  have hd₂ : d₂.Linked L u.tuples :=
    Draft.Linked.initBeliefs hL hd₁ (fun i b hb => by
      rw [Nat.zero_add]
      exact h.field_of_belief hb) h₂
  have hg := (Draft.grows_declareParams h₁).trans (Draft.grows_initBeliefs h₂)
  refine ⟨d₂.diagnostics, close_linked hg hd₂ h₃, hd₂.diagnostics, rfl, ?_⟩
  have hargc : (d₂.finish a.name.name .constructor (paramDefs a.params)).argc =
      a.params.length + 1 := by simp [MethodDef.argc, Draft.finish, paramDefs]
  rw [hargc]
  exact finish_linked hd₂ _ _ _

theorem Linked.report (h : u.Linked checkArity beliefs done)
    {errors : List SemanticError} (he : ∀ e ∈ errors, e.Genuine) :
    (u.report errors).Linked checkArity beliefs done :=
  ⟨h.fields, h.methods, h.table, h.described, h.depth, h.scopes, h.linked,
    List.forall_mem_append.mpr ⟨h.diagnostics, he⟩⟩

/-- A member adds its name to the scope, its method to the methods, and what is
wrong with it to the diagnostics. -/
theorem member_eq_ok (h : u.Linked checkArity beliefs done) {m : Member}
    (hm : u.member checkArity m = .ok u') :
    ∃ u₁ method errors,
      u.declare m.name (.callable u.methods.length m.params.length) = .ok u₁ ∧
      u' = { u₁.report errors with methods := u.methods ++ [method] } ∧
      (∀ e ∈ errors, e.Genuine) ∧ method.header = m.header ∧
      u₁.scopes.Fit (u.linkage checkArity ((u.methods ++ [method]).map MethodDef.argc) 0) 0 ∧
      method.Linked (u.linkage checkArity ((u.methods ++ [method]).map MethodDef.argc)
        method.argc) := by
  obtain ⟨id, hid, hm⟩ := bind_eq_ok.mp hm
  obtain ⟨-, rfl⟩ := slotIndex_eq_ok.mp hid
  obtain ⟨u₁, h₁, hm⟩ := bind_eq_ok.mp hm
  obtain ⟨d₁, h₂, hm⟩ := bind_eq_ok.mp hm
  obtain ⟨d₂, h₃, hm⟩ := bind_eq_ok.mp hm
  obtain ⟨u₂, h₄, hm⟩ := bind_eq_ok.mp hm
  obtain rfl := Except.ok.inj hm
  obtain ⟨scopes, errors, rfl, hdepth, herr, hfit⟩ := declare_fits h₁
  let method := d₂.finish m.name.name m.kind.methodKind (paramDefs m.params)
  have hargc : method.argc = m.params.length + 1 := by
    simp [method, MethodDef.argc, Draft.finish, paramDefs]
  let callees := (u.methods ++ [method]).map MethodDef.argc
  have hglobal : scopes.Fit (u.linkage checkArity callees 0) 0 := by
    refine hfit _ _ (fun F hF p hp => ?_) ?_
    · refine (h.scopes F hF p hp).mono (Nat.le_refl _) (Nat.le_refl _) (List.prefix_refl _) ?_
      simp [linkage, callees]
    · simp [Binding.Fits, linkage, callees, hargc]
  let L := u.linkage checkArity callees method.argc
  have hL : L.Describes u.tuples := h.describes _ _
  have hstart : (Draft.start scopes u.tuples).Linked L u.tuples := by
    refine start_draft fun F hF p hp => ?_
    exact (hglobal F hF p hp).mono (Nat.le_refl _) (Nat.zero_le _) (List.prefix_refl _)
      (List.prefix_refl _)
  have hd₁ : d₁.Linked L u.tuples :=
    hstart.declareParams (by show 1 + m.params.length ≤ method.argc; omega) h₂
  have hd₂ : d₂.Linked L u.tuples :=
    Draft.Linked.statements hL (by show 0 < method.argc; omega) hd₁ h₃
  have hg := (Draft.grows_declareParams h₂).trans (Draft.grows_statements h₃)
  refine ⟨_, method, d₂.diagnostics, h₁, ?_, hd₂.diagnostics, rfl, hglobal,
    finish_linked hd₂ _ _ _⟩
  rw [close_linked hg hd₂ h₄]
  rfl

theorem Linked.member (h : u.Linked checkArity beliefs done) {m : Member}
    (hm : u.member checkArity m = .ok u') :
    u'.Linked checkArity beliefs (done ++ [m]) := by
  obtain ⟨u₁, method, errors, hd, rfl, herr, hheader, hscopes, hmethod⟩ := member_eq_ok h hm
  obtain ⟨scopes, errors', rfl, hdepth, herr', -⟩ := declare_fits hd
  refine ⟨h.fields, by simp [h.methods, hheader], h.table, h.described,
    hdepth.trans h.depth, hscopes, ?_, ?_⟩
  · intro k m' hk
    show m'.Linked (u.linkage checkArity
      (((u.methods ++ [method]).take (k + 1)).map MethodDef.argc) m'.argc)
    rcases Nat.lt_or_ge k u.methods.length with hlt | hge
    · have hk' : u.methods[k]? = some m' := by
        rwa [List.getElem?_append_left hlt] at hk
      rw [List.take_append_of_le_length hlt]
      exact h.linked k m' hk'
    · rw [List.getElem?_append_right hge] at hk
      obtain ⟨hzero, rfl⟩ : k - u.methods.length = 0 ∧ method = m' := by
        simpa [List.getElem?_singleton] using hk
      rw [List.take_of_length_le (by simp; omega)]
      exact hmethod
  · exact List.forall_mem_append.mpr
      ⟨List.forall_mem_append.mpr ⟨h.diagnostics, herr'⟩, herr⟩

theorem Linked.members {more : List Member} :
    ∀ {done : List Member} {u u' : Assembly}, u.Linked checkArity beliefs done →
      Assembly.members checkArity more u = .ok u' →
      u'.Linked checkArity beliefs (done ++ more) ∧ u'.fields = u.fields ∧
        u'.tuples = u.tuples := by
  induction more with
  | nil =>
      intro done u u' h hm
      obtain rfl : u = u' := by simpa [Assembly.members] using hm
      exact ⟨by simpa using h, rfl, rfl⟩
  | cons m more ih =>
      intro done u u' h hm
      obtain ⟨u₁, h₁, h₂⟩ := bind_eq_ok.mp hm
      obtain ⟨h', hfields, htuples⟩ := ih (h.member h₁) h₂
      obtain ⟨v, method, errors, hd, rfl, -⟩ := member_eq_ok h h₁
      obtain ⟨scopes, errors', rfl, -⟩ := declare_fits hd
      exact ⟨by simpa using h', hfields, htuples⟩

end Linked

end Assembly

/-! ## Whole agents -/

theorem FieldDef.described_eq_error {f : FieldDef} {e : TupleError}
    (h : f.described = .error e) : f.tuple = none := by
  unfold described at h
  split at h
  · cases h
  · assumption

theorem generate_linked {checkArity : Bool} {a : Agent} {type : AgentType}
    {diagnostics : List SemanticError}
    (h : generate checkArity a = .ok (type, diagnostics)) :
    type.Linked checkArity a ∧ ∀ e ∈ diagnostics, e.Genuine := by
  obtain ⟨u₁, ctor, u₂, u₃, h₁, h₂, h₃, heq⟩ := generate_eq_ok h
  obtain ⟨rfl, rfl⟩ := Prod.mk.inj heq
  have hu₁ : u₁.Linked checkArity a.beliefs [] := Assembly.start_linked.declareBeliefs h₁
  obtain ⟨errors, rfl, herr, hheader, hctor⟩ := Assembly.constructor_eq_ok hu₁ h₂
  obtain ⟨hu₃, hfields, htuples⟩ := (hu₁.report herr).members h₃
  rw [List.nil_append] at hu₃
  refine ⟨?_, hu₃.diagnostics⟩
  have hlinkage : ∀ callees argc,
      u₁.linkage checkArity callees argc = u₃.linkage checkArity callees argc := by
    intro callees argc
    simp [Assembly.linkage, hfields, htuples, Assembly.report]
  have hdesc : ∀ (id : Nat) (desc : TupleDesc), u₃.tuples.descriptors[id]? = some desc →
      desc.id = id ∧ u₃.tuples.arities[id]? = some desc.arity := by
    intro id desc hid
    rw [TupleTable.getElem?_descriptors, Option.map_eq_some_iff] at hid
    obtain ⟨n, hn, rfl⟩ := hid
    exact ⟨rfl, hn⟩
  have harities : u₃.tuples.descriptors.map TupleDesc.arity = u₃.tuples.arities := by
    refine List.ext_getElem? fun i => ?_
    rw [List.getElem?_map, TupleTable.getElem?_descriptors, Option.map_map]
    simp [Function.comp_def]
  exact {
    name := rfl
    params := rfl
    fields := hu₃.fields
    methods := hu₃.methods
    tuple_ids := fun id desc hid => (hdesc id desc hid).1
    tuple_arities := by
      simp only [harities]
      exact hu₃.table.nodup
    tuple_supported := by
      intro t ht
      obtain ⟨id, hid⟩ := List.getElem?_of_mem ht
      exact hu₃.table.supported _ (List.mem_of_getElem? (hdesc id t hid).2)
    field_types := by
      intro f hf id hid
      have hd := hu₃.described f hf
      simp only [FieldDef.described, hid] at hd
      simp [TupleTable.getElem?_descriptors, (TupleTable.describe_ok hd).1]
    field_untyped := by
      intro f hf
      have hd := hu₃.described f hf
      rcases u₃.tuples.describe_cases f.arity with ⟨id, t', hs, hok, -⟩ | ⟨hs, e, herr⟩
      · rw [hok] at hd
        have hsome : f.tuple ≠ none := by
          intro hn
          simp [FieldDef.described, hn] at hd
        simp [hsome, hs]
      · rw [herr] at hd
        simp [FieldDef.described_eq_error (congrArg Prod.fst hd).symm, hs]
    constructor_header := hheader
    constructor_linked := by
      rw [hlinkage] at hctor
      exact hctor
    method_linked := hu₃.linked }

/-- **Every number in the code is good.** Whatever is wrong with an agent, its
type is linked, and no diagnostic blames the index of an element. Generation
returns a type unless it runs out of numbers. -/
theorem generate_links (checkArity : Bool) (a : Agent) :
    (a.Countable → ∃ r, generate checkArity a = .ok r) ∧
    ∀ type diagnostics, generate checkArity a = .ok (type, diagnostics) →
      type.Linked checkArity a ∧
        ∀ arity index span, .tuple (.indexOutOfRange arity index) span ∉ diagnostics := by
  refine ⟨generate_total checkArity, fun type diagnostics h => ?_⟩
  obtain ⟨hlinked, hgenuine⟩ := generate_linked h
  exact ⟨hlinked, fun arity index span hmem => hgenuine _ hmem arity index span rfl⟩

/-- An agent with mistakes of many kinds: a belief without values, a belief and a
plan that take the name of another belief, a parameter that is declared twice,
targets of a query that are no new names, and a call with too many arguments. -/
def clumsy : Agent where
  name := ⟨"Clumsy", .nowhere⟩
  params := [⟨⟨"n", .nowhere⟩, ⟨"int", .nowhere⟩, .nowhere⟩,
    ⟨⟨"n", .nowhere⟩, ⟨"int", .nowhere⟩, .nowhere⟩]
  beliefs := [⟨⟨"pair", .nowhere⟩, [.ident "n" .nowhere, .ident "m" .nowhere], .nowhere⟩,
    ⟨⟨"none", .nowhere⟩, [], .nowhere⟩,
    ⟨⟨"pair", .nowhere⟩, [.number 1 .nowhere], .nowhere⟩]
  members := [
    ⟨.plan, ⟨"pair", .nowhere⟩, [], [], .nowhere⟩,
    ⟨.handler, ⟨"step", .nowhere⟩, [⟨⟨"n", .nowhere⟩, ⟨"int", .nowhere⟩, .nowhere⟩], [
      ⟨.query, ⟨⟨"pair", .nowhere⟩, [.ident "n" .nowhere, .number 2 .nowhere], .nowhere⟩,
        .nowhere⟩,
      ⟨.update, ⟨⟨"pair", .nowhere⟩, [.ident "n" .nowhere, .ident "pair" .nowhere],
        .nowhere⟩, .nowhere⟩,
      ⟨.update, ⟨⟨"none", .nowhere⟩, [], .nowhere⟩, .nowhere⟩,
      ⟨.invoke, ⟨⟨"step", .nowhere⟩, [.number 1 .nowhere, .number 2 .nowhere], .nowhere⟩,
        .nowhere⟩], .nowhere⟩]
  span := .nowhere

theorem clumsy_links :
    clumsy.Countable ∧ ∃ type diagnostics, generate true clumsy = .ok (type, diagnostics) ∧
      diagnostics.length = 10 ∧ type.Linked true clumsy := by
  have hcountable : clumsy.Countable :=
    ⟨by decide, by decide, by decide, by decide, by decide, by decide⟩
  obtain ⟨⟨type, diagnostics⟩, h⟩ := (generate_links true clumsy).1 hcountable
  have hlength : (generate true clumsy).map (·.2.length) = .ok 10 := by decide
  rw [h] at hlength
  exact ⟨hcountable, type, diagnostics, h, Except.ok.inj hlength,
    ((generate_links true clumsy).2 type diagnostics h).1⟩

end AgentLang
