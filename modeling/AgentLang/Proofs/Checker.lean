import AgentLang.Proofs.Resolution
import Mathlib.Data.List.Nodup

/-!
# The checker decides the static rules

Generation reports nothing about an agent exactly if the agent is well scoped
(`generate_silent_iff_wellScoped`). The argument follows the assembly: while
nothing was reported, the scope of the agent is known to the letter
(`Agent.frame`), it says about a name what the tree says about it
(`resolves_iff`), and each phase of generation either keeps to the rules or
leaves a diagnostic, which nothing takes back.

The positive outcome of every phase also records the code that was made
(`Compiled`), which is all that later files know about generation.
-/

namespace AgentLang

/-! ## The scope of an agent -/

def beliefFrame (beliefs : List Belief) : Frame :=
  (beliefs.zipIdx.map fun (b, i) => (b.name.name, Binding.field i b.arity)).reverse

def memberFrame (members : List Member) : Frame :=
  (members.zipIdx.map fun (m, j) =>
    (m.name.name, Binding.callable j m.params.length)).reverse

/-- The names of an agent of which the first `visible` members are declared. -/
def Agent.frame (a : Agent) (visible : Nat) : Frame :=
  memberFrame (a.members.take visible) ++ beliefFrame a.beliefs

theorem keys_beliefFrame (beliefs : List Belief) :
    (beliefFrame beliefs).map Prod.fst = (beliefs.map (·.name.name)).reverse := by
  have : (Prod.fst ∘ fun (p : Belief × Nat) =>
      (p.1.name.name, Binding.field p.2 p.1.arity)) = (·.name.name) ∘ Prod.fst := rfl
  simp only [beliefFrame, List.map_reverse, List.map_map, this]
  rw [← List.map_map, List.zipIdx_map_fst]

theorem keys_memberFrame (members : List Member) :
    (memberFrame members).map Prod.fst = (members.map (·.name.name)).reverse := by
  have : (Prod.fst ∘ fun (p : Member × Nat) =>
      (p.1.name.name, Binding.callable p.2 p.1.params.length)) =
      (·.name.name) ∘ Prod.fst := rfl
  simp only [memberFrame, List.map_reverse, List.map_map, this]
  rw [← List.map_map, List.zipIdx_map_fst]

theorem Agent.keys_frame (a : Agent) (visible : Nat) :
    (a.frame visible).map Prod.fst =
      (a.beliefs.map (·.name.name) ++ (a.members.take visible).map (·.name.name)).reverse := by
  rw [frame, List.map_append, keys_beliefFrame, keys_memberFrame, List.reverse_append]

theorem beliefFrame_concat (beliefs : List Belief) (b : Belief) :
    beliefFrame (beliefs ++ [b]) =
      (b.name.name, .field beliefs.length b.arity) :: beliefFrame beliefs := by
  simp [beliefFrame, List.zipIdx_append]

theorem Agent.frame_succ {a : Agent} {k : Nat} {m : Member} (hm : a.members[k]? = some m) :
    a.frame (k + 1) = (m.name.name, .callable k m.params.length) :: a.frame k := by
  have hk : k < a.members.length := (List.getElem?_eq_some_iff.mp hm).1
  simp [frame, memberFrame, List.take_add_one, hm, List.zipIdx_append,
    Nat.min_eq_left (Nat.le_of_lt hk)]

theorem Agent.mem_frame_field {a : Agent} {visible i n : Nat} {x : String} :
    (x, Binding.field i n) ∈ a.frame visible ↔
      ∃ b, a.beliefs[i]? = some b ∧ b.name.name = x ∧ b.arity = n := by
  simp only [frame, memberFrame, beliefFrame, List.mem_append, List.mem_reverse,
    List.mem_map, Prod.exists, List.mem_zipIdx_iff_getElem?, Prod.mk.injEq,
    Binding.field.injEq, reduceCtorEq, and_false, exists_false, false_or]
  constructor
  · rintro ⟨b, j, hb, rfl, rfl, rfl⟩
    exact ⟨b, hb, rfl, rfl⟩
  · rintro ⟨b, hb, rfl, rfl⟩
    exact ⟨b, i, hb, rfl, rfl, rfl⟩

theorem Agent.mem_frame_callable {a : Agent} {visible j n : Nat} {x : String} :
    (x, Binding.callable j n) ∈ a.frame visible ↔
      j < visible ∧ ∃ m, a.members[j]? = some m ∧ m.name.name = x ∧
        m.params.length = n := by
  simp only [frame, memberFrame, beliefFrame, List.mem_append, List.mem_reverse,
    List.mem_map, Prod.exists, List.mem_zipIdx_iff_getElem?, Prod.mk.injEq,
    Binding.callable.injEq, reduceCtorEq, and_false, exists_false, or_false,
    List.getElem?_take]
  constructor
  · rintro ⟨m, i, hm, rfl, rfl, rfl⟩
    split at hm
    · next hlt => exact ⟨hlt, m, hm, rfl, rfl⟩
    · cases hm
  · rintro ⟨hlt, m, hm, rfl, rfl⟩
    exact ⟨m, j, by rw [if_pos hlt]; exact hm, rfl, rfl, rfl⟩

theorem Agent.frame_global {a : Agent} {visible : Nat} {x : String} {b : Binding}
    (h : (a.frame visible).lookup x = some b) : b.loadInteger? = none := by
  obtain ⟨l₁, l₂, heq, -⟩ := List.lookup_eq_some_iff.mp h
  have hmem : (x, b) ∈ a.frame visible := by rw [heq]; simp
  simp only [frame, memberFrame, beliefFrame, List.mem_append, List.mem_reverse,
    List.mem_map, Prod.mk.injEq] at hmem
  rcases hmem with ⟨p, -, -, rfl⟩ | ⟨p, -, -, rfl⟩ <;> rfl

/-! ## Resolving is keeping to the rules -/

section Rules

variable {a : Agent} {k : Nat} {checkArity : Bool}

theorem lookup_frame_field_iff {visible n : Nat} {x : String}
    (hnodup : ((a.frame visible).map Prod.fst).Nodup) :
    (∃ f, (a.frame visible).lookup x = some (.field f n)) ↔ a.HasBelief x n := by
  simp only [lookup_eq_some_iff_mem hnodup, Agent.mem_frame_field, Agent.HasBelief]
  constructor
  · rintro ⟨i, b, hb, hx, hn⟩
    exact ⟨b, List.mem_of_getElem? hb, hx, hn⟩
  · rintro ⟨b, hb, hx, hn⟩
    obtain ⟨i, hi⟩ := List.getElem?_of_mem hb
    exact ⟨i, b, hi, hx, hn⟩

theorem resolves_iff (hnodup : ((a.frame (k + 1)).map Prod.fst).Nodup)
    {env : List String} {s : Stmt} :
    Draft.Resolves checkArity (a.frame (k + 1)) env s ↔ s.WellScoped checkArity a k env := by
  have hcall : (∃ m n, (a.frame (k + 1)).lookup s.term.name.name = some (.callable m n) ∧
        (checkArity = true → s.term.args.length = n)) ↔
      ∃ j ≤ k, ∃ m, a.members[j]? = some m ∧ m.name.name = s.term.name.name ∧
        (checkArity = true → s.term.args.length = m.params.length) := by
    simp only [lookup_eq_some_iff_mem hnodup, Agent.mem_frame_callable, Nat.lt_succ_iff]
    constructor
    · rintro ⟨j, n, ⟨hj, m, hm, hx, rfl⟩, hlen⟩
      exact ⟨j, hj, m, hm, hx, hlen⟩
    · rintro ⟨j, hj, m, hm, hx, hlen⟩
      exact ⟨j, _, ⟨hj, m, hm, hx, rfl⟩, hlen⟩
  unfold Draft.Resolves Stmt.WellScoped
  cases s.kind <;>
    simp only [lookup_frame_field_iff hnodup, hcall, Draft.NewNames]

theorem bodyResolves_iff (hnodup : ((a.frame (k + 1)).map Prod.fst).Nodup)
    {stmts : List Stmt} :
    ∀ {env : List String}, Draft.BodyResolves checkArity (a.frame (k + 1)) env stmts ↔
      ∀ (i : Nat) (s : Stmt), stmts[i]? = some s →
        s.WellScoped checkArity a k (env ++ (stmts.take i).flatMap Stmt.targets) := by
  induction stmts with
  | nil => simp [Draft.BodyResolves]
  | cons s stmts ih =>
      intro env
      simp only [Draft.BodyResolves, resolves_iff hnodup, ih]
      constructor
      · rintro ⟨hs, hrest⟩ i t ht
        cases i with
        | zero =>
            obtain rfl : s = t := by simpa using ht
            simpa using hs
        | succ i => simpa using hrest i t (by simpa using ht)
      · intro h
        refine ⟨by simpa using h 0 s rfl, fun i t ht => ?_⟩
        simpa using h (i + 1) t (by simpa using ht)

end Rules

/-! ## Tuple types of beliefs -/

theorem TupleTable.describe_of_mem {t : TupleTable} {n : Nat} (hn : 1 ≤ n ∧ n ≤ 8)
    (h : n ∈ t.arities) : ∃ id, t.describe n = (.ok id, t) := by
  have hs : ¬(n = 0 ∨ maxTupleArity < n) := by
    simp only [maxTupleArity]
    omega
  cases hi : t.arities.idxOf? n with
  | none => exact absurd h (List.idxOf?_eq_none_iff.mp hi)
  | some id => exact ⟨id, by simp [describe, hs, hi]⟩

theorem TupleTable.describe_cases (t : TupleTable) (n : Nat) :
    (∃ id t', (1 ≤ n ∧ n ≤ 8) ∧ t.describe n = (.ok id, t') ∧ n ∈ t'.arities ∧
      t.arities <+: t'.arities) ∨
    (¬(1 ≤ n ∧ n ≤ 8) ∧ ∃ e, t.describe n = (.error e, t)) := by
  by_cases hn : n = 0 ∨ maxTupleArity < n
  · refine Or.inr ⟨?_, _, describe_of_unsupported hn⟩
    simp only [maxTupleArity] at hn
    omega
  · have hs : 1 ≤ n ∧ n ≤ 8 := by
      simp only [maxTupleArity] at hn
      omega
    obtain ⟨id, t', heq⟩ : ∃ id t', t.describe n = (.ok id, t') := by
      unfold describe
      simp only [hn, if_false]
      split <;> exact ⟨_, _, rfl⟩
    obtain ⟨hget, hprefix⟩ := describe_ok heq
    exact Or.inl ⟨id, t', hs, heq, List.mem_of_getElem? hget, hprefix⟩

/-! ## Declaring beliefs -/

namespace Assembly

/-- The scope, the fields and the tuple types that beliefs get if nothing is
wrong with them. -/
structure Declared (u : Assembly) (beliefs : List Belief) : Prop where
  frames : u.scopes.frames = [beliefFrame beliefs]
  fields_length : u.fields.length = beliefs.length
  fields_get : ∀ (i : Nat) (b : Belief), beliefs[i]? = some b →
    ∃ id, u.fields[i]? = some ⟨b.name.name, b.arity, some id⟩
  arities : ∀ b ∈ beliefs, (1 ≤ b.arity ∧ b.arity ≤ 8) ∧ b.arity ∈ u.tuples.arities
  methods : u.methods = []

/-- `u'` came out of `u`: no scope was opened or closed for good, and no
diagnostic was taken back. -/
structure Grows (u u' : Assembly) : Prop where
  depth : u'.scopes.depth = u.scopes.depth
  diagnostics : u.diagnostics <+: u'.diagnostics

theorem Grows.trans {u u' u'' : Assembly} (h : Grows u u') (h' : Grows u' u'') :
    Grows u u'' :=
  ⟨h'.depth.trans h.depth, h.diagnostics.trans h'.diagnostics⟩

theorem Grows.silent {u u' : Assembly} (h : Grows u u') (hu : u'.diagnostics = []) :
    u.diagnostics = [] :=
  List.prefix_nil.mp (hu ▸ h.diagnostics)

theorem declare_eq {u : Assembly} {F : Frame} {rest : List Frame}
    (hs : u.scopes.frames = F :: rest) (name : Ident) (b : Binding) :
    u.declare name b = .ok (if name.name ∈ F.map Prod.fst then
        u.report [.redeclared name.name name.span]
      else { u with scopes := ⟨((name.name, b) :: F) :: rest⟩ }) := by
  simp only [declare, Scopes.declare_eq hs, bind, Except.bind, pure, Except.pure]
  split <;> simp [report]

theorem declare_total {u : Assembly} (hu : 0 < u.scopes.depth) (name : Ident)
    (b : Binding) : ∃ u', u.declare name b = .ok u' := by
  obtain ⟨F, rest, hs⟩ := List.exists_cons_of_length_pos hu
  exact ⟨_, declare_eq hs name b⟩

theorem declare_grows {u u' : Assembly} {name : Ident} {b : Binding}
    (h : u.declare name b = .ok u') :
    Grows u u' ∧ u'.fields = u.fields ∧ u'.methods = u.methods := by
  cases hs : u.scopes.frames with
  | nil => simp [declare, Scopes.declare, Scopes.register, hs, bind, Except.bind] at h
  | cons F rest =>
      rw [declare_eq hs, Except.ok.injEq] at h
      subst h
      split
      · exact ⟨⟨rfl, List.prefix_append _ _⟩, rfl, rfl⟩
      · exact ⟨⟨by simp [Scopes.depth, hs], List.prefix_refl _⟩, rfl, rfl⟩

theorem declareBelief_grows {u u' : Assembly} {b : Belief}
    (h : u.declareBelief b = .ok u') :
    Grows u u' ∧ u'.fields.length = u.fields.length + 1 ∧ u'.methods = u.methods := by
  simp only [declareBelief] at h
  obtain ⟨field, -, h⟩ := bind_eq_ok.mp h
  obtain ⟨hg, hf, hm⟩ := declare_grows h
  refine ⟨⟨hg.depth, ?_⟩, by simp [hf, report], hm⟩
  exact (List.prefix_append _ _).trans hg.diagnostics

theorem declareBeliefs_grows {beliefs : List Belief} :
    ∀ {u u' : Assembly}, declareBeliefs beliefs u = .ok u' →
      Grows u u' ∧ u'.methods = u.methods := by
  induction beliefs with
  | nil =>
      intro u u' h
      obtain rfl : u = u' := by simpa [declareBeliefs] using h
      exact ⟨⟨rfl, List.prefix_refl _⟩, rfl⟩
  | cons b beliefs ih =>
      intro u u' h
      obtain ⟨u₁, h₁, h₂⟩ := bind_eq_ok.mp h
      obtain ⟨hg, -, hm⟩ := declareBelief_grows h₁
      obtain ⟨hg', hm'⟩ := ih h₂
      exact ⟨hg.trans hg', hm'.trans hm⟩

/-- One more belief with a field of its own. -/
theorem Declared.concat {u u' : Assembly} {beliefs : List Belief} {b : Belief} {id : TupleId}
    (hu : u.Declared beliefs) (hs : 1 ≤ b.arity ∧ b.arity ≤ 8)
    (hmem : b.arity ∈ u'.tuples.arities) (hkept : u.tuples.arities <+: u'.tuples.arities)
    (hframes : u'.scopes.frames =
      [(b.name.name, .field u.fields.length b.arity) :: beliefFrame beliefs])
    (hfields : u'.fields = u.fields ++ [⟨b.name.name, b.arity, some id⟩])
    (hmethods : u'.methods = u.methods) : u'.Declared (beliefs ++ [b]) := by
  refine ⟨?_, by simp [hfields, hu.fields_length], ?_, ?_, hmethods.trans hu.methods⟩
  · rw [hframes, beliefFrame_concat, hu.fields_length]
  · intro i c hc
    rw [hfields]
    rcases Nat.lt_or_ge i beliefs.length with hi | hi
    · rw [List.getElem?_append_left hi] at hc
      rw [List.getElem?_append_left (hu.fields_length ▸ hi)]
      exact hu.fields_get i c hc
    · rw [List.getElem?_append_right hi] at hc
      obtain ⟨hzero, rfl⟩ : i - beliefs.length = 0 ∧ b = c := by
        simpa [List.getElem?_singleton] using hc
      refine ⟨id, ?_⟩
      rw [List.getElem?_append_right (hu.fields_length ▸ hi), hu.fields_length, hzero]
      rfl
  · intro c hc
    rcases List.mem_append.mp hc with hc | hc
    · obtain ⟨hsc, hmc⟩ := hu.arities c hc
      exact ⟨hsc, hkept.subset hmc⟩
    · rw [List.mem_singleton.mp hc]
      exact ⟨hs, hmem⟩

theorem declareBelief_cases {u u' : Assembly} {beliefs : List Belief} {b : Belief}
    (hu : u.Declared beliefs) (h : u.declareBelief b = .ok u') :
    ((1 ≤ b.arity ∧ b.arity ≤ 8) ∧ b.name.name ∉ beliefs.map (·.name.name) ∧
      u'.diagnostics = u.diagnostics ∧ u'.Declared (beliefs ++ [b])) ∨
    (¬((1 ≤ b.arity ∧ b.arity ≤ 8) ∧ b.name.name ∉ beliefs.map (·.name.name)) ∧
      u'.diagnostics ≠ []) := by
  simp only [declareBelief] at h
  obtain ⟨field, hfield, h⟩ := bind_eq_ok.mp h
  obtain ⟨-, rfl⟩ := slotIndex_eq_ok.mp hfield
  rcases u.tuples.describe_cases b.arity with
    ⟨id, t', hs, hd, hmem, hprefix⟩ | ⟨hs, e, hd⟩
  · simp only [hd] at h
    rw [declare_eq (by simpa [report] using hu.frames), Except.ok.injEq] at h
    simp only [keys_beliefFrame, List.mem_reverse] at h
    by_cases hx : b.name.name ∈ beliefs.map (·.name.name)
    · refine Or.inr ⟨fun hc => hc.2 hx, ?_⟩
      subst h
      simp [hx, report]
    · rw [if_neg hx] at h
      subst h
      refine Or.inl ⟨hs, hx, by simp [report], ?_⟩
      exact hu.concat hs hmem hprefix rfl rfl rfl
  · refine Or.inr ⟨fun hc => hs hc.1, ?_⟩
    simp only [hd] at h
    obtain ⟨hg, -⟩ := declare_grows h
    intro hnil
    have := hg.silent hnil
    simp [report] at this

theorem declareBeliefs_cases {beliefs : List Belief} :
    ∀ {u u' : Assembly} {done : List Belief}, u.Declared done →
      (done.map (·.name.name)).Nodup → declareBeliefs beliefs u = .ok u' →
      ((∀ b ∈ beliefs, 1 ≤ b.arity ∧ b.arity ≤ 8) ∧
        ((done ++ beliefs).map (·.name.name)).Nodup ∧ u'.diagnostics = u.diagnostics ∧
        u'.Declared (done ++ beliefs)) ∨
      (¬((∀ b ∈ beliefs, 1 ≤ b.arity ∧ b.arity ≤ 8) ∧
        ((done ++ beliefs).map (·.name.name)).Nodup) ∧ u'.diagnostics ≠ []) := by
  induction beliefs with
  | nil =>
      intro u u' done hu hnodup h
      obtain rfl : u = u' := by simpa [declareBeliefs] using h
      exact Or.inl ⟨by simp, by simpa using hnodup, rfl, by simpa using hu⟩
  | cons b beliefs ih =>
      intro u u' done hu hnodup h
      obtain ⟨u₁, h₁, h₂⟩ := bind_eq_ok.mp h
      have hsplit : done ++ b :: beliefs = (done ++ [b]) ++ beliefs := by simp
      rcases declareBelief_cases hu h₁ with ⟨hs, hx, hdiag, hu₁⟩ | ⟨hno, hdiag⟩
      · have hnodup₁ : ((done ++ [b]).map (·.name.name)).Nodup := by
          simp only [List.map_append, List.map_cons, List.map_nil, List.nodup_append]
          refine ⟨hnodup, List.pairwise_singleton _ _, ?_⟩
          intro x hx' y hy hxy
          rw [List.mem_singleton.mp hy] at hxy
          exact hx (hxy ▸ hx')
        rw [hsplit]
        rcases ih hu₁ hnodup₁ h₂ with ⟨hsup, hnd, hdiag', hu'⟩ | ⟨hno, hdiag'⟩
        · refine Or.inl ⟨?_, hnd, hdiag'.trans hdiag, hu'⟩
          intro c hc
          rcases List.mem_cons.mp hc with rfl | hc
          · exact hs
          · exact hsup c hc
        · refine Or.inr ⟨fun hc => hno ⟨fun c hcm => ?_, hc.2⟩, hdiag'⟩
          exact hc.1 c (List.mem_cons_of_mem _ hcm)
      · refine Or.inr ⟨fun hc => hno ⟨hc.1 b (by simp), ?_⟩, ?_⟩
        · intro hmem
          have hnd := hc.2
          rw [List.map_append, List.nodup_append] at hnd
          exact hnd.2.2 _ hmem _ (by simp) rfl
        · exact fun hnil => hdiag ((declareBeliefs_grows h₂).1.silent hnil)

/-! ## Constructor and members -/

/-- The names of the agent, its tuple types and the methods so far are known:
`k` members are compiled. -/
structure Reached (u : Assembly) (a : Agent) (k : Nat) : Prop where
  frames : u.scopes.frames = [a.frame k]
  arities : ∀ b ∈ a.beliefs, (1 ≤ b.arity ∧ b.arity ≤ 8) ∧ b.arity ∈ u.tuples.arities
  methods_length : u.methods.length = k

theorem start_tracks {a : Agent} {k : Nat} {tuples : TupleTable}
    (harities : ∀ b ∈ a.beliefs, (1 ≤ b.arity ∧ b.arity ≤ 8) ∧ b.arity ∈ tuples.arities) :
    (Draft.start ⟨[a.frame k]⟩ tuples).Tracks (a.frame k) [] := by
  refine ⟨⟨[], rfl, rfl, by simp⟩, fun x b h => Agent.frame_global h, ?_⟩
  intro x f n h
  obtain ⟨l₁, l₂, heq, -⟩ := List.lookup_eq_some_iff.mp h
  have hmem : (x, Binding.field f n) ∈ a.frame k := by rw [heq]; simp
  obtain ⟨b, hb, -, rfl⟩ := Agent.mem_frame_field.mp hmem
  obtain ⟨hs, ha⟩ := harities b (List.mem_of_getElem? hb)
  exact TupleTable.describe_of_mem hs ha

theorem close_eq {u : Assembly} {d : Draft} {F : Frame} {rest : List Frame}
    (hd : d.scopes.frames = F :: rest) :
    u.close d =
      .ok ({ u with scopes := ⟨rest⟩, tuples := d.tuples }.report d.diagnostics) := by
  simp [close, Scopes.close, Scopes.exit, hd, bind, Except.bind, pure, Except.pure]

theorem close_grows {u u' : Assembly} {d₀ d : Draft} {n : Nat}
    (h₀ : d₀.scopes = u.scopes.enter) (hg : Draft.Grows n d₀ d) (h : u.close d = .ok u') :
    Grows u u' ∧ u'.methods = u.methods ∧ d.diagnostics <:+ u'.diagnostics := by
  cases hd : d.scopes.frames with
  | nil => simp [close, Scopes.close, Scopes.exit, hd, bind, Except.bind] at h
  | cons F rest =>
      rw [close_eq hd, Except.ok.injEq] at h
      subst h
      have hout := hg.outer
      rw [hd, h₀] at hout
      simp only [List.tail_cons, Scopes.enter] at hout
      exact ⟨⟨by simp [report, Scopes.depth, hout], List.prefix_append _ _⟩, rfl,
        List.suffix_append _ _⟩

/-- The code of the constructor. -/
def CompiledConstructor (a : Agent) (tuples : TupleTable) (method : MethodDef) : Prop :=
  ∃ d, Draft.InitEffects 0 a.beliefs
      (Draft.bindParams 1 a.params (.start ⟨[a.frame 0]⟩ tuples)) d ∧
    method = d.finish a.name.name .constructor (paramDefs a.params)

/-- The code of member `k`. -/
def CompiledMember (a : Agent) (k : Nat) (tuples : TupleTable) (m : Member)
    (method : MethodDef) : Prop :=
  ∃ d, Draft.Effects (a.frame (k + 1)) m.body
      (Draft.bindParams 1 m.params (.start ⟨[a.frame (k + 1)]⟩ tuples)) d ∧
    method = d.finish m.name.name m.kind.methodKind (paramDefs m.params)

theorem silent_of_suffix {es fs : List SemanticError} (h : es <:+ fs) (hf : fs = []) :
    es = [] :=
  List.suffix_nil.mp (hf ▸ h)

theorem constructor_grows {u u' : Assembly} {a : Agent} {method : MethodDef}
    (h : u.constructor a = .ok (method, u')) : Grows u u' ∧ u'.methods = u.methods := by
  obtain ⟨d₁, h₁, h⟩ := bind_eq_ok.mp h
  obtain ⟨d₂, h₂, h⟩ := bind_eq_ok.mp h
  obtain ⟨u₁, h₃, h⟩ := bind_eq_ok.mp h
  obtain ⟨-, rfl⟩ := Prod.mk.inj (Except.ok.inj h)
  have hg := (Draft.grows_declareParams h₁).trans (Draft.grows_initBeliefs h₂)
  obtain ⟨hgrows, hm, -⟩ := close_grows rfl hg h₃
  exact ⟨hgrows, hm⟩

theorem constructor_cases {u u' : Assembly} {a : Agent} {method : MethodDef}
    (hu : u.Declared a.beliefs) (h : u.constructor a = .ok (method, u')) :
    ((paramNames a.params).Nodup ∧
      (∀ b ∈ a.beliefs, ∀ e ∈ b.init, ∀ x ∈ e.names, x ∈ paramNames a.params) ∧
      u' = u ∧ CompiledConstructor a u.tuples method) ∨
    (¬((paramNames a.params).Nodup ∧
      ∀ b ∈ a.beliefs, ∀ e ∈ b.init, ∀ x ∈ e.names, x ∈ paramNames a.params) ∧
      u'.diagnostics ≠ []) := by
  obtain ⟨d₁, h₁, h⟩ := bind_eq_ok.mp h
  obtain ⟨d₂, h₂, h⟩ := bind_eq_ok.mp h
  obtain ⟨u₁, h₃, h⟩ := bind_eq_ok.mp h
  obtain ⟨rfl, rfl⟩ := Prod.mk.inj (Except.ok.inj h)
  have hscopes : u.scopes = ⟨[a.frame 0]⟩ := by
    have := hu.frames
    cases hs : u.scopes
    simp_all [Agent.frame, memberFrame]
  have hg := (Draft.grows_declareParams h₁).trans (Draft.grows_initBeliefs h₂)
  obtain ⟨-, -, hsuffix⟩ := close_grows rfl hg h₃
  have hinit : (∀ b ∈ a.beliefs, ∀ x ∈ b.init.flatMap Expr.names, x ∈ paramNames a.params) ↔
      ∀ b ∈ a.beliefs, ∀ e ∈ b.init, ∀ x ∈ e.names, x ∈ paramNames a.params := by
    simp only [List.mem_flatMap]
    exact ⟨fun h b hb e he x hx => h b hb x ⟨e, he, hx⟩,
      fun h b hb x ⟨e, he, hx⟩ => h b hb e he x hx⟩
  rw [hscopes] at h₁
  have ht : (Draft.start ⟨[a.frame 0]⟩ u.tuples).Tracks (a.frame 0) [] :=
    start_tracks hu.arities
  rcases Draft.declareParams_cases ht List.nodup_nil h₁ with ⟨hnd, rfl⟩ | ⟨hnd, hdiag⟩
  · have ht₁ := ht.bindParams a.params 1
    rw [List.nil_append] at hnd ht₁
    have hready : ∀ (i : Nat) (b : Belief), a.beliefs[i]? = some b →
        (u.fields[0 + i]?.bind FieldDef.tuple).isSome = true ∧
          ∃ id, (Draft.bindParams 1 a.params (.start ⟨[a.frame 0]⟩ u.tuples)).tuples.describe
            b.arity = (.ok id, (Draft.bindParams 1 a.params
              (.start ⟨[a.frame 0]⟩ u.tuples)).tuples) := by
      intro i b hb
      obtain ⟨id, hid⟩ := hu.fields_get i b hb
      obtain ⟨hs, hmem⟩ := hu.arities b (List.mem_of_getElem? hb)
      rw [Nat.zero_add, Draft.bindParams_eq]
      exact ⟨by simp [hid], TupleTable.describe_of_mem hs hmem⟩
    rcases Draft.initBeliefs_cases ht₁ hready h₂ with ⟨hn, heff⟩ | ⟨hn, hdiag⟩
    · refine Or.inl ⟨hnd, hinit.mp hn, ?_, d₂, heff, rfl⟩
      obtain ⟨hs₂, ht₂, -, hd₂⟩ := heff.shape
      obtain ⟨F, hF, -⟩ := ht₁.frames
      rw [close_eq (hs₂ ▸ hF), Except.ok.injEq] at h₃
      rw [← h₃, ht₂, hd₂, Draft.bindParams_eq]
      cases u
      simp_all [report, Draft.start]
    · exact Or.inr ⟨fun hc => hn (hinit.mpr hc.2),
        fun hnil => hdiag (silent_of_suffix hsuffix hnil)⟩
  · refine Or.inr ⟨fun hc => hnd (by simpa using hc.1), fun hnil => hdiag ?_⟩
    exact (Draft.grows_initBeliefs h₂).silent (silent_of_suffix hsuffix hnil)

theorem member_grows {checkArity : Bool} {u u' : Assembly} {m : Member}
    (h : u.member checkArity m = .ok u') :
    Grows u u' ∧ u'.methods.length = u.methods.length + 1 := by
  obtain ⟨id, -, h⟩ := bind_eq_ok.mp h
  obtain ⟨u₁, h₁, h⟩ := bind_eq_ok.mp h
  obtain ⟨d₁, h₂, h⟩ := bind_eq_ok.mp h
  obtain ⟨d₂, h₃, h⟩ := bind_eq_ok.mp h
  obtain ⟨u₂, h₄, h⟩ := bind_eq_ok.mp h
  obtain rfl := Except.ok.inj h
  obtain ⟨hg₁, -, hm₁⟩ := declare_grows h₁
  have hg := (Draft.grows_declareParams h₂).trans (Draft.grows_statements h₃)
  obtain ⟨hg₂, hm₂, -⟩ := close_grows rfl hg h₄
  have hg' := hg₁.trans hg₂
  exact ⟨⟨hg'.depth, hg'.diagnostics⟩, by simp [hm₂, hm₁]⟩

theorem members_grows {checkArity : Bool} {members : List Member} :
    ∀ {u u' : Assembly}, Assembly.members checkArity members u = .ok u' → Grows u u' := by
  induction members with
  | nil =>
      intro u u' h
      obtain rfl : u = u' := by simpa [Assembly.members] using h
      exact ⟨rfl, List.prefix_refl _⟩
  | cons m members ih =>
      intro u u' h
      obtain ⟨u₁, h₁, h₂⟩ := bind_eq_ok.mp h
      exact (member_grows h₁).1.trans (ih h₂)

/-- The rules for one member, once its name is new. -/
def MemberScoped (checkArity : Bool) (a : Agent) (k : Nat) (m : Member) : Prop :=
  (paramNames m.params).Nodup ∧
    ∀ (i : Nat) (s : Stmt), m.body[i]? = some s →
      s.WellScoped checkArity a k (m.namesBefore i)

theorem member_cases {checkArity : Bool} {u u' : Assembly} {a : Agent} {k : Nat}
    {m : Member} (hu : u.Reached a k) (hnodup : ((a.frame k).map Prod.fst).Nodup)
    (hm : a.members[k]? = some m) (h : u.member checkArity m = .ok u') :
    (((a.frame (k + 1)).map Prod.fst).Nodup ∧ MemberScoped checkArity a k m ∧
      ∃ method, CompiledMember a k u.tuples m method ∧
        u' = { u with
          scopes := ⟨[a.frame (k + 1)]⟩
          methods := u.methods ++ [method] }) ∨
    (¬(((a.frame (k + 1)).map Prod.fst).Nodup ∧ MemberScoped checkArity a k m) ∧
      u'.diagnostics ≠ []) := by
  obtain ⟨id, hid, h⟩ := bind_eq_ok.mp h
  rw [(slotIndex_eq_ok.mp hid).2, hu.methods_length] at h
  obtain ⟨u₁, h₁, h⟩ := bind_eq_ok.mp h
  obtain ⟨d₁, h₂, h⟩ := bind_eq_ok.mp h
  obtain ⟨d₂, h₃, h⟩ := bind_eq_ok.mp h
  obtain ⟨u₂, h₄, h⟩ := bind_eq_ok.mp h
  obtain rfl := Except.ok.inj h
  have hg := (Draft.grows_declareParams h₂).trans (Draft.grows_statements h₃)
  obtain ⟨hg₂, -, hsuffix⟩ := close_grows rfl hg h₄
  have hkeys : (a.frame (k + 1)).map Prod.fst =
      m.name.name :: (a.frame k).map Prod.fst := by rw [Agent.frame_succ hm]; rfl
  rw [declare_eq hu.frames, Except.ok.injEq] at h₁
  by_cases hx : m.name.name ∈ (a.frame k).map Prod.fst
  · refine Or.inr ⟨fun hc => ?_, fun hnil => ?_⟩
    · rw [hkeys, List.nodup_cons] at hc
      exact hc.1.1 hx
    · have := hg₂.silent hnil
      rw [if_pos hx] at h₁
      subst h₁
      simp [report] at this
  · have hnodup' : ((a.frame (k + 1)).map Prod.fst).Nodup := by
      rw [hkeys]
      exact List.nodup_cons.mpr ⟨hx, hnodup⟩
    rw [if_neg hx, ← Agent.frame_succ hm] at h₁
    subst h₁
    have ht : (Draft.start ⟨[a.frame (k + 1)]⟩ u.tuples).Tracks (a.frame (k + 1)) [] :=
      start_tracks hu.arities
    rcases Draft.declareParams_cases ht List.nodup_nil h₂ with ⟨hnd, rfl⟩ | ⟨hnd, hdiag⟩
    · have ht₁ := ht.bindParams m.params 1
      rw [List.nil_append] at hnd ht₁
      have hbody : Draft.BodyResolves checkArity (a.frame (k + 1)) (paramNames m.params)
          m.body ↔ ∀ (i : Nat) (s : Stmt), m.body[i]? = some s →
            s.WellScoped checkArity a k (m.namesBefore i) := bodyResolves_iff hnodup'
      rcases Draft.statements_cases ht₁ h₃ with ⟨hres, heff⟩ | ⟨hres, hdiag⟩
      · refine Or.inl ⟨hnodup', ⟨hnd, hbody.mp hres⟩, _, ⟨d₂, heff, rfl⟩, ?_⟩
        obtain ⟨ht₂, hd₂⟩ := heff.shape
        obtain ⟨F, hF, -⟩ := (heff.tracks ht₁).frames
        rw [close_eq hF, Except.ok.injEq] at h₄
        rw [← h₄, ht₂, hd₂, Draft.bindParams_eq]
        simp [report, Draft.start]
      · exact Or.inr ⟨fun hc => hres (hbody.mpr hc.2.2),
          fun hnil => hdiag (silent_of_suffix hsuffix hnil)⟩
    · refine Or.inr ⟨fun hc => hnd (by simpa using hc.2.1), fun hnil => hdiag ?_⟩
      exact (Draft.grows_statements h₃).silent (silent_of_suffix hsuffix hnil)

theorem nodup_frame_of_globals {a : Agent} {k : Nat} (h : a.globalNames.Nodup) :
    ((a.frame k).map Prod.fst).Nodup := by
  rw [Agent.keys_frame]
  refine List.nodup_reverse.mpr (List.Nodup.sublist ?_ h)
  exact List.Sublist.append (List.Sublist.refl _) ((List.take_sublist _ _).map _)

theorem nodup_frame_length_iff {a : Agent} :
    ((a.frame a.members.length).map Prod.fst).Nodup ↔ a.globalNames.Nodup := by
  rw [Agent.keys_frame, List.take_length, List.nodup_reverse, Agent.globalNames]

theorem members_cases {checkArity : Bool} {a : Agent} {members : List Member} :
    ∀ {u u' : Assembly} {k : Nat}, u.Reached a k → ((a.frame k).map Prod.fst).Nodup →
      a.members.drop k = members → Assembly.members checkArity members u = .ok u' →
      (a.globalNames.Nodup ∧
        (∀ (j : Nat) (m : Member), k ≤ j → a.members[j]? = some m →
          MemberScoped checkArity a j m ∧
            ∃ method, u'.methods[j]? = some method ∧ CompiledMember a j u.tuples m method) ∧
        u.methods <+: u'.methods ∧ u'.methods.length = k + members.length ∧
        u'.scopes = ⟨[a.frame a.members.length]⟩ ∧ u'.tuples = u.tuples ∧
        u'.fields = u.fields ∧ u'.diagnostics = u.diagnostics) ∨
      (¬(a.globalNames.Nodup ∧ ∀ (j : Nat) (m : Member), k ≤ j → a.members[j]? = some m →
          MemberScoped checkArity a j m) ∧ u'.diagnostics ≠ []) := by
  induction members with
  | nil =>
      intro u u' k hu hnodup hdrop h
      obtain rfl : u = u' := by simpa [Assembly.members] using h
      have hlen : a.members.length ≤ k := List.drop_eq_nil_iff.mp hdrop
      have hframe : a.frame k = a.frame a.members.length := by
        simp [Agent.frame, List.take_of_length_le hlen]
      refine Or.inl ⟨nodup_frame_length_iff.mp (hframe ▸ hnodup), ?_, List.prefix_refl _,
        hu.methods_length, ?_, rfl, rfl, rfl⟩
      · intro j m hj hm
        have := (List.getElem?_eq_some_iff.mp hm).1
        omega
      · have := hu.frames
        cases hs : u.scopes
        simp_all
  | cons m members ih =>
      intro u u' k hu hnodup hdrop h
      obtain ⟨u₁, h₁, h₂⟩ := bind_eq_ok.mp h
      have hm : a.members[k]? = some m := by
        have := congrArg List.head? hdrop
        simpa using this
      have hdrop' : a.members.drop (k + 1) = members := by
        rw [← List.tail_drop, hdrop, List.tail_cons]
      rcases member_cases hu hnodup hm h₁ with
        ⟨hnodup', hscoped, method, hcomp, rfl⟩ | ⟨hno, hdiag⟩
      · have hu₁ : Reached { u with
            scopes := ⟨[a.frame (k + 1)]⟩
            methods := u.methods ++ [method] } a (k + 1) :=
          ⟨rfl, hu.arities, by simp [hu.methods_length]⟩
        rcases ih hu₁ hnodup' hdrop' h₂ with
          ⟨hglob, hall, hprefix, hlen, hscopes, htuples, hfields, hd⟩ | ⟨hno, hdiag⟩
        · refine Or.inl ⟨hglob, ?_, (List.prefix_append _ _).trans hprefix,
            by simp only [List.length_cons]; omega, hscopes, htuples, hfields, hd⟩
          intro j m' hj hm'
          rcases Nat.eq_or_lt_of_le hj with rfl | hlt
          · obtain rfl := Option.some.inj (hm.symm.trans hm')
            refine ⟨hscoped, method, ?_, hcomp⟩
            obtain ⟨rest, hrest⟩ := hprefix
            rw [← hrest]
            simp [← hu.methods_length]
          · exact hall j m' hlt hm'
        · refine Or.inr ⟨fun hc => hno ⟨hc.1, fun j m' hj hm' => ?_⟩, hdiag⟩
          exact hc.2 j m' (by omega) hm'
      · refine Or.inr ⟨fun hc => hno ⟨nodup_frame_of_globals hc.1, ?_⟩, ?_⟩
        · exact hc.2 k m (Nat.le_refl _) hm
        · exact fun hnil => hdiag ((members_grows h₂).silent hnil)

/-! ## Totality -/

theorem declareBeliefs_total {beliefs : List Belief} :
    ∀ {u : Assembly}, 0 < u.scopes.depth →
      u.fields.length + beliefs.length ≤ 4294967296 →
      ∃ u', declareBeliefs beliefs u = .ok u' := by
  induction beliefs with
  | nil => exact fun _ _ => ⟨_, rfl⟩
  | cons b beliefs ih =>
      intro u hu hlen
      simp only [List.length_cons] at hlen
      obtain ⟨u₁, h₁⟩ : ∃ u₁, u.declareBelief b = .ok u₁ := by
        simp only [declareBelief]
        have hslot : slotIndex u.fields.length "beliefs" = .ok u.fields.length :=
          slotIndex_eq_ok.mpr ⟨by omega, rfl⟩
        rw [hslot]
        refine declare_total ?_ _ _
        exact hu
      obtain ⟨hg, hf, -⟩ := declareBelief_grows h₁
      obtain ⟨u₂, h₂⟩ := ih (hg.depth ▸ hu) (by omega)
      exact ⟨u₂, bind_eq_ok.mpr ⟨u₁, h₁, h₂⟩⟩

theorem close_total {u : Assembly} {d₀ d : Draft} {n : Nat}
    (h₀ : d₀.scopes = u.scopes.enter) (hg : Draft.Grows n d₀ d) :
    ∃ u', u.close d = .ok u' := by
  have hpos : 0 < d.scopes.depth := by
    rw [hg.depth, h₀, Scopes.depth_enter]
    omega
  obtain ⟨F, rest, hs⟩ := List.exists_cons_of_length_pos hpos
  exact ⟨_, close_eq hs⟩

theorem constructor_total (u : Assembly) {a : Agent} (ha : a.Countable) :
    ∃ r, u.constructor a = .ok r := by
  have hp := ha.params
  have hb := ha.beliefs
  obtain ⟨d₁, h₁⟩ : ∃ d₁, Draft.declareParams 1 a.params
      (.start u.scopes u.tuples) = .ok d₁ :=
    Draft.declareParams_total (by simp [Draft.start]) (by omega)
  obtain ⟨d₂, h₂⟩ : ∃ d₂, Draft.initBeliefs u.fields 0 a.beliefs d₁ = .ok d₂ :=
    Draft.initBeliefs_total (by omega)
  obtain ⟨u', h'⟩ := close_total (u := u) rfl
    ((Draft.grows_declareParams h₁).trans (Draft.grows_initBeliefs h₂))
  exact ⟨_, bind_eq_ok.mpr ⟨d₁, h₁, bind_eq_ok.mpr ⟨d₂, h₂,
    bind_eq_ok.mpr ⟨u', h', rfl⟩⟩⟩⟩

theorem member_total (checkArity : Bool) {u : Assembly} (hu : 0 < u.scopes.depth)
    (hlen : u.methods.length < 4294967296) {a : Agent} (ha : a.Countable) {m : Member}
    (hm : m ∈ a.members) : ∃ u', u.member checkArity m = .ok u' := by
  obtain ⟨u₁, h₁⟩ := declare_total hu m.name (.callable u.methods.length m.params.length)
  have hp := ha.memberParams m hm
  have ht := ha.targets m hm
  obtain ⟨d₁, h₂⟩ : ∃ d₁, Draft.declareParams 1 m.params
      (.start u₁.scopes u₁.tuples) = .ok d₁ :=
    Draft.declareParams_total (by simp [Draft.start]) (by omega)
  have hg := Draft.grows_declareParams h₂
  obtain ⟨d₂, h₃⟩ : ∃ d₂, Draft.statements checkArity m.body d₁ = .ok d₂ := by
    refine Draft.statements_total checkArity ?_ (ha.args m hm) ?_
    · rw [hg.depth]
      simp [Draft.start]
    · have := hg.locals
      simp only [Draft.start, List.length_nil] at this
      omega
  obtain ⟨u₂, h₄⟩ := close_total (u := u₁) rfl (hg.trans (Draft.grows_statements h₃))
  exact ⟨_, bind_eq_ok.mpr ⟨_, slotIndex_eq_ok.mpr ⟨hlen, rfl⟩,
    bind_eq_ok.mpr ⟨u₁, h₁, bind_eq_ok.mpr ⟨d₁, h₂, bind_eq_ok.mpr ⟨d₂, h₃,
      bind_eq_ok.mpr ⟨u₂, h₄, rfl⟩⟩⟩⟩⟩⟩

theorem members_total (checkArity : Bool) {a : Agent} (ha : a.Countable)
    {members : List Member} :
    ∀ {u : Assembly}, 0 < u.scopes.depth → members ⊆ a.members →
      u.methods.length + members.length ≤ 4294967296 →
      ∃ u', Assembly.members checkArity members u = .ok u' := by
  induction members with
  | nil => exact fun _ _ _ => ⟨_, rfl⟩
  | cons m members ih =>
      intro u hu hsub hlen
      simp only [List.length_cons] at hlen
      obtain ⟨u₁, h₁⟩ := member_total checkArity hu (by omega) ha (hsub List.mem_cons_self)
      obtain ⟨hg, hm⟩ := member_grows h₁
      obtain ⟨u₂, h₂⟩ := ih (hg.depth ▸ hu)
        (fun x hx => hsub (List.mem_cons_of_mem _ hx)) (by omega)
      exact ⟨u₂, bind_eq_ok.mpr ⟨u₁, h₁, h₂⟩⟩

end Assembly

/-! ## Whole agents -/

/-- What generation makes of an agent that keeps to the rules. -/
structure Compiled (a : Agent) (tuples : TupleTable) (type : AgentType) : Prop where
  tuples_eq : type.tuples = tuples.descriptors
  arities : ∀ b ∈ a.beliefs, (1 ≤ b.arity ∧ b.arity ≤ 8) ∧ b.arity ∈ tuples.arities
  fields_length : type.fields.length = a.beliefs.length
  fields_get : ∀ (i : Nat) (b : Belief), a.beliefs[i]? = some b →
    ∃ id, type.fields[i]? = some ⟨b.name.name, b.arity, some id⟩
  constructor_code : Assembly.CompiledConstructor a tuples type.constructor
  methods_length : type.methods.length = a.members.length
  methods_get : ∀ (k : Nat) (m : Member), a.members[k]? = some m →
    ∃ method, type.methods[k]? = some method ∧ Assembly.CompiledMember a k tuples m method

/-- The phases of generation, and that it closes the scope it opened. -/
theorem generate_eq_ok {checkArity : Bool} {a : Agent} {r : AgentType × List SemanticError}
    (h : generate checkArity a = .ok r) :
    ∃ u₁ ctor u₂ u₃, Assembly.declareBeliefs a.beliefs (.enter .empty) = .ok u₁ ∧
      u₁.constructor a = .ok (ctor, u₂) ∧
      Assembly.members checkArity a.members u₂ = .ok u₃ ∧
      r = (⟨a.name.name, paramDefs a.params, u₃.fields, u₃.tuples.descriptors, ctor,
        u₃.methods⟩, u₃.diagnostics) := by
  obtain ⟨⟨type, g⟩, hg, h⟩ := bind_eq_ok.mp h
  obtain rfl := Except.ok.inj h
  obtain ⟨u₁, h₁, hg⟩ := bind_eq_ok.mp hg
  obtain ⟨⟨ctor, u₂⟩, h₂, hg⟩ := bind_eq_ok.mp hg
  obtain ⟨u₃, h₃, hg⟩ := bind_eq_ok.mp hg
  obtain ⟨scopes, -, hg⟩ := bind_eq_ok.mp hg
  refine ⟨u₁, ctor, u₂, u₃, h₁, h₂, h₃, ?_⟩
  split at hg
  · cases hg
  · obtain ⟨rfl, rfl⟩ := Prod.mk.inj (Except.ok.inj hg)
    rfl

theorem generate_cases {checkArity : Bool} {a : Agent} {type : AgentType}
    {diagnostics : List SemanticError}
    (h : generate checkArity a = .ok (type, diagnostics)) :
    (a.WellScoped checkArity ∧ diagnostics = [] ∧ ∃ tuples, Compiled a tuples type) ∨
    (¬a.WellScoped checkArity ∧ diagnostics ≠ []) := by
  obtain ⟨u₁, ctor, u₂, u₃, h₁, h₂, h₃, heq⟩ := generate_eq_ok h
  obtain ⟨rfl, rfl⟩ := Prod.mk.inj heq
  have hstart : Assembly.empty.enter.Declared [] :=
    ⟨rfl, rfl, by simp, by simp, rfl⟩
  have hg₃ := Assembly.members_grows h₃
  have hg₂ := (Assembly.constructor_grows h₂).1
  rcases Assembly.declareBeliefs_cases hstart List.nodup_nil h₁ with
    ⟨hsup, hnd, hd₁, hu₁⟩ | ⟨hno, hdiag⟩
  · rw [List.nil_append] at hnd hu₁
    rcases Assembly.constructor_cases hu₁ h₂ with ⟨hpar, hinit, rfl, hctor⟩ | ⟨hno, hdiag⟩
    · have hreach : u₂.Reached a 0 :=
        ⟨by rw [hu₁.frames]; simp [Agent.frame, memberFrame], hu₁.arities,
          by rw [hu₁.methods]; rfl⟩
      have hkeys : ((a.frame 0).map Prod.fst).Nodup := by
        rw [Agent.keys_frame]
        simpa using List.nodup_reverse.mpr hnd
      rcases Assembly.members_cases hreach hkeys rfl h₃ with
        ⟨hglob, hall, -, hlen, -, htuples, hfields, hd₃⟩ | ⟨hno, hdiag⟩
      · refine Or.inl ⟨⟨hglob, hpar, ?_, hsup, hinit, ?_⟩, hd₃.trans hd₁, u₂.tuples, ?_⟩
        · intro m hm
          obtain ⟨k, hk⟩ := List.getElem?_of_mem hm
          exact (hall k m (Nat.zero_le _) hk).1.1
        · exact fun k m hm => (hall k m (Nat.zero_le _) hm).1.2
        · exact ⟨by rw [htuples], hu₁.arities, by rw [hfields]; exact hu₁.fields_length,
            by rw [hfields]; exact hu₁.fields_get, hctor, by simpa using hlen,
            fun k m hm => (hall k m (Nat.zero_le _) hm).2⟩
      · refine Or.inr ⟨fun hw => hno ⟨hw.globals_nodup, fun j m _ hm => ?_⟩, hdiag⟩
        exact ⟨hw.memberParams_nodup m (List.mem_of_getElem? hm), hw.body_scoped j m hm⟩
    · exact Or.inr ⟨fun hw => hno ⟨hw.params_nodup, hw.init_bound⟩,
        fun hnil => hdiag (hg₃.silent hnil)⟩
  · refine Or.inr ⟨fun hw => hno ⟨hw.arity_supported, ?_⟩, fun hnil => hdiag ?_⟩
    · simpa using (List.nodup_append.mp hw.globals_nodup).1
    · exact hg₂.silent (hg₃.silent hnil)

theorem generate_total (checkArity : Bool) {a : Agent} (ha : a.Countable) :
    ∃ r, generate checkArity a = .ok r := by
  have hb := ha.beliefs
  have hm := ha.members
  obtain ⟨u₁, h₁⟩ : ∃ u₁, Assembly.declareBeliefs a.beliefs (.enter .empty) = .ok u₁ :=
    Assembly.declareBeliefs_total (by simp [Assembly.enter])
      (by simp only [Assembly.enter, Assembly.empty, List.length_nil]; omega)
  obtain ⟨⟨ctor, u₂⟩, h₂⟩ := Assembly.constructor_total u₁ ha
  obtain ⟨hg₁, hm₁⟩ := Assembly.declareBeliefs_grows h₁
  obtain ⟨hg₂, hm₂⟩ := Assembly.constructor_grows h₂
  have hdepth : u₂.scopes.depth = 1 := by
    rw [hg₂.depth, hg₁.depth]
    rfl
  have hnone : u₂.methods = [] := by
    rw [hm₂, hm₁]
    rfl
  obtain ⟨u₃, h₃⟩ : ∃ u₃, Assembly.members checkArity a.members u₂ = .ok u₃ :=
    Assembly.members_total checkArity ha (by omega) (List.Subset.refl _)
      (by rw [hnone, List.length_nil]; omega)
  have hdepth₃ : u₃.scopes.frames.length = 1 := (Assembly.members_grows h₃).depth.trans hdepth
  obtain ⟨F, hF⟩ := List.length_eq_one_iff.mp hdepth₃
  have hclose : u₃.scopes.close = .ok ⟨[]⟩ := by
    simp [Scopes.close, Scopes.exit, hF]
  refine ⟨_, bind_eq_ok.mpr ⟨_, bind_eq_ok.mpr ⟨u₁, h₁, bind_eq_ok.mpr ⟨(ctor, u₂), h₂,
    bind_eq_ok.mpr ⟨u₃, h₃, bind_eq_ok.mpr ⟨⟨[]⟩, hclose, rfl⟩⟩⟩⟩, rfl⟩⟩

/-- **The checker is sound and complete.** On an agent whose lists can be
numbered generation always returns, and it reports nothing exactly if the
agent is well scoped. -/
theorem generate_silent_iff_wellScoped (checkArity : Bool) {a : Agent}
    (ha : a.Countable) :
    ∃ type diagnostics, generate checkArity a = .ok (type, diagnostics) ∧
      (diagnostics = [] ↔ a.WellScoped checkArity) := by
  obtain ⟨⟨type, diagnostics⟩, h⟩ := generate_total checkArity ha
  refine ⟨type, diagnostics, h, ?_⟩
  rcases generate_cases h with ⟨hw, hnil, -⟩ | ⟨hw, hne⟩
  · exact ⟨fun _ => hw, fun _ => hnil⟩
  · exact ⟨fun hnil => absurd hnil hne, fun hw' => absurd hw' hw⟩

/-- A counter of units and of steps: a plan adds to both, a handler resets the
units and adds what is left after sharing them out. -/
def counter : Agent where
  name := ⟨"Counter", .nowhere⟩
  params := [⟨⟨"start", .nowhere⟩, ⟨"int", .nowhere⟩, .nowhere⟩]
  beliefs := [⟨⟨"count", .nowhere⟩, [.ident "start" .nowhere, .number 0 .nowhere], .nowhere⟩]
  members := [
    ⟨.plan, ⟨"add", .nowhere⟩, [⟨⟨"n", .nowhere⟩, ⟨"int", .nowhere⟩, .nowhere⟩], [
      ⟨.query, ⟨⟨"count", .nowhere⟩, [.ident "units" .nowhere, .ident "steps" .nowhere],
        .nowhere⟩, .nowhere⟩,
      ⟨.update, ⟨⟨"count", .nowhere⟩, [
        .binary .add (.ident "units" .nowhere) (.ident "n" .nowhere) .nowhere,
        .binary .add (.ident "steps" .nowhere) (.number 1 .nowhere) .nowhere],
        .nowhere⟩, .nowhere⟩], .nowhere⟩,
    ⟨.handler, ⟨"share", .nowhere⟩, [⟨⟨"n", .nowhere⟩, ⟨"int", .nowhere⟩, .nowhere⟩], [
      ⟨.query, ⟨⟨"count", .nowhere⟩, [.ident "units" .nowhere, .ident "steps" .nowhere],
        .nowhere⟩, .nowhere⟩,
      ⟨.update, ⟨⟨"count", .nowhere⟩, [.number 0 .nowhere, .ident "steps" .nowhere],
        .nowhere⟩, .nowhere⟩,
      ⟨.invoke, ⟨⟨"add", .nowhere⟩, [
        .binary .div (.ident "units" .nowhere) (.ident "n" .nowhere) .nowhere],
        .nowhere⟩, .nowhere⟩], .nowhere⟩]
  span := .nowhere

theorem counter_countable : counter.Countable :=
  ⟨by decide, by decide, by decide, by decide, by decide, by decide⟩

theorem counter_silent : ∃ type, generate true counter = .ok (type, []) := by
  have hsilent : (generate true counter).map Prod.snd = .ok [] := by decide
  cases h : generate true counter with
  | error e =>
      rw [h] at hsilent
      cases hsilent
  | ok r =>
      rw [h] at hsilent
      exact ⟨r.1, by rw [← Except.ok.inj hsilent]⟩

theorem counter_wellScoped : counter.Countable ∧ counter.WellScoped true := by
  refine ⟨counter_countable, ?_⟩
  obtain ⟨type, diagnostics, h, hiff⟩ := generate_silent_iff_wellScoped true counter_countable
  obtain ⟨type', h'⟩ := counter_silent
  obtain ⟨-, rfl⟩ : type = type' ∧ diagnostics = [] := by simpa [h] using h'
  exact hiff.mp rfl

end AgentLang
