import AgentLang.Generator

/-!
# Static rules

When an agent is well scoped, said about the tree alone: no frames, no slots,
no code. `Agent.WellScoped` collects the rules; the ones for a statement
depend on the number of the member it stands in, because a member is known to
itself and to the members after it, and on the integers that are known at its
place, which are the parameters of the member and the targets of the queries
before the statement.

`Agent.Countable` is the one condition that is no rule of the language: lists
so long that their elements cannot be numbered with 32 bits stop generation
without a diagnostic.
-/

namespace AgentLang

/-- The names that an expression reads, from left to right. -/
def Expr.names : Expr → List String
  | ident name _ => [name]
  | number _ _ => []
  | binary _ left right _ => left.names ++ right.names

def Term.names (t : Term) : List String := t.args.flatMap Expr.names

/-- The names that a statement binds for the statements after it. -/
def Stmt.targets (s : Stmt) : List String :=
  match s.kind with
  | .query => s.term.args.filterMap Expr.name?
  | .update | .invoke => []

def paramNames (params : List Param) : List String := params.map (·.name.name)

/-- The integers that are known before statement `i` of a member. -/
def Member.namesBefore (m : Member) (i : Nat) : List String :=
  paramNames m.params ++ (m.body.take i).flatMap Stmt.targets

def Agent.HasBelief (a : Agent) (name : String) (arity : Nat) : Prop :=
  ∃ b ∈ a.beliefs, b.name.name = name ∧ b.arity = arity

/-- The rules for a statement of member `k` where the names `env` are bound
to integers. -/
def Stmt.WellScoped (checkArity : Bool) (a : Agent) (k : Nat) (env : List String)
    (s : Stmt) : Prop :=
  s.term.name.name ∉ env ∧
    match s.kind with
    | .query =>
      a.HasBelief s.term.name.name s.term.args.length ∧
        ∃ xs : List String, s.term.args.map Expr.name? = xs.map some ∧
          xs.Nodup ∧ ∀ x ∈ xs, x ∉ env
    | .update =>
      a.HasBelief s.term.name.name s.term.args.length ∧
        ∀ x ∈ s.term.names, x ∈ env
    | .invoke =>
      (∃ j ≤ k, ∃ m, a.members[j]? = some m ∧ m.name.name = s.term.name.name ∧
        (checkArity = true → s.term.args.length = m.params.length)) ∧
        ∀ x ∈ s.term.names, x ∈ env

def Agent.globalNames (a : Agent) : List String :=
  a.beliefs.map (·.name.name) ++ a.members.map (·.name.name)

/-- The rules for a whole agent. -/
structure Agent.WellScoped (checkArity : Bool) (a : Agent) : Prop where
  globals_nodup : a.globalNames.Nodup
  params_nodup : (paramNames a.params).Nodup
  memberParams_nodup : ∀ m ∈ a.members, (paramNames m.params).Nodup
  arity_supported : ∀ b ∈ a.beliefs, 1 ≤ b.arity ∧ b.arity ≤ 8
  init_bound : ∀ b ∈ a.beliefs, ∀ e ∈ b.init, ∀ x ∈ e.names, x ∈ paramNames a.params
  body_scoped : ∀ (k : Nat) (m : Member), a.members[k]? = some m →
    ∀ (i : Nat) (s : Stmt), m.body[i]? = some s →
      s.WellScoped checkArity a k (m.namesBefore i)

/-- Every list whose elements are numbered is shorter than `2 ^ 32 - 1`. -/
structure Agent.Countable (a : Agent) : Prop where
  beliefs : a.beliefs.length < 4294967295
  members : a.members.length < 4294967295
  params : a.params.length < 4294967295
  memberParams : ∀ m ∈ a.members, m.params.length < 4294967295
  args : ∀ m ∈ a.members, ∀ s ∈ m.body, s.term.args.length < 4294967295
  targets : ∀ m ∈ a.members, (m.body.flatMap Stmt.targets).length < 4294967295

end AgentLang
