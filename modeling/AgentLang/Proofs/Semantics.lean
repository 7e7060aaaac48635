import AgentLang.Proofs.StaticRules

/-!
# What an agent means

The meaning of an agent as a reader of its source would give it: beliefs are
lists of integers under their names, a body is run over an environment of
names, and integers are computed without slots, stacks or tuples.

A member may call itself, so meaning is given up to a depth to which calls
nest; a call that nests deeper is `tooDeep`. What no rule gives a meaning to,
such as a query of an unknown belief, is `meaningless` and is kept apart from
the failures of a program that has one.
-/

namespace AgentLang

/-- The integers that names are bound to, the latest binding first. -/
abbrev Env := List (String × Int64)

/-- The values of the beliefs, by name. -/
abbrev Store := List (String × List Int64)

/-- Why something has no result. -/
inductive Failure where
  | divisionByZero
  | tooDeep
  | meaningless
deriving Repr, DecidableEq

/-! ## Expressions -/

/-- The integer of the language that equals `n`, if there is one. -/
def integerOf? (n : Int) : Option Int64 :=
  if Int64.minValue.toInt ≤ n ∧ n ≤ Int64.maxValue.toInt then some (.ofInt n) else none

/-- Sums, differences and products are taken modulo `2 ^ 64`. A quotient is
rounded toward zero; there is none by zero, and none that is too large. -/
def BinOp.meaning (op : BinOp) (x y : Int64) : Option Int64 :=
  match op with
  | add => some (.ofInt (x.toInt + y.toInt))
  | sub => some (.ofInt (x.toInt - y.toInt))
  | mul => some (.ofInt (x.toInt * y.toInt))
  | div => if y.toInt = 0 then none else integerOf? (x.toInt.tdiv y.toInt)

def Expr.eval (env : Env) : Expr → Except Failure Int64
  | ident name _ =>
    match env.lookup name with
    | some v => .ok v
    | none => .error .meaningless
  | number value _ => .ok value
  | binary op left right _ =>
    match left.eval env with
    | .error f => .error f
    | .ok x =>
      match right.eval env with
      | .error f => .error f
      | .ok y =>
        match op.meaning x y with
        | some v => .ok v
        | none => .error .divisionByZero

/-- The values of expressions, from left to right. -/
def evalAll (env : Env) : List Expr → Except Failure (List Int64)
  | [] => .ok []
  | e :: es =>
    match e.eval env with
    | .error f => .error f
    | .ok v =>
      match evalAll env es with
      | .error f => .error f
      | .ok vs => .ok (v :: vs)

/-! ## Statements -/

/-- Binds names to integers, in order. -/
def Env.bind (env : Env) (xs : List String) (values : List Int64) : Env :=
  (xs.zip values).reverse ++ env

/-- Replaces the values of a belief. -/
def Store.write (store : Store) (name : String) (values : List Int64) : Store :=
  store.map fun (n, vs) => if n = name then (n, values) else (n, vs)

/-- A member run by name on a store. -/
abbrev Performance := String → List Int64 → Store → Except Failure Unit × Store

def Stmt.exec (perform : Performance) (s : Stmt) (env : Env) (store : Store) :
    Except Failure Env × Store :=
  match s.kind with
  | .query =>
    match store.lookup s.term.name.name, s.term.args.mapM Expr.name? with
    | some values, some xs =>
      if xs.length = values.length then (.ok (env.bind xs values), store)
      else (.error .meaningless, store)
    | _, _ => (.error .meaningless, store)
  | .update =>
    match evalAll env s.term.args with
    | .error f => (.error f, store)
    | .ok values =>
      if (store.lookup s.term.name.name).isSome then
        (.ok env, store.write s.term.name.name values)
      else (.error .meaningless, store)
  | .invoke =>
    match evalAll env s.term.args with
    | .error f => (.error f, store)
    | .ok values =>
      match perform s.term.name.name values store with
      | (.error f, store) => (.error f, store)
      | (.ok (), store) => (.ok env, store)

def execBody (perform : Performance) : List Stmt → Env → Store → Except Failure Env × Store
  | [], env, store => (.ok env, store)
  | s :: stmts, env, store =>
    match s.exec perform env store with
    | (.error f, store) => (.error f, store)
    | (.ok env, store) => execBody perform stmts env store

/-! ## Agents -/

/-- Runs a member in a fresh environment, with calls nested less than `depth`
deep. -/
def Agent.perform (a : Agent) : Nat → Performance
  | 0, _, _, store => (.error .tooDeep, store)
  | depth + 1, name, args, store =>
    match a.members.find? (·.name.name == name) with
    | none => (.error .meaningless, store)
    | some m =>
      if args.length = m.params.length then
        match execBody (a.perform depth) m.body (Env.bind [] (paramNames m.params) args) store with
        | (.error f, store) => (.error f, store)
        | (.ok _, store) => (.ok (), store)
      else (.error .meaningless, store)

/-- Runs a member as `perform` does, but counts its arguments only with
`checkArity`. Without it a parameter that no argument is left for is not bound,
and arguments after the last parameter are dropped. -/
def Agent.performWith (checkArity : Bool) (a : Agent) : Nat → Performance
  | 0, _, _, store => (.error .tooDeep, store)
  | depth + 1, name, args, store =>
    match a.members.find? (·.name.name == name) with
    | none => (.error .meaningless, store)
    | some m =>
      if checkArity = true → args.length = m.params.length then
        match execBody (a.performWith checkArity depth) m.body
            (Env.bind [] (paramNames m.params) args) store with
        | (.error f, store) => (.error f, store)
        | (.ok _, store) => (.ok (), store)
      else (.error .meaningless, store)

theorem Agent.performWith_true (a : Agent) (depth : Nat) :
    a.performWith true depth = a.perform depth := by
  induction depth with
  | zero => rfl
  | succ depth ih =>
      funext name args store
      simp only [performWith, perform, ih, true_imp_iff]

/-- The values of beliefs whose initial values are read over `env`. -/
def initialStore (env : Env) : List Belief → Except Failure Store
  | [] => .ok []
  | b :: beliefs =>
    match evalAll env b.init with
    | .error f => .error f
    | .ok values =>
      match initialStore env beliefs with
      | .error f => .error f
      | .ok store => .ok ((b.name.name, values) :: store)

/-- The store of a new agent. -/
def Agent.create (a : Agent) (args : List Int64) : Except Failure Store :=
  if args.length = a.params.length then
    initialStore (Env.bind [] (paramNames a.params) args) a.beliefs
  else .error .meaningless

/-- The outcome of each of some calls in turn, and the store after it. A call
that fails leaves what it wrote. -/
def Agent.history (a : Agent) (depth : Nat) :
    Store → List (String × List Int64) → List (Except Failure Unit × Store)
  | _, [] => []
  | store, (name, args) :: calls =>
    let r := a.perform (depth + 1) name args store
    r :: a.history depth r.2 calls

end AgentLang
