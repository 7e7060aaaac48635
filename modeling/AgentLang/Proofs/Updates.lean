import AgentLang.Proofs.Simulation

/-!
# Executed updates

The updates that a run of a member executes, in order and with those of the
members it calls, each as the name of a belief and the values that were
written to it. A run that fails has executed the updates before its failure.

The record is complete: applying the updates of a run to the store that it
started on gives the store that it ends with (`Agent.performWith_store`). So a
belief either has its old values after a run or exactly the values of one
executed update (`Store.lookup_apply`).
-/

namespace AgentLang

/-- The name of a belief and the values written to it. -/
abbrev Update := String × List Int64

/-- The updates of a member run by name on a store. -/
abbrev Record := String → List Int64 → Store → List Update

def Stmt.updates (record : Record) (s : Stmt) (env : Env) (store : Store) : List Update :=
  match s.kind with
  | .query => []
  | .update =>
    match evalAll env s.term.args with
    | .error _ => []
    | .ok values =>
      if (store.lookup s.term.name.name).isSome then [(s.term.name.name, values)] else []
  | .invoke =>
    match evalAll env s.term.args with
    | .error _ => []
    | .ok values => record s.term.name.name values store

def bodyUpdates (perform : Performance) (record : Record) :
    List Stmt → Env → Store → List Update
  | [], _, _ => []
  | s :: stmts, env, store =>
    s.updates record env store ++
      match s.exec perform env store with
      | (.error _, _) => []
      | (.ok env, store) => bodyUpdates perform record stmts env store

/-- The updates that `performWith` executes. -/
def Agent.updates (checkArity : Bool) (a : Agent) : Nat → Record
  | 0, _, _, _ => []
  | depth + 1, name, args, store =>
    match a.members.find? (·.name.name == name) with
    | none => []
    | some m =>
      if checkArity = true → args.length = m.params.length then
        bodyUpdates (a.performWith checkArity depth) (a.updates checkArity depth) m.body
          (Env.bind [] (paramNames m.params) args) store
      else []

/-- The store after some updates. -/
def Store.apply (store : Store) (updates : List Update) : Store :=
  updates.foldl (fun store u => store.write u.1 u.2) store

theorem Store.apply_append (store : Store) (us vs : List Update) :
    store.apply (us ++ vs) = (store.apply us).apply vs :=
  List.foldl_append

theorem Store.lookup_apply {us : List Update} {x : String} {values : List Int64} :
    ∀ {store : Store}, (store.apply us).lookup x = some values →
      store.lookup x = some values ∨ (x, values) ∈ us := by
  induction us with
  | nil =>
      intro store h
      exact Or.inl h
  | cons u us ih =>
      intro store h
      rcases ih h with hold | hmem
      · rw [Store.lookup_write] at hold
        by_cases hx : x = u.1
        · subst hx
          rw [if_pos rfl, Option.map_eq_some_iff] at hold
          obtain ⟨-, -, rfl⟩ := hold
          exact Or.inr List.mem_cons_self
        · rw [if_neg hx] at hold
          exact Or.inl hold
      · exact Or.inr (List.mem_cons_of_mem u hmem)

/-- The recorded updates lead from the store before a run to the store after
it. -/
def Records (perform : Performance) (record : Record) : Prop :=
  ∀ (name : String) (args : List Int64) (store : Store),
    (perform name args store).2 = store.apply (record name args store)

section Records

variable {perform : Performance} {record : Record}

theorem Stmt.exec_store (h : Records perform record) (s : Stmt) (env : Env) (store : Store) :
    (s.exec perform env store).2 = store.apply (s.updates record env store) := by
  cases hk : s.kind with
  | query =>
      simp only [exec, updates, hk]
      split
      · split <;> rfl
      · rfl
  | update =>
      simp only [exec, updates, hk]
      cases evalAll env s.term.args with
      | error f => rfl
      | ok values =>
          by_cases hb : (store.lookup s.term.name.name).isSome = true
          · simp only [if_pos hb]
            rfl
          · simp only [if_neg hb]
            rfl
  | invoke =>
      simp only [exec, updates, hk]
      cases evalAll env s.term.args with
      | error f => rfl
      | ok values =>
          simp only [← h s.term.name.name values store]
          rcases perform s.term.name.name values store with ⟨f | ⟨⟩, store'⟩ <;> rfl

theorem execBody_store (h : Records perform record) (stmts : List Stmt) :
    ∀ (env : Env) (store : Store), (execBody perform stmts env store).2 =
      store.apply (bodyUpdates perform record stmts env store) := by
  induction stmts with
  | nil =>
      intro env store
      rfl
  | cons s stmts ih =>
      intro env store
      have hs := s.exec_store h env store
      simp only [execBody, bodyUpdates, Store.apply_append, ← hs]
      rcases s.exec perform env store with ⟨f | env', store'⟩
      · rfl
      · exact ih env' store'

end Records

theorem Agent.performWith_store (checkArity : Bool) (a : Agent) (depth : Nat) :
    Records (a.performWith checkArity depth) (a.updates checkArity depth) := by
  induction depth with
  | zero =>
      intro name args store
      rfl
  | succ depth ih =>
      intro name args store
      simp only [performWith, updates]
      cases a.members.find? (·.name.name == name) with
      | none => rfl
      | some m =>
          simp only
          split
          · have hbody := execBody_store ih m.body (Env.bind [] (paramNames m.params) args) store
            rw [← hbody]
            rcases execBody (a.performWith checkArity depth) m.body
              (Env.bind [] (paramNames m.params) args) store with ⟨f | env', store'⟩ <;> rfl
          · rfl

end AgentLang
