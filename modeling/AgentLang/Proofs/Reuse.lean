import AgentLang.Proofs.Drafting

/-!
# Generators can be reused

A generator compiles all of its agents in one assembly. What it makes of an agent
is nevertheless what a new generator makes of it (`generator_reusable`): once an
agent is finished the scopes and tables are empty again, whatever was wrong with
it, and the diagnostics that are left are only ever added to.

The second half is said as equations. `Assembly.after` puts diagnostics in front
of those of an assembly, and every step of generation commutes with it.
-/

namespace AgentLang

theorem Scopes.eq_empty_of_depth {s : Scopes} (h : s.depth = 0) : s = .empty := by
  obtain ⟨frames⟩ := s
  exact congrArg Scopes.mk (List.length_eq_zero_iff.mp h)

/-! ## Earlier diagnostics -/

namespace Assembly

/-- The assembly as it is after others have left their diagnostics. -/
def after (before : List SemanticError) (u : Assembly) : Assembly :=
  { u with diagnostics := before ++ u.diagnostics }

section After

variable (before : List SemanticError)

@[simp] theorem report_after (u : Assembly) (errors : List SemanticError) :
    (u.after before).report errors = (u.report errors).after before := by
  simp [report, after]

theorem declare_after (u : Assembly) (name : Ident) (b : Binding) :
    (u.after before).declare name b = (u.declare name b).map (after before) := by
  refine bind_map_same fun r => ?_
  exact congrArg Except.ok (report_after before { u with scopes := r.1 } r.2)

theorem declareBelief_after (u : Assembly) (b : Belief) :
    (u.after before).declareBelief b = (u.declareBelief b).map (after before) := by
  simp only [declareBelief]
  refine bind_map_same fun field => ?_
  rw [← declare_after, ← report_after]
  rfl

theorem declareBeliefs_after (beliefs : List Belief) :
    ∀ u : Assembly, declareBeliefs beliefs (u.after before) =
      (declareBeliefs beliefs u).map (after before) := by
  induction beliefs with
  | nil => exact fun _ => rfl
  | cons b beliefs ih => exact fun u => bind_map (declareBelief_after before u b) ih

theorem close_after (u : Assembly) (d : Draft) :
    (u.after before).close d = (u.close d).map (after before) := by
  refine bind_map_same fun scopes => ?_
  exact congrArg Except.ok
    (report_after before { u with scopes, tuples := d.tuples } d.diagnostics)

theorem constructor_after (u : Assembly) (a : Agent) :
    (u.after before).constructor a =
      (u.constructor a).map fun r => (r.1, r.2.after before) := by
  refine bind_map_same fun d => ?_
  refine bind_map_same fun d' => ?_
  exact bind_map (close_after before u d') fun _ => rfl

theorem member_after (checkArity : Bool) (u : Assembly) (m : Member) :
    (u.after before).member checkArity m = (u.member checkArity m).map (after before) := by
  refine bind_map_same fun id => ?_
  refine bind_map (declare_after before u m.name _) fun u' => ?_
  refine bind_map_same fun d => ?_
  refine bind_map_same fun d' => ?_
  exact bind_map (close_after before u' d') fun _ => rfl

theorem members_after (checkArity : Bool) (ms : List Member) :
    ∀ u : Assembly, members checkArity ms (u.after before) =
      (members checkArity ms u).map (after before) := by
  induction ms with
  | nil => exact fun _ => rfl
  | cons m ms ih => exact fun u => bind_map (member_after before checkArity u m) ih

end After

end Assembly

/-! ## Generators between two agents -/

namespace Generator

/-- A generator that holds nothing but diagnostics. -/
def idle (checkArity : Bool) (diagnostics : List SemanticError) : Generator :=
  { Generator.new checkArity with diagnostics }

/-- One more agent: its type is that of a new generator, its diagnostics are
added, and nothing else of it is left. -/
theorem generate_idle (checkArity : Bool) (before : List SemanticError) (a : Agent) :
    (idle checkArity before).generate a =
      (AgentLang.generate checkArity a).map fun r => (r.1, idle checkArity (before ++ r.2)) := by
  have henter : (idle checkArity before).toAssembly.enter = Assembly.empty.enter.after before := by
    simp [idle, Generator.new, Assembly.enter, Assembly.after, Assembly.empty]
  have hnew : (idle checkArity before).generate a =
      ((Generator.new checkArity).generate a).map fun r =>
        (r.1, idle checkArity (before ++ r.2.diagnostics)) := by
    refine bind_map (henter ▸ Assembly.declareBeliefs_after before a.beliefs _) fun u => ?_
    refine bind_map (Assembly.constructor_after before u a) fun r => ?_
    refine bind_map (Assembly.members_after before checkArity a.members r.2) fun u' => ?_
    refine bind_map_same fun scopes => ?_
    split
    · rfl
    · next hdepth =>
      rw [Scopes.eq_empty_of_depth (Decidable.not_not.mp hdepth)]
      rfl
  rw [hnew]
  simp only [AgentLang.generate]
  cases (Generator.new checkArity).generate a <;> rfl

/-! ## Agents in turn -/

/-- Compiles agents in turn. For each there is its type, and the generator as it
was when it had compiled the agent. -/
def generateAll (g : Generator) :
    List Agent → Except InternalError (List (AgentType × Generator))
  | [] => .ok []
  | a :: agents => do
    let r ← g.generate a
    let rs ← r.2.generateAll agents
    return r :: rs

theorem generateAll_idle (checkArity : Bool) (agents : List Agent) :
    ∀ before : List SemanticError, (idle checkArity before).generateAll agents =
      (agents.mapM (AgentLang.generate checkArity)).map fun fresh =>
        fresh.mapIdx fun n r =>
          (r.1, idle checkArity (before ++ (fresh.take (n + 1)).flatMap Prod.snd)) := by
  induction agents with
  | nil => exact fun _ => rfl
  | cons a agents ih =>
      intro before
      rw [List.mapM_cons, generateAll]
      refine bind_map (generate_idle checkArity before a) fun r => ?_
      refine bind_map (ih (before ++ r.2)) fun fresh => ?_
      simp [pure, Except.pure, Except.map, List.mapIdx_cons]

/-- **Generators can be reused.** One generator gives every agent the type that a
new generator gives it, and after each agent it holds the diagnostics that new
generators report for the agents so far, in order, and nothing else. If an agent
cannot be compiled the new generator for it fails with the same error. -/
theorem generator_reusable (checkArity : Bool) (agents : List Agent) :
    (Generator.new checkArity).generateAll agents =
      (agents.mapM (AgentLang.generate checkArity)).map fun fresh =>
        fresh.mapIdx fun n r =>
          (r.1, idle checkArity ((fresh.take (n + 1)).flatMap Prod.snd)) :=
  generateAll_idle checkArity agents []

end Generator

end AgentLang
