import AgentLang.Parser.Statement

/-!
# Parsing compilation units

```text
agent  := "agent" ident ["(" params ")"] "{" item* "}"
item   := belief | "on" member | "plan" member
belief := "bel" ident "(" [atom ("," atom)*] ")" [";"]
member := ident ["(" params ")"] "{" block "}"
params := [ident ":" ident ("," ident ":" ident)*]
```

Parsing always yields an agent, together with the errors found on the
way. `parse` reads a source as one unit; `Parser.parseUnit` can be called
again on what a unit left unread.
-/

namespace AgentLang

namespace Parser

/-! ## Lists -/

/-- How an element of a list is read, and what the list gains by it. -/
structure Element (α : Type) where
  read : Parser → List α × Parser
  remaining_read_le : ∀ p : Parser, (read p).2.remaining ≤ p.remaining

namespace Element

variable {α : Type} (element : Element α)

/-- Elements that each follow a comma. -/
def more (p : Parser) : List α × Parser :=
  if p.sees .comma then
    let first := element.read p.advance
    let rest := more first.2
    (first.1 ++ rest.1, rest.2)
  else ([], p)
termination_by p.remaining
decreasing_by
  exact Nat.lt_of_le_of_lt (element.remaining_read_le _)
    (remaining_advance_lt_of_sees ‹_›)

/-- An element, and those that each follow a comma. -/
def list (p : Parser) : List α × Parser :=
  let first := element.read p
  let rest := element.more first.2
  (first.1 ++ rest.1, rest.2)

theorem remaining_more_le (p : Parser) : (element.more p).2.remaining ≤ p.remaining := by
  fun_induction element.more p with
  | case1 p h first rest ih =>
    exact Nat.le_trans ih
      (Nat.le_trans (element.remaining_read_le _) (remaining_advance_le p))
  | case2 => exact Nat.le_refl _

theorem remaining_list_le (p : Parser) : (element.list p).2.remaining ≤ p.remaining :=
  Nat.le_trans (element.remaining_more_le _) (element.remaining_read_le p)

end Element

/-! ## Parameters -/

/-- A parameter, `name: type`. -/
def param (p : Parser) : Param × Parser :=
  let name := p.identifier
  let type := (name.2.expect (.symbol .colon)).identifier
  (⟨name.1, type.1, name.1.span.merge type.1.span⟩, type.2)

theorem remaining_param_le (p : Parser) : p.param.2.remaining ≤ p.remaining := by
  simp [param]; omega

/-- Parameters as elements of a list. -/
def parameter : Element Param where
  read p := ([p.param.1], p.param.2)
  remaining_read_le := remaining_param_le

/-- The parameters after the first, each after a comma. -/
def moreParams (p : Parser) : List Param × Parser := parameter.more p

/-- A parameter list in parentheses, which may be left out. -/
def params (p : Parser) : List Param × Parser :=
  if p.sees .lparen then
    if p.advance.sees .rparen then ([], p.advance.expect (.symbol .rparen))
    else
      let list := parameter.list p.advance
      (list.1, list.2.expect (.symbol .rparen))
  else ([], p)

theorem remaining_params_le (p : Parser) : p.params.2.remaining ≤ p.remaining := by
  have h1 := remaining_advance_le p
  have h2 := parameter.remaining_list_le p.advance
  unfold params
  split
  · split <;> simp only [remaining_expect] <;> omega
  · exact Nat.le_refl _

/-! ## Beliefs and members -/

/-- An initial value of a belief. A token that is none is reported, read
and dropped. -/
def beliefAtom (p : Parser) : Option Expr × Parser :=
  match p.atom with
  | (.ok value, q) => (some value, q)
  | (.error e, q) => (none, (q.report e).advance)

theorem remaining_beliefAtom_le (p : Parser) :
    p.beliefAtom.2.remaining ≤ p.remaining := by
  have ha := remaining_atom_le p
  unfold beliefAtom
  split
  · next v q hq => rw [hq] at ha; exact ha
  · next e q hq =>
    rw [hq] at ha
    exact Nat.le_trans (remaining_advance_le _) (by simpa using ha)

/-- Initial values as elements of a list. -/
def initialValue : Element Expr where
  read p := (p.beliefAtom.1.toList, p.beliefAtom.2)
  remaining_read_le := remaining_beliefAtom_le

/-- The initial values after the first, each after a comma. -/
def moreBeliefAtoms (p : Parser) : List Expr × Parser := initialValue.more p

/-- The initial values between the parentheses of a belief. -/
def beliefInit (p : Parser) : List Expr × Parser :=
  if p.sees .rparen then ([], p) else initialValue.list p

/-- A belief, and the `;` that may follow it. -/
def belief (p : Parser) : Belief × Parser :=
  let name := (p.expect (.keyword .bel)).identifier
  let init := (name.2.expect (.symbol .lparen)).beliefInit
  let q := init.2.expect (.symbol .rparen)
  (⟨name.1, init.1, p.current.span.merge q.previous⟩,
    if q.sees .semi then q.advance else q)

/-- The name, parameters and body of a plan or handler. -/
def member (kind : MemberKind) (p : Parser) : Member × Parser :=
  let name := p.identifier
  let params := name.2.params
  let body := (params.2.expect (.symbol .lbrace)).block
  let q := body.2.expect (.symbol .rbrace)
  (⟨kind, name.1, params.1, body.1, p.current.span.merge q.previous⟩, q)

theorem remaining_beliefInit_le (p : Parser) :
    p.beliefInit.2.remaining ≤ p.remaining := by
  unfold beliefInit
  split
  · exact Nat.le_refl _
  · exact initialValue.remaining_list_le p

theorem remaining_belief_le (p : Parser) :
    p.belief.2.remaining ≤ p.remaining - 1 := by
  have h1 := remaining_beliefInit_le
    ((p.expect (.keyword .bel)).identifier.2.expect (.symbol .lparen))
  simp only [remaining_expect, remaining_identifier] at h1
  have h2 := remaining_advance_le
    (((p.expect (.keyword .bel)).identifier.2.expect
      (.symbol .lparen)).beliefInit.2.expect (.symbol .rparen))
  simp only [remaining_expect] at h2
  unfold belief
  simp only
  split
  · omega
  · simp only [remaining_expect]; omega

theorem remaining_member_le (kind : MemberKind) (p : Parser) :
    (p.member kind).2.remaining ≤ p.remaining := by
  have h1 := remaining_params_le p.identifier.2
  have h2 := remaining_block_le
    (p.identifier.2.params.2.expect (.symbol .lbrace))
  simp only [remaining_expect, remaining_identifier] at h1 h2
  simp only [member, remaining_expect]
  omega

/-! ## Agents -/

/-- The items of an agent's body, up to the first token that opens none. -/
def items (p : Parser) : List Item × Parser :=
  match _ : p.current.kind with
  | .keyword .bel =>
    let first := p.belief
    let rest := first.2.items
    (.belief first.1 :: rest.1, rest.2)
  | .keyword .on =>
    let first := p.advance.member .handler
    let rest := first.2.items
    (.member first.1 :: rest.1, rest.2)
  | .keyword .plan =>
    let first := p.advance.member .plan
    let rest := first.2.items
    (.member first.1 :: rest.1, rest.2)
  | _ => ([], p)
termination_by p.remaining
decreasing_by
  all_goals
    have hlt : p.advance.remaining < p.remaining :=
      remaining_advance_lt (by simp [‹p.current.kind = _›])
  · have := remaining_belief_le p
    have := remaining_advance p
    omega
  · exact Nat.lt_of_le_of_lt (remaining_member_le _ _) hlt
  · exact Nat.lt_of_le_of_lt (remaining_member_le _ _) hlt

/-- One agent. -/
def agent (p : Parser) : Agent × Parser :=
  let name := (p.expect (.keyword .agent)).identifier
  let params := name.2.params
  let body := (params.2.expect (.symbol .lbrace)).items
  let q := body.2.expect (.symbol .rbrace)
  (.ofItems name.1 params.1 body.1 (p.current.span.merge q.previous), q)

/-- A compilation unit: one agent, then the end of the file. Whatever
follows the agent is reported once and left unread, so that a further call
parses it as the next unit. -/
def parseUnit (p : Parser) : Agent × Parser :=
  let unit := p.agent
  let q := unit.2
  (unit.1,
    if q.atEnd then q
    else q.report (.trailingInput q.current.kind q.current.span))

end Parser

/-- The agent that a source declares, and every syntax error in it. -/
def parse (source : String) : Agent × List SyntaxError :=
  let unit := (Parser.ofSource source).parseUnit
  (unit.1, unit.2.errors)

end AgentLang
