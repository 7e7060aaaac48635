import AgentLang.Code.Instr
import AgentLang.Token

/-!
# Scopes

Names are bound in nested frames. A look-up takes the nearest frame that
binds the name, so an inner binding hides an outer one for as long as its
frame is open; asking for a binding of one kind never skips a nearer one of
another kind. A frame binds a name at most once.
-/

namespace AgentLang

/-- What a name stands for. -/
inductive Binding where
  /-- An argument slot of the callable at hand; slot 0 is the receiver. -/
  | argument (slot : Nat)
  /-- A local slot of the callable at hand. -/
  | localSlot (slot : LocalId)
  /-- The storage of a belief. -/
  | field (field : FieldId) (arity : Nat)
  /-- A plan or handler. -/
  | callable (method : MethodId) (params : Nat)
deriving Repr, DecidableEq

/-- The kinds of binding. -/
inductive BindingKind where
  | argument | localSlot | field | callable
deriving Repr, DecidableEq

/-- What the kind is called in messages. -/
def BindingKind.text : BindingKind → String
  | argument => "parameter"
  | localSlot => "local variable"
  | field => "belief"
  | callable => "plan"

def Binding.kind : Binding → BindingKind
  | argument _ => .argument
  | localSlot _ => .localSlot
  | field .. => .field
  | callable .. => .callable

/-- The instruction that pushes what is bound. Callables have no value. -/
def Binding.load? : Binding → Option Instr
  | argument slot => some (.loadArg slot)
  | localSlot slot => some (.loadLocal slot)
  | field f _ => some (.loadField f)
  | callable .. => none

/-- The instruction that pops into what is bound. Callables cannot be
written. -/
def Binding.store? : Binding → Option Instr
  | argument slot => some (.storeArg slot)
  | localSlot slot => some (.storeLocal slot)
  | field f _ => some (.storeField f)
  | callable .. => none

/-- What can be read can be written. -/
theorem Binding.isSome_store? (b : Binding) : b.store?.isSome = b.load?.isSome := by
  cases b <;> rfl

/-- The instruction that pushes an integer. Only arguments and locals hold
one. -/
def Binding.loadInteger? (b : Binding) : Option Instr :=
  match b.kind, b.load? with
  | .argument, some load | .localSlot, some load => some load
  | _, _ => none

section LoadInteger

@[simp] theorem Binding.loadInteger?_argument (slot : Nat) :
    (argument slot).loadInteger? = some (.loadArg slot) := rfl

@[simp] theorem Binding.loadInteger?_localSlot (slot : LocalId) :
    (localSlot slot).loadInteger? = some (.loadLocal slot) := rfl

@[simp] theorem Binding.loadInteger?_field (f : FieldId) (arity : Nat) :
    (field f arity).loadInteger? = none := rfl

@[simp] theorem Binding.loadInteger?_callable (m : MethodId) (params : Nat) :
    (callable m params).loadInteger? = none := rfl

end LoadInteger

/-- Why a scope could not be closed or a name not be bound. -/
inductive ScopeError where
  | redeclared (name : String)
  | emptyStack (operation : String)
deriving Repr, DecidableEq

def ScopeError.message : ScopeError → String
  | redeclared name => quoted name ++ " is already declared in this scope"
  | emptyStack operation => "no open scope to " ++ operation

/-- Why a name does not stand for what was asked for. -/
inductive LookupError where
  | notFound (name : String)
  | wrongKind (name : String) (expected found : BindingKind)
deriving Repr, DecidableEq

def LookupError.message : LookupError → String
  | notFound name => quoted name ++ " is not in scope"
  | wrongKind name expected found =>
    quoted name ++ " is a " ++ found.text ++ ", expected a " ++ expected.text

/-- The bindings of one scope. -/
abbrev Frame := List (String × Binding)

/-- The open scopes, the innermost first. -/
structure Scopes where
  frames : List Frame
deriving Repr, DecidableEq

namespace Scopes

def empty : Scopes := ⟨[]⟩

/-- The number of open scopes. -/
def depth (s : Scopes) : Nat := s.frames.length

/-- Opens a scope. -/
def enter (s : Scopes) : Scopes := ⟨[] :: s.frames⟩

/-- Closes the innermost scope. -/
def exit (s : Scopes) : Except ScopeError Unit × Scopes :=
  match s.frames with
  | [] => (.error (.emptyStack "exit"), s)
  | _ :: frames => (.ok (), ⟨frames⟩)

/-- Binds a name in the innermost scope. -/
def register (s : Scopes) (name : String) (b : Binding) : Except ScopeError Unit × Scopes :=
  match s.frames with
  | [] => (.error (.emptyStack "register into"), s)
  | frame :: frames =>
    if (frame.lookup name).isSome then (.error (.redeclared name), s)
    else (.ok (), ⟨((name, b) :: frame) :: frames⟩)

/-- The nearest binding of a name. -/
def lookup (s : Scopes) (name : String) : Option Binding :=
  s.frames.findSome? (·.lookup name)

/-- The nearest binding of a name, which has to be of the given kind. -/
def lookupAs (s : Scopes) (name : String) (expected : BindingKind) :
    Except LookupError Binding :=
  match s.lookup name with
  | none => .error (.notFound name)
  | some b =>
    if b.kind = expected then .ok b
    else .error (.wrongKind name expected b.kind)

/-! ## What the operations do to look-ups -/

@[simp] theorem depth_enter (s : Scopes) : s.enter.depth = s.depth + 1 := rfl

@[simp] theorem exit_enter (s : Scopes) : s.enter.exit = (.ok (), s) := rfl

@[simp] theorem lookup_empty (name : String) : empty.lookup name = none := rfl

/-- A new scope hides nothing. -/
@[simp] theorem lookup_enter (s : Scopes) (name : String) :
    s.enter.lookup name = s.lookup name := rfl

/-- A registered name means what it was registered for, and no other name
changes its meaning. -/
theorem lookup_register {s s' : Scopes} {name : String} {b : Binding}
    (h : s.register name b = (.ok (), s')) (other : String) :
    s'.lookup other = if other = name then some b else s.lookup other := by
  obtain ⟨frames⟩ := s
  cases frames with
  | nil => cases h
  | cons frame frames =>
      simp only [register] at h
      split at h
      · cases h
      · obtain ⟨-, rfl⟩ := Prod.mk.inj h
        by_cases ho : other = name
        · simp [lookup, ho]
        · simp [lookup, List.findSome?_cons, List.lookup_cons, ho,
            beq_eq_false_iff_ne.mpr ho]

/-- Registering opens and closes no scope. -/
theorem depth_register (s : Scopes) (name : String) (b : Binding) :
    (s.register name b).2.depth = s.depth := by
  obtain ⟨_ | ⟨frame, frames⟩⟩ := s
  · rfl
  · simp only [register]
    split <;> rfl

/-- What cannot be closed stays as it is. -/
theorem exit_of_error {s s' : Scopes} {e : ScopeError} (h : s.exit = (.error e, s')) :
    s' = s := by
  unfold exit at h
  split at h
  · exact (Prod.mk.inj h).2.symm
  · cases (Prod.mk.inj h).1

/-- A name that cannot be bound leaves the scopes as they are. -/
theorem register_of_error {s s' : Scopes} {name : String} {b : Binding} {e : ScopeError}
    (h : s.register name b = (.error e, s')) : s' = s := by
  unfold register at h
  split at h
  · exact (Prod.mk.inj h).2.symm
  · split at h
    · exact (Prod.mk.inj h).2.symm
    · cases (Prod.mk.inj h).1

end Scopes

end AgentLang
