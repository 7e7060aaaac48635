import AgentLang.Command

/-!
# What commands do to the files around them

A command runs on any state with file operations. It ends at once if its source cannot be
read (`runCommand_of_unreadable`); otherwise a command to build is the build, and fails if
and only if the build does (`runCommand_of_readable`). The build in turn is one write or one
removal (`run_build_of_compiled`, `run_build_of_failed`).

Where one kind of state stands for another and the operations agree, commands agree as well
(`StandsFor.runCommand`).
-/

namespace AgentLang

section Run

variable {σ α β : Type} (s : σ)

theorem run_bind (x : StateM σ α) (f : α → StateM σ β) :
    (x >>= f).run s = (f (x.run s).1).run (x.run s).2 := rfl

theorem run_pure (x : α) : (pure x : StateM σ α).run s = (x, s) := rfl

end Run

/-! ## Reading -/

/-- The text that was read, if it is one. -/
def asText : Except FileError ByteArray → Except FileError String
  | .error e => .error e
  | .ok bytes =>
    match String.fromUTF8? bytes with
    | some text => .ok text
    | none => .error .notText

/-- Text that was written is read back. -/
theorem asText_toUTF8 (text : String) : asText (.ok text.toUTF8) = .ok text := by
  have hutf8 : String.fromUTF8? text.toUTF8 = some text := dif_pos text.isValidUTF8
  simp only [asText, hutf8]

theorem run_readText {σ : Type} [FileAccess (StateM σ)] {s : σ} {file : String}
    {r : Except FileError ByteArray}
    (hread : (FileAccess.read file : StateM σ _).run s = (r, s)) :
    (readText file : StateM σ _).run s = (asText r, s) := by
  simp only [readText, asText, run_bind, hread]
  cases r with
  | error e => rfl
  | ok bytes =>
      dsimp only
      cases String.fromUTF8? bytes <;> rfl

/-! ## Builds -/

section Build

variable {σ : Type} [FileAccess (StateM σ)] (s : σ) {source : String} (output : String)
  {options : CompileOptions}

/-- What a build returns after its write. -/
def writeResult (type : AgentType) : Except FileError Unit → Except BuildError AgentType
  | .ok () => .ok type
  | .error e => .error (.file e)

/-- What a build returns after its removal. -/
def removeResult (error : CompileError) : Except FileError Unit → Except BuildError AgentType
  | .ok () => .error (.compile error)
  | .error .notFound => .error (.compile error)
  | .error e => .error (.file e)

theorem run_build_of_compiled {type : AgentType} (h : compile source options = .ok type) :
    (build source output options : StateM σ _).run s =
      let r := (FileAccess.write output type.listing.toUTF8 : StateM σ _).run s
      (writeResult type r.1, r.2) := by
  simp only [build, h, run_bind]
  rcases (FileAccess.write output type.listing.toUTF8 : StateM σ _).run s with ⟨e | ⟨⟩, s'⟩ <;> rfl

theorem run_build_of_failed {error : CompileError} (h : compile source options = .error error) :
    (build source output options : StateM σ _).run s =
      let r := (FileAccess.remove output : StateM σ _).run s
      (removeResult error r.1, r.2) := by
  simp only [build, h, run_bind]
  rcases (FileAccess.remove output : StateM σ _).run s with ⟨e | ⟨⟩, s'⟩
  · cases e <;> rfl
  · rfl

end Build

/-! ## Commands -/

section Command

variable {σ : Type} [FileAccess (StateM σ)] {s : σ} {args : List String} {i : Invocation}
  {file : String} {output : Option String}

/-- Being verbose changes neither files nor the exit code. -/
theorem runCommand_of_invocation (s : σ) (hi : Invocation.ofArgs {} args = .ok i) :
    ((runCommand args : StateM σ _).run s).1.exit = ((i.run : StateM σ _).run s).1.exit ∧
      ((runCommand args : StateM σ _).run s).2 = ((i.run : StateM σ _).run s).2 := by
  simp only [runCommand, hi, run_bind]
  split <;> exact ⟨rfl, rfl⟩

theorem runCommand_of_unreadable (hi : Invocation.ofArgs {} args = .ok i)
    (hb : i.action = .build file output) {e : FileError}
    (hfile : (readText file : StateM σ _).run s = (.error e, s)) :
    ((runCommand args : StateM σ _).run s).1.exit = 1 ∧
      ((runCommand args : StateM σ _).run s).2 = s := by
  have hrun : (i.run : StateM σ Outcome).run s = (e.outcome file, s) := by
    simp only [Invocation.run, hb, withSource, run_bind, hfile, run_pure]
  obtain ⟨hexit, hstate⟩ := runCommand_of_invocation s hi
  rw [hexit, hstate, hrun]
  exact ⟨rfl, rfl⟩

theorem exit_buildOutcome (r : Except BuildError AgentType) (out : String)
    (options : CompileOptions) :
    (buildOutcome r out options).exit = 1 ↔ ∃ e, r = .error e := by
  cases r with
  | ok type => simp [buildOutcome]
  | error e => simp [buildOutcome, BuildError.outcome]

/-- A command whose source can be read builds, and fails if the build does. -/
theorem runCommand_of_readable (hi : Invocation.ofArgs {} args = .ok i)
    (hb : i.action = .build file output) {source : String}
    (hfile : (readText file : StateM σ _).run s = (.ok source, s)) :
    ∃ r, (build source (output.getD (defaultOutput file)) ⟨file, i.checkArity⟩ :
          StateM σ _).run s = (r, ((runCommand args : StateM σ _).run s).2) ∧
      (((runCommand args : StateM σ _).run s).1.exit = 1 ↔ ∃ e, r = .error e) := by
  obtain ⟨hexit, hstate⟩ := runCommand_of_invocation s hi
  rw [hexit, hstate]
  simp only [Invocation.run, hb, withSource, run_bind, hfile, run_pure]
  exact ⟨_, rfl, exit_buildOutcome _ _ _⟩

end Command

/-! ## States that stand for others -/

section Simulation

variable {σ τ : Type} [FileAccess (StateM σ)] [FileAccess (StateM τ)]

/-- On `f s` the second computation ends as the first one does on `s`. -/
def Mirrors {α : Type} (f : σ → τ) (x : StateM σ α) (y : StateM τ α) : Prop :=
  ∀ s, y.run (f s) = ((x.run s).1, f (x.run s).2)

/-- File operations on `f s` do what they do on `s`. -/
structure StandsFor (f : σ → τ) : Prop where
  read : ∀ path, Mirrors f (FileAccess.read path) (FileAccess.read path)
  write : ∀ path bytes, Mirrors f (FileAccess.write path bytes) (FileAccess.write path bytes)
  remove : ∀ path, Mirrors f (FileAccess.remove path) (FileAccess.remove path)

variable {f : σ → τ}

omit [FileAccess (StateM σ)] [FileAccess (StateM τ)] in
theorem Mirrors.pure {α : Type} (a : α) : Mirrors f (Pure.pure a) (Pure.pure a) := fun _ => rfl

omit [FileAccess (StateM σ)] [FileAccess (StateM τ)] in
theorem Mirrors.bind {α β : Type} {x : StateM σ α} {y : StateM τ α} {k : α → StateM σ β}
    {l : α → StateM τ β} (h : Mirrors f x y) (hk : ∀ a, Mirrors f (k a) (l a)) :
    Mirrors f (x >>= k) (y >>= l) := by
  intro s
  rw [run_bind, run_bind, h s, hk]

section StandsFor

variable (h : StandsFor f)
include h

theorem StandsFor.readText (file : String) :
    Mirrors f (AgentLang.readText file) (AgentLang.readText file) := by
  refine (h.read file).bind fun r => ?_
  cases r with
  | error e => exact .pure _
  | ok bytes =>
    dsimp only
    cases String.fromUTF8? bytes <;> exact .pure _

theorem StandsFor.build (source output : String) (options : CompileOptions) :
    Mirrors f (AgentLang.build source output options) (AgentLang.build source output options) := by
  unfold AgentLang.build
  cases compile source options with
  | ok type =>
    refine (h.write _ _).bind fun r => ?_
    cases r <;> exact .pure _
  | error error =>
    refine (h.remove _).bind fun r => ?_
    rcases r with ⟨_ | _⟩ | _ <;> exact .pure _

theorem StandsFor.withSource (file : String) {next : String → StateM σ Outcome}
    {next' : String → StateM τ Outcome} (hnext : ∀ source, Mirrors f (next source) (next' source)) :
    Mirrors f (AgentLang.withSource file next) (AgentLang.withSource file next') := by
  refine (h.readText file).bind fun r => ?_
  cases r with
  | error e => exact .pure _
  | ok source => exact hnext source

theorem StandsFor.run (i : Invocation) : Mirrors f i.run i.run := by
  unfold Invocation.run
  cases i.action with
  | lex file => exact h.withSource file fun _ => .pure _
  | parse file tree => exact h.withSource file fun _ => .pure _
  | check file => exact h.withSource file fun _ => .pure _
  | build file output =>
    exact h.withSource file fun source => (h.build source _ _).bind fun _ => .pure _

theorem StandsFor.runCommand (args : List String) :
    Mirrors f (AgentLang.runCommand args) (AgentLang.runCommand args) := by
  unfold AgentLang.runCommand
  rcases Invocation.ofArgs {} args with ⟨_ | _⟩ | i
  case error.version => exact .pure _
  case error.help => exact .pure _
  case error.usage => exact .pure _
  case ok =>
    refine (h.run i).bind fun outcome => ?_
    dsimp only
    split <;> exact .pure _

end StandsFor

end Simulation

end AgentLang
