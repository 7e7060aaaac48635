import AgentLang.Scope
import Mathlib.Data.List.Basic

/-!
# Scopes are lexical

What a step on the scopes answers is laid down here by the steps before it alone
(`ScopeStep.Answers`), without frames that hold bindings: a name means what it was
registered for first in the innermost open frame in which it was registered at all.

A history lists the steps, the latest first. Its part since some `enter` tells
whether that frame is still open, and how many frames are open inside it
(`innerDepth`); a registration belongs to the frame if none was open inside when it
was made (`Registers`). The scopes after a history have a frame for each `enter`
that is still open, at the place of that number, and the frame holds the first
registrations that belong to it (`frame_of_opened`, `exists_opened`).
-/

namespace AgentLang

/-! ## Steps and their answers -/

inductive ScopeStep where
  | enter
  | exit
  | register (name : String) (b : Binding)
  | lookup (name : String)
  | lookupAs (name : String) (expected : BindingKind)
deriving Repr, DecidableEq

inductive ScopeAnswer where
  | done
  | refused (e : ScopeError)
  | binding (b : Option Binding)
  | resolved (r : Except LookupError Binding)

namespace Scopes

/-- How a step ended, and what it left behind. -/
def conclude : Except ScopeError Unit × Scopes → ScopeAnswer × Scopes
  | (.ok (), s) => (.done, s)
  | (.error e, s) => (.refused e, s)

def step (s : Scopes) : ScopeStep → ScopeAnswer × Scopes
  | .enter => (.done, s.enter)
  | .exit => conclude s.exit
  | .register name b => conclude (s.register name b)
  | .lookup name => (.binding (s.lookup name), s)
  | .lookupAs name expected => (.resolved (s.lookupAs name expected), s)

/-- Takes the steps of a history, which has the latest first. -/
def run (s : Scopes) : List ScopeStep → Scopes
  | [] => s
  | step :: earlier => ((s.run earlier).step step).2

theorem run_append (s : Scopes) (later earlier : List ScopeStep) :
    s.run (later ++ earlier) = (s.run earlier).run later := by
  induction later with
  | nil => rfl
  | cons step later ih => rw [List.cons_append, run, run, ih]

end Scopes

/-! ## What histories say -/

/-- The number of frames that were opened by the steps and are open after them; none if the
frame that was the innermost one before the steps has been closed. -/
def innerDepth : List ScopeStep → Option Nat
  | [] => some 0
  | .enter :: earlier => (innerDepth earlier).map (· + 1)
  | .exit :: earlier =>
    match innerDepth earlier with
    | some (n + 1) => some n
    | _ => none
  | _ :: earlier => innerDepth earlier

/-- The history has opened a frame, `body` has happened since, and the frame is still open,
with `n` frames inside it. -/
def Opened (history body : List ScopeStep) (n : Nat) : Prop :=
  innerDepth body = some n ∧ ∃ outer, history = body ++ .enter :: outer

/-- The name was registered in the frame that was opened right before `body`. -/
def Registers (body : List ScopeStep) (x : String) (b : Binding) : Prop :=
  ∃ later earlier, body = later ++ .register x b :: earlier ∧ innerDepth earlier = some 0

/-- And it was not registered in that frame before. -/
def FirstRegisters (body : List ScopeStep) (x : String) (b : Binding) : Prop :=
  ∃ later earlier, body = later ++ .register x b :: earlier ∧ innerDepth earlier = some 0 ∧
    ∀ c, ¬Registers earlier x c

namespace ScopeStep

/-- Some frame is open. -/
def AnyOpen (history : List ScopeStep) : Prop := ∃ body n, Opened history body n

/-- The innermost open frame has the name. -/
def Declared (history : List ScopeStep) (x : String) : Prop :=
  ∃ body b, Opened history body 0 ∧ Registers body x b

/-- Some open frame has the name. -/
def Visible (history : List ScopeStep) (x : String) : Prop :=
  ∃ body n b, Opened history body n ∧ Registers body x b

/-- `b` is what the name was registered for first in the innermost of the open frames that
have the name. -/
def Nearest (history : List ScopeStep) (x : String) (b : Binding) : Prop :=
  ∃ body n, Opened history body n ∧ FirstRegisters body x b ∧
    ∀ body' n' c, Opened history body' n' → Registers body' x c → n ≤ n'

/-- What a step has to answer after a history. -/
inductive Answers (history : List ScopeStep) : ScopeStep → ScopeAnswer → Prop
  | enter : Answers history .enter .done
  | exit : AnyOpen history → Answers history .exit .done
  | exitNone : ¬AnyOpen history → Answers history .exit (.refused (.emptyStack "exit"))
  | register {x : String} {b : Binding} : AnyOpen history → ¬Declared history x →
      Answers history (.register x b) .done
  | redeclared {x : String} {b : Binding} : Declared history x →
      Answers history (.register x b) (.refused (.redeclared x))
  | registerNone {x : String} {b : Binding} : ¬AnyOpen history →
      Answers history (.register x b) (.refused (.emptyStack "register into"))
  | found {x : String} {b : Binding} : Nearest history x b →
      Answers history (.lookup x) (.binding (some b))
  | absent {x : String} : ¬Visible history x → Answers history (.lookup x) (.binding none)
  | resolved {x : String} {b : Binding} : Nearest history x b →
      Answers history (.lookupAs x b.kind) (.resolved (.ok b))
  | wrongKind {x : String} {b : Binding} {expected : BindingKind} : Nearest history x b →
      b.kind ≠ expected →
      Answers history (.lookupAs x expected) (.resolved (.error (.wrongKind x expected b.kind)))
  | notFound {x : String} {expected : BindingKind} : ¬Visible history x →
      Answers history (.lookupAs x expected) (.resolved (.error (.notFound x)))

end ScopeStep

/-! ## Registrations -/

section Registers

variable {step : ScopeStep} {body : List ScopeStep} {x : String} {b : Binding}

/-- A list is split at its first element or in its tail. -/
theorem exists_split_cons {α : Type} {P : List α → Prop} {a c : α} {l : List α} :
    (∃ later earlier, a :: l = later ++ c :: earlier ∧ P earlier) ↔
      (∃ later earlier, l = later ++ c :: earlier ∧ P earlier) ∨ a = c ∧ P l := by
  constructor
  · rintro ⟨later, earlier, heq, hP⟩
    cases later with
    | nil =>
        obtain ⟨rfl, rfl⟩ := List.cons.inj heq
        exact .inr ⟨rfl, hP⟩
    | cons a' later =>
        obtain ⟨rfl, rfl⟩ := List.cons.inj heq
        exact .inl ⟨later, earlier, rfl, hP⟩
  · rintro (⟨later, earlier, rfl, hP⟩ | ⟨rfl, hP⟩)
    · exact ⟨a :: later, earlier, rfl, hP⟩
    · exact ⟨[], l, rfl, hP⟩

theorem registers_cons :
    Registers (step :: body) x b ↔
      Registers body x b ∨ step = .register x b ∧ innerDepth body = some 0 :=
  exists_split_cons

theorem firstRegisters_cons :
    FirstRegisters (step :: body) x b ↔ FirstRegisters body x b ∨
      step = .register x b ∧ innerDepth body = some 0 ∧ ∀ c, ¬Registers body x c :=
  exists_split_cons

theorem FirstRegisters.registers (h : FirstRegisters body x b) : Registers body x b := by
  obtain ⟨later, earlier, hbody, hdepth, -⟩ := h
  exact ⟨later, earlier, hbody, hdepth⟩

theorem exists_firstRegisters (h : Registers body x b) : ∃ c, FirstRegisters body x c := by
  induction body generalizing b with
  | nil =>
      obtain ⟨later, earlier, hnil, -⟩ := h
      simp at hnil
  | cons step body ih =>
      by_cases hbefore : ∃ c, Registers body x c
      · obtain ⟨c, hc⟩ := hbefore
        obtain ⟨d, hd⟩ := ih hc
        exact ⟨d, firstRegisters_cons.mpr (.inl hd)⟩
      · rcases registers_cons.mp h with hb | ⟨hstep, hdepth⟩
        · exact absurd ⟨b, hb⟩ hbefore
        · exact ⟨b, firstRegisters_cons.mpr (.inr ⟨hstep, hdepth, not_exists.mp hbefore⟩)⟩

end Registers

/-! ## Frames -/

/-- The frame after a registration. The first one of a name counts. -/
def Frame.bind (F : Frame) (x : String) (b : Binding) : Frame :=
  if (F.lookup x).isSome then F else (x, b) :: F

theorem Frame.lookup_bind (F : Frame) (x y : String) (b : Binding) :
    (F.bind x b).lookup y = (F.lookup y).or (if y = x then some b else none) := by
  unfold Frame.bind
  split
  · next h =>
    obtain ⟨c, hc⟩ := Option.isSome_iff_exists.mp h
    by_cases hy : y = x
    · simp [hy, hc]
    · simp [hy]
  · next h =>
    rw [Option.not_isSome_iff_eq_none] at h
    by_cases hy : y = x
    · simp [hy, h]
    · simp [hy, List.lookup_cons, beq_eq_false_iff_ne.mpr hy]

/-- The frame binds what was registered first in the frame that was opened before `body`. -/
def Frame.Holds (F : Frame) (body : List ScopeStep) : Prop :=
  ∀ x b, F.lookup x = some b ↔ FirstRegisters body x b

section Holds

variable {F : Frame} {body : List ScopeStep}

theorem Frame.Holds.isSome_lookup (h : F.Holds body) (x : String) :
    (F.lookup x).isSome ↔ ∃ b, Registers body x b := by
  rw [Option.isSome_iff_exists]
  constructor
  · rintro ⟨b, hb⟩
    exact ⟨b, ((h x b).mp hb).registers⟩
  · rintro ⟨b, hb⟩
    obtain ⟨c, hc⟩ := exists_firstRegisters hb
    exact ⟨c, (h x c).mpr hc⟩

/-- A step that registers nothing in the frame leaves what it holds. -/
theorem Frame.Holds.other (h : F.Holds body) {step : ScopeStep}
    (hstep : ∀ x b, step = .register x b → innerDepth body ≠ some 0) :
    F.Holds (step :: body) := by
  intro x b
  rw [h x b, firstRegisters_cons, or_iff_left]
  rintro ⟨rfl, hdepth, -⟩
  exact hstep x b rfl hdepth

theorem Frame.Holds.bind (h : F.Holds body) (hdepth : innerDepth body = some 0) (y : String)
    (c : Binding) : (F.bind y c).Holds (.register y c :: body) := by
  intro x b
  have hnone : F.lookup x = none ↔ ∀ d, ¬Registers body x d := by
    rw [← Option.not_isSome_iff_eq_none, h.isSome_lookup, not_exists]
  rw [Frame.lookup_bind, Option.or_eq_some_iff, hnone, h x b, firstRegisters_cons]
  by_cases hx : x = y
  · subst hx
    simp [hdepth, and_comm]
  · simp [hx, Ne.symm hx]

end Holds

namespace Scopes

@[simp] theorem frames_exit (s : Scopes) : (s.step .exit).2.frames = s.frames.tail := by
  obtain ⟨_ | ⟨F, rest⟩⟩ := s <;> rfl

@[simp] theorem frames_register (s : Scopes) (x : String) (b : Binding) :
    (s.step (.register x b)).2.frames = s.frames.modifyHead (·.bind x b) := by
  obtain ⟨_ | ⟨F, rest⟩⟩ := s
  · rfl
  · by_cases h : (F.lookup x).isSome <;> simp [step, register, conclude, Frame.bind, h]

/-- Only a step that is done changes the scopes. -/
theorem step_eq_self {s : Scopes} {step : ScopeStep} (h : (s.step step).1 ≠ .done) :
    (s.step step).2 = s := by
  cases step with
  | enter => exact absurd rfl h
  | exit =>
      rcases hexit : s.exit with ⟨e | ⟨⟩, s'⟩ <;> simp only [Scopes.step, hexit] at h ⊢
      · exact exit_of_error hexit
      · exact absurd rfl h
  | register x b =>
      rcases hreg : s.register x b with ⟨e | ⟨⟩, s'⟩ <;> simp only [Scopes.step, hreg] at h ⊢
      · exact register_of_error hreg
      · exact absurd rfl h
  | lookup x => rfl
  | lookupAs x k => rfl

/-! ## Frames of a history -/

/-- The frame that was opened before a body is found below the frames that are open in it, it
holds what the body has registered in it, and below it are the frames from before. -/
theorem frame_of_body (s : Scopes) {body : List ScopeStep} :
    ∀ {n : Nat}, innerDepth body = some n →
      (s.enter.run body).frames.drop (n + 1) = s.frames ∧
      ∃ F, (s.enter.run body).frames[n]? = some F ∧ F.Holds body := by
  induction body with
  | nil =>
      intro n hn
      obtain rfl : 0 = n := by simpa [innerDepth] using hn
      exact ⟨rfl, [], rfl, by simp [Frame.Holds, FirstRegisters]⟩
  | cons step body ih =>
      intro n hn
      cases step with
      | enter =>
          obtain ⟨m, hm, rfl⟩ : ∃ m, innerDepth body = some m ∧ m + 1 = n := by
            simpa [innerDepth] using hn
          obtain ⟨hbelow, F, hF, hholds⟩ := ih hm
          exact ⟨hbelow, F, hF, hholds.other nofun⟩
      | exit =>
          have hm : innerDepth body = some (n + 1) := by
            simp only [innerDepth] at hn
            split at hn
            · next m hm => rw [hm, Option.some.inj hn]
            · cases hn
          obtain ⟨hbelow, F, hF, hholds⟩ := ih hm
          refine ⟨?_, F, ?_, hholds.other nofun⟩
          · rw [run, frames_exit, List.drop_tail, hbelow]
          · rw [run, frames_exit, List.getElem?_tail, hF]
      | register y c =>
          have hm : innerDepth body = some n := hn
          obtain ⟨hbelow, F, hF, hholds⟩ := ih hm
          rw [run, frames_register, List.getElem?_modifyHead]
          refine ⟨?_, ?_⟩
          · rw [← hbelow]
            cases (s.enter.run body).frames <;> rfl
          · -- The registration belongs to the frame exactly if that is the head.
            by_cases h0 : n = 0
            · subst h0
              exact ⟨F.bind y c, by simp [hF], hholds.bind hm y c⟩
            · exact ⟨F, by simp [h0, hF], hholds.other fun _ _ _ => by simp [hm, h0]⟩
      | lookup y =>
          obtain ⟨hbelow, F, hF, hholds⟩ := ih (show innerDepth body = some n from hn)
          exact ⟨hbelow, F, hF, hholds.other nofun⟩
      | lookupAs y k =>
          obtain ⟨hbelow, F, hF, hholds⟩ := ih (show innerDepth body = some n from hn)
          exact ⟨hbelow, F, hF, hholds.other nofun⟩

/-- A frame that is opened and closed again leaves no trace. -/
theorem run_closed (s : Scopes) {body : List ScopeStep} (h : innerDepth body = some 0) :
    s.run (.exit :: body ++ [.enter]) = s := by
  have hframes : (s.run (.exit :: body ++ [.enter])).frames = s.frames := by
    rw [List.cons_append, run, frames_exit, run_append, ← List.drop_one]
    exact (s.frame_of_body h).1
  obtain ⟨frames⟩ := s
  exact congrArg Scopes.mk hframes

section History

variable {history body : List ScopeStep} {n : Nat}

/-- The frame of an `enter` that is still open. -/
theorem frame_of_opened (h : Opened history body n) :
    ∃ F, (empty.run history).frames[n]? = some F ∧ F.Holds body := by
  obtain ⟨hdepth, outer, rfl⟩ := h
  rw [run_append]
  exact ((empty.run outer).frame_of_body hdepth).2

/-- Every frame was opened, and is still open. -/
theorem exists_opened {F : Frame} (h : (empty.run history).frames[n]? = some F) :
    ∃ body, Opened history body n := by
  induction history generalizing n F with
  | nil => cases h
  | cons step history ih =>
      have hkeep {m : Nat} {G : Frame} (hG : (empty.run history).frames[m]? = some G)
          (hdepth : ∀ body, innerDepth body = some m → innerDepth (step :: body) = some n) :
          ∃ body, Opened (step :: history) body n := by
        obtain ⟨body, hbody, outer, rfl⟩ := ih hG
        exact ⟨step :: body, hdepth body hbody, outer, rfl⟩
      rw [run] at h
      cases step with
      | enter =>
          cases n with
          | zero => exact ⟨[], rfl, history, rfl⟩
          | succ n => exact hkeep h fun body hbody => by simp [innerDepth, hbody]
      | exit =>
          rw [frames_exit, List.getElem?_tail] at h
          exact hkeep h fun body hbody => by simp [innerDepth, hbody]
      | register x b =>
          rw [frames_register, List.getElem?_modifyHead] at h
          split at h
          · obtain ⟨G, hG, -⟩ := Option.map_eq_some_iff.mp h
            exact hkeep hG fun _ hbody => hbody
          · exact hkeep h fun _ hbody => hbody
      | lookup x => exact hkeep h fun _ hbody => hbody
      | lookupAs x k => exact hkeep h fun _ hbody => hbody

theorem exists_opened_holds {F : Frame} (h : (empty.run history).frames[n]? = some F) :
    ∃ body, Opened history body n ∧ F.Holds body := by
  obtain ⟨body, hbody⟩ := exists_opened h
  obtain ⟨G, hG, hholds⟩ := frame_of_opened hbody
  rw [h] at hG
  obtain rfl := Option.some.inj hG
  exact ⟨body, hbody, hholds⟩

end History

/-! ## Answers -/

section Answers

open ScopeStep

variable {history : List ScopeStep} {x : String}

theorem anyOpen_iff : AnyOpen history ↔ (empty.run history).frames ≠ [] := by
  constructor
  · rintro ⟨body, n, hbody⟩ hnil
    obtain ⟨F, hF, -⟩ := frame_of_opened hbody
    simp [hnil] at hF
  · intro hne
    obtain ⟨F, rest, hframes⟩ := List.exists_cons_of_ne_nil hne
    obtain ⟨body, hbody⟩ := exists_opened (n := 0) (by rw [hframes]; rfl)
    exact ⟨body, 0, hbody⟩

theorem declared_iff {F : Frame} {rest : List Frame}
    (h : (empty.run history).frames = F :: rest) :
    Declared history x ↔ (F.lookup x).isSome := by
  have hhead : (empty.run history).frames[0]? = some F := by rw [h]; rfl
  constructor
  · rintro ⟨body, b, hbody, hb⟩
    obtain ⟨G, hG, hholds⟩ := frame_of_opened hbody
    rw [hhead] at hG
    obtain rfl := Option.some.inj hG
    exact (hholds.isSome_lookup x).mpr ⟨b, hb⟩
  · intro hsome
    obtain ⟨body, hbody, hholds⟩ := exists_opened_holds hhead
    obtain ⟨b, hb⟩ := (hholds.isSome_lookup x).mp hsome
    exact ⟨body, b, hbody, hb⟩

theorem visible_iff : Visible history x ↔ (empty.run history).lookup x ≠ none := by
  rw [lookup, Ne, List.findSome?_eq_none_iff]
  constructor
  · rintro ⟨body, n, b, hbody, hb⟩ hnone
    obtain ⟨F, hF, hholds⟩ := frame_of_opened hbody
    have hsome := (hholds.isSome_lookup x).mpr ⟨b, hb⟩
    simp [hnone F (List.mem_of_getElem? hF)] at hsome
  · intro hsome
    push Not at hsome
    obtain ⟨F, hF, hx⟩ := hsome
    obtain ⟨n, hn⟩ := List.mem_iff_getElem?.mp hF
    obtain ⟨body, hbody, hholds⟩ := exists_opened_holds hn
    obtain ⟨b, hb⟩ := (hholds.isSome_lookup x).mp (Option.isSome_iff_ne_none.mpr hx)
    exact ⟨body, n, b, hbody, hb⟩

theorem nearest_iff {b : Binding} :
    Nearest history x b ↔ (empty.run history).lookup x = some b := by
  rw [lookup, List.findSome?_eq_some_iff]
  constructor
  · rintro ⟨body, n, hbody, hfirst, hleast⟩
    obtain ⟨F, hF, hholds⟩ := frame_of_opened hbody
    obtain ⟨hn, rfl⟩ := List.getElem?_eq_some_iff.mp hF
    have hsplit := (List.take_append_drop n (empty.run history).frames).symm
    rw [List.drop_eq_getElem_cons hn] at hsplit
    refine ⟨_, _, _, hsplit, (hholds x b).mpr hfirst, fun G hG => ?_⟩
    obtain ⟨m, hm⟩ := List.mem_iff_getElem?.mp hG
    rw [List.getElem?_take] at hm
    split at hm
    · next hlt =>
      obtain ⟨body', hbody', hholds'⟩ := exists_opened_holds hm
      by_contra hx
      obtain ⟨c, hc⟩ := (hholds'.isSome_lookup x).mp (Option.isSome_iff_ne_none.mpr hx)
      exact absurd hlt (Nat.not_lt.mpr (hleast body' m c hbody' hc))
    · cases hm
  · rintro ⟨inner, F, rest, hframes, hx, hinner⟩
    have hF : (empty.run history).frames[inner.length]? = some F := by simp [hframes]
    obtain ⟨body, hbody, hholds⟩ := exists_opened_holds hF
    refine ⟨body, inner.length, hbody, (hholds x b).mp hx, fun body' n' c hbody' hc => ?_⟩
    by_contra hlt
    obtain ⟨G, hG, hholds'⟩ := frame_of_opened hbody'
    have hsome := (hholds'.isSome_lookup x).mpr ⟨c, hc⟩
    rw [hframes, List.getElem?_append_left (by omega)] at hG
    simp [hinner G (List.mem_of_getElem? hG)] at hsome

theorem step_answers (history : List ScopeStep) (step : ScopeStep) :
    Answers history step ((empty.run history).step step).1 := by
  cases step with
  | enter => exact .enter
  | exit =>
      cases hframes : (empty.run history).frames with
      | nil =>
          have hnone : ¬AnyOpen history := by simp [anyOpen_iff, hframes]
          simpa [step, exit, conclude, hframes] using Answers.exitNone hnone
      | cons F rest =>
          have hopen : AnyOpen history := by simp [anyOpen_iff, hframes]
          simpa [step, exit, conclude, hframes] using Answers.exit hopen
  | register x b =>
      cases hframes : (empty.run history).frames with
      | nil =>
          have hnone : ¬AnyOpen history := by simp [anyOpen_iff, hframes]
          simpa [step, register, conclude, hframes] using Answers.registerNone hnone
      | cons F rest =>
          have hopen : AnyOpen history := by simp [anyOpen_iff, hframes]
          by_cases hx : (F.lookup x).isSome
          · simpa [step, register, conclude, hframes, hx] using
              Answers.redeclared ((declared_iff hframes).mpr hx)
          · simpa [step, register, conclude, hframes, hx] using
              Answers.register hopen (mt (declared_iff hframes).mp hx)
  | lookup x =>
      cases hx : (empty.run history).lookup x with
      | none =>
          have hnone : ¬Visible history x := by simp [visible_iff, hx]
          simpa [step, hx] using Answers.absent hnone
      | some b => simpa [step, hx] using Answers.found (nearest_iff.mpr hx)
  | lookupAs x k =>
      cases hx : (empty.run history).lookup x with
      | none =>
          have hnone : ¬Visible history x := by simp [visible_iff, hx]
          simpa [step, lookupAs, hx] using Answers.notFound hnone
      | some b =>
          by_cases hk : b.kind = k
          · subst hk
            simpa [step, lookupAs, hx] using Answers.resolved (nearest_iff.mpr hx)
          · simpa [step, lookupAs, hx, hk] using Answers.wrongKind (nearest_iff.mpr hx) hk

theorem answers_iff {step : ScopeStep} {answer : ScopeAnswer} :
    ((empty.run history).step step).1 = answer ↔ Answers history step answer := by
  constructor
  · rintro rfl
    exact step_answers history step
  · intro h
    cases h with
    | enter => rfl
    | exit hopen =>
        obtain ⟨F, rest, hframes⟩ := List.exists_cons_of_ne_nil (anyOpen_iff.mp hopen)
        simp [step, exit, conclude, hframes]
    | exitNone hnone =>
        have hframes := not_not.mp (mt anyOpen_iff.mpr hnone)
        simp [step, exit, conclude, hframes]
    | register hopen hx =>
        obtain ⟨F, rest, hframes⟩ := List.exists_cons_of_ne_nil (anyOpen_iff.mp hopen)
        rw [declared_iff hframes] at hx
        simp [step, register, conclude, hframes, hx]
    | redeclared hx =>
        obtain ⟨body, b, hbody, -⟩ := id hx
        obtain ⟨F, rest, hframes⟩ := List.exists_cons_of_ne_nil (anyOpen_iff.mp ⟨body, 0, hbody⟩)
        rw [declared_iff hframes] at hx
        simp [step, register, conclude, hframes, hx]
    | registerNone hnone =>
        have hframes := not_not.mp (mt anyOpen_iff.mpr hnone)
        simp [step, register, conclude, hframes]
    | found hx => simp [step, nearest_iff.mp hx]
    | absent hx => simp [step, not_not.mp (mt visible_iff.mpr hx)]
    | resolved hx => simp [step, lookupAs, nearest_iff.mp hx]
    | wrongKind hx hk => simp [step, lookupAs, nearest_iff.mp hx, hk]
    | notFound hx => simp [step, lookupAs, not_not.mp (mt visible_iff.mpr hx)]

end Answers

end Scopes

/-- **Scopes are lexical.** After any history each step answers what the history lays down.
A step that is not done changes nothing that comes after it, and neither does a frame that has
been closed, together with all that happened in it. -/
theorem scopes_are_lexical (history : List ScopeStep) :
    (∀ step answer, ((Scopes.empty.run history).step step).1 = answer ↔
      ScopeStep.Answers history step answer) ∧
    (∀ step later, ((Scopes.empty.run history).step step).1 ≠ .done →
      Scopes.empty.run (later ++ step :: history) = Scopes.empty.run (later ++ history)) ∧
    ∀ body, innerDepth body = some 0 →
      Scopes.empty.run (.exit :: body ++ .enter :: history) = Scopes.empty.run history := by
  refine ⟨fun step answer => Scopes.answers_iff, fun step later h => ?_, fun body h => ?_⟩
  · rw [Scopes.run_append, Scopes.run_append, Scopes.run, Scopes.step_eq_self h]
  · rw [← Scopes.run_closed (Scopes.empty.run history) h, ← Scopes.run_append,
      List.append_assoc, List.singleton_append]

/-- A local hides a parameter of the same name. It cannot be had as a parameter then, and the
parameter is back as soon as the frame of the local is closed. -/
theorem hidden_parameter_returns :
    let outer : List ScopeStep := [.register "x" (.argument 1), .enter]
    let body : List ScopeStep := [.lookupAs "x" .argument, .register "x" (.localSlot 0)]
    innerDepth body = some 0 ∧
      ScopeStep.Answers (body ++ .enter :: outer) (.lookup "x") (.binding (some (.localSlot 0))) ∧
      ScopeStep.Answers (body ++ .enter :: outer) (.lookupAs "x" .argument)
        (.resolved (.error (.wrongKind "x" .argument .localSlot))) ∧
      Scopes.empty.run (.exit :: body ++ .enter :: outer) = Scopes.empty.run outer ∧
      ScopeStep.Answers outer (.lookup "x") (.binding (some (.argument 1))) := by
  refine ⟨rfl, ((scopes_are_lexical _).1 _ _).mp rfl, ((scopes_are_lexical _).1 _ _).mp rfl,
    (scopes_are_lexical _).2.2 _ rfl, ((scopes_are_lexical _).1 _ _).mp rfl⟩

end AgentLang
