import AgentLang.Machine
import AgentLang.Proofs.Linkage
import Mathlib.Logic.Relation

/-!
# Which methods come to an end

A method calls only itself and methods before it (`AgentType.Linked.callee_le`),
so the only loops among methods are self-calls. Without one in reach, calls nest
no deeper than the number of the method says: the run ends, by induction on that
number (`AgentType.Linked.endsWithin`).

With one in reach the method cannot return. Code has no branches, so a run that
returns has returned from every call in the code (`runCode_returned`), and a
method that calls itself would have to return from ever smaller depths
(`AgentType.Linked.neverReturns_of_self_call`).
-/

namespace AgentLang

/-! ## Calls between methods -/

/-- The method that an instruction calls. -/
def Instr.callee? : Instr → Option MethodId
  | call method _ => some method
  | _ => none

theorem Instr.callee?_eq_some {i : Instr} {j : MethodId} :
    i.callee? = some j ↔ ∃ argc, i = .call j argc := by
  cases i <;> simp [callee?]

/-- The methods that code calls, in order. -/
def callees (code : List Instr) : List MethodId := code.filterMap Instr.callee?

/-- The code of method `k` calls method `j`. -/
def AgentType.Calls (type : AgentType) (k j : MethodId) : Prop :=
  ∃ m, type.methods[k]? = some m ∧ j ∈ callees m.code

/-- Calls lead from method `k` to method `j`. Every method reaches itself. -/
def AgentType.Reaches (type : AgentType) : MethodId → MethodId → Prop :=
  Relation.ReflTransGen type.Calls

/-! ## Code and its calls -/

section Code

variable {tuples : List TupleDesc}
  {call call' : MethodId → List Value → Fields → Except Stop Unit × Fields}

theorem runCode_plain {i : Instr} (hret : i ≠ .ret) (hcall : i.callee? = none)
    (code : List Instr) (a : Activation) (fields : Fields) :
    runCode tuples call (i :: code) a fields =
      match a.step tuples fields i with
      | .error f => (.error (.fault f), fields)
      | .ok (a, fields) => runCode tuples call code a fields := by
  cases i with
  | ret => exact absurd rfl hret
  | call method argc => cases hcall
  | _ => rfl

theorem mem_callees_cons {i : Instr} {code : List Instr} {j : MethodId} :
    j ∈ callees (i :: code) ↔ i.callee? = some j ∨ j ∈ callees code := by
  cases hi : i.callee? <;> simp [callees, hi, eq_comm]

/-- What an instruction does to a run, however methods behave: the run stops, with
a return or a fault; it goes on; or it goes on if the call of a method returns. -/
theorem runCode_cons_cases (tuples : List TupleDesc) (i : Instr) (code : List Instr)
    (a : Activation) (fields : Fields) :
    (∃ r, r ≠ .error .tooDeep ∧ (i ≠ .ret → ∀ a', r ≠ .ok a') ∧
      ∀ call, runCode tuples call (i :: code) a fields = (r, fields)) ∨
    (∃ a' fields', i.callee? = none ∧
      ∀ call, runCode tuples call (i :: code) a fields = runCode tuples call code a' fields') ∨
    ∃ j args a', i.callee? = some j ∧
      ∀ call, runCode tuples call (i :: code) a fields =
        match call j args fields with
        | (.error s, fields) => (.error s, fields)
        | (.ok (), fields) => runCode tuples call code a' fields := by
  cases hi : i.callee? with
  | some j =>
      obtain ⟨argc, rfl⟩ := Instr.callee?_eq_some.mp hi
      cases hpop : a.popCall argc with
      | error f =>
          refine Or.inl ⟨.error (.fault f), by simp, by simp, fun call => ?_⟩
          simp only [runCode, hpop]
      | ok r =>
          refine Or.inr (Or.inr ⟨j, r.1, r.2, rfl, fun call => ?_⟩)
          rcases hj : call j r.1 fields with ⟨s | ⟨⟩, fields'⟩ <;> simp only [runCode, hpop, hj]
  | none =>
      by_cases hret : i = .ret
      · subst hret
        exact Or.inl ⟨.ok a, by simp, fun h => absurd rfl h, fun _ => rfl⟩
      · cases hstep : a.step tuples fields i with
        | error f =>
            refine Or.inl ⟨.error (.fault f), by simp, by simp, fun call => ?_⟩
            rw [runCode_plain hret hi, hstep]
        | ok r =>
            refine Or.inr (Or.inl ⟨r.1, r.2, rfl, fun call => ?_⟩)
            rw [runCode_plain hret hi, hstep]

/-- Code runs alike if the methods that it calls run alike. -/
theorem runCode_congr {code : List Instr} :
    ∀ {a : Activation} {fields : Fields}, (∀ j ∈ callees code, call j = call' j) →
      runCode tuples call code a fields = runCode tuples call' code a fields := by
  induction code with
  | nil =>
      intro a fields _
      rfl
  | cons i code ih =>
      intro a fields h
      have hcode : ∀ j ∈ callees code, call j = call' j :=
        fun j hj => h j (mem_callees_cons.mpr (Or.inr hj))
      rcases runCode_cons_cases tuples i code a fields with
        ⟨r, -, -, hrun⟩ | ⟨a', fields', -, hrun⟩ | ⟨j, args, a', hi, hrun⟩
      · rw [hrun, hrun]
      · rw [hrun, hrun]
        exact ih hcode
      · rw [hrun, hrun, h j (mem_callees_cons.mpr (Or.inl hi))]
        rcases call' j args fields with ⟨s | ⟨⟩, fields'⟩
        · rfl
        · exact ih hcode

/-- Code does not nest too deep if none of the methods that it calls does. -/
theorem runCode_ends {code : List Instr} :
    ∀ {a : Activation} {fields : Fields},
      (∀ j ∈ callees code, ∀ args fields, (call j args fields).1 ≠ .error .tooDeep) →
      (runCode tuples call code a fields).1 ≠ .error .tooDeep := by
  induction code with
  | nil =>
      intro a fields _
      simp [runCode]
  | cons i code ih =>
      intro a fields h
      have hcode : ∀ j ∈ callees code, ∀ args fields,
          (call j args fields).1 ≠ .error .tooDeep :=
        fun j hj => h j (mem_callees_cons.mpr (Or.inr hj))
      rcases runCode_cons_cases tuples i code a fields with
        ⟨r, hr, -, hrun⟩ | ⟨a', fields', -, hrun⟩ | ⟨j, args, a', hi, hrun⟩
      · rw [hrun]
        exact hr
      · rw [hrun]
        exact ih hcode
      · have hj := h j (mem_callees_cons.mpr (Or.inl hi)) args fields
        rw [hrun]
        rcases hcall : call j args fields with ⟨s | ⟨⟩, fields'⟩
        · rw [hcall] at hj
          simpa using hj
        · exact ih hcode

/-- Code without a return has no way around a call: if it comes to its end,
then every call in it has returned. -/
theorem runCode_returned {code rest : List Instr} {j : MethodId} (hj : j ∈ callees code) :
    ∀ {a a' : Activation} {fields : Fields}, .ret ∉ code →
      (runCode tuples call (code ++ rest) a fields).1 = .ok a' →
      ∃ args fields, (call j args fields).1 = .ok () := by
  induction code with
  | nil => simp [callees] at hj
  | cons i code ih =>
      intro a a' fields hret hok
      rw [List.mem_cons, not_or] at hret
      rw [List.cons_append] at hok
      rw [mem_callees_cons] at hj
      rcases runCode_cons_cases tuples i (code ++ rest) a fields with
        ⟨r, -, hr, hrun⟩ | ⟨a₁, fields₁, hi, hrun⟩ | ⟨k, args, a₁, hi, hrun⟩
      · rw [hrun] at hok
        exact absurd hok (hr (Ne.symm hret.1) a')
      · rw [hrun] at hok
        rcases hj with hij | hj
        · simp [hi] at hij
        · exact ih hj hret.2 hok
      · rw [hrun] at hok
        rcases hcall : call k args fields with ⟨s | ⟨⟩, fields₁⟩
        · simp [hcall] at hok
        · rcases hj with hij | hj
          · obtain rfl := Option.some.inj (hi.symm.trans hij)
            exact ⟨args, fields, by rw [hcall]⟩
          · rw [hcall] at hok
            exact ih hj hret.2 hok

end Code

/-! ## Linked code -/

section Linked

variable {checkArity : Bool} {a : Agent} {type : AgentType} {k j : MethodId}

theorem CodeFits.of_mem {L : Linkage} {locals : Nat} {code : List Instr} {i : Instr}
    (h : CodeFits L locals code) (hi : i ∈ code) : ∃ before, i.Fits L locals before := by
  obtain ⟨pre, post, heq⟩ := List.append_of_mem hi
  exact ⟨_, h pre i post heq⟩

/-- The code of a method returns at its end and nowhere else. -/
theorem AgentType.Linked.code_eq (h : type.Linked checkArity a) {m : MethodDef}
    (hm : type.methods[k]? = some m) : ∃ body, m.code = body ++ [.ret] ∧ .ret ∉ body := by
  obtain ⟨body, hcode, hfits⟩ := h.method_linked k m hm
  refine ⟨body, hcode, fun hret => ?_⟩
  obtain ⟨before, hfalse⟩ := hfits.of_mem hret
  exact hfalse

theorem callees_return (body : List Instr) : callees (body ++ [.ret]) = callees body := by
  simp [callees, Instr.callee?]

/-- A method calls only itself and methods before it. -/
theorem AgentType.Linked.callee_le (h : type.Linked checkArity a) (hc : type.Calls k j) :
    j ≤ k := by
  obtain ⟨m, hm, hj⟩ := hc
  obtain ⟨body, hcode, hfits⟩ := h.method_linked k m hm
  rw [hcode, callees_return, callees, List.mem_filterMap] at hj
  obtain ⟨i, hi, hcallee⟩ := hj
  obtain ⟨argc, rfl⟩ := Instr.callee?_eq_some.mp hcallee
  obtain ⟨before, n, hn, -⟩ := hfits.of_mem hi
  have hlt := (List.getElem?_eq_some_iff.mp hn).1
  simp only [AgentType.linkage, List.length_map, List.length_take] at hlt
  exact Nat.le_of_lt_succ (Nat.lt_of_lt_of_le hlt (Nat.min_le_left _ _))

/-- A method whose code came to its end has returned from each of its calls. -/
theorem AgentType.Linked.returned (h : type.Linked checkArity a) (hc : type.Calls k j)
    {m : MethodDef} (hm : type.methods[k]? = some m) {tuples : List TupleDesc}
    {call : MethodId → List Value → Fields → Except Stop Unit × Fields}
    {act act' : Activation} {fields : Fields}
    (hrun : (runCode tuples call m.code act fields).1 = .ok act') :
    ∃ args fields, (call j args fields).1 = .ok () := by
  obtain ⟨m', hm', hj⟩ := hc
  obtain rfl := Option.some.inj (hm.symm.trans hm')
  obtain ⟨body, hcode, hret⟩ := h.code_eq hm
  rw [hcode, callees_return] at hj
  rw [hcode] at hrun
  exact runCode_returned hj hret hrun

end Linked

theorem callMethod_succ {tuples : List TupleDesc} {methods : List MethodDef} {k : MethodId}
    {m : MethodDef} (hm : methods[k]? = some m) (depth : Nat) (args : List Value)
    (fields : Fields) :
    callMethod tuples methods (depth + 1) k args fields =
      let r := runCode tuples (callMethod tuples methods depth) m.code
        (.start args m.locals.length) fields
      (r.1.map fun _ => (), r.2) := by
  simp only [callMethod, hm]
  rcases runCode tuples (callMethod tuples methods depth) m.code
    (.start args m.locals.length) fields with ⟨s | act, fields'⟩ <;> rfl

/-! ## Runs that end -/

/-- The run ends if calls may nest `bound` deep, and it comes to the same end if
they may nest deeper. -/
structure EndsWithin {α β : Type} (bound : Nat) (run : Nat → Except Stop β × α) : Prop where
  ends : (run bound).1 ≠ .error .tooDeep
  settled : ∀ depth, bound ≤ depth → run depth = run bound

section Ends

variable {α β γ δ : Type} {bound : Nat} {run : Nat → Except Stop β × α}

theorem EndsWithin.mono (h : EndsWithin bound run) {bound' : Nat} (hle : bound ≤ bound') :
    EndsWithin bound' run := by
  have hbound' := h.settled bound' hle
  refine ⟨by rw [hbound']; exact h.ends, fun depth hdepth => ?_⟩
  rw [hbound', h.settled depth (Nat.le_trans hle hdepth)]

/-- What is made of the outcome of a run ends with the run. -/
theorem EndsWithin.transfer (h : EndsWithin bound run) {run' : Nat → Except Stop δ × γ}
    (hends : (run bound).1 ≠ .error .tooDeep → (run' bound).1 ≠ .error .tooDeep)
    (hsame : ∀ depth, run depth = run bound → run' depth = run' bound) :
    EndsWithin bound run' :=
  ⟨hends h.ends, fun depth hdepth => hsame depth (h.settled depth hdepth)⟩

theorem endsWithin_const {r : Except Stop β × α} (h : r.1 ≠ .error .tooDeep) :
    EndsWithin bound fun _ => r :=
  ⟨h, fun _ _ => rfl⟩

theorem runCode_endsWithin {tuples : List TupleDesc} {methods : List MethodDef}
    {code : List Instr} (h : ∀ j ∈ callees code, ∀ args fields,
      EndsWithin bound fun depth => callMethod tuples methods depth j args fields)
    (act : Activation) (fields : Fields) :
    EndsWithin bound fun depth =>
      runCode tuples (callMethod tuples methods depth) code act fields := by
  refine ⟨runCode_ends fun j hj args fields => (h j hj args fields).ends, ?_⟩
  intro depth hdepth
  refine runCode_congr fun j hj => ?_
  funext args fields
  exact (h j hj args fields).settled depth hdepth

theorem EndsWithin.succ (h : EndsWithin bound fun depth => run (depth + 1)) :
    EndsWithin (bound + 1) run := by
  refine ⟨h.ends, fun depth hdepth => ?_⟩
  obtain ⟨d, rfl⟩ : ∃ d, depth = d + 1 := ⟨depth - 1, by omega⟩
  exact h.settled d (Nat.le_of_succ_le_succ hdepth)

theorem callMethod_endsWithin {tuples : List TupleDesc} {methods : List MethodDef}
    {k : MethodId} (h : ∀ m, methods[k]? = some m → ∀ act fields, EndsWithin bound fun depth =>
      runCode tuples (callMethod tuples methods depth) m.code act fields)
    (args : List Value) (fields : Fields) :
    EndsWithin (bound + 1) fun depth => callMethod tuples methods depth k args fields := by
  refine EndsWithin.succ ?_
  cases hm : methods[k]? with
  | none =>
      simp only [callMethod, hm]
      exact endsWithin_const (by simp)
  | some m =>
      simp only [callMethod_succ hm]
      refine (h m hm (.start args m.locals.length) fields).transfer ?_ ?_
      · rcases runCode tuples (callMethod tuples methods bound) m.code
          (.start args m.locals.length) fields with ⟨s | act, fields'⟩ <;> simp [Except.map]
      · intro depth hd
        simp only [hd]

variable {checkArity : Bool} {a : Agent} {type : AgentType}

/-- Where no self-call is in reach, a method calls earlier methods only, and
calls nest no deeper than its number says. -/
theorem AgentType.Linked.endsWithin (h : type.Linked checkArity a) {k : MethodId}
    {m : MethodDef} (hm : type.methods[k]? = some m)
    (hself : ∀ j, type.Reaches k j → ¬ type.Calls j j) (act : Activation) (fields : Fields) :
    EndsWithin k fun depth => runCode type.tuples
      (callMethod type.tuples type.methods depth) m.code act fields := by
  induction k using Nat.strongRecOn generalizing m act fields with
  | ind k ih =>
    refine runCode_endsWithin (fun j hj args fields => ?_) act fields
    have hcall : type.Calls k j := ⟨m, hm, hj⟩
    have hne : j ≠ k := by
      rintro rfl
      exact hself j .refl hcall
    have hlt : j < k := Nat.lt_of_le_of_ne (h.callee_le hcall) hne
    refine (callMethod_endsWithin (fun m' hm' => ?_) args fields).mono hlt
    exact ih j hlt hm' fun i hi => hself i (.head hcall hi)

end Ends

/-! ## Runs without a return -/

section Endless

variable {checkArity : Bool} {a : Agent} {type : AgentType} {k j : MethodId}

/-- However deep calls may nest, the method does not return. -/
def AgentType.NeverReturns (type : AgentType) (k : MethodId) : Prop :=
  ∀ depth args fields, (callMethod type.tuples type.methods depth k args fields).1 ≠ .ok ()

/-- A method that returns has returned from each of its calls, one level deeper. -/
theorem AgentType.Linked.callMethod_returned (h : type.Linked checkArity a)
    (hc : type.Calls k j) {depth : Nat} {args : List Value} {fields : Fields}
    (hrun : (callMethod type.tuples type.methods (depth + 1) k args fields).1 = .ok ()) :
    ∃ args fields, (callMethod type.tuples type.methods depth j args fields).1 = .ok () := by
  obtain ⟨m, hm, hj⟩ := hc
  rw [callMethod_succ hm] at hrun
  cases hcode : (runCode type.tuples (callMethod type.tuples type.methods depth) m.code
      (.start args m.locals.length) fields).1 with
  | error s => simp [hcode, Except.map] at hrun
  | ok act => exact h.returned ⟨m, hm, hj⟩ hm hcode

theorem AgentType.Linked.neverReturns_of_calls (h : type.Linked checkArity a)
    (hc : type.Calls k j) (hj : type.NeverReturns j) : type.NeverReturns k := by
  intro depth args fields hrun
  cases depth with
  | zero => simp [callMethod] at hrun
  | succ depth =>
      obtain ⟨args', fields', hret⟩ := h.callMethod_returned hc hrun
      exact hj depth args' fields' hret

/-- A method that calls itself would have to return from ever smaller depths. -/
theorem AgentType.Linked.neverReturns_of_self_call (h : type.Linked checkArity a)
    (hc : type.Calls k k) : type.NeverReturns k := by
  intro depth
  induction depth with
  | zero =>
      intro args fields hrun
      simp [callMethod] at hrun
  | succ depth ih =>
      intro args fields hrun
      obtain ⟨args', fields', hret⟩ := h.callMethod_returned hc hrun
      exact ih args' fields' hret

/-- Where a self-call is in reach, one of the calls in the method itself never
returns. -/
theorem AgentType.Linked.exists_endless_callee (h : type.Linked checkArity a)
    (hr : type.Reaches k j) (hc : type.Calls j j) :
    ∃ i, type.Calls k i ∧ type.NeverReturns i := by
  induction hr using Relation.ReflTransGen.head_induction_on with
  | refl => exact ⟨j, hc, h.neverReturns_of_self_call hc⟩
  | @head k i hki _ ih =>
      obtain ⟨i', hi', hend⟩ := ih
      exact ⟨i, hki, h.neverReturns_of_calls hi' hend⟩

end Endless

/-! ## Methods started from outside -/

section Invoke

variable {type : AgentType} {method : MethodDef}

theorem invoke_endsWithin {bound : Nat} {fields : Fields}
    (h : ∀ act, EndsWithin bound fun depth => runCode type.tuples
      (callMethod type.tuples type.methods depth) method.code act fields)
    (args : List Int64) :
    EndsWithin bound fun depth => Machine.invoke depth ⟨type, fields⟩ method args := by
  simp only [Machine.invoke]
  split
  · exact endsWithin_const (by simp)
  · refine (h (.start (.receiver :: args.map .int) method.locals.length)).transfer ?_ ?_
    · intro hends
      split
      · next s fields' hrun => simpa [hrun] using hends
      · next act fields' hrun => split <;> simp
    · intro depth hd
      simp only [hd]

/-- A method that was started from outside and returned has come to the end of
its code. -/
theorem runCode_of_invoke {depth : Nat} {fields : Fields} {args : List Int64}
    (h : (Machine.invoke depth ⟨type, fields⟩ method args).1 = .ok ()) :
    ∃ act', (runCode type.tuples (callMethod type.tuples type.methods depth) method.code
      (.start (.receiver :: args.map .int) method.locals.length) fields).1 = .ok act' := by
  simp only [Machine.invoke] at h
  split at h
  · cases h
  · split at h
    · cases h
    · next act fields' hrun => exact ⟨act, by rw [hrun]⟩

end Invoke

/-- **Self-calls decide whether a method ends.** Take a method of a compiled
agent. If no method in its reach calls itself, then the method comes to its end,
with or without a fault, on every list of arguments and with any fields, whether
code calls it or it is started from outside; calls nest no deeper than its number
says. If some method in its reach calls itself, then the method never returns: to
whatever depth calls may nest, it has failed or has not finished. -/
theorem self_calls_decide_termination {checkArity : Bool} {a : Agent} {type : AgentType}
    {diagnostics : List SemanticError} (h : generate checkArity a = .ok (type, diagnostics))
    {k : MethodId} {method : MethodDef} (hk : type.methods[k]? = some method) :
    ((∀ j, type.Reaches k j → ¬ type.Calls j j) → ∀ fields,
      (∀ args, EndsWithin (k + 1) fun depth =>
        callMethod type.tuples type.methods depth k args fields) ∧
      ∀ args, EndsWithin k fun depth => Machine.invoke depth ⟨type, fields⟩ method args) ∧
    ((∃ j, type.Reaches k j ∧ type.Calls j j) → ∀ depth fields,
      (∀ args, (callMethod type.tuples type.methods depth k args fields).1 ≠ .ok ()) ∧
      ∀ args, (Machine.invoke depth ⟨type, fields⟩ method args).1 ≠ .ok ()) := by
  have hl := (generate_linked h).1
  refine ⟨fun hself fields => ⟨?_, ?_⟩, ?_⟩
  · refine fun args => callMethod_endsWithin (fun m hm => ?_) args fields
    exact hl.endsWithin hm hself
  · exact invoke_endsWithin fun act => hl.endsWithin hk hself act fields
  · rintro ⟨j, hreach, hself⟩ depth fields
    obtain ⟨i, hcall, hend⟩ := hl.exists_endless_callee hreach hself
    refine ⟨fun args => hl.neverReturns_of_calls hcall hend depth args fields, ?_⟩
    -- no call starts the method itself, so the descent begins at its callee
    intro args hrun
    obtain ⟨act, hcode⟩ := runCode_of_invoke hrun
    obtain ⟨args', fields', hret⟩ := hl.returned hcall hk hcode
    exact hend depth args' fields' hret

/-- A plan that ends, one that calls it twice, one that calls itself, and one
that calls the last two. -/
def restless : Agent where
  name := ⟨"Restless", .nowhere⟩
  params := []
  beliefs := [⟨⟨"count", .nowhere⟩, [.number 0 .nowhere], .nowhere⟩]
  members := [
    ⟨.plan, ⟨"step", .nowhere⟩, [], [
      ⟨.query, ⟨⟨"count", .nowhere⟩, [.ident "n" .nowhere], .nowhere⟩, .nowhere⟩,
      ⟨.update, ⟨⟨"count", .nowhere⟩,
        [.binary .add (.ident "n" .nowhere) (.number 1 .nowhere) .nowhere], .nowhere⟩,
        .nowhere⟩], .nowhere⟩,
    ⟨.plan, ⟨"pace", .nowhere⟩, [], [
      ⟨.invoke, ⟨⟨"step", .nowhere⟩, [], .nowhere⟩, .nowhere⟩,
      ⟨.invoke, ⟨⟨"step", .nowhere⟩, [], .nowhere⟩, .nowhere⟩], .nowhere⟩,
    ⟨.plan, ⟨"spin", .nowhere⟩, [], [
      ⟨.invoke, ⟨⟨"spin", .nowhere⟩, [], .nowhere⟩, .nowhere⟩], .nowhere⟩,
    ⟨.plan, ⟨"roam", .nowhere⟩, [], [
      ⟨.invoke, ⟨⟨"pace", .nowhere⟩, [], .nowhere⟩, .nowhere⟩,
      ⟨.invoke, ⟨⟨"spin", .nowhere⟩, [], .nowhere⟩, .nowhere⟩], .nowhere⟩]
  span := .nowhere

theorem restless_compiled : ∃ type step pace spin roam,
    generate true restless = .ok (type, []) ∧ type.methods = [step, pace, spin, roam] ∧
    callees step.code = [] ∧ callees pace.code = [0, 0] ∧ callees spin.code = [2] ∧
    callees roam.code = [1, 2] :=
  ⟨_, _, _, _, _, rfl, rfl, rfl, rfl, rfl, rfl⟩

/-- Pacing ends with calls nested once, and roaming, which spins, never
returns. -/
theorem restless_paces_and_spins : ∃ type pace roam,
    generate true restless = .ok (type, []) ∧ type.methods[1]? = some pace ∧
    type.methods[3]? = some roam ∧
    (∀ j, type.Reaches 1 j → ¬ type.Calls j j) ∧
    (∀ fields args, EndsWithin 1 fun depth =>
      Machine.invoke depth ⟨type, fields⟩ pace args) ∧
    type.Reaches 3 2 ∧ type.Calls 2 2 ∧
    ∀ depth fields args, (Machine.invoke depth ⟨type, fields⟩ roam args).1 ≠ .ok () := by
  obtain ⟨type, step, pace, spin, roam, htype, hmethods, hstep, hpace, hspin, hroam⟩ :=
    restless_compiled
  have hpaced : type.methods[1]? = some pace := by simp [hmethods]
  have hroamed : type.methods[3]? = some roam := by simp [hmethods]
  have hreach : ∀ j, type.Reaches 1 j → j = 1 ∨ j = 0 := by
    intro j hj
    induction hj with
    | refl => exact Or.inl rfl
    | tail _ hcall ih =>
        obtain ⟨m, hm, hmem⟩ := hcall
        rcases ih with rfl | rfl
        · obtain rfl : pace = m := by simpa [hmethods] using hm
          simp only [hpace, List.mem_cons, List.not_mem_nil, or_false, or_self] at hmem
          exact Or.inr hmem
        · obtain rfl : step = m := by simpa [hmethods] using hm
          simp [hstep] at hmem
  have hcalm : ∀ j, type.Reaches 1 j → ¬ type.Calls j j := by
    rintro j hj ⟨m, hm, hmem⟩
    rcases hreach j hj with rfl | rfl
    · obtain rfl : pace = m := by simpa [hmethods] using hm
      simp [hpace] at hmem
    · obtain rfl : step = m := by simpa [hmethods] using hm
      simp [hstep] at hmem
  have hspins : type.Calls 2 2 := ⟨spin, by simp [hmethods], by simp [hspin]⟩
  have hroams : type.Reaches 3 2 := .single ⟨roam, hroamed, by simp [hroam]⟩
  exact ⟨type, pace, roam, htype, hpaced, hroamed, hcalm,
    fun fields => ((self_calls_decide_termination htype hpaced).1 hcalm fields).2,
    hroams, hspins,
    fun depth fields => ((self_calls_decide_termination htype hroamed).2
      ⟨2, hroams, hspins⟩ depth fields).2⟩

end AgentLang
