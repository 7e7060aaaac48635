import AgentLang.Proofs.Checker

/-!
# Code that fits the tables of an agent

Slots, fields, methods and tuple types are numbers, handed out by separate
tables and carried to the code through the scopes. Generation goes on after a
mistake, so a name may have been declared twice and a belief may have no tuple
type, and still every number in a draft is one that its table has given out.

The invariant is `Draft.Linked`: what the scopes bind fits the tables
(`Binding.Fits`), and each instruction fits the tables and the instruction
before it (`CodeFits`). There is one lemma for each operation on a draft, and
none of them asks what was reported. The invariant also fixes the table of tuple
types: the beliefs have asked for all the types that a body can ask for, so no
body adds one.
-/

namespace AgentLang

/-! ## Code that fits -/

/-- What the numbers in the code of a method refer to. -/
structure Linkage where
  checkArity : Bool
  fields : List FieldDef
  tuples : List TupleDesc
  /-- The number of argument slots of each method that may be called. -/
  callees : List Nat
  /-- The number of argument slots of the method itself. -/
  argc : Nat

/-- The tuple type of a field. -/
def Linkage.fieldType (L : Linkage) (f : FieldId) : Option TupleId :=
  L.fields[f]?.bind FieldDef.tuple

/-- The numbers of an instruction are good in a method with that many locals,
directly after the instruction `before`. Nothing returns before the end, and no
argument is overwritten. -/
def Instr.Fits (L : Linkage) (locals : Nat) (before : Option Instr) : Instr → Prop
  | loadArg slot => slot < L.argc
  | storeArg _ => False
  | loadLocal slot => slot < locals
  | storeLocal slot => slot < locals
  | loadField f => f < L.fields.length
  | storeField f => ∃ t, before = some (.makeTuple t) ∧ L.fieldType f = some t
  | push _ => True
  | arith _ => True
  | makeTuple t => t < L.tuples.length
  | tupleGet t index =>
    (∃ f, before = some (.loadField f) ∧ L.fieldType f = some t) ∧
      ∃ desc, L.tuples[t]? = some desc ∧ index < desc.arity
  | call m argc => ∃ n, L.callees[m]? = some n ∧ (L.checkArity = true → argc = n)
  | ret => False

/-- Each instruction fits where it stands. -/
def CodeFits (L : Linkage) (locals : Nat) (code : List Instr) : Prop :=
  ∀ pre instr post, code = pre ++ instr :: post → instr.Fits L locals pre.getLast?

section Code

variable {L : Linkage} {locals : Nat} {code : List Instr}

theorem codeFits_nil : CodeFits L locals [] := by
  intro pre instr post h
  simp at h

/-- Code grows at its end, so only the last instruction is new. -/
theorem codeFits_concat {i : Instr} (h : CodeFits L locals code)
    (hi : i.Fits L locals code.getLast?) : CodeFits L locals (code ++ [i]) := by
  intro pre instr post heq
  rcases List.eq_nil_or_concat post with rfl | ⟨post', last, rfl⟩
  · obtain ⟨rfl, hlast⟩ := List.append_inj' heq rfl
    obtain rfl := List.singleton_inj.mp hlast
    exact hi
  · have heq' : code ++ [i] = (pre ++ instr :: post') ++ [last] := by simpa using heq
    exact h pre instr post' (List.append_inj' heq' rfl).1

/-- Instructions that fit anywhere can be added at once. -/
theorem codeFits_append {more : List Instr} (h : CodeFits L locals code)
    (hm : ∀ i ∈ more, ∀ before, i.Fits L locals before) :
    CodeFits L locals (code ++ more) := by
  induction more generalizing code with
  | nil => simpa using h
  | cons i more ih =>
      rw [List.forall_mem_cons] at hm
      have hi := codeFits_concat h (hm.1 _)
      simpa using ih hi hm.2

theorem Instr.Fits.mono {instr : Instr} {before : Option Instr} {locals' : Nat}
    (h : instr.Fits L locals before) (hl : locals ≤ locals') :
    instr.Fits L locals' before := by
  cases instr with
  | loadLocal slot => exact Nat.lt_of_lt_of_le h hl
  | storeLocal slot => exact Nat.lt_of_lt_of_le h hl
  | _ => exact h

theorem CodeFits.mono {locals' : Nat} (h : CodeFits L locals code) (hl : locals ≤ locals') :
    CodeFits L locals' code :=
  fun pre instr post heq => (h pre instr post heq).mono hl

end Code

/-! ## Bindings that fit -/

/-- The numbers of a binding are good in a method with that many locals. -/
def Binding.Fits (L : Linkage) (locals : Nat) : Binding → Prop
  | argument slot => slot < L.argc
  | localSlot slot => slot < locals
  | field f arity => ∃ fd, L.fields[f]? = some fd ∧ fd.arity = arity
  | callable m params => L.callees[m]? = some (params + 1)

def Scopes.Fit (L : Linkage) (locals : Nat) (s : Scopes) : Prop :=
  ∀ F ∈ s.frames, ∀ p ∈ F, p.2.Fits L locals

theorem Scopes.Fit.lookup {L : Linkage} {locals : Nat} {s : Scopes} (h : s.Fit L locals)
    {x : String} {b : Binding} (hb : s.lookup x = some b) : b.Fits L locals := by
  obtain ⟨F, hF, hx⟩ := List.exists_of_findSome?_eq_some hb
  obtain ⟨l₁, l₂, rfl, -⟩ := List.lookup_eq_some_iff.mp hx
  exact h _ hF (x, b) (by simp)

theorem getElem?_of_prefix {α : Type} {l l' : List α} (h : l <+: l') {i : Nat} {x : α}
    (hx : l[i]? = some x) : l'[i]? = some x := by
  obtain ⟨hi, rfl⟩ := List.getElem?_eq_some_iff.mp hx
  exact List.prefix_iff_getElem?.mp h i hi

theorem Binding.Fits.mono {L L' : Linkage} {locals locals' : Nat} {b : Binding}
    (h : b.Fits L locals) (hl : locals ≤ locals') (hargc : L.argc ≤ L'.argc)
    (hfields : L.fields <+: L'.fields) (hcallees : L.callees <+: L'.callees) :
    b.Fits L' locals' := by
  cases b with
  | argument slot => exact Nat.lt_of_lt_of_le h hargc
  | localSlot slot => exact Nat.lt_of_lt_of_le h hl
  | field f arity =>
      obtain ⟨fd, hfd, ha⟩ := h
      exact ⟨fd, getElem?_of_prefix hfields hfd, ha⟩
  | callable m params => exact getElem?_of_prefix hcallees h

/-! ## Drafts -/

/-- The answer of the table of tuple types that a field records. -/
def FieldDef.described (f : FieldDef) : Except TupleError TupleId :=
  match f.tuple with
  | some id => .ok id
  | none => .error (.unsupportedArity f.arity)

/-- The tuple types are those of the table, which has been asked for the types
of all fields already. -/
structure Linkage.Describes (L : Linkage) (table : TupleTable) : Prop where
  tuples : L.tuples = table.descriptors
  fields : ∀ fd ∈ L.fields, table.describe fd.arity = (fd.described, table)

/-- Generation never asks for an element that a tuple does not have. -/
def SemanticError.Genuine (e : SemanticError) : Prop :=
  ∀ arity index span, e ≠ .tuple (.indexOutOfRange arity index) span

namespace Draft

/-- All numbers that a draft holds are good, and the table of tuple types is as
it was. -/
structure Linked (L : Linkage) (table : TupleTable) (d : Draft) : Prop where
  tuples : d.tuples = table
  scopes : d.scopes.Fit L d.locals.length
  code : CodeFits L d.locals.length d.code
  diagnostics : ∀ e ∈ d.diagnostics, e.Genuine

section Linked

variable {L : Linkage} {table : TupleTable} {d d' : Draft}

theorem Linked.emit (h : d.Linked L table) {code : List Instr}
    (hc : CodeFits L d.locals.length (d.code ++ code)) : (d.emit code).Linked L table :=
  ⟨h.tuples, h.scopes, hc, h.diagnostics⟩

theorem Linked.report (h : d.Linked L table) {errors : List SemanticError}
    (he : ∀ e ∈ errors, e.Genuine) : (d.report errors).Linked L table :=
  ⟨h.tuples, h.scopes, h.code, List.forall_mem_append.mpr ⟨h.diagnostics, he⟩⟩

theorem Linked.report_one (h : d.Linked L table) {e : SemanticError} (he : e.Genuine) :
    (d.report [e]).Linked L table :=
  h.report (List.forall_mem_singleton.mpr he)

theorem Linked.declare (h : d.Linked L table) {x : String} {span : Span} {b : Binding}
    (hb : b.Fits L d.locals.length) (hd : d.declare x span b = .ok d') :
    d'.Linked L table := by
  cases hs : d.scopes.frames with
  | nil => simp [Draft.declare, Scopes.declare, Scopes.register, hs, bind, Except.bind] at hd
  | cons F rest =>
      simp only [Draft.declare, Scopes.declare_eq hs, bind, Except.bind, pure, Except.pure,
        Except.ok.injEq] at hd
      subst hd
      split
      · exact h.report_one (by simp [SemanticError.Genuine])
      · have hfit := h.scopes
        simp only [Scopes.Fit, hs, List.forall_mem_cons] at hfit
        have hfit' : Scopes.Fit L d.locals.length ⟨((x, b) :: F) :: rest⟩ := by
          simp only [Scopes.Fit, List.forall_mem_cons]
          exact ⟨⟨hb, hfit.1⟩, hfit.2⟩
        exact Linked.report (d := { d with scopes := ⟨((x, b) :: F) :: rest⟩ })
          ⟨h.tuples, hfit', h.code, h.diagnostics⟩ (List.forall_mem_nil _)

theorem Linked.declareParams {params : List Param} :
    ∀ {slot : Nat} {d d' : Draft}, d.Linked L table → slot + params.length ≤ L.argc →
      Draft.declareParams slot params d = .ok d' → d'.Linked L table := by
  induction params with
  | nil =>
      intro slot d d' h _ hd
      obtain rfl : d = d' := by simpa [Draft.declareParams] using hd
      exact h
  | cons p params ih =>
      intro slot d d' h hlen hd
      simp only [List.length_cons] at hlen
      obtain ⟨index, hslot, hd⟩ := bind_eq_ok.mp hd
      rw [(slotIndex_eq_ok.mp hslot).2] at hd
      obtain ⟨d₁, h₁, h₂⟩ := bind_eq_ok.mp hd
      have hb : (Binding.argument slot).Fits L d.locals.length := by
        show slot < L.argc
        omega
      exact ih (h.declare hb h₁) (by omega) h₂

/-! ### Expressions -/

theorem expr_fits {s : Scopes} {locals : Nat} (hs : s.Fit L locals) (e : Expr) :
    ∀ i ∈ e.code s, ∀ before, i.Fits L locals before := by
  induction e with
  | ident name span =>
      intro i hi before
      obtain ⟨b, hb, hload⟩ := Option.bind_eq_some_iff.mp (Option.mem_toList.mp hi)
      have hfit := hs.lookup hb
      cases b with
      | argument slot =>
          obtain rfl := Option.some.inj hload
          exact hfit
      | localSlot slot =>
          obtain rfl := Option.some.inj hload
          exact hfit
      | field f arity => cases hload
      | callable m params => cases hload
  | number value span =>
      intro i hi before
      obtain rfl := List.mem_singleton.mp hi
      trivial
  | binary op left right span ihl ihr =>
      intro i hi before
      simp only [Expr.code, List.mem_append, List.mem_singleton] at hi
      rcases hi with (hi | hi) | rfl
      · exact ihl i hi before
      · exact ihr i hi before
      · trivial

theorem faults_genuine (s : Scopes) (e : Expr) : ∀ err ∈ e.faults s, err.Genuine := by
  induction e with
  | ident name span =>
      unfold Expr.faults
      split
      · simp [SemanticError.Genuine]
      · split <;> simp [SemanticError.Genuine]
  | number value span => exact List.forall_mem_nil _
  | binary op left right span ihl ihr => exact List.forall_mem_append.mpr ⟨ihl, ihr⟩

theorem Linked.evaluate (h : d.Linked L table) (es : List Expr) :
    (d.evaluate es).Linked L table := by
  refine Linked.report (h.emit (codeFits_append h.code ?_)) ?_
  · intro i hi
    obtain ⟨e, -, hi⟩ := List.mem_flatMap.mp hi
    exact expr_fits h.scopes e i hi
  · intro err herr
    obtain ⟨e, -, herr⟩ := List.mem_flatMap.mp herr
    exact faults_genuine d.scopes e err herr

/-! ### Look-ups -/

theorem genuine_ofLookup (e : LookupError) (span : Span) :
    (SemanticError.ofLookup e span).Genuine := by
  cases e <;> simp [SemanticError.ofLookup, SemanticError.Genuine]

theorem lookup_of_lookupAs {s : Scopes} {x : String} {kind : BindingKind} {b : Binding}
    (h : s.lookupAs x kind = .ok b) : s.lookup x = some b := by
  unfold Scopes.lookupAs at h
  split at h
  · cases h
  · next b' hb =>
    split at h
    · rw [hb, Except.ok.inj h]
    · cases h

theorem Linked.belief (h : d.Linked L table) (name : Ident) :
    (d.belief name).2.Linked L table ∧
      ∀ f n, (d.belief name).1 = some (f, n) →
        ∃ fd, L.fields[f]? = some fd ∧ fd.arity = n := by
  unfold Draft.belief
  split
  · next f n hl =>
    refine ⟨h, ?_⟩
    rintro f' n' ⟨⟩
    exact h.scopes.lookup (lookup_of_lookupAs hl)
  · exact ⟨h, nofun⟩
  · exact ⟨h.report_one (genuine_ofLookup _ _), nofun⟩

theorem Linked.callable (h : d.Linked L table) (name : Ident) :
    (d.callable name).2.Linked L table ∧
      ∀ m n, (d.callable name).1 = some (m, n) → L.callees[m]? = some (n + 1) := by
  unfold Draft.callable
  split
  · next m n hl =>
    refine ⟨h, ?_⟩
    rintro m' n' ⟨⟩
    exact h.scopes.lookup (lookup_of_lookupAs hl)
  · exact ⟨h, nofun⟩
  · exact ⟨h.report_one (genuine_ofLookup _ _), nofun⟩

theorem Linked.checkBeliefArity (h : d.Linked L table) (t : Term) (n : Nat) :
    (d.checkBeliefArity t n).2.Linked L table ∧
      ((d.checkBeliefArity t n).1 = true → t.args.length = n) := by
  unfold Draft.checkBeliefArity
  split
  · next hn => exact ⟨h, fun _ => hn⟩
  · exact ⟨h.report_one (by simp [SemanticError.Genuine]), nofun⟩

/-! ### Tuples

A field is in the table with its type, or its arity has none. Nothing else is
ever asked of the table. -/

/-- Field `f` has `n` elements and the tuple type `id`. -/
structure Typed (L : Linkage) (table : TupleTable) (f : FieldId) (n : Nat) (id : TupleId) :
    Prop where
  describe : table.describe n = (.ok id, table)
  fieldType : L.fieldType f = some id
  tuple : L.tuples[id]? = some ⟨id, n⟩

theorem typed_cases (hL : L.Describes table) {f : FieldId} {fd : FieldDef}
    (hf : L.fields[f]? = some fd) :
    (∃ id, Typed L table f fd.arity id) ∨
      table.describe fd.arity = (.error (.unsupportedArity fd.arity), table) := by
  have hd := hL.fields fd (List.mem_of_getElem? hf)
  unfold FieldDef.described at hd
  split at hd
  · next id hid =>
    refine Or.inl ⟨id, hd, by simp [Linkage.fieldType, hf, hid], ?_⟩
    rw [hL.tuples, TupleTable.getElem?_descriptors, (TupleTable.describe_ok hd).1,
      Option.map_some]
  · exact Or.inr hd

theorem Typed.field_lt {f : FieldId} {n : Nat} {id : TupleId} (h : Typed L table f n id) :
    f < L.fields.length := by
  obtain ⟨fd, hfd, -⟩ := Option.bind_eq_some_iff.mp h.fieldType
  exact (List.getElem?_eq_some_iff.mp hfd).1

theorem tupleFor_eq {n : Nat} {id : TupleId} (h : d.tuples.describe n = (.ok id, d.tuples))
    (span : Span) : d.tupleFor n span = (some id, d) := by
  simp [tupleFor, h]

theorem tupleFor_refused {n : Nat} {e : TupleError}
    (h : d.tuples.describe n = (.error e, d.tuples)) (span : Span) :
    d.tupleFor n span = (none, d.report [.tuple e span]) := by
  simp [tupleFor, h]

theorem pack_refused {n : Nat} {e : TupleError}
    (h : d.tuples.describe n = (.error e, d.tuples)) (span : Span) :
    d.pack n span = (false, d.report [.tuple e span]) := by
  simp [pack, TupleTable.create, h]

theorem Linked.storeField (h : d.Linked L table) {f : FieldId} {n : Nat} {id : TupleId}
    (ht : Typed L table f n id) :
    ((d.emit [.makeTuple id]).emit [.storeField f]).Linked L table := by
  have hmake : CodeFits L d.locals.length (d.code ++ [.makeTuple id]) :=
    codeFits_concat h.code (List.getElem?_eq_some_iff.mp ht.tuple).1
  refine (h.emit hmake).emit (codeFits_concat hmake ⟨id, ?_, ht.fieldType⟩)
  simp [Draft.emit]

/-! ### Statements -/

theorem Linked.newLocal (h : d.Linked L table) {x : String} {r : LocalId × Draft}
    (hr : d.newLocal x = .ok r) :
    r.2.Linked L table ∧ r.1 < r.2.locals.length ∧ r.2.code = d.code := by
  obtain ⟨-, rfl⟩ := newLocal_eq_ok.mp hr
  have hle : d.locals.length ≤ (d.locals ++ [x]).length := by simp
  refine ⟨⟨h.tuples, ?_, h.code.mono hle, h.diagnostics⟩, by simp, rfl⟩
  intro F hF p hp
  exact (h.scopes F hF p hp).mono hle (Nat.le_refl _) (List.prefix_refl _)
    (List.prefix_refl _)

theorem Linked.queryTarget (h : d.Linked L table) {f : FieldId} {n index : Nat}
    {id : TupleId} (ht : Typed L table f n id) (hi : index < n) {belief : String}
    {arg : Expr} (hq : d.queryTarget belief f n index arg = .ok d') :
    d'.Linked L table := by
  unfold Draft.queryTarget at hq
  split at hq
  · obtain rfl := Except.ok.inj hq
    exact h.report_one (by simp [SemanticError.Genuine])
  · next name hn =>
    obtain ⟨⟨slot, d₁⟩, hr, hd⟩ := bind_eq_ok.mp hq
    obtain ⟨h₁, hslot, -⟩ := h.newLocal hr
    have hload : (d₁.emit [.loadField f]).Linked L table :=
      h₁.emit (codeFits_concat h₁.code ht.field_lt)
    have hready : (d₁.emit [.loadField f]).tuples.describe n =
        (.ok id, (d₁.emit [.loadField f]).tuples) := by
      rw [hload.tuples]
      exact ht.describe
    simp only at hd
    rw [project_eq hready hi] at hd
    have hget := hload.emit (codeFits_concat (i := .tupleGet id index) hload.code
      ⟨⟨f, by simp [Draft.emit], ht.fieldType⟩, _, ht.tuple, hi⟩)
    have hstore := hget.emit (codeFits_concat (i := .storeLocal slot) hget.code hslot)
    exact hstore.declare (b := .localSlot slot) hslot hd

theorem Linked.queryTargets {belief : String} {f : FieldId} {n : Nat} {id : TupleId}
    (ht : Typed L table f n id) {args : List Expr} :
    ∀ {index : Nat} {d d' : Draft}, d.Linked L table → index + args.length ≤ n →
      Draft.queryTargets belief f n index args d = .ok d' → d'.Linked L table := by
  induction args with
  | nil =>
      intro index d d' h _ hq
      obtain rfl : d = d' := by simpa [Draft.queryTargets] using hq
      exact h
  | cons arg args ih =>
      intro index d d' h hlen hq
      simp only [List.length_cons] at hlen
      obtain ⟨d₁, h₁, h₂⟩ := bind_eq_ok.mp hq
      exact ih (h.queryTarget ht (by omega) h₁) (by omega) h₂

theorem Linked.query (hL : L.Describes table) (h : d.Linked L table) {t : Term}
    (hq : d.query t = .ok d') : d'.Linked L table := by
  obtain ⟨hb, hfield⟩ := h.belief t.name
  unfold Draft.query at hq
  split at hq
  · next d₁ h₁ =>
    obtain rfl := Except.ok.inj hq
    rw [h₁] at hb
    exact hb
  · next f n d₁ h₁ =>
    rw [h₁] at hb hfield
    obtain ⟨fd, hfd, rfl⟩ := hfield f n rfl
    obtain ⟨hc, hlen⟩ := hb.checkBeliefArity t fd.arity
    split at hq
    · next d₂ h₂ =>
      obtain rfl := Except.ok.inj hq
      rw [h₂] at hc
      exact hc
    · next d₂ h₂ =>
      simp only [h₂] at hc hlen
      rw [← hc.tuples] at hL
      rcases typed_cases hL hfd with ⟨id, ht⟩ | hnone
      · rw [tupleFor_eq ht.describe] at hq
        refine Linked.queryTargets (hc.tuples ▸ ht) hc ?_ hq
        rw [hlen trivial]
        omega
      · rw [tupleFor_refused hnone] at hq
        obtain rfl := Except.ok.inj hq
        exact hc.report_one (by simp [SemanticError.Genuine])

theorem Linked.update (hL : L.Describes table) (h : d.Linked L table) (t : Term) :
    (d.update t).Linked L table := by
  obtain ⟨hb, hfield⟩ := h.belief t.name
  have he := hb.evaluate t.args
  unfold Draft.update
  simp only
  split
  · exact he
  · next f n hfn =>
    obtain ⟨fd, hfd, rfl⟩ := hfield f n hfn
    obtain ⟨hc, -⟩ := he.checkBeliefArity t fd.arity
    split
    · next d₁ h₁ =>
      rw [h₁] at hc
      exact hc
    · next d₁ h₁ =>
      simp only [h₁] at hc
      rw [← hc.tuples] at hL
      rcases typed_cases hL hfd with ⟨id, ht⟩ | hnone
      · rw [pack_eq ht.describe]
        exact hc.storeField (hc.tuples ▸ ht)
      · rw [pack_refused hnone]
        exact hc.report_one (by simp [SemanticError.Genuine])

theorem Linked.invoke (hargc : 0 < L.argc) (h : d.Linked L table) {t : Term}
    (hi : d.invoke L.checkArity t = .ok d') : d'.Linked L table := by
  obtain ⟨hb, hcallee⟩ := h.callable t.name
  have he := (hb.emit (codeFits_concat hb.code (i := .loadArg 0) hargc)).evaluate t.args
  unfold Draft.invoke at hi
  simp only at hi
  split at hi
  · obtain rfl := Except.ok.inj hi
    exact he
  · next m n hmn =>
    split at hi
    · obtain rfl := Except.ok.inj hi
      exact he.report_one (by simp [SemanticError.Genuine])
    · next hn =>
      obtain ⟨argc, hslot, hr⟩ := bind_eq_ok.mp hi
      obtain ⟨-, rfl⟩ := slotIndex_eq_ok.mp hslot
      obtain rfl := Except.ok.inj hr
      refine he.emit (codeFits_concat he.code ⟨n + 1, hcallee m n hmn, fun hca => ?_⟩)
      simpa [hca] using hn

theorem Linked.statement (hL : L.Describes table) (hargc : 0 < L.argc)
    (h : d.Linked L table) {s : Stmt} (hs : d.statement L.checkArity s = .ok d') :
    d'.Linked L table := by
  unfold Draft.statement at hs
  split at hs
  · exact h.query hL hs
  · obtain rfl := Except.ok.inj hs
    exact h.update hL s.term
  · exact h.invoke hargc hs

theorem Linked.statements (hL : L.Describes table) (hargc : 0 < L.argc) {stmts : List Stmt} :
    ∀ {d d' : Draft}, d.Linked L table →
      Draft.statements L.checkArity stmts d = .ok d' → d'.Linked L table := by
  induction stmts with
  | nil =>
      intro d d' h hs
      obtain rfl : d = d' := by simpa [Draft.statements] using hs
      exact h
  | cons s stmts ih =>
      intro d d' h hs
      obtain ⟨d₁, h₁, h₂⟩ := bind_eq_ok.mp hs
      exact ih (h.statement hL hargc h₁) h₂

/-! ### Initial values -/

theorem Linked.initBelief (hL : L.Describes table) (h : d.Linked L table) {index : Nat}
    {b : Belief} {fd : FieldDef} (hfd : L.fields[index]? = some fd)
    (harity : fd.arity = b.arity) (hi : d.initBelief L.fields index b = .ok d') :
    d'.Linked L table := by
  have he := h.evaluate b.init
  unfold Draft.initBelief at hi
  simp only at hi
  split at hi
  · next hsome =>
    obtain ⟨field, hslot, hr⟩ := bind_eq_ok.mp hi
    obtain ⟨-, rfl⟩ := slotIndex_eq_ok.mp hslot
    obtain rfl := Except.ok.inj hr
    rcases typed_cases hL hfd with ⟨id, ht⟩ | hnone
    · rw [harity] at ht
      rw [pack_eq (by rw [he.tuples]; exact ht.describe)]
      exact he.storeField ht
    · have hd := hL.fields fd (List.mem_of_getElem? hfd)
      rw [hnone] at hd
      rw [hfd, Option.bind_some, Option.isSome_iff_exists] at hsome
      obtain ⟨id, hid⟩ := hsome
      simp [FieldDef.described, hid] at hd
  · obtain rfl := Except.ok.inj hi
    exact he

theorem Linked.initBeliefs (hL : L.Describes table) {beliefs : List Belief} :
    ∀ {index : Nat} {d d' : Draft}, d.Linked L table →
      (∀ (i : Nat) (b : Belief), beliefs[i]? = some b →
        ∃ fd, L.fields[index + i]? = some fd ∧ fd.arity = b.arity) →
      Draft.initBeliefs L.fields index beliefs d = .ok d' → d'.Linked L table := by
  induction beliefs with
  | nil =>
      intro index d d' h _ hi
      obtain rfl : d = d' := by simpa [Draft.initBeliefs] using hi
      exact h
  | cons b beliefs ih =>
      intro index d d' h hall hi
      obtain ⟨d₁, h₁, h₂⟩ := bind_eq_ok.mp hi
      obtain ⟨fd, hfd, harity⟩ := hall 0 b rfl
      refine ih (h.initBelief hL hfd harity h₁) (fun i c hc => ?_) h₂
      have := hall (i + 1) c (by simpa using hc)
      rwa [Nat.add_comm i 1, ← Nat.add_assoc] at this

end Linked

end Draft

end AgentLang
