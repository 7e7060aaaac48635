import AgentLang.Proofs.Listings

/-!
# Building and the source

A build touches the target of its output and nothing else, so a source survives
unless the output names it. The default output has the parent of the source and a
last name that ends in `.lst`; it names the source only if the name of the source
has the extension `lst` itself (`target?_defaultOutput_ne`). Every other source is
the same after a build without an output, whatever becomes of the build
(`build_spares_source`). A source with that extension is overwritten by its listing,
or removed if it does not compile (`listing_extension_destroys_source`).
-/

namespace AgentLang

namespace Path

/-! ## Last names -/

/-- The path ends in a name; what stands before the name ends in a slash. -/
structure EndsIn (path : String) (parent name : List Char) : Prop where
  toList : path.toList = parent ++ name
  no_slash : '/' ∉ name
  ne_nil : name ≠ []
  parent : parent = [] ∨ ∃ p, parent = p ++ ['/']

/-- A path that does not end in a slash ends in a name. -/
theorem exists_endsIn {path : String} (hne : path ≠ "")
    (hlast : path.toList.getLast? ≠ some '/') : ∃ parent name, EndsIn path parent name := by
  by_cases hslash : '/' ∈ path.toList
  · -- the last slash is the first one from behind
    obtain ⟨back, front, heq, hback⟩ :=
      List.eq_append_cons_of_mem (List.mem_reverse.mpr hslash)
    have hpath : path.toList = (front.reverse ++ ['/']) ++ back.reverse := by
      simpa using congrArg List.reverse heq
    refine ⟨front.reverse ++ ['/'], back.reverse, hpath, by simpa using hback, ?_, Or.inr ⟨_, rfl⟩⟩
    intro hnil
    simp [hpath, hnil] at hlast
  · exact ⟨[], path.toList, rfl, hslash, by simpa using hne, Or.inl rfl⟩

section EndsIn

variable {path : String} {parent name : List Char}

theorem EndsIn.reverse_toList (h : EndsIn path parent name) :
    path.toList.reverse = name.reverse ++ parent.reverse := by
  rw [h.toList, List.reverse_append]

/-- A name other than `.` is not trimmed away. -/
theorem EndsIn.trimEnd_eq (h : EndsIn path parent name) (hdot : name ≠ ['.']) :
    trimEnd path.toList.reverse = path.toList.reverse := by
  have hslash : '/' ∉ name.reverse := by simpa using h.no_slash
  have hne : name.reverse ≠ [] := by simpa using h.ne_nil
  have hdot' : name.reverse ≠ ['.'] := by simpa using hdot
  rw [h.reverse_toList]
  generalize name.reverse = back at hslash hne hdot'
  unfold trimEnd
  split
  · next cs heq =>
    cases back with
    | nil => exact absurd rfl hne
    | cons c back =>
        obtain rfl := (List.cons.inj heq).1
        simp at hslash
  · next cs heq =>
    match back, hne with
    | [c], _ =>
        obtain rfl := (List.cons.inj heq).1
        exact absurd rfl hdot'
    | c :: d :: back, _ =>
        obtain rfl := (List.cons.inj (List.cons.inj heq).2).1
        simp at hslash
  · rfl

/-- The last name of a path is found as such. -/
theorem EndsIn.named? (h : EndsIn path parent name) (hdot : name ≠ ['.'])
    (hdots : name ≠ ['.', '.']) : named? path = some ⟨parent, name, false⟩ := by
  have hpass : ∀ c ∈ name.reverse, (c != '/') = true := by
    intro c hc
    rw [bne_iff_ne]
    rintro rfl
    exact h.no_slash (List.mem_reverse.mp hc)
  have hstop : parent.reverse.takeWhile (· != '/') = [] ∧
      parent.reverse.dropWhile (· != '/') = parent.reverse := by
    rcases h.parent with rfl | ⟨p, rfl⟩ <;> simp
  simp only [Path.named?, h.trimEnd_eq hdot]
  simp only [h.reverse_toList, List.takeWhile_append_of_pos hpass,
    List.dropWhile_append_of_pos hpass, hstop, List.append_nil, List.reverse_reverse,
    h.ne_nil, hdot, hdots, or_self, if_false, Nat.lt_irrefl, decide_false]

end EndsIn

/-! ## Extensions -/

theorem splitExtension_eq_none {name stem : List Char}
    (h : splitExtension name = (stem, none)) : stem = name := by
  unfold splitExtension at h
  simp only at h
  split at h
  · cases h
  · exact (Prod.mk.inj h).1.symm

theorem splitExtension_eq_some {name stem ext : List Char}
    (h : splitExtension name = (stem, some ext)) : name = stem ++ '.' :: ext := by
  unfold splitExtension at h
  simp only at h
  split at h
  · next dot c rest heq =>
    obtain ⟨rfl, hext⟩ := Prod.mk.inj h
    obtain rfl := Option.some.inj hext
    have hdot : dot = '.' := by
      have hhead := List.head?_dropWhile_not (· != '.') name.reverse
      simpa [heq] using hhead
    have hname := List.takeWhile_append_dropWhile (p := (· != '.')) (l := name.reverse)
    rw [heq, hdot] at hname
    simpa using (congrArg List.reverse hname).symm
  · cases h

/-- The extension of the last name of a path. -/
def extension? (path : String) : Option (List Char) :=
  (named? path).bind fun n => (splitExtension n.name).2

end Path

/-! ## Targets -/

namespace Volume

theorem pieces_ne_nil (cs : List Char) : pieces cs ≠ [] := by
  cases cs with
  | nil => simp [pieces]
  | cons c cs =>
      unfold pieces
      split
      · simp
      · split <;> simp

theorem pieces_append_slash (cs ds : List Char) :
    pieces (cs ++ '/' :: ds) = pieces cs ++ pieces ds := by
  induction cs with
  | nil => simp [pieces]
  | cons c cs ih =>
      by_cases hc : c = '/'
      · simp [pieces, hc, ih]
      · simp only [List.cons_append, pieces, if_neg hc, ih]
        cases hcs : pieces cs with
        | nil => exact absurd hcs (pieces_ne_nil cs)
        | cons piece rest => rfl

/-- A path that leads to a name has it as its last step. -/
theorem destination_eq_entry {v : Volume} {path : String} {here : Place} {name : String}
    {slash : Bool} (h : v.destination path = .ok (.entry here name slash)) :
    path ≠ "" ∧ (steps path).getLast? = some name ∧ name ≠ "." ∧ name ≠ ".." ∧
      slash = decide (path.toList.getLast? = some '/') := by
  unfold destination at h
  split at h
  · cases h
  · split at h
    · cases h
    · next hempty =>
      split at h
      · cases h
      · split at h
        · cases h
        · next last hlast =>
          split at h
          · cases h
          · split at h
            · cases h
            · next hstep =>
              obtain ⟨rfl, rfl, rfl⟩ := Destination.entry.inj (Except.ok.inj h)
              rw [not_or] at hstep
              exact ⟨by simpa using hempty, hlast, hstep.1, hstep.2, rfl⟩

end Volume

section Target

variable {v : Volume} {path : String} {place : Place} {parent name : List Char}

theorem Path.EndsIn.getLast?_steps (h : Path.EndsIn path parent name) :
    (Volume.steps path).getLast? = some (String.ofList name) := by
  have hpieces : ∃ before, Volume.pieces path.toList = before ++ [name] := by
    rw [h.toList]
    rcases h.parent with rfl | ⟨p, rfl⟩
    · exact ⟨[], Volume.pieces_of_no_slash h.no_slash⟩
    · refine ⟨Volume.pieces p, ?_⟩
      rw [List.append_assoc, List.singleton_append, Volume.pieces_append_slash,
        Volume.pieces_of_no_slash h.no_slash]
  obtain ⟨before, hbefore⟩ := hpieces
  simp [Volume.steps, hbefore, h.ne_nil]

/-- The name that a path ends in is the name of its target. -/
theorem Path.EndsIn.of_target (h : Path.EndsIn path parent name)
    (ht : v.target? path = some place) :
    place.getLast? = some (String.ofList name) ∧ name ≠ ['.'] ∧ name ≠ ['.', '.'] := by
  obtain ⟨here, last, hdest, rfl, -⟩ := Volume.target?_eq_some ht
  obtain ⟨-, hlast, hdot, hdots, -⟩ := Volume.destination_eq_entry hdest
  obtain rfl := Option.some.inj (h.getLast?_steps.symm.trans hlast)
  refine ⟨by simp, ?_, ?_⟩
  · rintro rfl
    exact hdot rfl
  · rintro rfl
    exact hdots rfl

/-- A path with a target ends in a name. -/
theorem endsIn_of_target (ht : v.target? path = some place) :
    ∃ parent name, Path.EndsIn path parent name := by
  obtain ⟨here, last, hdest, -, -⟩ := Volume.target?_eq_some ht
  obtain ⟨hne, -, -, -, hslash⟩ := Volume.destination_eq_entry hdest
  exact Path.exists_endsIn hne (by simpa using hslash.symm)

/-- The default output of a file without the extension `lst` is another file. -/
theorem target?_defaultOutput_ne (ht : v.target? path = some place)
    (hext : Path.extension? path ≠ some ['l', 's', 't']) :
    v.target? (defaultOutput path) ≠ some place := by
  intro hout
  obtain ⟨parent, name, hends⟩ := endsIn_of_target ht
  obtain ⟨hlast, hdot, hdots⟩ := hends.of_target ht
  have hnamed := hends.named? hdot hdots
  -- the stem, between the parent and the new extension, is part of the old name
  have hsame : ∀ stem : List Char, '/' ∉ stem →
      defaultOutput path = String.ofList (parent ++ stem) ++ "." ++ "lst" →
      name = stem ++ ['.', 'l', 's', 't'] := by
    intro stem hstem hdefault
    have hends' : Path.EndsIn (defaultOutput path) parent (stem ++ ['.', 'l', 's', 't']) := by
      refine ⟨by simp [hdefault], ?_, by simp, hends.parent⟩
      simpa using hstem
    have hlast' := (hends'.of_target hout).1
    exact String.ofList_inj.mp (Option.some.inj (hlast.symm.trans hlast'))
  rcases hsplit : Path.splitExtension name with ⟨stem, _ | ext⟩
  · obtain rfl := Path.splitExtension_eq_none hsplit
    have hlong := hsame stem hends.no_slash (by
      simp only [defaultOutput, Path.withExtension, hnamed, hsplit])
    simpa using congrArg List.length hlong
  · have hname := Path.splitExtension_eq_some hsplit
    by_cases hstem : stem = ['.']
    · -- the cut leaves a step to the directory above, which is no name
      have hends' : Path.EndsIn (defaultOutput path) parent ['.', '.'] := by
        refine ⟨?_, by simp, by simp, hends.parent⟩
        simp [defaultOutput, Path.withExtension, hnamed, hsplit, hstem]
      exact (hends'.of_target hout).2.2 rfl
    · have hslash : '/' ∉ stem := by
        intro hmem
        exact hends.no_slash (by rw [hname]; exact List.mem_append_left _ hmem)
      have hlst := hsame stem hslash (by
        simp only [defaultOutput, Path.withExtension, hnamed, hsplit, hstem, false_and, if_false])
      rw [hname, List.append_cancel_left_eq, List.cons.injEq] at hlst
      refine hext ?_
      simp only [Path.extension?, hnamed, Option.bind_some, hsplit, hlst.2]

/-- A build leaves every file alone that its output does not name. -/
theorem Volume.read_of_other_build {source output : String} {options : CompileOptions}
    (ht : v.target? path = some place) (hne : v.target? output ≠ some place) :
    (v.build source output options).2.read path = v.read path := by
  cases hout : v.target? output with
  | none =>
      obtain ⟨e, hbuild⟩ := build_of_no_target source options hout
      rw [hbuild]
  | some other =>
      have hother : place ≠ other := fun heq => hne (heq ▸ hout)
      by_cases hd : v.get? other = some .directory
      · rw [build_of_directory source options ((namesDirectory_iff_of_target hout).mpr hd)]
      · obtain ⟨v', hbuild, hsame, hget⟩ := build_of_target source options hout hd
        have ht' : v'.target? path = some place := (hsame.target?_eq path).trans ht
        rw [hbuild, read_of_target ht', read_of_target ht, hget, if_neg hother]

end Target

/-! ## Sources -/

/-- **A build spares its source.** Take any volume and any command to build a file
without naming an output, where the name of the file does not have the extension
`lst`. Then the default output is not the file, and the file holds the same after
the command as before, whether the build succeeds or fails. -/
theorem build_spares_source {args : List String} {i : Invocation} {file : String}
    (hi : Invocation.ofArgs {} args = .ok i) (hb : i.action = .build file none)
    (hext : Path.extension? file ≠ some ['l', 's', 't']) (v : Volume) :
    (∀ place, v.target? file = some place → v.target? (defaultOutput file) ≠ some place) ∧
      (v.command args).2.read file = v.read file := by
  refine ⟨fun place ht => target?_defaultOutput_ne ht hext, ?_⟩
  have hread := run_readText (Volume.run_read v file)
  cases hfile : asText (v.read file) with
  | error e => exact congrArg (·.read file) (runCommand_of_unreadable hi hb (hfile ▸ hread)).2
  | ok source =>
      obtain ⟨r, hbuild, -⟩ := runCommand_of_readable hi hb (hfile ▸ hread)
      have hvolume : (v.command args).2 =
          (v.build source (defaultOutput file) ⟨file, i.checkArity⟩).2 :=
        (congrArg Prod.snd hbuild).symm
      rw [hvolume]
      cases ht : v.target? file with
      | none =>
          obtain ⟨e, hread⟩ := Volume.read_of_no_target ht
          simp [asText, hread] at hfile
      | some place => exact Volume.read_of_other_build ht (target?_defaultOutput_ne ht hext)

/-- A source whose name is a dot and the letters of the extension has no extension. -/
def hidden : Volume := ⟨["home"], [(["home", ".lst"], .file "agent Idle { }".toUTF8)]⟩

theorem hidden_source_spared :
    defaultOutput ".lst" = ".lst.lst" ∧ (hidden.command ["build", ".lst"]).1.exit = 0 ∧
    (hidden.command ["build", ".lst"]).2.read ".lst" = .ok "agent Idle { }".toUTF8 := by
  have hargs : Invocation.ofArgs {} ["build", ".lst"] =
      .ok ⟨false, true, .build ".lst" none⟩ := rfl
  refine ⟨by decide +kernel, by decide +kernel, ?_⟩
  rw [(build_spares_source hargs rfl (by decide +kernel) hidden).2]
  rfl

/-- A source with the extension of listings, once good and once broken. -/
def misnamed (source : String) : Volume := ⟨["home"], [(["home", "x.lst"], .file source.toUTF8)]⟩

/-- A source with the extension of listings is replaced by its listing, and it is
removed if it does not compile. -/
theorem listing_extension_destroys_source :
    defaultOutput "x.lst" = "x.lst" ∧
    (∃ bytes, ((misnamed "agent Idle { }").command ["build", "x.lst"]).2.read "x.lst" =
      .ok bytes ∧ bytes ≠ "agent Idle { }".toUTF8) ∧
    (misnamed "agent").read "x.lst" = .ok "agent".toUTF8 ∧
    ∀ bytes, ((misnamed "agent").command ["build", "x.lst"]).2.read "x.lst" ≠ .ok bytes := by
  have hgood : (((misnamed "agent Idle { }").command ["build", "x.lst"]).2.read
      "x.lst").toOption.map (decide <| · = "agent Idle { }".toUTF8) = some false := by
    decide +kernel
  have hbroken : (((misnamed "agent").command ["build", "x.lst"]).2.read
      "x.lst").toOption.isNone = true := by decide +kernel
  refine ⟨by decide +kernel, ?_, rfl, fun bytes hread => ?_⟩
  · cases hread : ((misnamed "agent Idle { }").command ["build", "x.lst"]).2.read "x.lst" with
    | error e =>
        rw [hread] at hgood
        cases hgood
    | ok bytes =>
        rw [hread] at hgood
        refine ⟨bytes, rfl, ?_⟩
        rintro rfl
        simp [Except.toOption] at hgood
  · rw [hread] at hbroken
    cases hbroken

end AgentLang
