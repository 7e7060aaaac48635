import AgentLang.Volume

/-!
# What file operations do to a volume

Reading, writing and removing resolve a path and then look at one place. The place
that a path names as a file is its target (`Volume.target?`); after the lemmas
below nobody has to resolve a path again: an operation on a path without a target
fails and changes nothing, and one on a path with a target depends on what is at
the target and changes at most that.

Files come and go, but no operation makes or removes a directory. Paths are
resolved through directories only, so they keep their targets
(`Volume.SameDirectories.target?_eq`).
-/

namespace AgentLang

namespace Volume

/-! ## Runs -/

section Run

variable (v : Volume) (path : String)

theorem run_read : (FileAccess.read path : StateM Volume _).run v = (v.read path, v) := rfl

theorem run_write (bytes : ByteArray) :
    (FileAccess.write path bytes : StateM Volume _).run v = v.write path bytes := rfl

theorem run_remove : (FileAccess.remove path : StateM Volume _).run v = v.remove path := rfl

end Run

/-! ## Targets -/

/-- The path leads to a directory. -/
def NamesDirectory (v : Volume) (path : String) : Prop :=
  match v.destination path with
  | .error _ => False
  | .ok .unnamed => True
  | .ok (.entry here name _) => v.look here name = .ok (some .directory)

/-- No file can be read at the path. -/
def HasNoFile (v : Volume) (path : String) : Prop := ∀ bytes, v.read path ≠ .ok bytes

section Target

variable {v : Volume} {path : String} {place : Place}

theorem target?_eq_some (h : v.target? path = some place) :
    ∃ here name, v.destination path = .ok (.entry here name false) ∧
      place = here ++ [name] ∧ v.look here name = .ok (v.get? place) := by
  unfold target? at h
  split at h
  · next here name hdest =>
    split at h
    · cases h
    · next hlen =>
      obtain rfl := Option.some.inj h
      exact ⟨here, name, hdest, rfl, by simp [look, hlen]⟩
  · cases h

theorem read_of_target (h : v.target? path = some place) :
    v.read path =
      match v.get? place with
      | none => .error .notFound
      | some .directory => .error .isDirectory
      | some (.file bytes) => .ok bytes := by
  obtain ⟨here, name, hdest, rfl, hlook⟩ := target?_eq_some h
  simp only [read, hdest, hlook]
  rcases v.get? (here ++ [name]) with _ | ⟨bytes | _⟩ <;> rfl

theorem write_of_target (h : v.target? path = some place)
    (hd : v.get? place ≠ some .directory) (bytes : ByteArray) :
    v.write path bytes = (.ok (), v.insert place (.file bytes)) := by
  obtain ⟨here, name, hdest, rfl, hlook⟩ := target?_eq_some h
  simp only [write, hdest, hlook]
  rcases hget : v.get? (here ++ [name]) with _ | ⟨old | _⟩
  · rfl
  · rfl
  · exact absurd hget hd

theorem remove_of_target (h : v.target? path = some place) :
    v.remove path =
      match v.get? place with
      | none => (.error .notFound, v)
      | some .directory => (.error .isDirectory, v)
      | some (.file _) => (.ok (), v.erase place) := by
  obtain ⟨here, name, hdest, rfl, hlook⟩ := target?_eq_some h
  simp only [remove, hdest, hlook]
  rcases v.get? (here ++ [name]) with _ | ⟨bytes | _⟩ <;> rfl

/-- A path without a target cannot be resolved, or it asks for a directory. -/
theorem target?_eq_none (h : v.target? path = none) :
    (∃ e, v.destination path = .error e) ∨ v.destination path = .ok .unnamed ∨
      ∃ here name slash, v.destination path = .ok (.entry here name slash) ∧
        (slash = true ∨ v.look here name = .error .nameTooLong) := by
  unfold target? at h
  rcases hdest : v.destination path with e | ⟨_ | ⟨here, name, slash⟩⟩
  · exact Or.inl ⟨e, rfl⟩
  · exact Or.inr (Or.inl rfl)
  · refine Or.inr (Or.inr ⟨here, name, slash, rfl, ?_⟩)
    cases slash with
    | true => exact Or.inl rfl
    | false =>
        rw [hdest] at h
        refine Or.inr ?_
        simp only [ite_eq_left_iff, reduceCtorEq, imp_false, Decidable.not_not] at h
        simp [look, h]

theorem read_of_no_target (h : v.target? path = none) : ∃ e, v.read path = .error e := by
  rcases target?_eq_none h with ⟨e, hdest⟩ | hdest | ⟨here, name, slash, hdest, hs⟩
  · exact ⟨e, by simp only [read, hdest]⟩
  · exact ⟨.isDirectory, by simp only [read, hdest]⟩
  · simp only [read, hdest]
    rcases hs with rfl | hlook
    · rcases v.look here name with e | _ | ⟨bytes | _⟩ <;> exact ⟨_, rfl⟩
    · simp only [hlook]
      exact ⟨_, rfl⟩

theorem write_of_no_target (h : v.target? path = none) (bytes : ByteArray) :
    ∃ e, v.write path bytes = (.error e, v) := by
  rcases target?_eq_none h with ⟨e, hdest⟩ | hdest | ⟨here, name, slash, hdest, hs⟩
  · exact ⟨e, by simp only [write, hdest]⟩
  · exact ⟨.isDirectory, by simp only [write, hdest]⟩
  · simp only [write, hdest]
    rcases hs with rfl | hlook
    · exact ⟨_, rfl⟩
    · cases slash <;> simp only [hlook] <;> exact ⟨_, rfl⟩

theorem remove_of_no_target (h : v.target? path = none) :
    ∃ e, v.remove path = (.error e, v) := by
  rcases target?_eq_none h with ⟨e, hdest⟩ | hdest | ⟨here, name, slash, hdest, hs⟩
  · exact ⟨e, by simp only [remove, hdest]⟩
  · exact ⟨.isDirectory, by simp only [remove, hdest]⟩
  · simp only [remove, hdest]
    rcases hs with rfl | hlook
    · rcases v.look here name with e | _ | ⟨bytes | _⟩ <;> exact ⟨_, rfl⟩
    · simp only [hlook]
      exact ⟨_, rfl⟩

/-! ## Directories -/

theorem write_of_directory (h : v.NamesDirectory path) (bytes : ByteArray) :
    v.write path bytes = (.error .isDirectory, v) := by
  unfold NamesDirectory at h
  split at h
  · exact h.elim
  · next hdest => simp only [write, hdest]
  · next here name slash hdest =>
    simp only [write, hdest, h]
    cases slash <;> rfl

theorem remove_of_directory (h : v.NamesDirectory path) :
    v.remove path = (.error .isDirectory, v) := by
  unfold NamesDirectory at h
  split at h
  · exact h.elim
  · next hdest => simp only [remove, hdest]
  · next here name slash hdest => simp only [remove, hdest, h]

theorem namesDirectory_iff_of_target (h : v.target? path = some place) :
    v.NamesDirectory path ↔ v.get? place = some .directory := by
  obtain ⟨here, name, hdest, rfl, hlook⟩ := target?_eq_some h
  simp [NamesDirectory, hdest, hlook]

end Target

/-- The same places are directories, and work starts from the same one. -/
structure SameDirectories (v v' : Volume) : Prop where
  home : v'.home = v.home
  directory : ∀ place, v'.get? place = some .directory ↔ v.get? place = some .directory

section SameDirectories

variable {v v' : Volume} {place : Place}

theorem SameDirectories.refl (v : Volume) : SameDirectories v v := ⟨rfl, fun _ => Iff.rfl⟩

theorem SameDirectories.symm (h : SameDirectories v v') : SameDirectories v' v :=
  ⟨h.home.symm, fun place => (h.directory place).symm⟩

theorem look_eq_directory {here : Place} {name : String} :
    v.look here name = .ok (some .directory) ↔
      ¬ 255 < name.utf8ByteSize ∧ v.get? (here ++ [name]) = some .directory := by
  unfold look
  split <;> simp_all

/-- A path is resolved through directories only. -/
theorem SameDirectories.walk_eq_ok (h : SameDirectories v v') {steps : List String}
    {here there : Place} (hw : v.walk steps here = .ok there) :
    v'.walk steps here = .ok there := by
  fun_induction v.walk steps here with
  | case1 here => exact hw
  | case2 here rest ih => exact ih hw
  | case3 here rest ih => exact ih hw
  | case4 => cases hw
  | case5 => cases hw
  | case6 => cases hw
  | case7 name rest here hdot hdots hlook ih =>
      have hlook' : v'.look here name = .ok (some .directory) := by
        rw [look_eq_directory] at hlook ⊢
        exact ⟨hlook.1, (h.directory _).mpr hlook.2⟩
      rw [walk, hlook']
      · exact ih hw
      · exact hdot
      · exact hdots

theorem SameDirectories.destination_eq_ok (h : SameDirectories v v') {path : String}
    {d : Destination} (hd : v.destination path = .ok d) : v'.destination path = .ok d := by
  have hstart : v'.start path = v.start path := by simp only [start, h.home]
  unfold destination at hd ⊢
  split at hd
  · cases hd
  · next hnul =>
    rw [if_neg hnul]
    split at hd
    · cases hd
    · next hempty =>
      rw [if_neg hempty]
      split at hd
      · cases hd
      · next hlong =>
        rw [if_neg hlong]
        split at hd
        · exact hd
        · next last hlast =>
          split at hd
          · cases hd
          · next here hwalk =>
            simp only [hstart, h.walk_eq_ok hwalk]
            exact hd

theorem SameDirectories.target?_eq (h : SameDirectories v v') (path : String) :
    v'.target? path = v.target? path := by
  have hmono : ∀ {v v' : Volume}, SameDirectories v v' → ∀ {place : Place},
      v.target? path = some place → v'.target? path = some place := by
    intro v v' h place ht
    unfold target? at ht ⊢
    split at ht
    · next here name hdest =>
      simp only [h.destination_eq_ok hdest]
      exact ht
    · cases ht
  refine Option.ext fun place => ?_
  exact ⟨hmono h.symm, hmono h⟩

/-- What is no directory is not on the way to the working directory. -/
theorem not_home_of_get? (h : v.get? place ≠ some .directory) : ¬ place <+: v.home := by
  intro hp
  exact h (by simp [get?, hp])

theorem sameDirectories_insert (h : v.get? place ≠ some .directory) (bytes : ByteArray) :
    SameDirectories v (v.insert place (.file bytes)) := by
  refine ⟨rfl, fun other => ?_⟩
  rw [get?_insert v (not_home_of_get? h)]
  split
  · next heq => simp [heq, h]
  · rfl

theorem sameDirectories_erase (h : v.get? place ≠ some .directory) :
    SameDirectories v (v.erase place) := by
  refine ⟨rfl, fun other => ?_⟩
  rw [get?_erase v (not_home_of_get? h)]
  split
  · next heq => simp [heq, h]
  · rfl

end SameDirectories

/-! ## Names in the working directory -/

/-- A name that a directory can hold something under. -/
structure IsFileName (name : String) : Prop where
  ne_empty : name ≠ ""
  not_step : name ≠ "." ∧ name ≠ ".."
  no_slash : '/' ∉ name.toList
  no_nul : '\x00' ∉ name.toList
  length : name.utf8ByteSize ≤ 255

theorem pieces_of_no_slash {cs : List Char} (h : '/' ∉ cs) : pieces cs = [cs] := by
  induction cs with
  | nil => rfl
  | cons c cs ih =>
      rw [List.mem_cons, not_or] at h
      rw [pieces, if_neg (Ne.symm h.1), ih h.2]

theorem IsFileName.target? {name : String} (h : IsFileName name) (v : Volume) :
    v.target? name = some (v.home ++ [name]) := by
  have hne : name.toList ≠ [] := by simpa using h.ne_empty
  have hsteps : steps name = [name] := by
    simp [steps, pieces_of_no_slash h.no_slash, hne]
  have hstart : v.start name = v.home := by
    refine if_neg fun hhead => h.no_slash (List.mem_of_mem_head? hhead)
  have hlast : ¬ name.toList.getLast? = some '/' := fun hlast =>
    h.no_slash (List.mem_of_getLast? hlast)
  have hshort : ¬ 4096 ≤ name.utf8ByteSize := by
    have := h.length
    omega
  have hdest : v.destination name = .ok (.entry v.home name false) := by
    simp [destination, h.no_nul, h.ne_empty, hshort, hsteps, hstart, walk, h.not_step, hlast]
  simp [Volume.target?, hdest, Nat.not_lt.mpr h.length]

end Volume

end AgentLang
