import AgentLang.Proofs.Commands
import AgentLang.Proofs.Files

/-!
# What builds leave at their outputs

On a volume nothing is refused. One build decides what is at the target of its
output and touches nothing else (`Volume.build_of_target`): the listing if the
source compiles, nothing if it does not. So after any number of builds each output
holds what the last build to it made (`builds_leave_last_listing`).
-/

namespace AgentLang

/-- What a build of the source puts at its output. -/
def listing? (source : String) (options : CompileOptions) : Option Node :=
  (compile source options).toOption.map fun type => .file type.listing.toUTF8

namespace Volume

/-- The result of a build, and the volume after it. -/
def build (v : Volume) (source output : String) (options : CompileOptions) :
    Except BuildError AgentType × Volume :=
  (AgentLang.build source output options : StateM Volume _).run v

/-- The outcome of a command, and the volume after it. -/
def command (v : Volume) (args : List String) : Outcome × Volume :=
  (runCommand args : StateM Volume Outcome).run v

section Build

variable {v : Volume} {source output : String} {options : CompileOptions}

theorem build_of_compiled {type : AgentType} (h : compile source options = .ok type) :
    v.build source output options =
      let r := v.write output type.listing.toUTF8
      (writeResult type r.1, r.2) := run_build_of_compiled v output h

theorem build_of_failed {error : CompileError} (h : compile source options = .error error) :
    v.build source output options =
      let r := v.remove output
      (removeResult error r.1, r.2) := run_build_of_failed v output h

/-- A build decides what is at the target of its output, and nothing else. -/
theorem build_of_target (source : String) (options : CompileOptions) {place : Place}
    (ht : v.target? output = some place) (hd : v.get? place ≠ some .directory) :
    ∃ v', v.build source output options =
        ((compile source options).mapError .compile, v') ∧ SameDirectories v v' ∧
      ∀ other, v'.get? other =
        if other = place then listing? source options else v.get? other := by
  cases hc : compile source options with
  | ok type =>
      rw [build_of_compiled hc, write_of_target ht hd]
      refine ⟨_, rfl, sameDirectories_insert hd _, fun other => ?_⟩
      rw [get?_insert v (not_home_of_get? hd)]
      simp [listing?, hc, Except.toOption]
  | error error =>
      have hlisting : listing? source options = none := by simp [listing?, hc, Except.toOption]
      rw [build_of_failed hc, remove_of_target ht, hlisting]
      cases hget : v.get? place with
      | none =>
          refine ⟨v, rfl, .refl v, fun other => ?_⟩
          split
          · next heq => rw [heq, hget]
          · rfl
      | some node =>
          cases node with
          | directory => exact absurd hget hd
          | file bytes =>
              refine ⟨_, rfl, sameDirectories_erase hd, fun other => ?_⟩
              exact get?_erase v (not_home_of_get? hd) other

/-- A directory is neither written nor removed. -/
theorem build_of_directory (source : String) (options : CompileOptions)
    (h : v.NamesDirectory output) :
    v.build source output options = (.error (.file .isDirectory), v) := by
  cases hc : compile source options with
  | ok type =>
      rw [build_of_compiled hc, write_of_directory h]
      rfl
  | error error =>
      rw [build_of_failed hc, remove_of_directory h]
      rfl

theorem build_of_no_target (source : String) (options : CompileOptions)
    (h : v.target? output = none) :
    ∃ e, v.build source output options = (.error e, v) := by
  cases hc : compile source options with
  | ok type =>
      obtain ⟨e, he⟩ := write_of_no_target h type.listing.toUTF8
      rw [build_of_compiled hc, he]
      exact ⟨_, rfl⟩
  | error error =>
      obtain ⟨e, he⟩ := remove_of_no_target h
      rw [build_of_failed hc, he]
      cases e <;> exact ⟨_, rfl⟩

/-- After a build that failed, no file is at its output. -/
theorem hasNoFile_of_failed_build {e : BuildError} {v' : Volume}
    (h : v.build source output options = (.error e, v')) : v'.HasNoFile output := by
  intro bytes
  cases ht : v.target? output with
  | none =>
      obtain ⟨e', hbuild⟩ := build_of_no_target source options ht
      obtain ⟨-, rfl⟩ := Prod.mk.inj (h.symm.trans hbuild)
      obtain ⟨e'', hread⟩ := read_of_no_target ht
      simp [hread]
  | some place =>
      by_cases hd : v.get? place = some .directory
      · have hbuild := build_of_directory source options
          ((namesDirectory_iff_of_target ht).mpr hd)
        obtain ⟨-, rfl⟩ := Prod.mk.inj (h.symm.trans hbuild)
        simp [read_of_target ht, hd]
      · obtain ⟨v₁, hbuild, hsame, hget⟩ := build_of_target source options ht hd
        obtain ⟨hresult, rfl⟩ := Prod.mk.inj (h.symm.trans hbuild)
        have hnone : listing? source options = none := by
          cases hc : compile source options with
          | ok type =>
              rw [hc] at hresult
              cases hresult
          | error error => simp [listing?, hc, Except.toOption]
        have hempty : v'.get? place = none := by rw [hget, if_pos rfl, hnone]
        have ht' : v'.target? output = some place := (hsame.target?_eq output).trans ht
        simp [read_of_target ht', hempty]

end Build

end Volume

/-! ## Histories of builds -/

/-- What a build is asked for. -/
structure BuildRequest where
  source : String
  output : String
  options : CompileOptions := {}
deriving Repr, DecidableEq

/-- What the build should return: what compiling the source returns. -/
def BuildRequest.verdict (r : BuildRequest) : Except BuildError AgentType :=
  (compile r.source r.options).mapError .compile

namespace Volume

/-- The results of builds in turn, and the volume after them. -/
def builds (v : Volume) (requests : List BuildRequest) :
    List (Except BuildError AgentType) × Volume :=
  (requests.mapM fun r => AgentLang.build r.source r.output r.options : StateM Volume _).run v

theorem builds_cons (v : Volume) (r : BuildRequest) (requests : List BuildRequest) :
    v.builds (r :: requests) =
      let first := v.build r.source r.output r.options
      let rest := first.2.builds requests
      (first.1 :: rest.1, rest.2) := by
  simp only [builds, build, List.mapM_cons, run_bind, run_pure]

/-- Builds led from `v` to `v'`, by names in the working directory: each output
holds what the last build to it made, and every other place is as it was. -/
structure Built (v : Volume) (requests : List BuildRequest) (v' : Volume) : Prop where
  home : v'.home = v.home
  output : ∀ before r after, requests = before ++ r :: after →
    (∀ later ∈ after, later.output ≠ r.output) →
    v'.get? (v.home ++ [r.output]) = listing? r.source r.options
  other : ∀ place, (∀ r ∈ requests, place ≠ v.home ++ [r.output]) →
    v'.get? place = v.get? place

/-- A build before other builds is seen only where none of them builds. -/
theorem Built.cons {v v₁ v' : Volume} {r : BuildRequest} {requests : List BuildRequest}
    (hhome : v₁.home = v.home)
    (hget : ∀ other, v₁.get? other =
      if other = v.home ++ [r.output] then listing? r.source r.options else v.get? other)
    (h : Built v₁ requests v') : Built v (r :: requests) v' := by
  refine ⟨h.home.trans hhome, ?_, ?_⟩
  · intro before last after heq hlast
    cases before with
    | nil =>
        obtain ⟨rfl, rfl⟩ := List.cons.inj heq
        rw [h.other _ fun later hlater heq => ?_, hget, if_pos rfl]
        rw [hhome, List.append_cancel_left_eq, List.cons.injEq] at heq
        exact hlast later hlater heq.1.symm
    | cons r' before =>
        have hout := h.output before last after (List.cons.inj heq).2 hlast
        rwa [hhome] at hout
  · intro place hplace
    rw [List.forall_mem_cons] at hplace
    rw [h.other place (by rw [hhome]; exact hplace.2), hget, if_neg hplace.1]

/-- The builds of a history return what compiling returns. -/
theorem builds_of_names {requests : List BuildRequest} :
    ∀ {v : Volume}, (∀ r ∈ requests, IsFileName r.output) →
      (∀ r ∈ requests, ¬ v.NamesDirectory r.output) →
      ∃ v', v.builds requests = (requests.map BuildRequest.verdict, v') ∧
        Built v requests v' := by
  induction requests with
  | nil =>
      intro v _ _
      exact ⟨v, rfl, rfl, by simp, fun _ _ => rfl⟩
  | cons r requests ih =>
      intro v hname hdir
      rw [List.forall_mem_cons] at hname hdir
      have ht := hname.1.target? v
      rw [namesDirectory_iff_of_target ht] at hdir
      obtain ⟨v₁, hbuild, hsame, hget⟩ :=
        build_of_target r.source r.options ht hdir.1
      -- a build makes no directory, so the later outputs can still be built to
      have hdir₁ : ∀ s ∈ requests, ¬ v₁.NamesDirectory s.output := by
        intro s hs hnames
        rw [namesDirectory_iff_of_target ((hname.2 s hs).target? v₁), hsame.home,
          hsame.directory, ← namesDirectory_iff_of_target ((hname.2 s hs).target? v)] at hnames
        exact hdir.2 s hs hnames
      obtain ⟨v', hrest, hbuilt⟩ := ih hname.2 hdir₁
      exact ⟨v', by simp only [builds_cons, hbuild, hrest]; rfl,
        hbuilt.cons hsame.home hget⟩

end Volume

/-- **No stale listing survives.** Take any volume and any builds in turn, to names
in the working directory that are not those of directories. Each returns what
compiling its source returns. Afterwards each output holds the listing that the
last build to it made, or nothing if that build did not compile, and every other
place is as it was. A build to a directory fails and changes nothing. -/
theorem builds_leave_last_listing (v : Volume) :
    (∀ requests : List BuildRequest, (∀ r ∈ requests, Volume.IsFileName r.output) →
      (∀ r ∈ requests, ¬ v.NamesDirectory r.output) →
      ∃ v', v.builds requests = (requests.map BuildRequest.verdict, v') ∧
        Volume.Built v requests v') ∧
    ∀ source output options, v.NamesDirectory output →
      v.build source output options = (.error (.file .isDirectory), v) :=
  ⟨fun _ hname hdir => Volume.builds_of_names hname hdir,
    fun source _ options => Volume.build_of_directory source options⟩

/-- A volume with a listing, another file and a directory. -/
def workshop : Volume :=
  ⟨["home"], [(["home", "a.lst"], .file "old".toUTF8), (["home", "notes"], .file "n".toUTF8),
    (["home", "out"], .directory)]⟩

/-- A good build is followed by a bad one to the same output. -/
theorem workshop_builds :
    ∃ v', workshop.builds [⟨"agent Idle { }", "a.lst", {}⟩, ⟨"agent Idle { }", "b.lst", {}⟩,
        ⟨"agent", "a.lst", {}⟩] =
      ([⟨"agent Idle { }", "a.lst", {}⟩, ⟨"agent Idle { }", "b.lst", {}⟩,
        ⟨"agent", "a.lst", {}⟩].map BuildRequest.verdict, v') ∧
    v'.get? ["home", "a.lst"] = none ∧
    v'.get? ["home", "b.lst"] = listing? "agent Idle { }" {} ∧
    (listing? "agent Idle { }" {}).isSome = true ∧
    v'.get? ["home", "notes"] = some (.file "n".toUTF8) ∧
    workshop.NamesDirectory "out" ∧
    workshop.build "agent" "out" {} = (.error (.file .isDirectory), workshop) := by
  have ha : Volume.IsFileName "a.lst" := ⟨by decide, by decide, by decide, by decide, by decide⟩
  have hb : Volume.IsFileName "b.lst" := ⟨by decide, by decide, by decide, by decide, by decide⟩
  have ho : Volume.IsFileName "out" := ⟨by decide, by decide, by decide, by decide, by decide⟩
  have hdir : ∀ name, Volume.IsFileName name → (workshop.NamesDirectory name ↔
      workshop.get? ["home", name] = some .directory) :=
    fun name h => Volume.namesDirectory_iff_of_target (h.target? workshop)
  have hda : ¬ workshop.NamesDirectory "a.lst" := by
    rw [hdir _ ha]
    simp [Volume.get?, workshop]
  have hdb : ¬ workshop.NamesDirectory "b.lst" := by
    rw [hdir _ hb]
    simp [Volume.get?, workshop, List.lookup_cons]
  have hdo : workshop.NamesDirectory "out" := by
    rw [hdir _ ho]
    rfl
  obtain ⟨v', hbuilds, hbuilt⟩ := (builds_leave_last_listing workshop).1
    [⟨"agent Idle { }", "a.lst", {}⟩, ⟨"agent Idle { }", "b.lst", {}⟩, ⟨"agent", "a.lst", {}⟩]
    (by simp [ha, hb]) (by simp [hda, hdb])
  have hbroken : listing? "agent" {} = none := by
    have : (listing? "agent" {}).isNone = true := by decide +kernel
    simpa using this
  refine ⟨v', hbuilds, ?_, ?_, by decide +kernel, ?_, hdo,
    (builds_leave_last_listing workshop).2 _ _ _ hdo⟩
  · rw [← hbroken]
    exact hbuilt.output [⟨"agent Idle { }", "a.lst", {}⟩, ⟨"agent Idle { }", "b.lst", {}⟩]
      ⟨"agent", "a.lst", {}⟩ [] rfl (by simp)
  · exact hbuilt.output [⟨"agent Idle { }", "a.lst", {}⟩] ⟨"agent Idle { }", "b.lst", {}⟩
      [⟨"agent", "a.lst", {}⟩] rfl (by simp)
  · rw [hbuilt.other _ (by simp [workshop])]
    rfl

end AgentLang
