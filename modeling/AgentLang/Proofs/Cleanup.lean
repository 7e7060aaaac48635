import AgentLang.Disk
import AgentLang.Proofs.Listings

/-!
# What failed commands leave behind

A command to build that fails has failed in one of three ways, and each leaves the output
as it should only under a condition.

* The source could not be read. The command ends before it builds, and nothing changes: a
  listing of an earlier build stays (`orphaned_listing_survives`).
* The source does not compile. What is at the output is removed, unless the disk refuses
  that.
* The listing could not be written. If the volume itself would not take it, no file is at
  the output. If the disk failed the write, nothing is removed: what was there stays
  (`locked_listing_survives`), or the front of the new listing is there.

So no file is at the output after a failed command if its source can be read and its disk
does not fail the write or the removal (`failed_command_leaves_no_listing`).

A disk without refusals is its volume (`Disk.command_ofVolume`).
-/

namespace AgentLang

namespace Disk

/-! ## Builds and commands -/

/-- The result of a build, and the disk after it. -/
def build (d : Disk) (source output : String) (options : CompileOptions) :
    Except BuildError AgentType × Disk :=
  (AgentLang.build source output options : StateM Disk _).run d

/-- The outcome of a command, and the disk after it. -/
def command (d : Disk) (args : List String) : Outcome × Disk :=
  (runCommand args : StateM Disk Outcome).run d

/-- The text in a file, if it can be read and holds text. -/
def text (d : Disk) (file : String) : Except FileError String := asText (d.read file)

theorem run_readText (d : Disk) (file : String) :
    (readText file : StateM Disk _).run d = (d.text file, d) := AgentLang.run_readText rfl

section Build

variable {d : Disk} {source output : String} {options : CompileOptions}

theorem build_of_compiled {type : AgentType} (h : compile source options = .ok type) :
    d.build source output options =
      let r := d.write output type.listing.toUTF8
      (writeResult type r.1, r.2) := run_build_of_compiled d output h

theorem build_of_failed {error : CompileError} (h : compile source options = .error error) :
    d.build source output options =
      let r := d.remove output
      (removeResult error r.1, r.2) := run_build_of_failed d output h

/-- A build that the disk does not hinder is one on its volume. -/
theorem build_of_unhindered
    (hwrite : ∀ type, compile source options = .ok type →
      d.writeFailure? output type.listing.toUTF8 = none)
    (hremove : ∀ e, compile source options = .error e → d.removeRefusal? output = none) :
    d.build source output options =
      let r := d.volume.build source output options
      (r.1, { d with volume := r.2 }) := by
  cases hc : compile source options with
  | ok type => simp only [build_of_compiled hc, Volume.build_of_compiled hc, write, hwrite type hc]
  | error e => simp only [build_of_failed hc, Volume.build_of_failed hc, remove, hremove e hc]

/-- After a build that failed, and that the disk did not hinder, no file is at the output. -/
theorem hasNoFile_of_failed_build {e : BuildError} {d' : Disk}
    (hbuild : d.build source output options = (.error e, d'))
    (hwrite : ∀ type, compile source options = .ok type →
      d.writeFailure? output type.listing.toUTF8 = none)
    (hremove : ∀ e, compile source options = .error e → d.removeRefusal? output = none) :
    d'.volume.HasNoFile output := by
  rw [build_of_unhindered hwrite hremove] at hbuild
  obtain ⟨he, rfl⟩ := Prod.mk.inj hbuild
  exact Volume.hasNoFile_of_failed_build (Prod.ext he rfl)

/-! ## Writes that fail -/

theorem writeFailure?_eq_some {path : String} {bytes : ByteArray} {failure : WriteFailure}
    (h : d.writeFailure? path bytes = some failure) :
    ∃ place, d.volume.target? path = some place ∧ d.volume.get? place ≠ some .directory := by
  unfold writeFailure? at h
  split at h
  · next hok =>
    obtain ⟨place, ht, -⟩ := Option.bind_eq_some_iff.mp h
    refine ⟨place, ht, fun hd => ?_⟩
    rw [Volume.write_of_directory ((Volume.namesDirectory_iff_of_target ht).mpr hd)] at hok
    cases hok
  · cases h

/-- A file that was opened holds the front of the contents. -/
theorem read_cutShort {path : String} {bytes : ByteArray} {failure : WriteFailure} {n : Nat}
    (h : d.writeFailure? path bytes = some failure) (hkept : failure.kept = some n) :
    (d.cutShort failure path bytes).volume.read path = .ok (bytes.extract 0 n) := by
  obtain ⟨place, ht, hd⟩ := writeFailure?_eq_some h
  have ht' := (Volume.sameDirectories_insert hd (bytes.extract 0 n)).target?_eq path
  simp only [cutShort, hkept, Volume.write_of_target ht hd]
  rw [Volume.read_of_target (ht'.trans ht),
    Volume.get?_insert _ (Volume.not_home_of_get? hd), if_pos rfl]

theorem build_of_failed_write {type : AgentType} {failure : WriteFailure}
    (h : compile source options = .ok type)
    (hw : d.writeFailure? output type.listing.toUTF8 = some failure) :
    d.build source output options =
      (.error (.file failure.error), d.cutShort failure output type.listing.toUTF8) := by
  simp only [build_of_compiled h, write, hw, writeResult]

end Build

/-! ## Disks without refusals -/

section OfVolume

variable (v : Volume) (path : String)

theorem readRefusal?_ofVolume : (ofVolume v).readRefusal? path = none := by
  unfold readRefusal? ofVolume
  split <;> simp

theorem writeFailure?_ofVolume (bytes : ByteArray) :
    (ofVolume v).writeFailure? path bytes = none := by
  unfold writeFailure? ofVolume
  split <;> simp

theorem removeRefusal?_ofVolume : (ofVolume v).removeRefusal? path = none := by
  unfold removeRefusal? ofVolume
  split <;> simp

theorem read_ofVolume : (ofVolume v).read path = v.read path := by
  rw [read, readRefusal?_ofVolume]
  rfl

end OfVolume

theorem standsFor_ofVolume : StandsFor ofVolume where
  read path v := congrArg (·, ofVolume v) (read_ofVolume v path)
  write path bytes v := by
    have hwrite : (ofVolume v).write path bytes =
        ((v.write path bytes).1, ofVolume (v.write path bytes).2) := by
      rw [write, writeFailure?_ofVolume]
      rfl
    exact hwrite
  remove path v := by
    have hremove : (ofVolume v).remove path = ((v.remove path).1, ofVolume (v.remove path).2) := by
      rw [remove, removeRefusal?_ofVolume]
      rfl
    exact hremove

/-- A disk that refuses nothing does what its volume does. -/
theorem command_ofVolume (v : Volume) (args : List String) :
    (ofVolume v).command args = ((v.command args).1, ofVolume (v.command args).2) :=
  standsFor_ofVolume.runCommand args v

end Disk

/-! ## Failed commands -/

/-- **No stale listing survives a build that was not hindered.** Take any disk and any command
to build a file that ends with exit code 1. If the source cannot be read as text, the command
changes nothing. If it can and does not compile, there is no file at the output afterwards,
provided that the disk does not refuse to remove it. If it compiles, there is no file at the
output either, unless the disk failed the write: then the file is as it was, or holds as much
of the listing as was written. -/
theorem failed_command_leaves_no_listing {args : List String} {i : Invocation} {file : String}
    {output : Option String} (hi : Invocation.ofArgs {} args = .ok i)
    (hb : i.action = .build file output) (d : Disk) (hexit : (d.command args).1.exit = 1) :
    let out := output.getD (defaultOutput file)
    let after := (d.command args).2
    (∀ e, d.text file = .error e → after = d) ∧
    ∀ source, d.text file = .ok source →
      (∀ e, compile source ⟨file, i.checkArity⟩ = .error e → d.removeRefusal? out = none →
        after.volume.HasNoFile out) ∧
      ∀ type, compile source ⟨file, i.checkArity⟩ = .ok type →
        match d.writeFailure? out type.listing.toUTF8 with
        | none => after.volume.HasNoFile out
        | some failure =>
          match failure.kept with
          | none => after = d
          | some n => after.volume.read out = .ok (type.listing.toUTF8.extract 0 n) := by
  intro out after
  have hread := d.run_readText file
  refine ⟨fun e hfile => (runCommand_of_unreadable hi hb (hfile ▸ hread)).2, ?_⟩
  intro source hfile
  obtain ⟨r, hbuild, hfails⟩ := runCommand_of_readable hi hb (hfile ▸ hread)
  obtain ⟨e, rfl⟩ := hfails.mp hexit
  have hafter : d.build source out ⟨file, i.checkArity⟩ = (.error e, after) := hbuild
  refine ⟨fun error hc hremove => ?_, fun type hc => ?_⟩
  · refine Disk.hasNoFile_of_failed_build hafter (fun type hc' => ?_) fun _ _ => hremove
    cases hc.symm.trans hc'
  · split
    · next hwrite =>
      refine Disk.hasNoFile_of_failed_build hafter (fun type' hc' => ?_) fun error hc' => ?_
      · obtain rfl := Except.ok.inj (hc.symm.trans hc')
        exact hwrite
      · cases hc.symm.trans hc'
    · next failure hwrite =>
      rw [Disk.build_of_failed_write hc hwrite] at hafter
      obtain ⟨-, hafter⟩ := Prod.mk.inj hafter
      rw [← hafter]
      split
      · next hkept => simp only [Disk.cutShort, hkept]
      · next n hkept => exact Disk.read_cutShort hwrite hkept

/-- A source with a syntax error, and the listing of an earlier one. -/
def outdated : Disk :=
  .ofVolume ⟨["home"], [(["home", "a.credo"], .file "agent".toUTF8),
    (["home", "a.lst"], .file "old".toUTF8)]⟩

theorem outdated_listing_removed :
    outdated.volume.read "a.lst" = .ok "old".toUTF8 ∧
    (outdated.command ["build", "a.credo"]).1.exit = 1 ∧
    (outdated.command ["build", "a.credo"]).2.volume.HasNoFile "a.lst" := by
  have hexit : (outdated.command ["build", "a.credo"]).1.exit = 1 := by decide +kernel
  have hargs : Invocation.ofArgs {} ["build", "a.credo"] =
      .ok ⟨false, true, .build "a.credo" none⟩ := rfl
  have hsource : outdated.text "a.credo" = .ok "agent" := by
    rw [Disk.text, outdated, Disk.read_ofVolume]
    exact asText_toUTF8 "agent"
  have hdefault : defaultOutput "a.credo" = "a.lst" := by decide +kernel
  have hfails := (failed_command_leaves_no_listing hargs rfl outdated hexit).2 _ hsource
  rw [Option.getD_none, hdefault] at hfails
  refine ⟨rfl, hexit, ?_⟩
  cases hc : compile "agent" ⟨"a.credo", true⟩ with
  | error e => exact hfails.1 e hc (Disk.removeRefusal?_ofVolume _ _)
  | ok type =>
    have hbroken : (compile "agent" ⟨"a.credo", true⟩).toOption.isNone = true := by
      decide +kernel
    simp [hc, Except.toOption] at hbroken

/-! ## Listings that survive -/

/-- The listing of an earlier build, without the source. -/
def orphaned : Disk := .ofVolume ⟨["home"], [(["home", "a.lst"], .file "old".toUTF8)]⟩

/-- Where the source is missing, the command fails and the listing of an earlier
build survives, although it could be removed. -/
theorem orphaned_listing_survives :
    defaultOutput "a.credo" = "a.lst" ∧ orphaned.removeRefusal? "a.lst" = none ∧
    (orphaned.command ["build", "a.credo"]).1.exit = 1 ∧
    (orphaned.command ["build", "a.credo"]).2.volume.read "a.lst" = .ok "old".toUTF8 := by
  have hargs : Invocation.ofArgs {} ["build", "a.credo"] =
      .ok ⟨false, true, .build "a.credo" none⟩ := rfl
  have hsource : orphaned.text "a.credo" = .error .notFound := by
    rw [Disk.text, orphaned, Disk.read_ofVolume]
    rfl
  obtain ⟨hexit, hsame⟩ :=
    runCommand_of_unreadable hargs rfl (hsource ▸ orphaned.run_readText "a.credo")
  refine ⟨by decide +kernel, Disk.removeRefusal?_ofVolume _ _, hexit, ?_⟩
  exact congrArg (·.volume.read "a.lst") hsame

/-- A source that compiles and the listing of an earlier one, which cannot be written but
could be removed. -/
def locked : Disk where
  volume := ⟨["home"], [(["home", "a.credo"], .file "agent Idle { }".toUTF8),
    (["home", "a.lst"], .file "old".toUTF8)]⟩
  unreadable _ := none
  unwritable _ _ := some ⟨.permissionDenied, none⟩
  unremovable _ := none

/-- A listing that cannot be replaced is not removed. -/
theorem locked_listing_survives :
    locked.removeRefusal? "a.lst" = none ∧
    (locked.command ["build", "a.credo"]).1.exit = 1 ∧
    (locked.command ["build", "a.credo"]).2.volume.read "a.lst" = .ok "old".toUTF8 := by
  have hargs : Invocation.ofArgs {} ["build", "a.credo"] =
      .ok ⟨false, true, .build "a.credo" none⟩ := rfl
  have hsource : locked.text "a.credo" = .ok "agent Idle { }" := asText_toUTF8 _
  have hdefault : defaultOutput "a.credo" = "a.lst" := by decide +kernel
  obtain ⟨r, hbuild, hfails⟩ :=
    runCommand_of_readable hargs rfl (hsource ▸ locked.run_readText "a.credo")
  rw [Option.getD_none, hdefault] at hbuild
  cases hc : compile "agent Idle { }" ⟨"a.credo", true⟩ with
  | error e =>
    have hgood : (compile "agent Idle { }" ⟨"a.credo", true⟩).toOption.isSome = true := by
      decide +kernel
    simp [hc, Except.toOption] at hgood
  | ok type =>
    have hwrite : locked.writeFailure? "a.lst" type.listing.toUTF8 =
        some ⟨.permissionDenied, none⟩ := rfl
    obtain ⟨rfl, hafter⟩ := Prod.mk.inj (hbuild.symm.trans (Disk.build_of_failed_write hc hwrite))
    exact ⟨rfl, hfails.mpr ⟨_, rfl⟩, congrArg (·.volume.read "a.lst") hafter⟩

end AgentLang
