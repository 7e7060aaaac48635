import AgentLang.Volume

/-!
# Disks

A disk is a volume with refusals. A file may not be for reading, or for removing, although
it is there. A write may fail where the volume would take it: the file is not opened, for
want of a permission, and stays as it is, or it is opened and there is no room for all of
the contents, so that the file holds the front of them.

What the volume fails fails on the disk with the same error. Refusals may depend on the
place and, for a write, on the contents. They do not change over time, which is no
restriction as long as a place is read, written or removed once: a command does each at most
once.
-/

namespace AgentLang

/-- How a write fails. -/
structure WriteFailure where
  error : FileError
  /-- How many bytes of the contents the file holds afterwards; none if it was not opened. -/
  kept : Option Nat

structure Disk where
  volume : Volume
  unreadable : Place → Option FileError
  unwritable : Place → ByteArray → Option WriteFailure
  unremovable : Place → Option FileError

namespace Disk

/-- A disk that refuses nothing. -/
def ofVolume (v : Volume) : Disk := ⟨v, fun _ => none, fun _ _ => none, fun _ => none⟩

/-! ## Refusals -/

/-- Why a file that the volume would read is not read. -/
def readRefusal? (d : Disk) (path : String) : Option FileError :=
  match d.volume.read path with
  | .ok _ => (d.volume.target? path).bind d.unreadable
  | .error _ => none

/-- How a write that the volume would take fails. -/
def writeFailure? (d : Disk) (path : String) (bytes : ByteArray) : Option WriteFailure :=
  match (d.volume.write path bytes).1 with
  | .ok () => (d.volume.target? path).bind (d.unwritable · bytes)
  | .error _ => none

/-- Why a file that the volume would remove is not removed. -/
def removeRefusal? (d : Disk) (path : String) : Option FileError :=
  match (d.volume.remove path).1 with
  | .ok () => (d.volume.target? path).bind d.unremovable
  | .error _ => none

/-! ## Operations -/

def read (d : Disk) (path : String) : Except FileError ByteArray :=
  match d.readRefusal? path with
  | some e => .error e
  | none => d.volume.read path

/-- The disk after a write that failed. -/
def cutShort (d : Disk) (failure : WriteFailure) (path : String) (bytes : ByteArray) : Disk :=
  match failure.kept with
  | none => d
  | some n => { d with volume := (d.volume.write path (bytes.extract 0 n)).2 }

def write (d : Disk) (path : String) (bytes : ByteArray) : Except FileError Unit × Disk :=
  match d.writeFailure? path bytes with
  | some failure => (.error failure.error, d.cutShort failure path bytes)
  | none =>
    let (answer, volume) := d.volume.write path bytes
    (answer, { d with volume })

def remove (d : Disk) (path : String) : Except FileError Unit × Disk :=
  match d.removeRefusal? path with
  | some e => (.error e, d)
  | none =>
    let (answer, volume) := d.volume.remove path
    (answer, { d with volume })

end Disk

instance : FileAccess (StateM Disk) where
  read path := do return (← get).read path
  write path bytes := modifyGet fun d => d.write path bytes
  remove path := modifyGet fun d => d.remove path

end AgentLang
