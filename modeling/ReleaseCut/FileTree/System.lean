import ReleaseCut.FileTree.Disk

/-!
# Operating systems

What a program does to files it asks an operating system for. The system does what can be done on
the disk, or refuses for a reason of its own: a name is too long, a permission is missing, a device
fails.

* `OperatingSystem` has the operations that staging asks for. The standard one refuses nothing that
  can be done.
* `OperatingSystem.IsFaithful` is what can be relied on: what a system does not refuse is done as on
  the disk, and what it refuses changes nothing.
-/

namespace ReleaseCut

/-- An operating system, as far as an artifact is staged with it. -/
class OperatingSystem where
  /-- Lists a directory. -/
  list : Disk → Path → Except IoError (List (String × Entry))
  /-- Creates an empty file under a fresh name in a directory. -/
  createTemp : Disk → Path → String → String → Except IoError (Location × Disk)
  /-- Reads a file. -/
  readBytes : Disk → Path → Except IoError ByteArray
  /-- Removes a file or a link. -/
  removeFile : Disk → Path → Except IoError Disk
  /-- Moves a file to a path. -/
  rename : Disk → Location → Path → Except IoError Disk

namespace OperatingSystem

/-- The system that refuses nothing of its own. -/
instance standard : OperatingSystem where
  list := Disk.list
  createTemp := Disk.createTemp
  readBytes := Disk.readBytes
  removeFile := Disk.removeFile
  rename := Disk.rename

@[simp] theorem list_standard : (list : Disk → _) = Disk.list := rfl

@[simp] theorem createTemp_standard : (createTemp : Disk → _) = Disk.createTemp := rfl

@[simp] theorem readBytes_standard : (readBytes : Disk → _) = Disk.readBytes := rfl

@[simp] theorem removeFile_standard : (removeFile : Disk → _) = Disk.removeFile := rfl

@[simp] theorem rename_standard : (rename : Disk → _) = Disk.rename := rfl

/-- What a system does not refuse is done as on the disk. -/
structure IsFaithful (sys : OperatingSystem) : Prop where
  /-- What is listed stands in the directory. -/
  list {d : Disk} {p : Path} {es : List (String × Entry)} :
    sys.list d p = .ok es → d.list p = .ok es
  /-- A new file is an empty one under a fresh name. -/
  createTemp {d d' : Disk} {dir : Path} {start finish : String} {temp : Location} :
    sys.createTemp d dir start finish = .ok (temp, d') →
      d.createTemp dir start finish = .ok (temp, d')
  /-- What is read is what the file holds. -/
  readBytes {d : Disk} {p : Path} {bytes : ByteArray} :
    sys.readBytes d p = .ok bytes → d.readBytes p = .ok bytes
  /-- What is removed is the file. -/
  removeFile {d d' : Disk} {p : Path} : sys.removeFile d p = .ok d' → d.removeFile p = .ok d'
  /-- What is moved stands at the path. -/
  rename {d d' : Disk} {source : Location} {p : Path} :
    sys.rename d source p = .ok d' → d.rename source p = .ok d'

theorem isFaithful_standard : standard.IsFaithful :=
  ⟨id, id, id, id, id⟩

/-- A system that moves no file to a name of more than `limit` bytes. -/
@[reducible]
def withNameLimit (limit : Nat) : OperatingSystem :=
  { standard with
    rename := fun d source p =>
      if limit < (p.fileName?.getD "").utf8ByteSize then .error (.other "File name too long" 36)
      else d.rename source p }

theorem isFaithful_withNameLimit (limit : Nat) : (withNameLimit limit).IsFaithful where
  list := id
  createTemp := id
  readBytes := id
  removeFile := id
  rename {_ _ _ p} h := by
    change (if limit < (p.fileName?.getD "").utf8ByteSize then _ else _) = _ at h
    split at h
    · cases h
    · exact h

end OperatingSystem

end ReleaseCut
