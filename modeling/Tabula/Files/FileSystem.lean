import Tabula.Error
import Tabula.Files.Path

/-!
# File systems

A file system says what stands at each place below its root. Paths that do not begin at the root
begin in its working directory.

* `FileSystem.locate` — the place that a path leads to.
* `FileSystem.entryAt` — what stands there.
* `FileSystem.write` — a file with new contents.
* `FileSystem.makeDirectory`, `FileSystem.makeDirectories` — a directory, alone or with those above.
-/

namespace Tabula

/-- What stands at a place. -/
inductive Entry where
  | directory
  | file (contents : ByteArray)
  /-- A device that opens but takes no data. -/
  | fullDevice
  deriving Inhabited

/-- The names on the way from the root. -/
abbrev Place := List String

/-- A tree of directories and files. -/
structure FileSystem where
  /-- Where paths begin that do not begin at the root. -/
  working : Place
  /-- What stands at each place, the latest first. -/
  entries : List (Place × Entry)
  deriving Inhabited

namespace FileSystem

/-- An empty working directory, and the device that is always full. -/
def initial : FileSystem :=
  ⟨["work"], [(["work"], .directory), (["dev"], .directory), (["dev", "full"], .fullDevice)]⟩

variable (fs : FileSystem)

/-- What stands at a place; the root always is a directory. -/
def entry? (place : Place) : Option Entry :=
  if place = [] then some .directory else fs.entries.lookup place

/-- The file system with another entry at a place. -/
def put (place : Place) (e : Entry) : FileSystem := ⟨fs.working, (place, e) :: fs.entries⟩

/-- The place one name further. -/
def next (place : Place) (name : String) : Place :=
  if name = "." then place else if name = ".." then place.dropLast else place ++ [name]

/-- The place reached from another one; each place that is left on the way has to be a directory. -/
def walk : Place → List String → Except SystemFault Place
  | place, [] => .ok place
  | place, name :: names =>
    match fs.entry? place with
    | none => .error .notFound
    | some .directory =>
      if 255 < name.utf8ByteSize then .error .nameTooLong else walk (next place name) names
    | some _ => .error .notDirectory

/-- The place that a path leads to. It need not exist itself. -/
def locate (path : String) : Except SystemFault Place :=
  if path.contains '\x00' then .error .nulByte
  else if path = "" then .error .notFound
  else if 4096 ≤ path.utf8ByteSize then .error .nameTooLong
  else fs.walk (if Path.isAbsolute path then [] else fs.working) (Path.names path)

/-- What stands where a path leads to. -/
def entryAt (path : String) : Except SystemFault Entry := do
  match fs.entry? (← fs.locate path) with
  | none => throw .notFound
  | some (.file contents) =>
    if Path.asksDirectory path then throw .notDirectory else return .file contents
  | some e => return e

/-- Whether a path leads to a directory. -/
def isDirectory (path : String) : Bool :=
  match fs.entryAt path with
  | .ok .directory => true
  | _ => false

/-- The file system with a file that has the given contents, new or in place of earlier ones. -/
def write (path : String) (contents : ByteArray) : Except SystemFault FileSystem := do
  let place ← fs.locate path
  match fs.entry? place with
  | some .directory => throw .isDirectory
  | some .fullDevice => if contents.isEmpty then return fs else throw .noSpace
  | _ =>
    if Path.asksDirectory path then throw .isDirectory else return fs.put place (.file contents)

/-- The file system with a new directory. -/
def makeDirectory (path : String) : Except SystemFault FileSystem := do
  let place ← fs.locate path
  match fs.entry? place with
  | some _ => throw .exists
  | none => return fs.put place .directory

/-- A new directory at the first of the paths, each of which is the parent of the one before it. A
missing parent is made first; an existing directory is as good as a new one. Parents that were made
stay, also after a failure. -/
def makeDirectoriesAlong : List String → FileSystem → FileSystem × Except SystemFault Unit
  | [], fs => (fs, .ok ())
  | path :: parents, fs =>
    if path = "" then (fs, .ok ())
    else match fs.makeDirectory path with
      | .ok made => (made, .ok ())
      | .error .notFound =>
        match makeDirectoriesAlong parents fs with
        | (above, .error fault) => (above, .error fault)
        | (above, .ok ()) =>
          match above.makeDirectory path with
          | .ok made => (made, .ok ())
          | .error fault => (above, if above.isDirectory path then .ok () else .error fault)
      | .error fault => (fs, if fs.isDirectory path then .ok () else .error fault)

/-- A directory at the path, with all those above it. -/
def makeDirectories (path : String) : FileSystem × Except SystemFault Unit :=
  makeDirectoriesAlong (Path.ancestors path) fs

end FileSystem

end Tabula
