import Packrat.CommandLine.Run

/-!
# Folders of files in memory

* `Folder` — files by name, where a name may lead through directories. The folder hangs in a tree of
  directories at `Folder.home`.
* `Folder.Place` — what a path leads to: a directory or a file.
* **`Folder.find`** — the walk along a path. It starts at the root if the path starts with a slash
  and in the folder otherwise, and each piece between slashes is one step.
* `Folder.read` — the text at the end of a path.
* `Folder.host` — a folder as the surroundings of a command, in which no time passes.

A step is taken from a directory only, so that a slash after the name of a file is an error, also
where the next piece is empty or leads back. Of two faults the one that the walk meets first counts.
-/

namespace Packrat
namespace CommandLine

/-- Files by name. -/
structure Folder where
  /-- The names, relative to the folder, with the contents. -/
  files : List (String × ByteArray)

namespace Folder

/-! ## The tree of directories -/

/-- The directories from the root to the folder. -/
def home : List String := ["tmp", "folder"]

/-- The directories from the root to a file of the folder, and its own name at the end. -/
def route (name : String) : List String :=
  home ++ (name.splitOn "/").filter fun piece => piece != "" && piece != "."

/-- The files of the tree: those of the folder, and the null device, which is empty. -/
def tree (folder : Folder) : List (List String × ByteArray) :=
  (["dev", "null"], ByteArray.empty) :: folder.files.map fun (name, bytes) => (route name, bytes)

/-- Whether a route ends at a directory: one that leads to a file or to the folder. -/
def isDirectory (folder : Folder) (path : List String) : Bool :=
  path.isPrefixOf home || folder.tree.any fun file => path.isPrefixOf file.1

/-! ## Walks -/

/-- What a path leads to. -/
inductive Place where
  /-- The directory at the end of a route from the root. -/
  | directory (path : List String)
  /-- A file with its contents. -/
  | file (bytes : ByteArray)

/-- The longest name of a file or directory, in bytes. -/
def maxNameSize : Nat := 255

/-- The longest path, in bytes. -/
def maxPathSize : Nat := 4095

/-- What stands at the end of a route. -/
def entry (folder : Folder) (path : List String) : Except ReadError Place :=
  match folder.tree.find? (fun file => file.1 == path) with
  | some (_, bytes) => .ok (.file bytes)
  | none => if folder.isDirectory path then .ok (.directory path) else .error .notFound

/-- One step of a walk. The root is its own parent. -/
def step (folder : Folder) (place : Place) (piece : String) : Except ReadError Place :=
  match place with
  | .file _ => .error .notDirectory
  | .directory path =>
    if piece = "" ∨ piece = "." then .ok (.directory path)
    else if piece = ".." then .ok (.directory path.dropLast)
    else if maxNameSize < piece.utf8ByteSize then .error .nameTooLong
    else folder.entry (path ++ [piece])

/-- **The place at the end of a path.** The empty path leads nowhere. -/
def find (folder : Folder) (path : String) : Except ReadError Place :=
  if path = "" then .error .notFound
  else if maxPathSize < path.utf8ByteSize then .error .nameTooLong
  else
    (path.splitOn "/").foldlM folder.step
      (.directory (if path.toList.head? = some '/' then [] else home))

/-! ## Contents -/

/-- The contents of a file. -/
def read (folder : Folder) (path : String) : Except ReadError String :=
  match folder.find path with
  | .error e => .error e
  | .ok (.directory _) => .error .isDirectory
  | .ok (.file bytes) =>
    match String.fromUTF8? bytes with
    | some text => .ok text
    | none => .error .notText

/-- A folder as the surroundings of a command. -/
def host (folder : Folder) : Host Id :=
  { read := folder.read, timed := fun value => (value (), ⟨0⟩) }

end Folder
end CommandLine
end Packrat
