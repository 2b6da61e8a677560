/-!
A working directory with files and empty directories in it, and the relative paths that lead from
it.
-/

namespace FrontEnd.CommandLine

/-- Files with their contents, and the names of empty directories beside them. -/
structure Directory where
  files : List (String × List UInt8)
  folders : List String

namespace Directory

/-- Where a path has led so far. -/
inductive Place
  | here
  | folder
  | file (content : List UInt8)

/-- One component of a path. Only a directory can be followed further, and nothing is known
outside the working directory. -/
def step (d : Directory) : Place → String → Option Place
  | .file _, _ => none
  | .here, name =>
      if name = "" ∨ name = "." then some .here
      else if name = ".." then none
      else match d.files.lookup name with
        | some content => some (.file content)
        | none => if name ∈ d.folders then some .folder else none
  | .folder, name =>
      if name = "" ∨ name = "." then some .folder else if name = ".." then some .here else none

/-- The content of the regular file at a path. -/
def read? (d : Directory) (path : String) : Option (List UInt8) :=
  if path = "" ∨ path.startsWith "/" then none
  else match (path.splitOn "/").foldlM d.step .here with
    | some (.file content) => some content
    | _ => none

end Directory

end FrontEnd.CommandLine
