/-!
# Files of a command line

The directory in which a command line runs, with the files that it holds, and what keeps a file from
being read. A path is followed name by name. Of what lies outside of the directory nothing is known
but the directories that lead to it and the null device.
-/

namespace Nftables.CommandLine

/-- What keeps a file from being read. -/
inductive FileFault
  | missing
  | forbidden
  | notDirectory
  | isDirectory
  | nameTooLong
  | notText
  | other (text : String)
deriving DecidableEq, Repr

def FileFault.message : FileFault → String
  | .missing => "No such file or directory (os error 2)"
  | .forbidden => "Permission denied (os error 13)"
  | .notDirectory => "Not a directory (os error 20)"
  | .isDirectory => "Is a directory (os error 21)"
  | .nameTooLong => "File name too long (os error 36)"
  | .notText => "stream did not contain valid UTF-8"
  | .other text => text

/-- The texts of files by their paths, or what keeps one from being read. -/
abbrev Files := String → Except FileFault String

/-- The files of a directory, each by the names that lead to it. -/
structure Directory where
  files : List (List String × String)

/-- A place to which a path leads. -/
inductive Location
  /-- A directory, by the names that lead to it. -/
  | inside (names : List String)
  /-- A directory that leads to this one. -/
  | outside
  | file (text : String)
deriving DecidableEq, Repr

/-- The names of a path, some of which may be empty. -/
def pathNames (path : String) : List String :=
  (path.toList.splitOn '/').map String.ofList

/-- The most bytes of a name. -/
def maxNameSize : Nat := 255

/-- The most bytes of a path. -/
def maxPathSize : Nat := 4095

def nullDevice : String := "/dev/null"

namespace Directory

/-- The directory that holds these files. -/
def ofFiles (files : List (String × String)) : Directory :=
  ⟨files.map fun (path, text) => (pathNames path, text)⟩

/-- Some file lies behind these names. -/
def hasDirectory (d : Directory) (names : List String) : Bool :=
  d.files.any fun (path, _) => names.isPrefixOf path

/-- What a name leads to from a place. -/
def follow (d : Directory) (name : String) : Location → Except FileFault Location
  | .file _ => .error .notDirectory
  | .outside =>
    if name ∈ ["", ".", ".."] then .ok .outside
    else .error (if maxNameSize < name.utf8ByteSize then .nameTooLong else .missing)
  | .inside names =>
    if name ∈ ["", "."] then .ok (.inside names)
    else if name = ".." then .ok (if names = [] then .outside else .inside names.dropLast)
    else if maxNameSize < name.utf8ByteSize then .error .nameTooLong
    else
      let names := names ++ [name]
      match d.files.lookup names with
      | some text => .ok (.file text)
      | none => if d.hasDirectory names then .ok (.inside names) else .error .missing

/-- Where a path leads. -/
def locate (d : Directory) (path : String) : Except FileFault Location :=
  if maxPathSize < path.utf8ByteSize then .error .nameTooLong
  else
    let start : Location := if path.startsWith "/" then .outside else .inside []
    (pathNames path).foldlM (fun place name => d.follow name place) start

/-- The text of the file to which a path leads. -/
def read (d : Directory) : Files := fun path =>
  if path = nullDevice then .ok ""
  else
    match d.locate path with
    | .ok (.file text) => .ok text
    | .ok _ => .error .isDirectory
    | .error fault => .error fault

end Directory

end Nftables.CommandLine
