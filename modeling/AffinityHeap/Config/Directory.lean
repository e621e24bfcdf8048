import AffinityHeap.Config.Document

namespace AffinityHeap

inductive FileEntry where
  | file (content : ByteArray)
  | directory

/-- A directory whose subdirectories are empty, and from whose ancestors nothing can be named. -/
structure Directory where
  entries : List (String × FileEntry)

namespace Directory

/-- Where a path has led so far. The root counts as an ancestor, and is its own parent. -/
inductive Place where
  | ancestor
  | top
  | sub
  | file (content : ByteArray)

def Place.parent : Place → Place
  | .sub => .top
  | _ => .ancestor

def child (d : Directory) (place : Place) (name : String) : Except FileFault Place :=
  match place with
  | .top =>
      match d.entries.find? (fun x => x.1 == name) with
      | some (_, .file content) => .ok (.file content)
      | some (_, .directory) => .ok .sub
      | none => .error .missing
  | _ => .error .missing

def enter (d : Directory) (place : Place) (part : String) : Except FileFault Place :=
  match place with
  | .file _ => .error .notDirectory
  | _ =>
      if part.isEmpty ∨ part = "." then .ok place
      else if part = ".." then .ok place.parent
      else d.child place part

def start (path : String) : Place :=
  if path.startsWith "/" then .ancestor else .top

def locate (d : Directory) (path : String) : Except FileFault Place :=
  (path.splitOn "/").foldlM d.enter (start path)

def fileText (d : Directory) (path : String) : Except FileFault String :=
  match d.locate path with
  | .error fault => .error fault
  | .ok (.file content) =>
      match String.fromUTF8? content with
      | some text => .ok text
      | none => .error .notText
  | .ok _ => .error .isDirectory

end Directory

end AffinityHeap
