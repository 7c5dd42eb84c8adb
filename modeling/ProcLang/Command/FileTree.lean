import ProcLang.Command.Session

/-!
# Sessions in memory

A tree of files kept in memory, and a `Host` that works on it. The session works in one directory
of the tree: a path that begins with a slash starts at the root, any other one at that directory.
Every output is kept.

## Main definitions

* `FileTree` — the files and directories, and the one that the session works in.
* `FileTree.locate` — the place that a path leads to.
* `FileTree.contents` — what lies in the working directory.
* `Workspace` — a tree with the two outputs.
-/
namespace ProcLang

/-- What a path leads to. -/
inductive Node where
  | directory
  | file (content : ByteArray)

/-- Files and directories by the names that lead to them from the root. -/
structure FileTree where
  /-- The working directory. It and those it lies in are always there. -/
  home : List String
  nodes : List (List String × Node)

namespace FileTree

/-- A tree with nothing in its working directory. -/
def empty (home : List String) : FileTree := ⟨home, []⟩

/-- What is at a place. -/
def node? (t : FileTree) (place : List String) : Option Node :=
  if place.isPrefixOf t.home then some .directory else t.nodes.lookup place

@[simp] theorem node?_root (t : FileTree) : t.node? [] = some .directory := by simp [node?]

@[simp] theorem node?_home (t : FileTree) : t.node? t.home = some .directory := by simp [node?]

/-- Puts something at a place, instead of what was there. -/
def put (t : FileTree) (place : List String) (n : Node) : FileTree :=
  { t with nodes := t.nodes.filter (·.1 != place) ++ [(place, n)] }

/-- The most bytes that a name can have. -/
def nameLimit : Nat := 255

/-- The most bytes that a path can have. -/
def pathLimit : Nat := 4095

/-- Follows the parts of a path from `here`. All but the last have to be directories. The root lies
in itself. -/
def walk (t : FileTree) (here : List String) : List String → Except FileError (List String)
  | [] => .ok here
  | part :: rest =>
    if part = "" ∨ part = "." then walk t here rest
    else if part = ".." then walk t here.dropLast rest
    else if part.utf8ByteSize > nameLimit then .error .nameTooLong
    else
      let next := here ++ [part]
      match t.node? next with
      | some .directory => walk t next rest
      | some (.file _) => if rest.isEmpty then .ok next else .error .notDirectory
      | none => if rest.isEmpty then .ok next else .error .notFound

/-- The place that the given parts lead to, from where `path` starts. -/
def locate (t : FileTree) (path : String) (parts : List String) :
    Except FileError (List String) :=
  if path.isEmpty then .error .notFound
  else if path.utf8ByteSize > pathLimit then .error .nameTooLong
  else t.walk (if path.startsWith "/" then [] else t.home) parts

/-- The text of a file. -/
def read (t : FileTree) (path : String) : Except FileError String := do
  match t.node? (← t.locate path (Path.parts path)) with
  | none => throw .notFound
  | some .directory => throw .isDirectory
  | some (.file content) =>
    match String.fromUTF8? content with
    | some text => return text
    | none => throw .notText

/-- Puts a text into a file. -/
def write (t : FileTree) (path text : String) : Except FileError FileTree := do
  let place ← t.locate path (Path.parts path)
  match t.node? place with
  | some .directory => throw .isDirectory
  | _ => return t.put place (.file text.toUTF8)

/-- Whether a path leads to a directory. -/
def hasDirectory (t : FileTree) (path : String) : Bool :=
  match (t.locate path (Path.parts path)).toOption.bind t.node? with
  | some .directory => true
  | _ => false

/-- Makes a directory in one that is there. A path that ends in `.` or `..` names no new one. -/
def makeDirectory (t : FileTree) (path : String) : Except FileError FileTree := do
  let names := Path.trimSlashes (Path.parts path)
  let name := names.getLastD "."
  let here ← t.locate path (names.dropLast ++ [""])
  if name = "." ∨ name = ".." then throw .alreadyExists
  if name.utf8ByteSize > nameLimit then throw .nameTooLong
  if (t.node? (here ++ [name])).isSome then throw .alreadyExists
  return t.put (here ++ [name]) .directory

/-- Puts directories where they are missing on the way from `here` along the names. -/
def addDirectories (t : FileTree) (here : List String) : List String → FileTree
  | [] => t
  | name :: names =>
    let next := here ++ [name]
    addDirectories (if (t.node? next).isSome then t else t.put next .directory) next names

/-- Puts a file into the working directory, and directories on the way to it. -/
def add (t : FileTree) (path : String) (content : ByteArray) : FileTree :=
  let names := Path.parts path
  (t.addDirectories t.home names.dropLast).put (t.home ++ names) (.file content)

/-- What lies in the working directory, by the names that lead to it from there. -/
def contents (t : FileTree) : List (List String × Node) :=
  t.nodes.filterMap fun (place, n) => (t.home.isPrefixOf? place).map (·, n)

end FileTree

/-- A tree of files, what was written to the two outputs, and what every duration reads. -/
structure Workspace where
  tree : FileTree
  output : String
  errors : String
  duration : String

/-- Changes the tree, if that succeeds. -/
def Workspace.update (f : FileTree → Except FileError FileTree) :
    StateM Workspace (Except FileError Unit) := fun w =>
  match f w.tree with
  | .ok t => (.ok (), { w with tree := t })
  | .error e => (.error e, w)

instance : Host (StateM Workspace) where
  read path := fun w => (w.tree.read path, w)
  makeDirectory path := Workspace.update (·.makeDirectory path)
  isDirectory path := fun w => (w.tree.hasDirectory path, w)
  write path text := Workspace.update (·.write path text)
  print line := modify fun w => { w with output := w.output ++ line ++ "\n" }
  printError line := modify fun w => { w with errors := w.errors ++ line ++ "\n" }
  now := pure 0
  since _ := fun w => (w.duration, w)

end ProcLang
