import ProcLang.ListLemmas

/-!
# Paths

A path is a list of parts with slashes between them. An empty part and `.` lead nowhere, `..` leads
out of a directory.

## Main definitions

* `Path.parts`, `Path.text` — the parts of a path, and back.
* `Path.parent` — the directory that the last part is in.
* `Path.join` — the path of a file in a directory.
-/
namespace ProcLang.Path

/-- The parts of a path. -/
def parts (path : String) : List String := path.splitOn "/"

/-- The path of the given parts. -/
def text (path : List String) : String := "/".intercalate path

/-- A path without the parts at its end that lead nowhere. -/
def trim (path : List String) : List String :=
  (path.reverse.dropWhile fun part => part == "" || part == ".").reverse

/-- A path without slashes at its end. -/
def trimSlashes (path : List String) : List String := (path.reverse.dropWhile (· == "")).reverse

/-- The path of the directory that the last part is in. -/
def parent (path : List String) : List String := trim (trim path).dropLast

theorem length_trim_le (path : List String) : (trim path).length ≤ path.length := by
  simpa [trim] using length_dropWhile_le (fun part => part == "" || part == ".") path.reverse

theorem length_parent_lt {path : List String} (h : path ≠ []) :
    (parent path).length < path.length := by
  have := List.length_pos_iff.mpr h
  have := length_trim_le path
  have := length_trim_le (trim path).dropLast
  simp only [parent, List.length_dropLast] at *
  omega

/-- The path of a file in a directory. -/
def join (dir name : String) : String :=
  if dir.isEmpty || name.startsWith "/" then name
  else if dir.endsWith "/" then dir ++ name
  else dir ++ "/" ++ name

end ProcLang.Path
