import Dpll.CommandLine.Surroundings
import Dpll.Random.Choice

namespace Dpll.CommandLine

structure FileTree where
  files : List (List String × Dimacs.Bytes)

namespace FileTree

def ofFiles (files : List (Path × Dimacs.Bytes)) : FileTree where
  files := files.map fun (p, bytes) ↦ (p.parts.filter fun part ↦ part ≠ "" && part ≠ ".", bytes)

def top? (t : FileTree) : Option Dimacs.Bytes := (t.files.find? (·.1.isEmpty)).map (·.2)

def below (t : FileTree) (name : String) : FileTree where
  files := t.files.filterMap fun (names, bytes) ↦
    match names with
    | first :: rest => if first = name then some (rest, bytes) else none
    | [] => none

/-- A place that a path leads to: what is at and below it, and the directories it is in, from the
innermost on. Of what is outside of the tree, no more is known than that it has directories. -/
inductive Place
  | inside (t : FileTree) (above : List FileTree)
  | outside

namespace Place

def entry : Place → Entry
  | outside => .directory
  | inside t _ => if t.top?.isSome then .file else .directory

def names : Place → List String
  | outside => []
  | inside t _ => (t.files.filterMap (·.1.head?)).eraseDups

def text : Place → Dimacs
  | outside => .failingAt 0 []
  | inside t _ =>
    match t.top? with
    | some bytes => .ofBytes bytes
    | none => .failingAt 0 []

def notFound : String := "No such file or directory (os error 2)"

def notDirectory : String := "Not a directory (os error 20)"

def nameTooLong : String := "File name too long (os error 36)"

def longestName : Nat := 255

def longestPath : Nat := 4095

def follow (place : Place) (part : String) : Except String Place :=
  if place.entry = .file then .error notDirectory
  else if part = "" || part = "." then .ok place
  else if longestName < part.utf8ByteSize then .error nameTooLong
  else
    match place, part with
    | outside, ".." => .ok outside
    | outside, _ => .error notFound
    | inside _ [], ".." => .ok outside
    | inside _ (t :: above), ".." => .ok (inside t above)
    | inside t above, name =>
      if (t.below name).files.isEmpty then .error notFound
      else .ok (inside (t.below name) (t :: above))

end Place

def locate (t : FileTree) (p : Path) : Except String Place :=
  if p.isEmpty then .error Place.notFound
  else if Place.longestPath < p.utf8ByteSize then .error Place.nameTooLong
  else p.parts.foldlM Place.follow (if p.isAbsolute then .outside else .inside t [])

def surroundings (t : FileTree) : Surroundings (StateM (Array Line)) where
  entry? p := return (t.locate p).toOption.map Place.entry
  names p := return ((t.locate p).toOption.map Place.names).getD []
  text p := return (t.locate p).map Place.text
  print line := modify (·.push line)
  now := return 0
  solve solver _ := return solver.solve

end FileTree

end Dpll.CommandLine
