namespace Dpll.CommandLine

abbrev Path := String

namespace Path

def isAbsolute (p : Path) : Bool := p.startsWith "/"

def parts (p : Path) : List String := p.splitOn "/"

/-- A path from another, in place of which an absolute path stands. -/
def join (p q : Path) : Path :=
  if q.isAbsolute then q else if p.isEmpty || p.endsWith "/" then p ++ q else p ++ "/" ++ q

def isCurrent (p : Path) : Bool :=
  match p.parts with
  | "." :: rest => rest.all fun part ↦ part = "" || part = "."
  | _ => false

/-- The last part, unless it leads upwards or there is none. -/
def fileName? (p : Path) : Option String :=
  match (p.parts.filter fun part ↦ part ≠ "" && part ≠ ".").getLast? with
  | some ".." => none
  | name => name

/-- What comes after the last dot of the file name, if something comes before it. -/
def extension? (p : Path) : Option String := do
  let name ← p.fileName?
  match (name.splitOn ".").reverse with
  | extension :: before :: rest =>
    if rest.isEmpty && before.isEmpty then none else some extension
  | _ => none

end Path

end Dpll.CommandLine
