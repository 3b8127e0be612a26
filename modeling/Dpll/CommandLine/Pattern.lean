import Dpll.CommandLine.Path

namespace Dpll.CommandLine

inductive Wildcard
  | char (c : Char)
  | any
  | run
  | deep
  | within (ranges : List (Char × Char))
  | outside (ranges : List (Char × Char))
  deriving DecidableEq

namespace Wildcard

def inRange (c : Char) (r : Char × Char) : Bool := decide (r.1 ≤ c) && decide (c ≤ r.2)

def admits : Wildcard → Char → Bool
  | .char d, c => c = d
  | .any, _ => true
  | .within ranges, c => ranges.any (inRange c)
  | .outside ranges, c => !ranges.any (inRange c)
  | .run, _ | .deep, _ => false

def char? : Wildcard → Option Char
  | .char c => some c
  | _ => none

end Wildcard

abbrev Pattern := List Wildcard

structure PatternFault where
  position : Nat
  reason : String

def PatternFault.message (f : PatternFault) : String :=
  s!"Pattern syntax error near position {f.position}: {f.reason}"

namespace Pattern

def wildcards : String := "wildcards are either regular `*` or recursive `**`"

def recursiveWildcards : String := "recursive wildcards must form a single path component"

def invalidRange : String := "invalid range pattern"

def ranges : List Char → List (Char × Char)
  | a :: '-' :: b :: rest => (a, b) :: ranges rest
  | a :: rest => (a, a) :: ranges rest
  | [] => []

/-- What is between the brackets, of which the opening one came before, and what comes after the
closing one. A bracket right after the opening one does not close. -/
def bracketed? : List Char → Option (List Char × List Char)
  | [] => none
  | first :: rest =>
    if ']' ∈ rest then
      some (first :: rest.takeWhile (· ≠ ']'), (rest.dropWhile (· ≠ ']')).tail)
    else none

theorem length_bracketed? {cs inside after : List Char} (h : bracketed? cs = some (inside, after)) :
    after.length < cs.length := by
  cases cs with
  | nil => cases h
  | cons first rest =>
    have hs := (List.dropWhile_suffix (l := rest) (· ≠ ']')).length_le
    simp only [bracketed?] at h
    split at h
    next =>
      cases h
      simp only [List.length_tail, List.length_cons]
      omega
    next => cases h

set_option linter.unusedVariables false in
/-- Reads a pattern from the character at `position`, which `before` comes right before. -/
def parseFrom (position : Nat) (before : Option Char) (cs : List Char) :
    Except PatternFault Pattern :=
  match cs with
  | [] => .ok []
  | '?' :: rest => (parseFrom (position + 1) (some '?') rest).map (.any :: ·)
  | '*' :: '*' :: '*' :: _ => .error ⟨position + 2, wildcards⟩
  | '*' :: '*' :: rest =>
    if before.any (· ≠ '/') then .error ⟨position - 1, recursiveWildcards⟩
    else
      match rest with
      | [] => .ok [.deep]
      | '/' :: rest => (parseFrom (position + 3) (some '/') rest).map (.deep :: ·)
      | _ => .error ⟨position + 2, recursiveWildcards⟩
  | '*' :: rest => (parseFrom (position + 1) (some '*') rest).map (.run :: ·)
  | '[' :: '!' :: rest =>
    match h : bracketed? rest with
    | none => .error ⟨position, invalidRange⟩
    | some (inside, after) =>
      (parseFrom (position + 3 + inside.length) (some ']') after).map
        (.outside (ranges inside) :: ·)
  | '[' :: rest =>
    match h : bracketed? rest with
    | none => .error ⟨position, invalidRange⟩
    | some (inside, after) =>
      (parseFrom (position + 2 + inside.length) (some ']') after).map
        (.within (ranges inside) :: ·)
  | c :: rest => (parseFrom (position + 1) (some c) rest).map (.char c :: ·)
termination_by cs.length
decreasing_by
  any_goals have := length_bracketed? h
  all_goals simp only [List.length_cons]; omega

def parse (s : String) : Except PatternFault Pattern := parseFrom 0 none s.toList

def hereOrLater (marks : List Bool) : List Bool :=
  marks.foldr (fun mark later ↦ (mark || later.headD false) :: later) []

/-- For each end of a name, from the whole of it to the empty one, whether the pattern stands for
it. -/
def ends (name : List Char) : Pattern → List Bool
  | [] => name.map (fun _ ↦ false) ++ [true]
  | .run :: p | .deep :: p => hereOrLater (ends name p)
  | w :: p => name.zipWith (fun c b ↦ w.admits c && b) (ends name p).tail ++ [false]

def admits (p : Pattern) (name : String) : Bool := (ends name.toList p).headD false

def literal? (p : Pattern) : Option String :=
  (p.mapM Wildcard.char?).map String.ofList

def isDeep (p : Pattern) : Bool := p.contains .deep

def startsWithDot (p : Pattern) : Bool := p.head? = some (.char '.')

end Pattern

/-- A pattern of paths: where to start, the patterns to go through from one directory to the next,
and whether only directories are looked for. -/
structure PathPattern where
  root : Path
  steps : List Pattern
  directoriesOnly : Bool

namespace PathPattern

def dropTrailing (parts : List String) : List String :=
  if parts.getLast? = some "" then parts.dropLast else parts

/-- Leaves one of each run of patterns for any depth, as it stands for them all. -/
def collapse : List Pattern → List Pattern
  | p :: q :: rest =>
    if p.isDeep && q.isDeep then collapse (q :: rest) else p :: collapse (q :: rest)
  | ps => ps

def parse (s : String) : Except PatternFault PathPattern :=
  match Pattern.parse s with
  | .error fault => .error fault
  | .ok _ =>
    let absolute := Path.isAbsolute s
    let parts := if absolute then (Path.parts s).tail else Path.parts s
    let parts := if s = "/" then parts else dropTrailing parts
    match parts.mapM Pattern.parse with
    | .error fault => .error fault
    | .ok steps => .ok ⟨if absolute then "/" else ".", collapse steps, s.endsWith "/"⟩

end PathPattern

end Dpll.CommandLine
