namespace Dpll

/-- How a solver keeps its formula: a copy reduced by each assignment, or a single one, with or
without a record of the clauses satisfied. -/
inductive SolverKind
  | simple
  | noCopy
  | cached
  deriving DecidableEq

inductive Heuristic
  | random
  | greedy
  | first
  deriving DecidableEq

inductive SearchForm
  | iterative
  | recursive
  deriving DecidableEq

namespace SolverKind

def all : List SolverKind := [simple, noCopy, cached]

def name : SolverKind → String
  | simple => "simple"
  | noCopy => "no-copy"
  | cached => "cached"

def rank : SolverKind → Nat
  | simple => 0
  | noCopy => 1
  | cached => 2

def ofName? (s : String) : Option SolverKind := all.find? fun k ↦ k.name = s

instance : LE SolverKind := ⟨fun a b ↦ a.rank ≤ b.rank⟩

instance : DecidableLE SolverKind := fun a b ↦ inferInstanceAs (Decidable (a.rank ≤ b.rank))

end SolverKind

namespace Heuristic

def all : List Heuristic := [random, greedy, first]

def name : Heuristic → String
  | random => "random"
  | greedy => "greedy"
  | first => "first"

def rank : Heuristic → Nat
  | random => 0
  | greedy => 1
  | first => 2

def ofName? (s : String) : Option Heuristic := all.find? fun k ↦ k.name = s

instance : LE Heuristic := ⟨fun a b ↦ a.rank ≤ b.rank⟩

instance : DecidableLE Heuristic := fun a b ↦ inferInstanceAs (Decidable (a.rank ≤ b.rank))

end Heuristic

namespace SearchForm

def all : List SearchForm := [iterative, recursive]

def name : SearchForm → String
  | iterative => "iterative"
  | recursive => "recursive"

def rank : SearchForm → Nat
  | iterative => 0
  | recursive => 1

def ofName? (s : String) : Option SearchForm := all.find? fun k ↦ k.name = s

instance : LE SearchForm := ⟨fun a b ↦ a.rank ≤ b.rank⟩

instance : DecidableLE SearchForm := fun a b ↦ inferInstanceAs (Decidable (a.rank ≤ b.rank))

end SearchForm

end Dpll
