import Dpll.AtomTable
import Dpll.Clause.Normal
import Dpll.ClauseStore
import Dpll.Config
import Dpll.Random.Pcg
import Dpll.Trail
import Dpll.Verdict

namespace Dpll

/-- Clauses are taken in the `input` phase, which the first assignment or search ends. A search may
then settle the problem. -/
inductive Phase
  | input
  | solving
  | satisfiable
  | unsatisfiable
  deriving DecidableEq

namespace Phase

def text : Phase → String
  | input => "Input"
  | solving => "Solving"
  | satisfiable => "Satisfiable"
  | unsatisfiable => "Unsatisfiable"

def verdict : Phase → Verdict
  | input | solving => .unknown
  | satisfiable => .satisfied
  | unsatisfiable => .unsatisfied

def afterAssignment : Phase → Phase
  | input => solving
  | phase => phase

end Phase

/-- A formula with a partial valuation of its atoms, and the trail of how it came about. -/
structure Problem (ρ : Type) where
  config : Config
  phase : Phase
  atoms : AtomTable
  store : ClauseStore
  trail : Trail
  source : ρ

inductive Addition
  | stored
  | tautology
  deriving DecidableEq

namespace Problem

variable {ρ : Type}

def empty (n : Nat) (config : Config) (source : ρ) : Problem ρ where
  config
  phase := .input
  atoms := .blank n
  store := .empty config.cachesSatisfaction
  trail := .withRoom n
  source

def seeded (n : Nat) (config : Config) : Problem Pcg :=
  empty n config (.ofSeed config.seed.value.toUInt64)

def valuation (p : Problem ρ) : Valuation := p.atoms.valuation

def atomCount (p : Problem ρ) : Nat := p.atoms.count

def clauseCount (p : Problem ρ) : Nat := p.store.count

def formula (p : Problem ρ) : Formula := p.store.formula

def verdict (p : Problem ρ) : Verdict := p.phase.verdict

def unvalued (p : Problem ρ) : Nat := p.valuation.unvaluedCount

def storeNormal : Problem ρ → Clause → Problem ρ
  | ⟨config, phase, atoms, store, trail, source⟩, c =>
    ⟨config, phase, atoms.noteAll c, store.push c, trail, source⟩

def add (p : Problem ρ) (c : Clause) : Except Fault (Addition × Problem ρ) :=
  if p.phase ≠ .input then .error .solveInProgress
  else
    match c.fault? p.atomCount with
    | some fault => .error (.clause fault)
    | none =>
      match c.normalize p.config.sortClauses.value with
      | .tautology _ => .ok (.tautology, p)
      | .clause c => .ok (.stored, p.storeNormal c)

def assign : Problem ρ → Atom → Bool → Bool → Except ProblemFault (Problem ρ)
  | ⟨config, phase, atoms, store, trail, source⟩, a, b, decision =>
    match atoms.assign a b with
    | .error fault => .error fault
    | .ok atoms =>
      let trail := if decision then trail.openLevel else trail
      .ok ⟨config, phase.afterAssignment, atoms, store, trail.push (.ofAtom a b), source⟩

def assert (p : Problem ρ) (l : Literal) (decision : Bool) : Except ProblemFault (Problem ρ) :=
  p.assign l.atom l.positive decision

def assertAll (p : Problem ρ) : List Literal → Except ProblemFault (Problem ρ)
  | [] => .ok p
  | l :: ls =>
    match p.assert l false with
    | .error fault => .error fault
    | .ok p => p.assertAll ls

def rollback (p : Problem ρ) : Except ProblemFault (Problem ρ) :=
  match p.trail.closeLevel with
  | none => .error .noDecision
  | some (undone, trail) =>
    .ok { p with
      atoms := p.atoms.clearAll undone
      store := p.store.invalidate trail.depth
      trail }

/-- Whether the valuation makes every clause true, without use of the cache. -/
def verify (p : Problem ρ) : Except ProblemFault Unit :=
  if p.formula.all fun c ↦ decide (c.status p.valuation = .satisfied) then .ok ()
  else .error .unsatisfiedClause

def assignment (p : Problem ρ) : List Bool := p.valuation.complete

theorem unvalued_assign {p q : Problem ρ} {a : Atom} {b decision : Bool}
    (h : p.assign a b decision = .ok q) : q.unvalued + 1 = p.unvalued := by
  obtain ⟨config, phase, atoms, store, trail, source⟩ := p
  simp only [assign] at h
  split at h
  next => cases h
  next hatoms =>
    cases h
    exact Valuation.unvaluedCount_assign (AtomTable.assign_eq_ok hatoms)

theorem unvalued_assertAll {p q : Problem ρ} {ls : List Literal} (h : p.assertAll ls = .ok q) :
    q.unvalued + ls.length = p.unvalued := by
  induction ls generalizing p with
  | nil => cases h; rfl
  | cons l ls ih =>
    unfold assertAll at h
    split at h
    next => cases h
    next r hr =>
      have h₁ := ih h
      have h₂ := unvalued_assign hr
      simp only [List.length_cons]
      omega

end Problem

end Dpll
