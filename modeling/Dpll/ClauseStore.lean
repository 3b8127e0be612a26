import Dpll.Clause

namespace Dpll

/-- A record of which clauses are known to be satisfied, and by when.
A clause found to be true has a record of the index on the trail of the latest assignment then made,
and is passed over until that assignment is undone. -/
structure SatisfactionCache where
  records : Array (Option Nat) := #[]
  stack : List Nat := []

namespace SatisfactionCache

def extend (k : SatisfactionCache) : SatisfactionCache := { k with records := k.records.push none }

@[inline] def holds (k : SatisfactionCache) (i : Nat) : Bool := (k.records.getD i none).isSome

def record : SatisfactionCache → Nat → Nat → SatisfactionCache
  | ⟨records, stack⟩, i, time => ⟨records.setIfInBounds i (some time), i :: stack⟩

def dropFrom (depth : Nat) (records : Array (Option Nat)) : List Nat → SatisfactionCache
  | [] => ⟨records, []⟩
  | i :: stack =>
    match records.getD i none with
    | some time =>
      if depth ≤ time then dropFrom depth (records.setIfInBounds i none) stack
      else ⟨records, i :: stack⟩
    | none => ⟨records, i :: stack⟩

def invalidate (k : SatisfactionCache) (depth : Nat) : SatisfactionCache :=
  dropFrom depth k.records k.stack

end SatisfactionCache

structure ClauseStore where
  clauses : Array Clause := #[]
  cache : Option SatisfactionCache := none

namespace ClauseStore

def empty (caching : Bool) : ClauseStore := { cache := if caching then some {} else none }

def count (s : ClauseStore) : Nat := s.clauses.size

def formula (s : ClauseStore) : Formula := s.clauses.toList

def push : ClauseStore → Clause → ClauseStore
  | ⟨clauses, cache⟩, c => ⟨clauses.push c, cache.map (·.extend)⟩

def hasEmpty (s : ClauseStore) : Bool := s.clauses.any (·.isEmpty)

@[inline] def isCached (s : ClauseStore) (i : Nat) : Bool := s.cache.any (·.holds i)

def cacheSize (s : ClauseStore) : Nat := (s.cache.map (·.stack.length)).getD 0

def text (s : ClauseStore) : String := s.formula.text

def invalidate (s : ClauseStore) (depth : Nat) : ClauseStore :=
  { s with cache := s.cache.map (·.invalidate depth) }

def record : ClauseStore → Nat → Nat → ClauseStore
  | ⟨clauses, some cache⟩, i, time => ⟨clauses, some (cache.record i time)⟩
  | s, _, _ => s

/-- The clause at `i` with its status, unless it is known to be satisfied.
A clause found to be satisfied is recorded at the index `time` of the trail. -/
@[inline] def examine (s : ClauseStore) (v : Valuation) (time i : Nat) :
    Option (Clause × Clause.Status) × ClauseStore :=
  if s.isCached i then (none, s)
  else
    match s.clauses[i]? with
    | none => (none, s)
    | some c =>
      match c.status v with
      | .satisfied => (some (c, .satisfied), s.record i time)
      | status => (some (c, status), s)

@[specialize] def scanFrom {α : Type} (v : Valuation) (time : Nat)
    (f : Clause → Clause.Status → Option α) (s : ClauseStore) : List Nat → Option α × ClauseStore
  | [] => (none, s)
  | i :: rest =>
    match s.examine v time i with
    | (none, s) => scanFrom v time f s rest
    | (some (c, status), s) =>
      match f c status with
      | some a => (some a, s)
      | none => scanFrom v time f s rest

/-- The first answer of `f` on the clauses in order. The clauses after it are not examined. -/
@[inline] def scan {α : Type} (s : ClauseStore) (v : Valuation) (time : Nat)
    (f : Clause → Clause.Status → Option α) : Option α × ClauseStore :=
  scanFrom v time f s (List.range s.count)

def unsettledFrom (v : Valuation) (time : Nat) (found : List Clause) (s : ClauseStore) :
    List Nat → List Clause × ClauseStore
  | [] => (found, s)
  | i :: rest =>
    match s.examine v time i with
    | (none, s) => unsettledFrom v time found s rest
    | (some (_, .satisfied), s) => unsettledFrom v time found s rest
    | (some (c, _), s) => unsettledFrom v time (c :: found) s rest

def unsettled (s : ClauseStore) (v : Valuation) (time : Nat) : List Clause × ClauseStore :=
  let (found, s) := unsettledFrom v time [] s (List.range s.count)
  (found.reverse, s)

end ClauseStore

end Dpll
