import Dpll.ClauseSource
import Dpll.Proofs.Normal

namespace Dpll

namespace ClauseSource

variable {σ : Type} [ClauseSource σ] {s s' source : σ} {c : Clause} {fault : ParseFault} {sort : Bool}
  {info : Loaded} {f : Formula}

theorem restFrom_eq (found : List Clause) (s : σ) :
    restFrom found s =
      match clause s with
      | (.error fault, s') => (found.reverse, some fault, s')
      | (.ok none, s') => (found.reverse, none, s')
      | (.ok (some c), s') => restFrom (c :: found) s' := by
  rw [restFrom]
  split <;> next h => rw [h]

theorem restFrom_of_clause (found : List Clause) (h : clause s = (.ok (some c), s')) :
    restFrom found s = restFrom (c :: found) s' := by
  rw [restFrom_eq, h]

theorem restFrom_of_none (found : List Clause) (h : clause s = (.ok none, s')) :
    restFrom found s = (found.reverse, none, s') := by
  rw [restFrom_eq, h]

theorem restFrom_of_error (found : List Clause) (h : clause s = (.error fault, s')) :
    restFrom found s = (found.reverse, some fault, s') := by
  rw [restFrom_eq, h]

theorem restFrom_congr (found : List Clause) (h : clause s = clause s') :
    restFrom found s = restFrom found s' := by
  rw [restFrom_eq, h, ← restFrom_eq]

theorem restFrom_eq_append (found : List Clause) (s : σ) :
    restFrom found s = (found.reverse ++ (rest s).1, (rest s).2) := by
  have h (found more : List Clause) (s : σ) : restFrom (more ++ found) s =
      (found.reverse ++ (restFrom more s).1, (restFrom more s).2) := by
    induction more, s using restFrom.induct with
    | case1 more s fault s' hs => simp [restFrom_of_error _ hs]
    | case2 more s s' hs => simp [restFrom_of_none _ hs]
    | case3 more s c s' hs ih =>
      rw [restFrom_of_clause _ hs, restFrom_of_clause _ hs]
      exact ih
  exact h found [] s

theorem rest_of_clause (h : clause s = (.ok (some c), s')) :
    rest s = (c :: (rest s').1, (rest s').2) := by
  rw [rest, restFrom_of_clause [] h, restFrom_eq_append]
  rfl

/-- The clauses which a source gives after its header, until there are no more or there is a fault. -/
def clauses (source : σ) : List Clause := (rest (header source).2).1

/-- What a load tells of a source, and the formula it takes, or what keeps the formula from being
taken: a fault of the header, too many clauses announced, the first clause with a fault, or the fault
which ends the clauses. -/
def reading [Storage] (sort : Bool) (source : σ) : Except Fault (Loaded × Formula) :=
  match header source with
  | (.error fault, _) => .error (.parse fault)
  | (.ok header, source) =>
    match Formula.storageFault? header.clauses with
    | some fault => .error (.clause fault)
    | none =>
      let (cs, ended, _) := rest source
      match cs.findSome? (Clause.fault? header.literals) with
      | some fault => .error (.clause fault)
      | none =>
        match ended with
        | some fault => .error (.parse fault)
        | none =>
          .ok (⟨header, cs.length, Formula.tautologies sort cs⟩, Formula.normals sort cs)

theorem reading_eq_ok [Storage] (h : reading sort source = .ok (info, f)) :
    (header source).1 = .ok info.header ∧ (rest (header source).2).2.1 = none ∧
      (∀ c ∈ clauses source, c.fault? info.header.literals = none) ∧
      info.read = (clauses source).length ∧
      info.tautologies = Formula.tautologies sort (clauses source) ∧
      f = Formula.normals sort (clauses source) := by
  rw [clauses]
  unfold reading at h
  split at h
  next => cases h
  next header source hh =>
    rw [hh]
    split at h
    next => cases h
    next =>
      dsimp only at h
      split at h
      next => cases h
      next hcs =>
        split at h
        next => cases h
        next hended =>
          cases h
          exact ⟨rfl, hended, List.findSome?_eq_none_iff.1 hcs, rfl, rfl, rfl⟩

end ClauseSource

namespace ClauseList

theorem rest_eq (n : Nat) (cs : List Clause) :
    ClauseSource.rest (⟨n, cs⟩ : ClauseList) = (cs, none, ⟨n, []⟩) := by
  have h (found : List Clause) : ClauseSource.restFrom found (⟨n, cs⟩ : ClauseList) =
      (found.reverse ++ cs, none, ⟨n, []⟩) := by
    induction cs generalizing found with
    | nil =>
      rw [ClauseSource.restFrom]
      simp [ClauseSource.clause]
    | cons c cs ih =>
      rw [ClauseSource.restFrom]
      simp [ClauseSource.clause, ih]
  exact h []

theorem clauses_eq (n : Nat) (cs : List Clause) :
    ClauseSource.clauses (⟨n, cs⟩ : ClauseList) = cs := by
  rw [ClauseSource.clauses, show (ClauseSource.header (⟨n, cs⟩ : ClauseList)).2 = ⟨n, cs⟩ from rfl,
    rest_eq]

theorem reading_eq [Storage] {n : Nat} {cs : List Clause} (sort : Bool)
    (hcs : ∀ c ∈ cs, c.fault? n = none) (hroom : Formula.storageFault? cs.length = none) :
    ClauseSource.reading sort (⟨n, cs⟩ : ClauseList) =
      .ok (⟨⟨n, cs.length⟩, cs.length, Formula.tautologies sort cs⟩, Formula.normals sort cs) := by
  unfold ClauseSource.reading
  rw [show ClauseSource.header (⟨n, cs⟩ : ClauseList) = (.ok ⟨n, cs.length⟩, ⟨n, cs⟩) from rfl]
  dsimp only
  rw [hroom, rest_eq]
  dsimp only
  rw [List.findSome?_eq_none_iff.2 hcs]

end ClauseList

end Dpll
