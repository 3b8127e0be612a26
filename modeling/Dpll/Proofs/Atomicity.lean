import Dpll.Problem.InPlace
import Dpll.Proofs.Loading
import Dpll.Solver.InPlace

namespace Dpll

open Update

namespace Problem

variable {ρ : Type} {p q : Problem ρ}

theorem foldl_note (p : Problem ρ) (ls : List Literal) :
    ls.foldl (fun p l ↦ { p with atoms := p.atoms.note l }) p =
      { p with atoms := p.atoms.noteAll ls } := by
  induction ls generalizing p with
  | nil => rfl
  | cons l ls ih => exact ih _

theorem foldl_clear (p : Problem ρ) (ls : List Literal) :
    ls.foldl (fun p l ↦ { p with atoms := p.atoms.clear l.atom }) p =
      { p with atoms := p.atoms.clearAll ls } := by
  induction ls generalizing p with
  | nil => rfl
  | cons l ls ih => exact ih _

theorem on_addInPlace (p : Problem ρ) (c : Clause) :
    (addInPlace c).on p = orKeep p (p.add c) := by
  unfold addInPlace add
  rw [on_bind, on_get]
  by_cases hp : p.phase = .input
  · simp only [if_pos hp, if_neg (not_not.2 hp)]
    rw [on_bind]
    cases c.fault? p.atomCount with
    | some fault => rfl
    | none =>
      cases c.normalize p.config.sortClauses.value with
      | tautology d => rfl
      | clause d =>
        dsimp only [Option.map_none, fail?, on_pure]
        rw [on_bind, on_forM_modify, foldl_note]
        rfl
  · simp only [if_neg hp, if_pos hp]
    rfl

theorem on_assignInPlace (p : Problem ρ) (a : Atom) (b decision : Bool) :
    (assignInPlace a b decision).on p = orKeep p ((p.assign a b decision).map ((), ·)) := by
  obtain ⟨config, phase, ⟨v, occurrences⟩, store, trail, source⟩ := p
  unfold assignInPlace assign AtomTable.assign Valuation.assign
  rw [on_bind, on_get]
  dsimp only [valuation]
  cases v.contains a with
  | false => rfl
  | true =>
    cases v.value a with
    | some b' => rfl
    | none => cases decision <;> rfl

theorem on_rollbackInPlace (p : Problem ρ) :
    rollbackInPlace.on p = orKeep p (p.rollback.map ((), ·)) := by
  unfold rollbackInPlace rollback Trail.closeLevel
  rw [on_bind, on_get]
  dsimp only
  cases p.trail.levelStarts.back? with
  | none => rfl
  | some start =>
    dsimp only [Option.map_some]
    rw [on_bind, on_modify]
    dsimp only
    rw [on_bind, on_forM_modify, foldl_clear]
    rfl

/-- Why a clause is not taken: clauses no longer are, or its first literal which is not one over the
atoms of the problem is zero, or has too large an atom. -/
inductive Refuses (p : Problem ρ) : Clause → Fault → Prop
  | late {c : Clause} (h : p.phase ≠ .input) : Refuses p c .solveInProgress
  | literal {ls ms : Clause} {l : Literal} {fault : ClauseFault} (h : p.phase = .input)
    (hls : ∀ m ∈ ls, m ≠ 0 ∧ m.atom ≤ p.atomCount)
    (hl : l = 0 ∧ fault = .zeroLiteral ∨
      l ≠ 0 ∧ p.atomCount < l.atom ∧ fault = .atomOutOfRange l.atom) :
    Refuses p (ls ++ l :: ms) (.clause fault)

theorem add_eq_error_iff {c : Clause} {fault : Fault} :
    p.add c = .error fault ↔ p.Refuses c fault := by
  by_cases hp : p.phase = .input
  · rw [add_of_input c hp]
    constructor
    · intro h
      split at h
      next f hf =>
        cases h
        obtain ⟨ls, l, ms, rfl, hl, hls⟩ := List.findSome?_eq_some_iff.1 hf
        exact .literal hp (fun m hm ↦ Clause.literalFault?_eq_none_iff.1 (hls m hm))
          (Clause.literalFault?_eq_some_iff.1 hl)
      next => cases h
      next => cases h
    · intro h
      cases h with
      | late h => exact absurd hp h
      | @literal ls ms l f _ hls hl =>
        have hf : Clause.fault? p.atomCount (ls ++ l :: ms) = some f :=
          List.findSome?_eq_some_iff.2 ⟨ls, l, ms, rfl, Clause.literalFault?_eq_some_iff.2 hl,
            fun m hm ↦ Clause.literalFault?_eq_none_iff.2 (hls m hm)⟩
        rw [hf]
  · rw [add, if_pos hp]
    constructor
    · intro h
      cases h
      exact .late hp
    · intro h
      cases h with
      | late => rfl
      | literal h => exact absurd h hp

theorem exists_add_eq_error_iff {c : Clause} :
    (∃ fault, p.add c = .error fault) ↔
      p.phase ≠ .input ∨ ∃ l ∈ c, l = 0 ∨ p.atomCount < l.atom := by
  by_cases hp : p.phase = .input
  · have hc : (∃ l ∈ c, l = 0 ∨ p.atomCount < l.atom) ↔ c.fault? p.atomCount ≠ none := by
      rw [Ne, Clause.fault?_eq_none_iff]
      push Not
      simp only [or_iff_not_imp_left]
    rw [hc, add_of_input c hp, or_iff_right (not_not.2 hp)]
    split
    next h => simp [h]
    next h _ => simp [h]
    next h _ => simp [h]
  · refine iff_of_true ?_ (.inl hp)
    rw [add, if_pos hp]
    exact ⟨_, rfl⟩

theorem assign_eq_error_iff {a : Atom} {b decision : Bool} {fault : ProblemFault} :
    p.assign a b decision = .error fault ↔
      (a = 0 ∨ p.atomCount < a) ∧ fault = .unknownAtom a ∨
        (a ≠ 0 ∧ a ≤ p.atomCount ∧ p.valuation.value a ≠ none) ∧ fault = .alreadyAssigned a := by
  obtain ⟨config, phase, ⟨v, occurrences⟩, store, trail, source⟩ := p
  refine Iff.trans ?_ (@Valuation.assign_eq_error_iff v a b fault)
  unfold assign AtomTable.assign
  dsimp only [valuation]
  cases v.assign a b with
  | error e => simp
  | ok w => simp

theorem eq_of_add_tautology {c : Clause} (h : p.add c = .ok (.tautology, q)) : q = p := by
  obtain ⟨-, -, ⟨d, -, -, hq⟩ | ⟨d, -, he, -⟩⟩ := add_eq_ok h
  · exact hq
  · cases he

/-- Each change in place comes to what the whole change gives, and to nothing if there is a fault, as
there is just in these cases. -/
structure FailsCleanly (p : Problem ρ) : Prop where
  add (c : Clause) : (addInPlace c).on p = orKeep p (p.add c)
  add_refused (c : Clause) (fault : Fault) : p.add c = .error fault ↔ p.Refuses c fault
  add_faults (c : Clause) : (∃ fault, p.add c = .error fault) ↔
    p.phase ≠ .input ∨ ∃ l ∈ c, l = 0 ∨ p.atomCount < l.atom
  add_tautology {c : Clause} {q : Problem ρ} (h : p.add c = .ok (.tautology, q)) : q = p
  assign (a : Atom) (b decision : Bool) :
    (assignInPlace a b decision).on p = orKeep p ((p.assign a b decision).map ((), ·))
  assign_faults (a : Atom) (b decision : Bool) (fault : ProblemFault) :
    p.assign a b decision = .error fault ↔
      (a = 0 ∨ p.atomCount < a) ∧ fault = .unknownAtom a ∨
        (a ≠ 0 ∧ a ≤ p.atomCount ∧ p.valuation.value a ≠ none) ∧ fault = .alreadyAssigned a
  rollback : rollbackInPlace.on p = orKeep p (p.rollback.map ((), ·))
  rollback_faults (fault : ProblemFault) :
    p.rollback = .error fault ↔ p.trail.level = 0 ∧ fault = .noDecision

theorem failsCleanly (p : Problem ρ) : p.FailsCleanly where
  add := on_addInPlace p
  add_refused _ _ := add_eq_error_iff
  add_faults _ := exists_add_eq_error_iff
  add_tautology := eq_of_add_tautology
  assign := on_assignInPlace p
  assign_faults _ _ _ _ := assign_eq_error_iff
  rollback := on_rollbackInPlace p
  rollback_faults _ := rollback_eq_error_iff

end Problem

namespace ClauseSource

variable {σ β : Type} [ClauseSource σ] {take : β → Clause → Except Fault β} {s s' : σ}

theorem takeEach_eq (take : β → Clause → Except Fault β) (b : β) (s : σ) :
    (takeEach take b s).1 =
      match (rest s).1.foldlM take b with
      | .error fault => .error fault
      | .ok b =>
        match (rest s).2.1 with
        | some fault => .error (.parse fault)
        | none => .ok b := by
  fun_induction takeEach take b s with
  | case1 b s fault s' h =>
    rw [rest, restFrom_of_error [] h]
    rfl
  | case2 b s s' h =>
    rw [rest, restFrom_of_none [] h]
    rfl
  | case3 b s c s' h fault ht =>
    rw [rest_of_clause h, List.foldlM_cons, ht]
    rfl
  | case4 b s c s' h b' ht ih =>
    rw [rest_of_clause h, List.foldlM_cons, ht]
    exact ih

end ClauseSource

namespace CopyingSolver

theorem foldlM_take (sort : Bool) (f : Formula) (info : Loaded) (cs : List Clause) :
    cs.foldlM (take sort) (f, info) =
      match takeFrom info.header.literals sort f.reverse info.tautologies cs with
      | .error fault => .error (.clause fault)
      | .ok (g, t) => .ok (g, ⟨info.header, info.read + cs.length, t⟩) := by
  induction cs generalizing f info with
  | nil =>
    rw [takeFrom, List.reverse_reverse]
    rfl
  | cons c cs ih =>
    rw [List.foldlM_cons, take, takeFrom, List.length_cons, Nat.add_comm cs.length,
      ← Nat.add_assoc]
    cases c.fault? info.header.literals with
    | some fault => rfl
    | none =>
      cases c.normalize sort with
      | tautology d => exact ih f info.countTautology
      | clause d =>
        have hd := ih (f ++ [d]) info.countStored
        rw [List.reverse_append] at hd
        exact hd

theorem on_loadInPlace {σ : Type} [Storage] [ClauseSource σ] (s : CopyingSolver) (source : σ) :
    ∃ rest, loadInPlace.on (s, source) =
      orKeep (s, rest) ((s.load source).map fun (info, t) ↦ (info, t, rest)) := by
  unfold loadInPlace load
  rw [on_bind, on_read, ClauseSource.readHeader]
  cases ClauseSource.header source with
  | mk header rest =>
  cases header with
  | error fault => exact ⟨rest, rfl⟩
  | ok header =>
    dsimp only
    rw [on_bind]
    cases Formula.storageFault? header.clauses with
    | some fault => exact ⟨rest, rfl⟩
    | none =>
      refine ⟨(ClauseSource.takeEach (take s.config.sortClauses.value)
        ([], ⟨header, 0, 0⟩) rest).2, ?_⟩
      dsimp only [Option.map_none, fail?, on_pure]
      rw [on_bind, on_get]
      dsimp only
      rw [on_bind, on_read, ClauseSource.takeEach_eq, foldlM_take]
      dsimp only [List.reverse_nil]
      cases takeFrom header.literals s.config.sortClauses.value [] 0 (ClauseSource.rest rest).1 with
      | error fault => rfl
      | ok r =>
        dsimp only
        cases (ClauseSource.rest rest).2.1 with
        | some fault => rfl
        | none =>
          dsimp only
          rw [Nat.zero_add]
          rfl

end CopyingSolver

namespace TrailSolver

theorem foldlM_take (p : Problem Pcg) (info : Loaded) (cs : List Clause) :
    cs.foldlM take (p, info) =
      (addAll p info.tautologies cs).map
        fun (q, t) ↦ (q, ⟨info.header, info.read + cs.length, t⟩) := by
  induction cs generalizing p info with
  | nil => rfl
  | cons c cs ih =>
    rw [List.foldlM_cons, take, addAll, List.length_cons, Nat.add_comm cs.length, ← Nat.add_assoc]
    cases p.add c with
    | error fault => rfl
    | ok r =>
      obtain ⟨_ | _, q⟩ := r
      · exact ih q info.countStored
      · exact ih q info.countTautology

theorem on_loadInPlace {σ : Type} [Storage] [ClauseSource σ] (s : TrailSolver) (source : σ) :
    ∃ rest, loadInPlace.on (s, source) =
      orKeep (s, rest) ((s.load source).map fun (info, t) ↦ (info, t, rest)) := by
  unfold loadInPlace load
  rw [on_bind, on_read, ClauseSource.readHeader]
  cases ClauseSource.header source with
  | mk header rest =>
  cases header with
  | error fault => exact ⟨rest, rfl⟩
  | ok header =>
    dsimp only
    rw [on_bind, on_get]
    dsimp only
    rw [on_bind]
    cases Formula.storageFault? header.clauses with
    | some fault => exact ⟨rest, rfl⟩
    | none =>
      refine ⟨(ClauseSource.takeEach take
        (.seeded header.literals s.config, ⟨header, 0, 0⟩) rest).2, ?_⟩
      dsimp only [Option.map_none, fail?, on_pure]
      rw [on_bind, on_read, ClauseSource.takeEach_eq, foldlM_take]
      cases addAll (.seeded header.literals s.config) 0 (ClauseSource.rest rest).1 with
      | error fault => rfl
      | ok r =>
        dsimp only [Except.map]
        cases (ClauseSource.rest rest).2.1 with
        | some fault => rfl
        | none =>
          dsimp only
          rw [Nat.zero_add]
          rfl

end TrailSolver

/-- A fault leaves what was to be changed just as it was, be it a problem in any state, or a solver of
either kind which was to take the formula of a source. -/
theorem faults_change_nothing {ρ σ : Type} [Storage] [ClauseSource σ] (p : Problem ρ)
    (s : CopyingSolver) (t : TrailSolver) (source : σ) :
    p.FailsCleanly ∧
      (∃ rest, CopyingSolver.loadInPlace.on (s, source) =
        orKeep (s, rest) ((s.load source).map fun (info, s') ↦ (info, s', rest))) ∧
      ∃ rest, TrailSolver.loadInPlace.on (t, source) =
        orKeep (t, rest) ((t.load source).map fun (info, t') ↦ (info, t', rest)) :=
  ⟨p.failsCleanly, s.on_loadInPlace source, t.on_loadInPlace source⟩

end Dpll
