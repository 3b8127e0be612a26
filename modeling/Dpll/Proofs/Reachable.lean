import Dpll.Proofs.Solve

namespace Dpll

inductive Operation
  | add (c : Clause)
  | assign (a : Atom) (b decision : Bool)
  | rollback
  | isSatisfied
  | hasConflict
  | unitLiteral
  | pureLiterals
  | chooseDecision
  | propagate
  | assertPure
  | simplify
  | iterate (m : Monitor)
  | recurse (m : Monitor)
  | solve (m : Monitor)

inductive Answer
  | fault (f : Fault)
  | done
  | addition (a : Addition)
  | truth (b : Bool)
  | literal (l : Option Literal)
  | literals (ls : List Literal)
  | count (n : Nat)
  | verdict (v : Verdict) (m : Monitor)

namespace Problem

variable {ρ : Type} {p q r : Problem ρ}

/-- The answer made of a result. On a fault a problem stays as it is. -/
def settle {ε α : Type} (p : Problem ρ) (fault : ε → Fault) (answer : α → Answer × Problem ρ) :
    Except ε α → Answer × Problem ρ
  | .error e => (.fault (fault e), p)
  | .ok a => answer a

/-- What comes of a problem when nothing is undone that was there before. -/
structure Advances (p q : Problem ρ) : Prop where
  coherent : q.Coherent
  keeps : p.Keeps q
  before : p.trail.Before q.trail
  paced : p.Paced q

theorem Coherent.advances (h : p.Coherent) : p.Advances p :=
  ⟨h, .refl p, (Trail.Grows.refl _).before, .refl p⟩

theorem Continues.advances (h : p.Continues q) : p.Advances q :=
  ⟨h.coherent, h.keeps, h.grows.before, h.paced⟩

structure Leaves (p q : Problem ρ) : Prop where
  coherent : q.Coherent
  caching : q.store.cache.isSome = p.store.cache.isSome

theorem Leaves.trans (h : p.Leaves q) (h' : q.Leaves r) : p.Leaves r :=
  ⟨h'.coherent, h'.caching.trans h.caching⟩

/-- The ways in which an operation changes a problem. Whichever it is, a fault changes nothing. -/
inductive Changed (p : Problem ρ) : Operation → Problem ρ → Prop
  | advanced {o : Operation} {q : Problem ρ} (ho : ∀ m, o ≠ .solve m) (h : p.Advances q) :
    Changed p o q
  | stored {c d : Clause} (hp : p.phase = .input) (hf : c.fault? p.atomCount = none)
    (hd : c.normalize p.config.sortClauses.value = .clause d) :
    Changed p (.add c) (p.storeNormal d)
  | undone {q : Problem ρ} (h : p.rollback = .ok q) : Changed p .rollback q
  | solved {m : Monitor} {v : Verdict} {s : Search ρ} (hx : Search.Explored ⟨p, m⟩ v s)
    (hs : s.problem.phase = .ofVerdict v) : Changed p (.solve m) s.problem

theorem Coherent.changed_settle {o : Operation} {ε α : Type} {fault : ε → Fault}
    {answer : α → Answer × Problem ρ} {r : Except ε α} (hp : p.Coherent)
    (ho : ∀ m, o ≠ .solve m) (h : ∀ a, r = .ok a → p.Changed o (answer a).2) :
    p.Changed o (p.settle fault answer r).2 := by
  cases r with
  | error e => exact .advanced ho hp.advances
  | ok a => exact h a rfl

theorem changed_settle_of_ok {o : Operation} {ε α : Type} {fault : ε → Fault}
    {answer : α → Answer × Problem ρ} {r : Except ε α} {a : α} (h : r = .ok a)
    (ha : p.Changed o (answer a).2) : p.Changed o (p.settle fault answer r).2 := by
  rw [h]
  exact ha

theorem Changed.of_examined {o : Operation} (hp : p.Coherent) (ho : ∀ m, o ≠ .solve m)
    (h : p.Examined q) : p.Changed o q :=
  .advanced ho (h.continues hp).advances

theorem Changed.leaves {o : Operation} (h : p.Changed o q) (hp : p.Coherent) : p.Leaves q := by
  cases h with
  | advanced _ h => exact ⟨h.coherent, h.keeps.caching⟩
  | stored _ hf hd =>
    exact ⟨hp.storeNormal (Clause.normal_of_normalize hf hd), Option.isSome_map⟩
  | undone h => exact ⟨hp.rollback h, (keeps_rollback h).caching⟩
  | solved hx => exact ⟨hx.coherent, hx.keeps.caching⟩

theorem Changed.keeps_or_stored {o : Operation} (h : p.Changed o q) :
    p.Keeps q ∨ ∃ c d, o = .add c ∧ c.fault? p.atomCount = none ∧
      c.normalize p.config.sortClauses.value = .clause d ∧ q = p.storeNormal d := by
  cases h with
  | advanced _ h => exact .inl h.keeps
  | stored _ hf hd => exact .inr ⟨_, _, rfl, hf, hd, rfl⟩
  | undone h => exact .inl (keeps_rollback h)
  | solved hx => exact .inl hx.keeps

theorem Changed.onward {o : Operation} (h : p.Changed o q) (ho : ∀ m, o ≠ .solve m) :
    p.phase.Onward q.phase := by
  cases h with
  | advanced _ h => exact h.paced.phase
  | stored => exact .refl _
  | undone h =>
    obtain ⟨undone, trail, -, rfl⟩ := rollback_eq_ok h
    exact .refl _
  | @solved m => exact absurd rfl (ho m)

theorem Changed.phase_ne_input {o : Operation} (h : p.Changed o q) (hi : p.phase ≠ .input) :
    q.phase ≠ .input := by
  by_cases ho : ∃ m, o = .solve m
  · obtain ⟨m, rfl⟩ := ho
    cases h with
    | advanced ho => exact absurd rfl (ho m)
    | solved hx hs => exact hs ▸ Phase.ofVerdict_ne_input _
  · exact (h.onward (not_exists.1 ho)).ne_input hi

theorem Changed.clauses {o : Operation} (h : p.Changed o q) (hq : q.phase ≠ .input) :
    q.store.clauses = p.store.clauses := by
  cases h with
  | advanced _ h => exact h.keeps.clauses
  | stored hi => exact absurd hi hq
  | undone h => exact (keeps_rollback h).clauses
  | solved hx => exact hx.keeps.clauses

variable [Chooser ρ]

def perform (p : Problem ρ) : Operation → Answer × Problem ρ
  | .add c => p.settle id (fun r ↦ (.addition r.1, r.2)) (p.add c)
  | .assign a b decision => p.settle .problem (fun q ↦ (.done, q)) (p.assign a b decision)
  | .rollback => p.settle .problem (fun q ↦ (.done, q)) p.rollback
  | .isSatisfied => (.truth p.isSatisfied.1, p.isSatisfied.2)
  | .hasConflict => (.truth p.hasConflict.1, p.hasConflict.2)
  | .unitLiteral => (.literal p.unitLiteral.1, p.unitLiteral.2)
  | .pureLiterals => (.literals p.pureLiterals.1, p.pureLiterals.2)
  | .chooseDecision => p.settle .problem (fun r ↦ (.literal (some r.1), r.2)) p.chooseDecision
  | .propagate => p.settle .problem (fun r ↦ (.count r.1, r.2)) p.propagate
  | .assertPure => p.settle .problem (fun r ↦ (.count r.1, r.2)) p.assertPure
  | .simplify => p.settle .problem (fun q ↦ (.done, q)) p.simplify
  | .iterate m =>
    p.settle .problem (fun r ↦ (.verdict r.1 r.2.monitor, r.2.problem)) (Search.iterate ⟨p, m⟩)
  | .recurse m =>
    p.settle .problem (fun r ↦ (.verdict r.1 r.2.monitor, r.2.problem)) (Search.recurse ⟨p, m⟩)
  | .solve m =>
    p.settle .problem (fun r ↦ (.verdict r.1 r.2.monitor, r.2.problem)) (Search.solve ⟨p, m⟩)

def performAll (p : Problem ρ) : List Operation → List Answer × Problem ρ
  | [] => ([], p)
  | o :: os =>
    let (answer, q) := p.perform o
    let (answers, r) := q.performAll os
    (answer :: answers, r)

theorem performAll_cons (p : Problem ρ) (o : Operation) (os : List Operation) :
    p.performAll (o :: os) =
      ((p.perform o).1 :: ((p.perform o).2.performAll os).1,
        ((p.perform o).2.performAll os).2) := rfl

theorem performAll_append (p : Problem ρ) (os₁ os₂ : List Operation) :
    (p.performAll (os₁ ++ os₂)).2 = ((p.performAll os₁).2.performAll os₂).2 := by
  induction os₁ generalizing p with
  | nil => rfl
  | cons o os₁ ih => exact ih (p.perform o).2

theorem Coherent.advances_of_explores {m : Monitor} {depth : Nat} {ms : List (Search.Move ρ)}
    {v : Verdict} {s : Search ρ} (hp : p.Coherent) (h : Search.Explores depth ⟨p, m⟩ ms v s) :
    p.Advances s.problem := by
  have hx := h.explored hp
  exact ⟨hx.coherent, hx.keeps, hx.before, h.onward hp, fun hi ↦ (h.idle hp hi).1⟩

theorem Coherent.changed_perform (h : p.Coherent) (o : Operation) :
    p.Changed o (p.perform o).2 := by
  cases o with
  | add c =>
    refine h.changed_settle nofun fun r hr ↦ ?_
    obtain ⟨hp, hf, ⟨d, -, -, hq⟩ | ⟨d, hd, -, hq⟩⟩ := add_eq_ok (a := r.1) hr
    · rw [hq]
      exact .advanced nofun h.advances
    · rw [hq]
      exact .stored hp hf hd
  | assign a b decision =>
    refine h.changed_settle nofun fun q hq ↦ ?_
    obtain ⟨hf, rfl⟩ := assign_eq_ok hq
    exact .advanced nofun
      ⟨h.put hf decision, keeps_put p _ _, Trail.before_put _ _ _, paced_put p _ _⟩
  | rollback => exact h.changed_settle nofun fun q hq ↦ .undone hq
  | isSatisfied => exact .of_examined h nofun (isSatisfied_spec h).2
  | hasConflict => exact .of_examined h nofun (hasConflict_spec h).2
  | unitLiteral => exact .of_examined h nofun (unitLiteral_spec h).2
  | pureLiterals => exact .of_examined h nofun (pureLiterals_spec h).2
  | chooseDecision =>
    refine h.changed_settle nofun fun r hr ↦ ?_
    have hc := h.chooseDecision hr
    obtain ⟨source, hq⟩ := exists_source_of_chooseDecision hr
    rw [hq] at hc ⊢
    exact .advanced nofun ⟨hc, ⟨rfl, rfl, rfl, rfl, rfl⟩, (Trail.Grows.refl _).before,
      .refl _, fun _ ↦ rfl⟩
  | propagate =>
    obtain ⟨n, q, hq, hc, -⟩ := propagate_spec h
    exact changed_settle_of_ok hq (.advanced nofun hc.advances)
  | assertPure =>
    obtain ⟨n, q, hq, hc, -⟩ := assertPure_spec h
    exact changed_settle_of_ok hq (.advanced nofun hc.advances)
  | simplify =>
    obtain ⟨q, hq, hc, -⟩ := simplify_spec h
    exact changed_settle_of_ok hq (.advanced nofun hc.advances)
  | iterate m =>
    obtain ⟨ms, v, s, hx⟩ := Search.exists_explores (s := ⟨p, m⟩) h (Nat.lt_succ_self _)
    exact changed_settle_of_ok hx.iterate_and_recurse.1
      (.advanced nofun (h.advances_of_explores hx))
  | recurse m =>
    obtain ⟨ms, v, s, hx⟩ := Search.exists_explores (s := ⟨p, m⟩) h (Nat.lt_succ_self _)
    exact changed_settle_of_ok hx.iterate_and_recurse.2
      (.advanced nofun (h.advances_of_explores hx))
  | solve m =>
    obtain ⟨v, s, hs, hx, -⟩ := Search.solve_spec (s := ⟨p, m⟩) h
    exact changed_settle_of_ok hs (.solved hx (Search.phase_of_solve (s := ⟨p, m⟩) h hs))

theorem Coherent.leaves_perform (h : p.Coherent) (o : Operation) : p.Leaves (p.perform o).2 :=
  (h.changed_perform o).leaves h

theorem Coherent.perform (h : p.Coherent) (o : Operation) : (p.perform o).2.Coherent :=
  (h.leaves_perform o).coherent

theorem Coherent.fixed_performAll (hp : p.Coherent) (hi : p.phase ≠ .input) (os : List Operation) :
    (p.performAll os).2.phase ≠ .input ∧ (p.performAll os).2.store.clauses = p.store.clauses := by
  induction os generalizing p with
  | nil => exact ⟨hi, rfl⟩
  | cons o os ih =>
    have hc := hp.changed_perform o
    have hi' := hc.phase_ne_input hi
    obtain ⟨hphase, hclauses⟩ := ih (hp.perform o) hi'
    exact ⟨hphase, hclauses.trans (hc.clauses hi')⟩

theorem Coherent.leaves_performAll (h : p.Coherent) (os : List Operation) :
    p.Leaves (p.performAll os).2 := by
  induction os generalizing p with
  | nil => exact ⟨h, rfl⟩
  | cons o os ih => exact (h.leaves_perform o).trans (ih (h.perform o))

theorem coherent_performAll (n : Nat) (config : Config) (source : ρ) (os : List Operation) :
    ((empty n config source).performAll os).2.Coherent :=
  ((coherent_empty n config source).leaves_performAll os).coherent

end Problem

/-- From whatever state a problem has reached, both forms of search make the same moves from the same
states, and end with the same verdict in the same state. Neither meets a fault, and neither is cut
off by the number of calls, or of decisions under one another, that it is allowed. -/
theorem Search.forms_agree {ρ : Type} [Chooser ρ] (n : Nat) (config : Config) (source : ρ)
    (os : List Operation) (m : Monitor) :
    let s : Search ρ := ⟨((Problem.empty n config source).performAll os).2, m⟩
    ∃ ms v s', s.iterate = .ok (v, s') ∧ s.recurse = .ok (v, s') ∧
      (∀ calls, callBound (s.problem.unvalued + 1) ≤ calls →
        iterateLogged calls [] s = ⟨ms, .ok (v, s')⟩ ∧ iterateFrom calls [] s = .ok (v, s')) ∧
      (∀ depth, s.problem.unvalued + 1 ≤ depth →
        recurseLogged depth s = ⟨ms, .ok (v, s')⟩ ∧ recurseTo depth s = .ok (v, s')) := by
  intro s
  have hs : s.problem.Coherent := Problem.coherent_performAll n config source os
  obtain ⟨ms, v, s', h⟩ := exists_explores hs (Nat.lt_succ_self _)
  obtain ⟨hi, hr⟩ := h.iterate_and_recurse
  refine ⟨ms, v, s', hi, hr, ?_, ?_⟩
  · intro calls hc
    have hl := h.iterateLogged_of_le hc
    exact ⟨hl, by rw [← result_iterateLogged, hl]⟩
  · intro depth hd
    have hl := (h.mono hd).recurseLogged
    exact ⟨hl, by rw [← result_recurseLogged, hl]⟩

end Dpll
