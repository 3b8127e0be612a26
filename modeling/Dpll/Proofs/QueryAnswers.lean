import Dpll.Problem.Flags
import Dpll.Proofs.Fixpoint
import Dpll.Proofs.Mirroring

namespace Dpll

namespace Clause

variable {v : Valuation} {c : Clause} {l : Literal} {n : Nat}

/-- The literal has no value, and every other literal of the clause is false. -/
structure Hinges (v : Valuation) (c : Clause) (l : Literal) : Prop where
  mem : l ∈ c
  unvalued : v.truth l = none
  others : ∀ m ∈ c, m ≠ l → v.truth m = some false

theorem Normal.status_eq_unit_iff (h : c.Normal n) : c.status v = .unit l ↔ c.Hinges v l := by
  constructor
  · intro hs
    obtain ⟨hm, ht⟩ := truth_of_unit hs
    obtain ⟨hn, hu⟩ := Clause.status_eq_unit_iff.1 hs
    refine ⟨hm, ht, fun m hmc hne ↦ ?_⟩
    cases hv : v.truth m with
    | none =>
      have hmem := mem_unvalued.2 ⟨hmc, hv⟩
      rw [hu, List.mem_singleton] at hmem
      exact absurd hmem hne
    | some b =>
      cases b
      · rfl
      · exact absurd hv (hn m hmc)
  · intro hl
    exact status_eq_unit_of_nodup (h.nodup.of_map _) hl.mem hl.unvalued hl.others

end Clause

def Sighting.noteAll (seen : Array Sighting) (ls : List Literal) : Array Sighting :=
  ls.foldl (fun seen l ↦ seen.modify l.atom (·.note l.positive)) seen

namespace Sighting

variable {v : Valuation} {seen : Array Sighting} {ls ms : List Literal}

@[simp] theorem size_noteAll (seen : Array Sighting) (ls : List Literal) :
    (noteAll seen ls).size = seen.size := by
  induction ls generalizing seen with
  | nil => rfl
  | cons l ls ih => exact (ih _).trans Array.size_modify

theorem noteAll_append (seen : Array Sighting) (ls ms : List Literal) :
    noteAll seen (ls ++ ms) = noteAll (noteAll seen ls) ms :=
  List.foldl_append

theorem noteFree_eq (h : ∀ l ∈ ls, l.atom < seen.size) :
    noteFree v seen ls = some (noteAll seen (ls.filter fun l ↦ (v.value l.atom).isNone)) := by
  induction ls generalizing seen with
  | nil => rfl
  | cons l ls ih =>
    obtain ⟨hl, hls⟩ := List.forall_mem_cons.1 h
    unfold noteFree
    by_cases hv : (v.value l.atom).isNone
    · rw [if_pos hv, if_pos hl, List.filter_cons_of_pos (by exact hv)]
      exact ih fun m hm ↦ by simpa using hls m hm
    · rw [if_neg hv, List.filter_cons_of_neg (by exact hv)]
      exact ih hls

theorem size_table (n : Nat) (ls : List Literal) : (table n ls).size = n + 1 :=
  (size_noteAll _ ls).trans Array.size_replicate

end Sighting

def Formula.free (v : Valuation) (f : Formula) : List Literal :=
  f.flatten.filter fun l ↦ (v.value l.atom).isNone

theorem Formula.free_reverse_cons (v : Valuation) (c : Clause) (found : Formula) :
    free v (c :: found).reverse =
      free v found.reverse ++ c.filter fun l ↦ (v.value l.atom).isNone := by
  simp [free]

namespace ClauseStore

variable {s s' : ClauseStore} {v : Valuation} {time i : Nat} {seen : Array Sighting} {c : Clause}
  {status : Clause.Status}

theorem mem_of_examine (h : s.examine v time i = (some (c, status), s')) : c ∈ s.formula := by
  unfold examine at h
  split at h
  next => cases h
  next =>
    split at h
    next => cases h
    next d hd =>
      have hm := mem_formula hd
      split at h
      next => cases h; exact hm
      next => cases h; exact hm

theorem noteFrom_eq (is : List Nat) (found : List Clause)
    (h : ∀ c ∈ s.formula, ∀ l ∈ c, l.atom < seen.size) :
    s.noteFrom v time (Sighting.noteAll seen (Formula.free v found.reverse)) is =
      some (Sighting.noteAll seen (Formula.free v (unsettledFrom v time found s is).1.reverse),
        (unsettledFrom v time found s is).2) := by
  -- The clauses found so far are carried along, so that what the flags hold of them is known.
  induction is generalizing s found with
  | nil => rfl
  | cons i is ih =>
    have hs' : ∀ c ∈ (s.examine v time i).2.formula, ∀ l ∈ c, l.atom < seen.size := by
      rwa [formula, clauses_examine]
    rcases he : s.examine v time i with ⟨_ | ⟨c, status⟩, s'⟩
    · rw [noteFrom, unsettledFrom, he]
      rw [he] at hs'
      exact ih found hs'
    · rw [he] at hs'
      have hc : ∀ l ∈ c, l.atom < (Sighting.noteAll seen (Formula.free v found.reverse)).size := by
        simpa using h c (mem_of_examine he)
      rw [noteFrom, unsettledFrom, he]
      cases status with
      | satisfied => exact ih found hs'
      | conflict | unit | pending =>
        dsimp only
        rw [Sighting.noteFree_eq hc]
        dsimp only
        rw [← Sighting.noteAll_append, ← Formula.free_reverse_cons]
        exact ih (c :: found) hs'

theorem noteFrom_range (v : Valuation) (time : Nat) {n : Nat}
    (h : ∀ c ∈ s.formula, ∀ l ∈ c, l.atom ≤ n) :
    s.noteFrom v time (.replicate (n + 1) {}) (List.range s.count) =
      some (Sighting.table n (Formula.free v (s.unsettled v time).1), (s.unsettled v time).2) := by
  have hroom : ∀ c ∈ s.formula, ∀ l ∈ c,
      l.atom < (Array.replicate (n + 1) ({} : Sighting)).size := by
    intro c hc l hl
    rw [Array.size_replicate]
    exact Nat.lt_succ_of_le (h c hc l hl)
  exact noteFrom_eq _ [] hroom

end ClauseStore

/-- The literal occurs in a clause of which no literal is true. -/
def Formula.Exposes (v : Valuation) (f : Formula) (l : Literal) : Prop :=
  ∃ c ∈ f, l ∈ c ∧ ∀ m ∈ c, v.truth m ≠ some true

inductive Query
  | isSatisfied
  | hasConflict
  | unitLiteral
  | pureLiterals

def Query.operation : Query → Operation
  | isSatisfied => .isSatisfied
  | hasConflict => .hasConflict
  | unitLiteral => .unitLiteral
  | pureLiterals => .pureLiterals

namespace Problem

variable {ρ : Type} {p q : Problem ρ} {l : Literal} {n : Nat}

theorem isSatisfied_iff (h : p.Coherent) :
    p.isSatisfied.1 ↔ ∀ c ∈ p.formula, ∃ l ∈ c, p.valuation.truth l = some true := by
  simp only [(isSatisfied_spec h).1, decide_eq_true_eq, Clause.status_eq_satisfied_iff]

theorem hasConflict_iff (h : p.Coherent) :
    p.hasConflict.1 ↔ ∃ c ∈ p.formula, ∀ l ∈ c, p.valuation.truth l = some false := by
  simp only [(hasConflict_spec h).1, decide_eq_true_eq, Clause.status_eq_conflict_iff]

theorem not_isSatisfied_and_hasConflict (h : p.Coherent) :
    ¬ (p.isSatisfied.1 ∧ p.hasConflict.1) := by
  rw [isSatisfied_iff h, hasConflict_iff h]
  rintro ⟨hs, c, hc, hf⟩
  obtain ⟨l, hl, ht⟩ := hs c hc
  rw [hf l hl] at ht
  cases ht

theorem hinges_iff (h : p.Coherent) {c : Clause} (hc : c ∈ p.formula) :
    (c.status p.valuation).literal? = some l ↔ c.Hinges p.valuation l := by
  rw [Clause.Status.literal?_eq_some_iff, (h.normal c hc).status_eq_unit_iff]

theorem not_hinges_iff (h : p.Coherent) {c : Clause} (hc : c ∈ p.formula) :
    (c.status p.valuation).literal? = none ↔ ∀ l, ¬ c.Hinges p.valuation l := by
  rw [Option.eq_none_iff_forall_ne_some]
  exact forall_congr' fun l ↦ not_congr (hinges_iff h hc)

theorem unitLiteral_eq_some_iff (h : p.Coherent) :
    p.unitLiteral.1 = some l ↔ ∃ before c after, p.formula = before ++ c :: after ∧
      c.Hinges p.valuation l ∧ ∀ d ∈ before, ∀ m, ¬ d.Hinges p.valuation m := by
  rw [(unitLiteral_spec h).1, List.findSome?_eq_some_iff]
  refine exists_congr fun before ↦ exists_congr fun c ↦ exists_congr fun after ↦ ?_
  refine and_congr_right fun hf ↦ and_congr ?_ ?_
  · exact hinges_iff h (by rw [hf]; exact List.mem_append_right _ (.head _))
  · exact forall₂_congr fun d hd ↦ not_hinges_iff h (by rw [hf]; exact List.mem_append_left _ hd)

theorem unitLiteral_eq_none_iff_forall (h : p.Coherent) :
    p.unitLiteral.1 = none ↔ ∀ c ∈ p.formula, ∀ l, ¬ c.Hinges p.valuation l := by
  rw [(unitLiteral_spec h).1, List.findSome?_eq_none_iff]
  exact forall₂_congr fun c hc ↦ not_hinges_iff h hc

theorem mem_loose_iff_exposes :
    l ∈ p.loose ↔ p.valuation.value l.atom = none ∧ p.formula.Exposes p.valuation l := by
  rw [mem_loose_iff]
  constructor
  · rintro ⟨c, hc, hs, hl, ht⟩
    exact ⟨Valuation.truth_eq_none_iff.1 ht, c, hc, hl, Clause.not_true_of_status_ne hs⟩
  · rintro ⟨hv, c, hc, hl, hn⟩
    refine ⟨c, hc, fun hs ↦ ?_, hl, Valuation.truth_eq_none_iff.2 hv⟩
    obtain ⟨m, hm, ht⟩ := Clause.status_eq_satisfied_iff.1 hs
    exact hn m hm ht

theorem mem_pureLiterals_iff_exposes (h : p.Coherent) :
    l ∈ p.pureLiterals.1 ↔ p.valuation.value l.atom = none ∧
      p.formula.Exposes p.valuation l ∧ ¬ p.formula.Exposes p.valuation l.negate := by
  rw [mem_pureLiterals_iff h, mem_loose_iff_exposes, mem_loose_iff_exposes, Literal.atom_negate]
  tauto

/-- What the flags hold does not matter to a scan for pure literals, as they are wiped. If there is one
for each atom, each literal has a place, and there are as many after the scan. -/
theorem pureLiteralsBy_eq (h : p.Coherent) {flags : Array Sighting}
    (hf : flags.size = p.atomCount + 1) :
    ∃ flags' : Array Sighting, flags'.size = p.atomCount + 1 ∧
      p.pureLiteralsBy flags = some (p.pureLiterals.1, p.pureLiterals.2, flags') := by
  have hwiped : (flags.map fun _ ↦ ({} : Sighting)) = .replicate (p.atomCount + 1) {} := by
    rw [Array.map_const', hf]
  have hnote := ClauseStore.noteFrom_range p.valuation p.latest
    (fun c hc ↦ (h.normal c hc).atom_le)
  refine ⟨Sighting.table p.atomCount
      (Formula.free p.valuation (p.store.unsettled p.valuation p.latest).1),
    Sighting.size_table .., ?_⟩
  unfold pureLiteralsBy
  rw [hwiped, hnote]
  dsimp only
  rw [Sighting.size_table]
  rfl

variable [Chooser ρ]

theorem Coherent.examined_query (h : p.Coherent) (o : Query) :
    p.Examined (p.perform o.operation).2 := by
  cases o with
  | isSatisfied => exact (isSatisfied_spec h).2
  | hasConflict => exact (hasConflict_spec h).2
  | unitLiteral => exact (unitLiteral_spec h).2
  | pureLiterals => exact (pureLiterals_spec h).2

theorem Examined.answer (h : p.Examined q) (hp : p.Coherent) (o : Query) :
    (q.perform o.operation).1 = (p.perform o.operation).1 := by
  cases o with
  | isSatisfied => exact congrArg Answer.truth (h.isSatisfied hp)
  | hasConflict => exact congrArg Answer.truth (h.hasConflict hp)
  | unitLiteral => exact congrArg Answer.literal (h.unitLiteral hp)
  | pureLiterals => exact congrArg Answer.literals (h.pureLiterals hp)

theorem Coherent.queries (h : p.Coherent) (os : List Query) :
    (p.performAll (os.map Query.operation)).1 = os.map (fun o ↦ (p.perform o.operation).1) ∧
      p.Examined (p.performAll (os.map Query.operation)).2 := by
  -- The induction is on the queries left, with the problem examined by those before.
  suffices ∀ q, p.Examined q →
      (q.performAll (os.map Query.operation)).1 = os.map (fun o ↦ (p.perform o.operation).1) ∧
        p.Examined (q.performAll (os.map Query.operation)).2 from this p h.examined
  induction os with
  | nil =>
    intro q hq
    exact ⟨rfl, hq⟩
  | cons o os ih =>
    intro q hq
    have hqo := hq.trans ((hq.coherent h).examined_query o)
    obtain ⟨hanswers, hafter⟩ := ih _ hqo
    rw [List.map_cons, List.map_cons, performAll_cons, hanswers, hq.answer h o]
    exact ⟨rfl, hafter⟩

/-- In whatever state a problem is, a query answers what holds of the clauses and the valuation. Queries
change nothing but what is recorded of satisfied clauses, and neither this nor what a scan has left in
the flags has an effect on an answer. -/
theorem queries_exact (n : Nat) (config : Config) (source : ρ) (os : List Operation) :
    let p := ((empty n config source).performAll os).2
    let v := p.valuation
    (p.isSatisfied.1 ↔ ∀ c ∈ p.formula, ∃ l ∈ c, v.truth l = some true) ∧
    (p.hasConflict.1 ↔ ∃ c ∈ p.formula, ∀ l ∈ c, v.truth l = some false) ∧
    ¬ (p.isSatisfied.1 ∧ p.hasConflict.1) ∧
    (∀ l, p.unitLiteral.1 = some l ↔ ∃ before c after, p.formula = before ++ c :: after ∧
      c.Hinges v l ∧ ∀ d ∈ before, ∀ m, ¬ d.Hinges v m) ∧
    (p.unitLiteral.1 = none ↔ ∀ c ∈ p.formula, ∀ l, ¬ c.Hinges v l) ∧
    p.pureLiterals.1.Pairwise (fun l m ↦ l.atom < m.atom) ∧
    (∀ l, l ∈ p.pureLiterals.1 ↔
      v.value l.atom = none ∧ p.formula.Exposes v l ∧ ¬ p.formula.Exposes v l.negate) ∧
    (∀ queries : List Query,
      let asked := p.performAll (queries.map Query.operation)
      asked.1 = queries.map (fun o ↦ (p.perform o.operation).1) ∧
        ∃ store, store.clauses = p.store.clauses ∧ asked.2 = { p with store }) ∧
    ∀ flags : Vector Sighting (n + 1), ∃ flags' : Vector Sighting (n + 1),
      p.pureLiteralsBy flags.toArray =
        some (p.pureLiterals.1, p.pureLiterals.2, flags'.toArray) := by
  intro p v
  have h : p.Coherent := coherent_performAll n config source os
  have hcount : p.atomCount = n := atomCount_performAll n config source os
  refine ⟨isSatisfied_iff h, hasConflict_iff h, not_isSatisfied_and_hasConflict h,
    fun l ↦ unitLiteral_eq_some_iff h, unitLiteral_eq_none_iff_forall h, ?_,
    fun l ↦ mem_pureLiterals_iff_exposes h, ?_, ?_⟩
  · rw [(pureLiterals_spec h).1]
    exact pairwise_pureLiterals _ _
  · intro queries
    obtain ⟨hanswers, store, hs, hafter⟩ := h.queries queries
    exact ⟨hanswers, store, hs.clauses, hafter⟩
  · intro flags
    obtain ⟨flags', hsize, hby⟩ := pureLiteralsBy_eq h (flags.size_toArray.trans (by rw [hcount]))
    exact ⟨⟨flags', by rw [hsize, hcount]⟩, hby⟩

end Problem

end Dpll
