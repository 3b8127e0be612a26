import Dpll.Proofs.Calls
import Dpll.Proofs.Loading
import Dpll.Proofs.Reachable
import Dpll.Random.Choice

namespace Dpll

def Formula.tally (f : Formula) (l : Literal) : Nat := f.countP fun c ↦ l ∈ c

def Formula.most (f : Formula) (a : Atom) : Nat :=
  max (f.tally (.ofAtom a true)) (f.tally (.ofAtom a false))

theorem Formula.tally_concat (f : Formula) (c : Clause) (l : Literal) :
    Formula.tally (f ++ [c]) l = f.tally l + if l ∈ c then 1 else 0 := by
  simp [tally]

theorem Literal.eq_ofAtom_iff {l : Literal} (hl : l ≠ 0) {a : Atom} {b : Bool} :
    l = .ofAtom a b ↔ l.atom = a ∧ l.positive = b := by
  constructor
  · rintro rfl
    have ha := Literal.atom_ne_zero hl
    rw [Literal.atom_ofAtom] at ha
    exact ⟨Literal.atom_ofAtom a b, Literal.positive_ofAtom ha b⟩
  · rintro ⟨rfl, rfl⟩
    exact (Literal.ofAtom_atom_positive l).symm

namespace AtomTable

variable {t : AtomTable} {c : Clause} {a : Atom} {l : Literal}

theorem size_note (t : AtomTable) (l : Literal) :
    (t.note l).occurrences.size = t.occurrences.size := Array.size_modify

theorem occurrencesOf_note (hl : l.atom < t.occurrences.size) (a : Atom) :
    (t.note l).occurrencesOf a =
      if l.atom = a then (t.occurrencesOf a).note l.positive else t.occurrencesOf a := by
  simp only [occurrencesOf, note, Array.getD_eq_getD_getElem?, Array.getElem?_modify]
  split
  next h =>
    subst h
    simp [hl]
  next => rfl

theorem size_noteAll (t : AtomTable) (c : Clause) :
    (t.noteAll c).occurrences.size = t.occurrences.size := by
  induction c generalizing t with
  | nil => rfl
  | cons l c ih => exact (ih (t.note l)).trans (size_note t l)

theorem occurrencesOf_noteAll (hc : ∀ l ∈ c, l ≠ 0 ∧ l.atom < t.occurrences.size) (a : Atom) :
    (t.noteAll c).occurrencesOf a =
      ⟨(t.occurrencesOf a).positive + c.count (.ofAtom a true),
        (t.occurrencesOf a).negative + c.count (.ofAtom a false)⟩ := by
  induction c generalizing t with
  | nil => rfl
  | cons l c ih =>
    obtain ⟨⟨hz, hl⟩, hc⟩ := List.forall_mem_cons.1 hc
    rw [← size_note t l] at hc
    have hn : t.noteAll (l :: c) = (t.note l).noteAll c := rfl
    rw [hn, ih hc, occurrencesOf_note hl]
    simp only [List.count_cons, beq_iff_eq, Literal.eq_ofAtom_iff hz]
    by_cases ha : l.atom = a
    · cases l.positive with
      | true => simp [ha, Occurrences.note, Nat.add_assoc, Nat.add_comm 1]
      | false => simp [ha, Occurrences.note, Nat.add_assoc, Nat.add_comm 1]
    · simp [ha]

end AtomTable

namespace Valuation

variable {v : Valuation}

theorem pairwise_unvalued (v : Valuation) : v.unvalued.Pairwise (· < ·) := by
  rw [unvalued, Atom.collect_eq_filterMap, List.pairwise_filterMap]
  refine List.pairwise_lt_range.imp ?_
  intro a b hab x hx y hy
  split at hx
  next =>
    split at hy
    next =>
      cases hx
      cases hy
      exact hab
    next => cases hy
  next => cases hx

end Valuation

/-- The scan ends with the first of the atoms which occur the most. -/
theorem AtomTable.greediest_spec (t : AtomTable) {a : Atom} {as : List Atom}
    (hs : (a :: as).Pairwise (· < ·)) :
    ∃ b ∈ a :: as, t.greediest (some (.ofAtom a (t.occurrencesOf a).leaning))
        (t.occurrencesOf a).most as = some (.ofAtom b (t.occurrencesOf b).leaning) ∧
      ∀ x ∈ a :: as, (t.occurrencesOf x).most ≤ (t.occurrencesOf b).most ∧
        ((t.occurrencesOf x).most = (t.occurrencesOf b).most → b ≤ x) := by
  induction as generalizing a with
  | nil =>
    refine ⟨a, .head _, rfl, ?_⟩
    intro x hx
    obtain rfl := List.mem_singleton.1 hx
    exact ⟨Nat.le_refl _, fun _ ↦ Nat.le_refl _⟩
  | cons x as ih =>
    obtain ⟨ha, hxs⟩ := List.pairwise_cons.1 hs
    have hax := ha x (.head _)
    by_cases hlt : (t.occurrencesOf a).most < (t.occurrencesOf x).most
    · obtain ⟨b, hb, hg, hmax⟩ := ih hxs
      refine ⟨b, .tail _ hb, ?_, ?_⟩
      · rw [greediest, if_pos (by simp [hlt])]
        exact hg
      · -- the atom given up occurs less than one which comes after it
        intro y hy
        rcases List.mem_cons.1 hy with rfl | hy
        · have hle := (hmax x (.head _)).1
          exact ⟨by omega, fun he ↦ by omega⟩
        · exact hmax y hy
    · have has : (a :: as).Pairwise (· < ·) :=
        hs.sublist ((List.sublist_cons_self x as).cons_cons a)
      obtain ⟨b, hb, hg, hmax⟩ := ih has
      refine ⟨b, (List.sublist_cons_self x as).cons_cons a |>.subset hb, ?_, ?_⟩
      · rw [greediest, if_neg (by simp [Nat.le_of_not_lt hlt])]
        exact hg
      · intro y hy
        obtain ⟨hle, hba⟩ := hmax a (.head _)
        rcases List.mem_cons.1 hy with rfl | hy
        · exact ⟨hle, hba⟩
        · rcases List.mem_cons.1 hy with rfl | hy
          · -- if it occurs as often as what is chosen, so does `a`, which is before it
            refine ⟨by omega, fun he ↦ ?_⟩
            have hba := hba (by omega)
            exact Nat.le_of_lt (Nat.lt_of_le_of_lt hba hax)
          · exact hmax y (.tail _ hy)

namespace Problem

variable {ρ : Type} {p q : Problem ρ} {l : Literal} {a : Atom}

/-- The counts kept of each atom are those of the clauses which have its literals. -/
structure Tallied (p : Problem ρ) : Prop where
  size : p.atoms.occurrences.size = p.valuation.size
  occurrences : ∀ a, p.atoms.occurrencesOf a =
    ⟨p.formula.tally (.ofAtom a true), p.formula.tally (.ofAtom a false)⟩

theorem tallied_empty (n : Nat) (config : Config) (source : ρ) :
    (empty n config source).Tallied where
  size := by
    rw [show (empty n config source).valuation = .blank n from rfl, Valuation.size_blank]
    exact Array.size_replicate
  occurrences a := by
    have hf : (empty n config source).formula = [] := rfl
    have ho : (empty n config source).atoms.occurrencesOf a = {} := by
      simp only [empty, AtomTable.blank, AtomTable.occurrencesOf, Array.getD_eq_getD_getElem?,
        Array.getElem?_replicate]
      split <;> rfl
    rw [ho, hf]
    rfl

theorem Keeps.tallied (h : p.Keeps q) (hp : p.Tallied) : q.Tallied where
  size := by rw [h.occurrences, h.size, hp.size]
  occurrences a := by
    rw [AtomTable.occurrencesOf, h.occurrences, h.formula]
    exact hp.occurrences a

theorem Tallied.storeNormal {c : Clause} (h : p.Tallied) (hc : c.Normal p.atomCount) :
    (p.storeNormal c).Tallied := by
  have hatoms : (p.storeNormal c).atoms = p.atoms.noteAll c := rfl
  have hlt : ∀ l ∈ c, l ≠ 0 ∧ l.atom < p.atoms.occurrences.size := by
    intro l hl
    have hz := Literal.atom_ne_zero (hc.ne_zero l hl)
    have hcon : p.valuation.contains l.atom :=
      Valuation.contains_iff_le_atomCount.2 ⟨hz, hc.atom_le l hl⟩
    rw [h.size]
    exact ⟨hc.ne_zero l hl, (Valuation.contains_iff.1 hcon).2⟩
  constructor
  case size =>
    rw [hatoms, AtomTable.size_noteAll, valuation_storeNormal, h.size]
  case occurrences =>
    intro a
    have hn := hc.nodup.of_map
    rw [hatoms, AtomTable.occurrencesOf_noteAll hlt, h.occurrences, formula_storeNormal,
      Formula.tally_concat, Formula.tally_concat, hn.count, hn.count]

theorem Changed.tallied {o : Operation} (h : p.Changed o q) (hp : p.Tallied) : q.Tallied := by
  rcases h.keeps_or_stored with h | ⟨c, d, -, hf, hd, rfl⟩
  · exact h.tallied hp
  · exact hp.storeNormal (Clause.normal_of_normalize hf hd)

section Choice

def Unassigned (p : Problem ρ) (a : Atom) : Prop :=
  1 ≤ a ∧ a ≤ p.atomCount ∧ p.valuation.value a = none

instance (p : Problem ρ) (a : Atom) : Decidable (p.Unassigned a) :=
  inferInstanceAs (Decidable (1 ≤ a ∧ a ≤ p.atomCount ∧ p.valuation.value a = none))

/-- What the heuristic of the configuration looks for in a literal to decide on: the least atom, any
atom, or the least of those which occur the most. The polarity is positive, or that which occurs the
most. -/
def Favours (p : Problem ρ) (l : Literal) : Prop :=
  match p.config.heuristic.value with
  | .first => l.positive ∧ ∀ a, p.Unassigned a → l.atom ≤ a
  | .random => l.positive
  | .greedy =>
    (∀ a, p.Unassigned a → p.formula.most a ≤ p.formula.most l.atom ∧
      (p.formula.most a = p.formula.most l.atom → l.atom ≤ a)) ∧
    (l.positive ↔ p.formula.tally (.ofAtom l.atom false) ≤ p.formula.tally (.ofAtom l.atom true))

theorem Coherent.mem_unvalued_iff (h : p.Coherent) : a ∈ p.valuation.unvalued ↔ p.Unassigned a := by
  constructor
  · intro ha
    have hf := (h.free_of_mem_unvalued ha true).1
    rw [Literal.atom_ofAtom, Valuation.contains_iff_le_atomCount] at hf
    exact ⟨Nat.pos_of_ne_zero hf.1, hf.2, (Valuation.mem_unvalued.1 ha).2⟩
  · rintro ⟨hpos, hle, hv⟩
    have hcon : p.valuation.contains a :=
      Valuation.contains_iff_le_atomCount.2 ⟨Nat.ne_of_gt hpos, hle⟩
    exact Valuation.mem_unvalued.2 ⟨(Valuation.contains_iff.1 hcon).2, hv⟩

theorem Coherent.exists_unvalued (h : p.Coherent) (ha : p.Unassigned a) :
    ∃ b bs, p.valuation.unvalued = b :: bs ∧ p.Unassigned b ∧ ∀ x, p.Unassigned x → b ≤ x := by
  obtain ⟨b, bs, hu⟩ := List.exists_cons_of_ne_nil (List.ne_nil_of_mem (h.mem_unvalued_iff.2 ha))
  refine ⟨b, bs, hu, h.mem_unvalued_iff.1 (hu ▸ .head _), ?_⟩
  intro x hx
  have hp := p.valuation.pairwise_unvalued
  have hx := h.mem_unvalued_iff.2 hx
  rw [hu] at hp hx
  rcases List.mem_cons.1 hx with rfl | hx
  · exact Nat.le_refl _
  · exact Nat.le_of_lt ((List.pairwise_cons.1 hp).1 x hx)

theorem Tallied.most (h : p.Tallied) (a : Atom) :
    (p.atoms.occurrencesOf a).most = p.formula.most a := by
  rw [h.occurrences]
  rfl

theorem Unassigned.positive_ofAtom (h : p.Unassigned a) (b : Bool) :
    (Literal.ofAtom a b).positive = b := Literal.positive_ofAtom (Nat.ne_of_gt h.1) b

theorem Tallied.favours_greedy (h : p.Tallied) (hh : p.config.heuristic.value = .greedy)
    (ha : p.Unassigned a)
    (hmax : ∀ x, p.Unassigned x → (p.atoms.occurrencesOf x).most ≤ (p.atoms.occurrencesOf a).most ∧
      ((p.atoms.occurrencesOf x).most = (p.atoms.occurrencesOf a).most → a ≤ x)) :
    p.Favours (.ofAtom a (p.atoms.occurrencesOf a).leaning) := by
  rw [Favours, hh]
  dsimp only
  rw [ha.positive_ofAtom, Literal.atom_ofAtom]
  constructor
  · intro x hx
    rw [← h.most, ← h.most]
    exact hmax x hx
  · rw [h.occurrences]
    exact decide_eq_true_iff

variable [Chooser ρ]

/-- How a decision is chosen among the atoms without values, with nothing changed but the source of
random choices. -/
structure Selects (p : Problem ρ) : Prop where
  occurrences : ∀ a, p.atoms.occurrencesOf a =
    ⟨p.formula.tally (.ofAtom a true), p.formula.tally (.ofAtom a false)⟩
  exhausted : p.chooseDecision = .error .noUnassignedAtom ↔
    ∀ a, 1 ≤ a → a ≤ p.atomCount → p.valuation.value a ≠ none
  chosen : ∀ a, p.Unassigned a → ∃ l source, p.chooseDecision = .ok (l, { p with source }) ∧
    l ≠ 0 ∧ p.Unassigned l.atom ∧ p.Favours l ∧
    (p.config.heuristic.value ≠ .random → source = p.source)

theorem Coherent.chosen_first (h : p.Coherent) (hh : p.config.heuristic.value = .first)
    (ha : p.Unassigned a) :
    ∃ b, p.chooseDecision = .ok (.ofAtom b true, p) ∧ p.Unassigned b ∧ p.Favours (.ofAtom b true) := by
  obtain ⟨b, bs, hu, hb, hleast⟩ := h.exists_unvalued ha
  refine ⟨b, chooseDecision_of_first hh (by rw [hu, List.head?_cons]), hb, ?_⟩
  rw [Favours, hh]
  dsimp only
  rw [hb.positive_ofAtom, Literal.atom_ofAtom]
  exact ⟨rfl, hleast⟩

theorem Coherent.chosen_random (h : p.Coherent) (hh : p.config.heuristic.value = .random)
    (ha : p.Unassigned a) :
    ∃ b source, p.chooseDecision = .ok (.ofAtom b true, { p with source }) ∧ p.Unassigned b ∧
      p.Favours (.ofAtom b true) := by
  have hu := List.ne_nil_of_mem (h.mem_unvalued_iff.2 ha)
  obtain ⟨b, hb, hc⟩ := Chooser.exists_of_choose hu p.source
  have hb := h.mem_unvalued_iff.1 hb
  refine ⟨b, (Chooser.choose p.valuation.unvalued p.source).2, ?_, hb, ?_⟩
  · rw [Problem.chooseDecision, hh]
    simp only [hc, Option.map_some]
  · rw [Favours, hh]
    exact hb.positive_ofAtom true

theorem Coherent.chosen_greedy (h : p.Coherent) (ht : p.Tallied)
    (hh : p.config.heuristic.value = .greedy) (ha : p.Unassigned a) :
    ∃ b positive, p.chooseDecision = .ok (.ofAtom b positive, p) ∧ p.Unassigned b ∧
      p.Favours (.ofAtom b positive) := by
  obtain ⟨b, bs, hu, hb, -⟩ := h.exists_unvalued ha
  have hp := p.valuation.pairwise_unvalued
  rw [hu] at hp
  obtain ⟨c, hc, hg, hmax⟩ := p.atoms.greediest_spec hp
  have hc := h.mem_unvalued_iff.1 (hu ▸ hc)
  refine ⟨c, (p.atoms.occurrencesOf c).leaning, ?_, hc, ?_⟩
  · rw [Problem.chooseDecision, hh]
    have hg' : p.atoms.greediest none 0 (b :: bs) = _ := hg
    simp only [hu, hg']
  · apply ht.favours_greedy hh hc
    intro x hx
    exact hmax x (hu ▸ h.mem_unvalued_iff.2 hx)

theorem Coherent.chosen (h : p.Coherent) (ht : p.Tallied) (ha : p.Unassigned a) :
    ∃ l source, p.chooseDecision = .ok (l, { p with source }) ∧ l ≠ 0 ∧ p.Unassigned l.atom ∧
      p.Favours l ∧ (p.config.heuristic.value ≠ .random → source = p.source) := by
  have hliteral {b : Atom} (hb : p.Unassigned b) (positive : Bool) :
      Literal.ofAtom b positive ≠ 0 ∧ p.Unassigned (Literal.ofAtom b positive).atom :=
    ⟨Literal.ofAtom_ne_zero (Nat.ne_of_gt hb.1) positive, by rwa [Literal.atom_ofAtom]⟩
  cases hh : p.config.heuristic.value with
  | first =>
    obtain ⟨b, hc, hb, hf⟩ := h.chosen_first hh ha
    obtain ⟨hz, hb⟩ := hliteral hb true
    exact ⟨_, p.source, hc, hz, hb, hf, fun _ ↦ rfl⟩
  | random =>
    obtain ⟨b, source, hc, hb, hf⟩ := h.chosen_random hh ha
    obtain ⟨hz, hb⟩ := hliteral hb true
    exact ⟨_, source, hc, hz, hb, hf, fun hn ↦ absurd rfl hn⟩
  | greedy =>
    obtain ⟨b, positive, hc, hb, hf⟩ := h.chosen_greedy ht hh ha
    obtain ⟨hz, hb⟩ := hliteral hb positive
    exact ⟨_, p.source, hc, hz, hb, hf, fun _ ↦ rfl⟩

theorem chooseDecision_of_nil (h : p.valuation.unvalued = []) :
    p.chooseDecision = .error .noUnassignedAtom := by
  rw [Problem.chooseDecision]
  cases p.config.heuristic.value with
  | first => simp [h]
  | random => simp [h, Chooser.choose_nil]
  | greedy => simp [h, AtomTable.greediest]

theorem Coherent.selects (h : p.Coherent) (ht : p.Tallied) : p.Selects where
  occurrences := ht.occurrences
  exhausted := by
    constructor
    · intro he a hpos hle hv
      obtain ⟨l, source, hc, -⟩ := h.chosen ht ⟨hpos, hle, hv⟩
      cases he.symm.trans hc
    · intro hv
      apply chooseDecision_of_nil
      rw [List.eq_nil_iff_forall_not_mem]
      intro a ha
      obtain ⟨hpos, hle, hn⟩ := h.mem_unvalued_iff.1 ha
      exact hv a hpos hle hn
  chosen a ha := h.chosen ht ha

end Choice

theorem unassigned_of_free (hl : p.valuation.Free l) : p.Unassigned l.atom := by
  obtain ⟨hz, hle⟩ := Valuation.contains_iff_le_atomCount.1 hl.1
  exact ⟨Nat.pos_of_ne_zero hz, hle, hl.2⟩

/-- The problem is one to make a decision on, after simplification and once the formula was found to
be neither satisfied nor in conflict. -/
def Asks (p q : Problem ρ) : Prop :=
  ∃ r, p.simplify = .ok r ∧ r.isSatisfied.1 = false ∧ r.isSatisfied.2.hasConflict.1 = false ∧
    q = r.isSatisfied.2.hasConflict.2

theorem Coherent.of_asks (h : p.Coherent) (hq : p.Asks q) :
    q.Coherent ∧ p.Keeps q ∧ ∃ a, q.Unassigned a := by
  obtain ⟨r, hr, hsat, hcon, rfl⟩ := hq
  obtain ⟨_, hr', hs⟩ := exists_simplified h
  cases hr.symm.trans hr'
  obtain ⟨hi, he⟩ := isSatisfied_spec hs.coherent
  have hs := hs.examined he
  obtain ⟨hj, he'⟩ := hasConflict_spec hs.coherent
  have hs := hs.examined he'
  rw [hsat, ← he.formula, ← he.valuation, ← he'.formula, ← he'.valuation] at hi
  rw [hcon, ← he'.formula, ← he'.valuation] at hj
  obtain ⟨l, hl⟩ := hs.coherent.exists_free (of_decide_eq_false hi.symm) (of_decide_eq_false hj.symm)
  exact ⟨hs.coherent, hs.keeps, l.atom, unassigned_of_free hl⟩

variable [Chooser ρ]

theorem Coherent.tallied_performAll (h : p.Coherent) (ht : p.Tallied) (os : List Operation) :
    (p.performAll os).2.Tallied := by
  induction os generalizing p with
  | nil => exact ht
  | cons o os ih => exact ih (h.perform o) ((h.changed_perform o).tallied ht)

end Problem

namespace Search

variable {ρ : Type} [Chooser ρ] {s s' t : Search ρ} {v : Verdict}

/-- Whenever a call of the search is to decide, there is an atom to decide on, and the heuristic chooses
one as in any other state. -/
theorem Explores.selects {depth : Nat} {ms : List (Move ρ)} {q : Problem ρ}
    (h : Explores depth s ms v s') (hs : s.problem.Coherent) (hst : s.problem.Tallied)
    (ht : t ∈ callsOf ms) (hq : t.problem.Asks q) : q.Selects ∧ ∃ a, q.Unassigned a := by
  obtain ⟨hc, hk, -⟩ := h.of_mem_callsOf hs ht
  obtain ⟨hcq, hkq, ha⟩ := hc.of_asks hq
  exact ⟨hcq.selects (hkq.tallied (hk.tallied hst)), ha⟩

/-- In whatever state a problem is, the counts kept are those of its formula, and what is chosen to
decide on is what the heuristic looks for, unless every atom has a value. In either form of the search,
begun in whatever phase, there is an atom without a value whenever a decision is asked for. -/
theorem selects_performAll (n : Nat) (config : Config) (source : ρ) (os : List Operation) :
    let p := ((Problem.empty n config source).performAll os).2
    p.Selects ∧ ∀ (m : Monitor) (phase : Phase),
      let s := inPhase ⟨p, m⟩ phase
      ∀ moves ∈ [(iterateLogged (callBound (s.problem.unvalued + 1)) [] s).moves,
          (recurseLogged (s.problem.unvalued + 1) s).moves],
        ∀ t ∈ callsOf moves, ∀ q, t.problem.Asks q → q.Selects ∧ ∃ a, q.Unassigned a := by
  intro p
  have hp : p.Coherent := Problem.coherent_performAll n config source os
  have ht : p.Tallied := (Problem.coherent_empty n config source).tallied_performAll
    (Problem.tallied_empty n config source) os
  refine ⟨hp.selects ht, ?_⟩
  intro m phase s moves hmoves t htm q hq
  have hs : s.problem.Coherent := ⟨hp.records, hp.normal, hp.store⟩
  have hst : s.problem.Tallied := ⟨ht.size, ht.occurrences⟩
  obtain ⟨ms, v, s', h⟩ := exists_explores hs (Nat.lt_succ_self _)
  rw [h.iterateLogged_of_le (Nat.le_refl _), h.recurseLogged] at hmoves
  obtain rfl : moves = ms := by simpa using hmoves
  exact h.selects hs hst htm hq

theorem selects_performAll_two :
    let p := ((Problem.empty 2 { heuristic := ⟨"heuristic", .random, .greedy, .greedy⟩ }
      (⟨[]⟩ : Script)).performAll
        [.add [1, 2, 2], .add [-1, -2], .add [-2, 1], .add [2, -1], .add [2, -2]]).2
    let s : Search Script := inPhase ⟨p, .ofConfig {} fun _ ↦ 0⟩ .solving
    p.atoms.occurrencesOf 2 = ⟨2, 2⟩ ∧
      (∃ l source, p.chooseDecision = .ok (l, { p with source }) ∧ p.Favours l) ∧
      ∃ q, s.problem.Asks q ∧ ∃ a, q.Unassigned a := by
  intro p s
  obtain ⟨hp, hsearch⟩ := selects_performAll 2
    { heuristic := ⟨"heuristic", .random, .greedy, .greedy⟩ } (⟨[]⟩ : Script)
    [.add [1, 2, 2], .add [-1, -2], .add [-2, 1], .add [2, -1], .add [2, -2]]
  have hs : s.problem.Coherent := by
    obtain ⟨hr, hn, hst⟩ := Problem.coherent_performAll 2
      { heuristic := ⟨"heuristic", .random, .greedy, .greedy⟩ } (⟨[]⟩ : Script)
      [.add [1, 2, 2], .add [-1, -2], .add [-2, 1], .add [2, -1], .add [2, -2]]
    exact ⟨hr, hn, hst⟩
  refine ⟨(hp.occurrences 2).trans (by decide +kernel), ?_, ?_⟩
  · obtain ⟨l, source, hc, -, -, hf, -⟩ := hp.chosen 1 (by decide +kernel)
    exact ⟨l, source, hc, hf⟩
  · obtain ⟨r, hr, -⟩ := Problem.exists_simplified hs
    have hopen : s.problem.simplify.toOption.map
        (fun r ↦ (r.isSatisfied.1, r.isSatisfied.2.hasConflict.1)) = some (false, false) := by
      decide +kernel
    rw [hr] at hopen
    obtain ⟨hsat, hcon⟩ := Prod.mk.inj (Option.some.inj hopen)
    have hq : s.problem.Asks r.isSatisfied.2.hasConflict.2 := ⟨r, hr, hsat, hcon, rfl⟩
    obtain ⟨ms, v, s', h⟩ := exists_explores hs (Nat.lt_succ_self _)
    have hm : s ∈ callsOf ms := by cases h <;> exact .head _
    have hmoves := hsearch (.ofConfig {} fun _ ↦ 0) .solving _ (.head _) s
      (by rw [h.iterateLogged_of_le (Nat.le_refl _)]; exact hm) _ hq
    exact ⟨_, hq, hmoves.2⟩

end Search

end Dpll
