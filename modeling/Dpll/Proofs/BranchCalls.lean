import Dpll.Proofs.Calls
import Dpll.Proofs.CopyingSolver
import Dpll.Proofs.Reduction
import Mathlib.Algebra.Group.Nat.Defs
import Mathlib.Data.Finset.Card
import Mathlib.Data.Finset.Dedup

namespace Dpll

/-- The most calls that a search makes to which so many atoms are left. Just a single call is made
unless two or more are left. -/
def mostCalls (u : Nat) : Nat := max 1 (2 ^ u - 1)

theorem mostCalls_pos (u : Nat) : 1 ≤ mostCalls u := Nat.le_max_left _ _

theorem mostCalls_mono {u w : Nat} (h : u ≤ w) : mostCalls u ≤ mostCalls w := by
  have hp : 2 ^ u ≤ 2 ^ w := Nat.pow_le_pow_right (by omega) h
  unfold mostCalls
  omega

theorem mostCalls_add {t u w : Nat} (hw : 2 ≤ w) (ht : t < w) (hu : u < w) :
    mostCalls t + mostCalls u + 1 ≤ mostCalls w := by
  have h₁ : 2 ^ (t + 1) ≤ 2 ^ w := Nat.pow_le_pow_right (by omega) ht
  have h₂ : 2 ^ (u + 1) ≤ 2 ^ w := Nat.pow_le_pow_right (by omega) hu
  have h₃ : 2 ^ 2 ≤ 2 ^ w := Nat.pow_le_pow_right (by omega) hw
  rw [Nat.pow_succ] at h₁ h₂
  unfold mostCalls
  omega

namespace Formula

variable {f g e : Formula} {c : Clause} {l : Literal} {ls : List Literal} {a : Atom}

def atoms (f : Formula) : Finset Atom := (f.flatten.map Literal.atom).toFinset

theorem mem_atoms_iff : a ∈ f.atoms ↔ ∃ c ∈ f, ∃ l ∈ c, l.atom = a := by
  simp [atoms]

/-- Each clause is what is left of some clause of another formula. -/
def Trims (f g : Formula) : Prop := ∀ c ∈ f, ∃ d ∈ g, c.Sublist d

theorem Trims.refl (f : Formula) : f.Trims f := fun c hc ↦ ⟨c, hc, List.Sublist.refl c⟩

theorem Trims.trans (h : f.Trims g) (h' : g.Trims e) : f.Trims e := by
  intro c hc
  obtain ⟨d, hd, hcd⟩ := h c hc
  obtain ⟨b, hb, hdb⟩ := h' d hd
  exact ⟨b, hb, hcd.trans hdb⟩

theorem Trims.atoms_subset (h : f.Trims g) : f.atoms ⊆ g.atoms := by
  intro a ha
  obtain ⟨c, hc, l, hl, hla⟩ := mem_atoms_iff.1 ha
  obtain ⟨d, hd, hcd⟩ := h c hc
  exact mem_atoms_iff.2 ⟨d, hd, l, hcd.subset hl, hla⟩

def Distinct (f : Formula) : Prop := ∀ c ∈ f, (c.map Literal.atom).Nodup

theorem Trims.distinct (h : f.Trims g) (hg : g.Distinct) : f.Distinct := by
  intro c hc
  obtain ⟨d, hd, hcd⟩ := h c hc
  exact (hg d hd).sublist (hcd.map Literal.atom)

theorem trims_reduce (f : Formula) (l : Literal) : (f.reduce l).Trims f := by
  intro c hc
  obtain ⟨d, hd, -, rfl⟩ := mem_reduce_iff.1 hc
  exact ⟨d, hd, List.filter_sublist⟩

theorem trims_reduceAll (f : Formula) (ls : List Literal) : (f.reduceAll ls).Trims f := by
  induction ls generalizing f with
  | nil => exact .refl f
  | cons l ls ih => exact (ih (f.reduce l)).trans (trims_reduce f l)

theorem card_atoms_reduce (h : l.atom ∈ f.atoms) : (f.reduce l).atoms.card < f.atoms.card := by
  apply Finset.card_lt_card
  refine ⟨(trims_reduce f l).atoms_subset, fun hsub ↦ ?_⟩
  obtain ⟨c, hc, m, hm, ha⟩ := mem_atoms_iff.1 (hsub h)
  exact (mem_of_mem_reduce hc hm).2 ha

end Formula

namespace Branch

variable {n : Nat} {f : Formula} {b b' : Branch} {l : Literal} {ls : List Literal}

theorem formula_assertAll (h : b.assertAll ls = .ok b') : b'.formula = b.formula.reduceAll ls := by
  induction ls generalizing b with
  | nil =>
    cases h
    rfl
  | cons l ls ih =>
    unfold assertAll at h
    split at h
    next => cases h
    next b₁ h₁ =>
      rw [ih h, formula_assert h₁]
      rfl

theorem Visits.trims (h : b.Visits b') : b'.formula.Trims b.formula := by
  induction h with
  | start => exact .refl _
  | next h hn ha ih =>
    rw [formula_assertAll ha]
    exact (Formula.trims_reduceAll _ _).trans ih

/-- If there is a literal to decide on, the clause it is of has another, as it is not a unit clause. -/
theorem Settled.two_le_atoms (h : b.Settled) (hf : b.formula.Distinct)
    (hl : b.firstLiteral? = some l) : l.atom ∈ b.formula.atoms ∧ 2 ≤ b.formula.atoms.card := by
  obtain ⟨c, hc, hm⟩ := Option.bind_eq_some_iff.1 hl
  have hc := List.mem_of_mem_head? hc
  have hmem {m : Literal} (hm : m ∈ c) : m.atom ∈ b.formula.atoms :=
    Formula.mem_atoms_iff.2 ⟨c, hc, m, hm, rfl⟩
  have hnodup := hf c hc
  have hsingle := List.findSome?_eq_none_iff.1 h.unit c hc
  match c, hm with
  | [m], _ => cases hsingle
  | m :: k :: c, hm =>
    cases hm
    have hne : l.atom ≠ k.atom := by
      intro ha
      simp [ha] at hnodup
    exact ⟨hmem (.head _), Finset.one_lt_card.2
      ⟨_, hmem (.head _), _, hmem (.tail _ (.head _)), hne⟩⟩

theorem LeftOf.decision (h : b.LeftOf n f) (hf : b.formula.Distinct)
    (hs : b.simplify = .ok (some b')) (hl : b'.firstLiteral? = some l) :
    2 ≤ b.formula.atoms.card ∧ ∀ positive, (b'.put (.ofAtom l.atom positive)).LeftOf n f ∧
      (b'.put (.ofAtom l.atom positive)).formula.Distinct ∧
      (b'.put (.ofAtom l.atom positive)).formula.atoms.card < b.formula.atoms.card := by
  obtain ⟨hleft, hd, -⟩ := h.of_simplify_some hs
  have htrims := (Visits.start.simplify h hs).trims
  have hle := Finset.card_le_card htrims.atoms_subset
  have hf' := htrims.distinct hf
  obtain ⟨hmem, htwo⟩ := hd.two_le_atoms hf' hl
  refine ⟨by omega, fun positive ↦ ⟨hleft.put (hleft.free_of_firstLiteral? hl positive),
    (Formula.trims_reduce _ _).distinct hf', ?_⟩⟩
  have hlt := Formula.card_atoms_reduce (l := .ofAtom l.atom positive)
    (by rwa [Literal.atom_ofAtom])
  exact Nat.lt_of_lt_of_le hlt hle

/-- The search of a branch has no more calls than there may be with the atoms left to it. -/
theorem Searched.calls_le {m m' : Monitor} {o : Outcome} (hx : b.Searched m o m')
    (h : b.LeftOf n f) (hf : b.formula.Distinct) :
    m'.counters.calls ≤ m.counters.calls + mostCalls b.formula.atoms.card := by
  induction hx with
  | @ended b m m₁ hm | @conflict b m m₁ hm | @found b _ m m₁ hm =>
    have hc := (Monitor.later_of_call hm).calls
    have hp := mostCalls_pos b.formula.atoms.card
    omega
  | kept hm hs hl h₁ ho ih =>
    have hc := (Monitor.later_of_call hm).calls
    obtain ⟨htwo, hnext⟩ := h.decision hf hs hl
    obtain ⟨hleft, hdistinct, hlt⟩ := hnext true
    have hsum := mostCalls_add htwo hlt hlt
    have hcalls := ih hleft hdistinct
    simp only [Monitor.countDecision] at hcalls
    omega
  | turned hm hs hl h₁ h₂ ho ih₁ ih₂ | refuted hm hs hl h₁ h₂ ih₁ ih₂ =>
    have hc := (Monitor.later_of_call hm).calls
    obtain ⟨htwo, hnext⟩ := h.decision hf hs hl
    obtain ⟨hleft, hdistinct, hlt⟩ := hnext true
    obtain ⟨hleft', hdistinct', hlt'⟩ := hnext false
    have hsum := mostCalls_add htwo hlt hlt'
    have hcalls := ih₁ hleft hdistinct
    have hcalls' := ih₂ hleft' hdistinct'
    simp only [Monitor.countDecision, Monitor.countBacktrack] at hcalls hcalls' ⊢
    omega

end Branch

namespace CopyingSolver

variable {s₀ s : CopyingSolver} {info : Loaded}

theorem distinct_of_load {σ : Type} [Storage] [ClauseSource σ] {source : σ}
    (h : s₀.load source = .ok (info, s)) : s.formula.Distinct := by
  obtain ⟨-, hn, -⟩ := formula_of_source h
  exact fun c hc ↦ (hn c hc).nodup

theorem atoms_subset_of_load {σ : Type} [Storage] [ClauseSource σ] {source : σ}
    (h : s₀.load source = .ok (info, s)) :
    s.formula.atoms ⊆ Formula.atoms (ClauseSource.clauses source) := by
  obtain ⟨f, hr, rfl⟩ := load_eq_ok h
  obtain ⟨-, -, hcs, -, -, rfl⟩ := ClauseSource.reading_eq_ok hr
  intro a ha
  obtain ⟨d, hd, l, hl, rfl⟩ := Formula.mem_atoms_iff.1 ha
  obtain ⟨c, hc, hn⟩ := Formula.exists_of_mem_normals hd
  exact Formula.mem_atoms_iff.2 ⟨c, hc, l, (Clause.mem_normalize hn l).1 hl, rfl⟩

theorem calls_of_solve {σ : Type} [Storage] [ClauseSource σ] {source : σ}
    (h : s₀.load source = .ok (info, s)) (m : Monitor) :
    ∃ r m', { s with monitor := m }.solve = .ok (r, { s with monitor := m' }) ∧
      m'.counters.calls ≤ mostCalls s.formula.atoms.card := by
  obtain ⟨-, hn, -⟩ := formula_of_source h
  have hleft := leftOf_root hn
  obtain ⟨o, m', hs, hx⟩ := hleft.search m.start
  have hc := hx.calls_le hleft (distinct_of_load h)
  have hs : Branch.search ⟨s.formula, .blank s.literals⟩ m.start = .ok (o, m') := hs
  refine ⟨respond o, m', by rw [solve, hs], ?_⟩
  simpa [Monitor.start, root] using hc

end CopyingSolver

end Dpll
