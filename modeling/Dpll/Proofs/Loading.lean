import Dpll.Proofs.ClauseSource
import Dpll.Proofs.Coherence
import Dpll.Verdict

namespace Dpll

theorem exists_of_map_eq_ok {ε α β : Type} {x : Except ε α} {g : α → β} {b : β}
    (h : x.map g = .ok b) : ∃ a, x = .ok a ∧ g a = b := by
  cases x with
  | error e => cases h
  | ok a => exact ⟨a, rfl, Except.ok.inj h⟩

/-- A response which tells whether some model makes true a formula over the atoms `1` to `n`, and
gives the values of the atoms in such a model if there is one. -/
structure Response.Decides (n : Nat) (f : Formula) (r : Response) : Prop where
  known : r.verdict ≠ .unknown
  satisfied_iff : r.verdict = .satisfied ↔ f.Satisfiable
  assignment_eq_none : r.verdict = .unsatisfied → r.assignment = none
  model : r.verdict = .satisfied → ∃ bs, r.assignment = some bs ∧ bs.length = n + 1 ∧
    bs[0]? = some false ∧ f.Holds (Model.ofList bs)

theorem Response.Decides.congr {n : Nat} {f g : Formula} {r : Response} (h : r.Decides n f)
    (hM : ∀ M, f.Holds M ↔ g.Holds M) : r.Decides n g where
  known := h.known
  satisfied_iff := h.satisfied_iff.trans (exists_congr hM)
  assignment_eq_none := h.assignment_eq_none
  model hr := by
    obtain ⟨bs, hbs, hlen, hzero, hf⟩ := h.model hr
    exact ⟨bs, hbs, hlen, hzero, (hM _).1 hf⟩

namespace Problem

variable {ρ : Type} {p q : Problem ρ} {c : Clause} {a : Addition} {M : Model}

def storeAll (p : Problem ρ) (f : Formula) : Problem ρ := f.foldl storeNormal p

theorem phase_seeded (n : Nat) (config : Config) : (seeded n config).phase = .input := rfl

theorem config_seeded (n : Nat) (config : Config) : (seeded n config).config = config := rfl

theorem atomCount_seeded (n : Nat) (config : Config) : (seeded n config).atomCount = n := by
  simp [seeded, empty, atomCount, AtomTable.count, AtomTable.blank, Valuation.atomCount]

theorem formula_storeNormal (p : Problem ρ) (c : Clause) :
    (p.storeNormal c).formula = p.formula ++ [c] := by
  obtain ⟨config, phase, atoms, store, trail, source⟩ := p
  simp [storeNormal, formula, ClauseStore.push, ClauseStore.formula]

theorem valuation_storeNormal (p : Problem ρ) (c : Clause) :
    (p.storeNormal c).valuation = p.valuation := by
  obtain ⟨config, phase, atoms, store, trail, source⟩ := p
  exact AtomTable.valuation_noteAll atoms c

theorem formula_storeAll (p : Problem ρ) (f : Formula) :
    (p.storeAll f).formula = p.formula ++ f := by
  induction f generalizing p with
  | nil => exact (List.append_nil _).symm
  | cons c f ih =>
    refine (ih (p.storeNormal c)).trans ?_
    rw [formula_storeNormal, List.append_assoc, List.singleton_append]

theorem valuation_storeAll (p : Problem ρ) (f : Formula) :
    (p.storeAll f).valuation = p.valuation := by
  induction f generalizing p with
  | nil => rfl
  | cons c f ih => exact (ih (p.storeNormal c)).trans (valuation_storeNormal p c)

theorem Coherent.storeAll (h : p.Coherent) {f : Formula} (hf : ∀ c ∈ f, c.Normal p.atomCount) :
    (p.storeAll f).Coherent := by
  induction f generalizing p with
  | nil => exact h
  | cons c f ih =>
    obtain ⟨hc, hf⟩ := List.forall_mem_cons.1 hf
    have hn : (p.storeNormal c).atomCount = p.atomCount :=
      congrArg Valuation.atomCount (valuation_storeNormal p c)
    exact ih (h.storeNormal hc) (hn ▸ hf)

theorem keeps_of_add (h : p.add c = .ok (a, q)) :
    q.config = p.config ∧ q.phase = p.phase ∧ q.trail = p.trail ∧ q.valuation = p.valuation := by
  obtain ⟨-, -, ⟨d, -, -, rfl⟩ | ⟨d, -, -, rfl⟩⟩ := add_eq_ok h
  · exact ⟨rfl, rfl, rfl, rfl⟩
  · exact ⟨rfl, rfl, rfl, valuation_storeNormal p d⟩

theorem add_of_input (c : Clause) (hp : p.phase = .input) :
    p.add c =
      match c.fault? p.atomCount, c.normal? p.config.sortClauses.value with
      | some fault, _ => .error (.clause fault)
      | none, none => .ok (.tautology, p)
      | none, some d => .ok (.stored, p.storeNormal d) := by
  rw [add, if_neg (not_not.2 hp), Clause.normal?]
  cases c.fault? p.atomCount with
  | some fault => rfl
  | none => cases c.normalize p.config.sortClauses.value <;> rfl

end Problem

end Dpll
