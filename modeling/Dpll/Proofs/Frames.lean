import Dpll.Proofs.SearchForms

namespace Dpll

namespace Problem

variable {ρ : Type} {p q r : Problem ρ} {l : Literal}

theorem Simplified.unvalued_le (h : p.Simplified q) (hp : p.Coherent) : q.unvalued ≤ p.unvalued :=
  hp.unvalued_le h.coherent h.keeps h.grows.before

theorem Simplified.refuted (hp : p.Simplified q) (hl : q.valuation.Free l)
    (h : ¬ q.formula.SatisfiableUnder (q.valuation.make l))
    (h' : ¬ q.formula.SatisfiableUnder (q.valuation.make l.negate)) :
    ¬ p.formula.SatisfiableUnder p.valuation := by
  rw [hp.formula] at h h'
  rw [← hp.satisfiable_iff]
  rintro ⟨M, hv, hM⟩
  rcases (Valuation.extended_iff_or hl).1 hv with hv | hv
  · exact h ⟨M, hv, hM⟩
  · exact h' ⟨M, hv, hM⟩

end Problem

namespace Search

variable {ρ : Type} {p₀ p q : Problem ρ} {s₀ s s' s₁ s₂ : Search ρ} {l : Literal} {k : Nat}
  {frames frames' : List Frame} {ls : List Literal}

/-- The state which the decisions of the frames lead to, latest first. Each was made on what
simplification had made of the problem, and is refuted if it is the opposite of one made before. -/
inductive Framed (p₀ : Problem ρ) : List Frame → Problem ρ → Prop
  | bottom : Framed p₀ [] p₀
  | decision {frames : List Frame} {frame : Frame} {p q r : Problem ρ} (h : Framed p₀ frames p)
    (hp : p.Simplified q) (hd : q.Decided frame.literal r)
    (ht : frame.triedOpposite →
      ¬ q.formula.SatisfiableUnder (q.valuation.make frame.literal.negate)) :
    Framed p₀ (frame :: frames) r

theorem Framed.coherent (h : Framed p₀ frames p) (h₀ : p₀.Coherent) : p.Coherent := by
  cases h with
  | bottom => exact h₀
  | decision h hp hd ht => exact hd.coherent

theorem Framed.length_add_le (h : Framed p₀ frames p) (h₀ : p₀.Coherent) :
    frames.length + p.unvalued ≤ p₀.unvalued := by
  induction h with
  | bottom => simp
  | decision h hp hd ht ih =>
    have hle := hp.unvalued_le (h.coherent h₀)
    have hu := hd.unvalued hp.coherent
    rw [List.length_cons]
    omega

/-- When the values which the decisions of the frames led to are refuted, backtracking meets no fault.
It ends with all frames closed, or with the opposite of a decision tried. -/
theorem Framed.backtrack (h : Framed p₀ frames p) (hs : s.problem.Coherent)
    (hk : p.Keeps s.problem) (hg : p.trail.Grows s.problem.trail)
    (hn : ¬ p.formula.SatisfiableUnder p.valuation) :
    (∃ s', Search.backtrack frames s = .ok (none, s')) ∨
      ∃ frames' s', Search.backtrack frames s = .ok (some frames', s') ∧
        Framed p₀ frames' s'.problem := by
  -- Going down the frames, what is refuted is the values each was opened with: a frame tried both ways
  -- is refuted either way, and simplification below it has lost no model.
  induction h generalizing s with
  | bottom => exact .inl ⟨s, rfl⟩
  | @decision frames frame p q r h hp hd ht ih =>
    have hn' : ¬ q.formula.SatisfiableUnder (q.valuation.make frame.literal) := by
      rwa [← hd.valuation, ← hd.keeps.formula]
    unfold Search.backtrack
    by_cases htried : frame.triedOpposite
    · obtain ⟨x, hx, hres⟩ := retreat_of_decided hp.coherent hd hs hk hg
      rw [if_pos htried, hx]
      have hrefuted := hp.refuted hd.free hn' (ht htried)
      exact ih hres.coherent (hp.keeps.trans hres.keeps) (hres.trail ▸ hp.grows) hrefuted
    · obtain ⟨x, hx, hd'⟩ := turn_of_decided hp.coherent hd hs hk hg
      rw [if_neg htried, hx]
      refine .inr ⟨_, _, rfl, .decision h hp hd' fun _ ↦ ?_⟩
      rwa [Literal.negate_negate]

variable [Chooser ρ]

/-- The frames and the state which the iterative form has come to after so many calls. -/
inductive Reaches (s₀ : Search ρ) : Nat → List Frame → Search ρ → Prop
  | start : Reaches s₀ 0 [] s₀
  | decided {k : Nat} {frames : List Frame} {s s₁ : Search ρ} {l : Literal}
    (h : Reaches s₀ k frames s) (hs : s.step = .ok (.decision l, s₁)) :
    Reaches s₀ (k + 1) (⟨l, false⟩ :: frames) s₁
  | resumed {k : Nat} {frames frames' : List Frame} {s s₁ s₂ : Search ρ}
    (h : Reaches s₀ k frames s) (hs : s.step = .ok (.verdict .unsatisfied, s₁))
    (hb : backtrack frames s₁ = .ok (some frames', s₂)) : Reaches s₀ (k + 1) frames' s₂

theorem Reaches.iterateFrom (h : Reaches s₀ k frames s) (calls : Nat) :
    iterateFrom (k + calls) [] s₀ = iterateFrom calls frames s := by
  induction h generalizing calls with
  | start => rw [Nat.zero_add]
  | decided h hs ih =>
    rw [Nat.add_assoc, Nat.add_comm 1 calls, ih, Search.iterateFrom, hs]
  | resumed h hs hb ih =>
    rw [Nat.add_assoc, Nat.add_comm 1 calls, ih, Search.iterateFrom, hs]
    dsimp only
    rw [hb]

theorem Reaches.framed (h : Reaches s₀ k frames s) (h₀ : s₀.problem.Coherent) :
    Framed s₀.problem frames s.problem := by
  induction h with
  | start => exact .bottom
  | decided h hs ih =>
    obtain ⟨p, hp, hd, -⟩ := (stepped_of_step (ih.coherent h₀) hs).decision
    exact .decision ih hp hd nofun
  | resumed h hs hb ih =>
    have hx := (stepped_of_step (ih.coherent h₀) hs).explored (ih.coherent h₀)
    obtain ⟨s', hb'⟩ | ⟨frames', s', hb', hst⟩ :=
      ih.backtrack hx.coherent hx.keeps (hx.grows rfl) (hx.refuted rfl)
    · cases hb.symm.trans hb'
    · cases hb.symm.trans hb'
      exact hst

/-- The decisions open and the state at a call of the recursive form. The opposite of a decision is made
when the call under it has refuted the formula. -/
inductive Recurses (s₀ : Search ρ) : List Literal → Search ρ → Prop
  | start : Recurses s₀ [] s₀
  | first {ls : List Literal} {s s₁ : Search ρ} {l : Literal} (h : Recurses s₀ ls s)
    (hs : s.step = .ok (.decision l, s₁)) : Recurses s₀ (l :: ls) s₁
  | opposite {ls : List Literal} {s s₁ s₂ s₃ : Search ρ} {l : Literal} (h : Recurses s₀ ls s)
    (hs : s.step = .ok (.decision l, s₁)) (hr : s₁.recurse = .ok (.unsatisfied, s₂))
    (ht : s₂.turn l = .ok s₃) : Recurses s₀ (l.negate :: ls) s₃

theorem Recurses.trans {ms : List Literal} (h : Recurses s₀ ls s) (h' : Recurses s ms s') :
    Recurses s₀ (ms ++ ls) s' := by
  induction h' with
  | start => exact h
  | first _ hs ih => exact .first ih hs
  | opposite _ hs hr ht ih => exact .opposite ih hs hr ht

theorem Recurses.coherent (h : Recurses s₀ ls s) (h₀ : s₀.problem.Coherent) :
    s.problem.Coherent := by
  induction h with
  | start => exact h₀
  | first h hs ih => exact (stepped_of_step ih hs).coherent ih
  | opposite h hs hr ht ih =>
    obtain ⟨v, s', hx, -, hr'⟩ := exists_run ((stepped_of_step ih hs).coherent ih)
    cases hr.symm.trans hr'
    exact coherent_turn hx.coherent ht

theorem Recurses.length_add_le (h : Recurses s₀ ls s) (h₀ : s₀.problem.Coherent) :
    ls.length + s.problem.unvalued ≤ s₀.problem.unvalued := by
  induction h with
  | start => simp
  | first h hs ih =>
    have hc := h.coherent h₀
    obtain ⟨p, hp, hd, -⟩ := (stepped_of_step hc hs).decision
    have hle := hp.unvalued_le hc
    have hu := hd.unvalued hp.coherent
    rw [List.length_cons]
    omega
  | opposite h hs hr ht ih =>
    have hc := h.coherent h₀
    obtain ⟨p, hp, hd, -⟩ := (stepped_of_step hc hs).decision
    obtain ⟨v, s', hx, -, hr'⟩ := exists_run hd.coherent
    cases hr.symm.trans hr'
    obtain ⟨q, ht', hd'⟩ := hx.turn hp.coherent hd
    cases ht.symm.trans ht'
    have hle := hp.unvalued_le hc
    have hu := hd'.unvalued hp.coherent
    rw [List.length_cons]
    dsimp only
    omega

theorem Explores.recurse_eq {depth : Nat} {ms : List (Move ρ)} {v : Verdict}
    (h : Explores depth s ms v s') (hs : s.problem.Coherent) : s.recurse = .ok (v, s') := by
  obtain ⟨ms', v', s'', h'⟩ := exists_explores hs (Nat.lt_succ_self _)
  have hl := (h.mono (Nat.le_max_left _ (s.problem.unvalued + 1))).recurseLogged
  have hl' := (h'.mono (Nat.le_max_right depth _)).recurseLogged
  cases hl.symm.trans hl'
  exact h'.iterate_and_recurse.2

theorem Explores.recurses {depth : Nat} {ms : List (Move ρ)} {v : Verdict}
    (h : Explores depth s ms v s') (hs : s.problem.Coherent) {t : Search ρ} (ht : .call t ∈ ms) :
    ∃ ls, Recurses s ls t := by
  induction h with
  | settled h =>
    cases List.mem_singleton.1 ht
    exact ⟨[], .start⟩
  | kept h h₁ hv ih =>
    obtain ht | ht := List.mem_cons.1 ht
    · cases ht
      exact ⟨[], .start⟩
    · obtain ⟨ls, hn⟩ := ih ((stepped_of_step hs h).coherent hs) ht
      exact ⟨_, (Recurses.first .start h).trans hn⟩
  | turned h h₁ ht' h₃ _ ih₁ ih₃ | refuted h h₁ ht' h₃ _ ih₁ ih₃ =>
    have hs₁ := (stepped_of_step hs h).coherent hs
    have hs₃ := coherent_turn (h₁.explored hs₁).coherent ht'
    simp only [List.mem_cons, List.mem_append, List.not_mem_nil, reduceCtorEq, or_false,
      false_or] at ht
    obtain ht | ht | ht := ht
    · cases ht
      exact ⟨[], .start⟩
    · obtain ⟨ls, hn⟩ := ih₁ hs₁ ht
      exact ⟨_, (Recurses.first .start h).trans hn⟩
    · obtain ⟨ls, hn⟩ := ih₃ hs₃ ht
      exact ⟨_, (Recurses.opposite .start h (h₁.recurse_eq hs₁) ht').trans hn⟩

end Search

end Dpll
