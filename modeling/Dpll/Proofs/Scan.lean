import Dpll.Proofs.Cache
import Dpll.Proofs.Status

namespace Dpll.ClauseStore

variable {s s' s'' : ClauseStore} {ls : List Literal} {v : Valuation} {c : Clause} {i : Nat}

def Coherent (s : ClauseStore) (ls : List Literal) : Prop :=
  ∀ k, s.cache = some k → k.Coherent s.formula ls

/-- The literals are those which the valuation makes true, among the literals of the clauses. -/
def Tracked (s : ClauseStore) (v : Valuation) (ls : List Literal) : Prop :=
  ∀ c ∈ s.formula, ∀ l ∈ c, v.truth l = some true ↔ l ∈ ls

/-- What examining clauses may do to a store: nothing but to add records to a cache. -/
structure Examined (ls : List Literal) (s s' : ClauseStore) : Prop where
  clauses : s'.clauses = s.clauses
  caching : s'.cache.isSome = s.cache.isSome
  uncached : s.cache = none → s' = s
  coherent : s'.Coherent ls

theorem Examined.refl (h : s.Coherent ls) : Examined ls s s := ⟨rfl, rfl, fun _ ↦ rfl, h⟩

theorem Examined.trans (h : Examined ls s s') (h' : Examined ls s' s'') : Examined ls s s'' := by
  refine ⟨h'.clauses.trans h.clauses, h'.caching.trans h.caching, ?_, h'.coherent⟩
  intro hs
  have hs' := h.uncached hs
  rw [h'.uncached (hs' ▸ hs), hs']

theorem Examined.formula (h : Examined ls s s') : s'.formula = s.formula :=
  congrArg Array.toList h.clauses

theorem Examined.tracked (h : Examined ls s s') (ht : s.Tracked v ls) : s'.Tracked v ls := by
  unfold Tracked
  rw [h.formula]
  exact ht

theorem mem_formula (hc : s.clauses[i]? = some c) : c ∈ s.formula := by
  obtain ⟨hi, rfl⟩ := Array.getElem?_eq_some_iff.1 hc
  exact Array.getElem_mem_toList hi

theorem satisfied_of_isCached (h : s.Coherent ls) (ht : s.Tracked v ls)
    (hc : s.clauses[i]? = some c) (hi : s.isCached i) : c.status v = .satisfied := by
  obtain ⟨k, hk, hholds⟩ := (Option.any_eq_true _ _).1 hi
  obtain ⟨r, hr⟩ := Option.isSome_iff_exists.1 hholds
  obtain ⟨-, d, hd, l, hl, hm⟩ := (h k hk).witness i r hr
  obtain rfl : d = c := by
    have he : s.formula[i]? = some c := by simpa [formula] using hc
    exact Option.some.inj (hd.symm.trans he)
  exact Clause.status_eq_satisfied_iff.2
    ⟨l, hl, (ht d (mem_formula hc) l hl).2 (List.mem_of_mem_take hm)⟩

theorem examined_record (h : s.Coherent ls) (ht : s.Tracked v ls) (hc : s.clauses[i]? = some c)
    (hi : ¬ s.isCached i) (hs : c.status v = .satisfied) :
    Examined ls s (s.record i (ls.length - 1)) := by
  obtain ⟨clauses, cache⟩ := s
  cases cache with
  | none => exact .refl h
  | some k =>
    refine ⟨rfl, rfl, fun hn ↦ (Option.some_ne_none _ hn).elim, ?_⟩
    intro k' hk'
    cases hk'
    obtain ⟨l, hl, htrue⟩ := Clause.status_eq_satisfied_iff.1 hs
    have hn : k.time i = none := by
      simpa [isCached, SatisfactionCache.holds, SatisfactionCache.time] using hi
    have he : (formula ⟨clauses, some k⟩)[i]? = some c := by simpa [formula] using hc
    exact (h k rfl).record he hn hl ((ht c (mem_formula hc) l hl).1 htrue)

def Sized (s : ClauseStore) : Prop := ∀ k, s.cache = some k → k.records.size = s.clauses.size

theorem Coherent.sized (h : s.Coherent ls) : s.Sized :=
  fun k hk ↦ (h k hk).size.trans (Array.length_toList ..)

def Noted (s : ClauseStore) (v : Valuation) (i : Nat) : Prop :=
  s.cache.isSome → ∀ c, s.clauses[i]? = some c → c.status v = .satisfied → s.isCached i

theorem examine_cases (s : ClauseStore) (v : Valuation) (time i : Nat) :
    (s.examine v time i).2 = s ∧ s.Noted v i ∨
      ∃ k, s.cache = some k ∧ k.time i = none ∧ i < s.clauses.size ∧
        (s.examine v time i).2 = ⟨s.clauses, some (k.record i time)⟩ ∧ ¬ s.Noted v i := by
  unfold examine
  split
  next hi => exact .inl ⟨rfl, fun _ _ _ _ ↦ hi⟩
  next hi =>
    split
    next hc => exact .inl ⟨rfl, fun _ d hd _ ↦ by rw [hc] at hd; cases hd⟩
    next c hc =>
      split
      next hs =>
        obtain ⟨clauses, _ | k⟩ := s
        · exact .inl ⟨rfl, fun h ↦ by cases h⟩
        · refine .inr ⟨k, rfl, ?_, (Array.getElem?_eq_some_iff.1 hc).1, rfl, ?_⟩
          · simpa [isCached, SatisfactionCache.holds, SatisfactionCache.time] using hi
          · exact fun h ↦ hi (h rfl c hc hs)
      next hs =>
        refine .inl ⟨rfl, fun _ d hd hsat ↦ ?_⟩
        cases hc.symm.trans hd
        exact absurd hsat (by simpa using hs)

theorem clauses_examine (s : ClauseStore) (v : Valuation) (time i : Nat) :
    (s.examine v time i).2.clauses = s.clauses := by
  obtain ⟨he, -⟩ | ⟨k, -, -, -, he, -⟩ := s.examine_cases v time i
  · rw [he]
  · rw [he]

theorem Sized.examine (h : s.Sized) (v : Valuation) (time i : Nat) :
    (s.examine v time i).2.Sized := by
  obtain ⟨he, -⟩ | ⟨k, hk, -, -, he, -⟩ := s.examine_cases v time i
  · rwa [he]
  · rw [he]
    intro k' hk'
    cases hk'
    exact Array.size_setIfInBounds.trans (h k hk)

theorem examine_spec (h : s.Coherent ls) (ht : s.Tracked v ls) (hc : s.clauses[i]? = some c) :
    ∃ s', Examined ls s s' ∧ (s.examine v (ls.length - 1) i = (some (c, c.status v), s') ∨
      c.status v = .satisfied ∧ s.examine v (ls.length - 1) i = (none, s')) := by
  unfold examine
  split
  next hi => exact ⟨s, .refl h, .inr ⟨satisfied_of_isCached h ht hc hi, rfl⟩⟩
  next hi =>
    rw [hc]
    dsimp only
    split
    next hs => exact ⟨_, examined_record h ht hc hi hs, .inl (by rw [hs])⟩
    next => exact ⟨s, .refl h, .inl rfl⟩

theorem examine_of_getElem?_eq_none (t : Nat) (hc : s.clauses[i]? = none) :
    s.examine v t i = (none, s) := by
  unfold examine
  split
  · rfl
  · rw [hc]

variable {α : Type} {f : Clause → Clause.Status → Option α}

theorem scanFrom_spec (hf : ∀ c, f c .satisfied = none) (h : s.Coherent ls)
    (ht : s.Tracked v ls) (is : List Nat) :
    (s.scanFrom v (ls.length - 1) f is).1 =
      (is.filterMap (s.clauses[·]?)).findSome? (fun c ↦ f c (c.status v)) ∧
    Examined ls s (s.scanFrom v (ls.length - 1) f is).2 := by
  induction is generalizing s with
  | nil => exact ⟨rfl, .refl h⟩
  | cons i is ih =>
    unfold scanFrom
    cases hc : s.clauses[i]? with
    | none =>
      rw [examine_of_getElem?_eq_none _ hc, List.filterMap_cons_none hc]
      exact ih h ht
    | some c =>
      rw [List.filterMap_cons_some hc, List.findSome?_cons]
      obtain ⟨s', he, hs' | ⟨hs, hs'⟩⟩ := examine_spec h ht hc
      · rw [hs']
        dsimp only
        cases hfc : f c (c.status v) with
        | none =>
          obtain ⟨h₁, h₂⟩ := ih he.coherent (he.tracked ht)
          rw [he.clauses] at h₁
          exact ⟨h₁, he.trans h₂⟩
        | some a => exact ⟨rfl, he⟩
      · rw [hs', hs, hf]
        obtain ⟨h₁, h₂⟩ := ih he.coherent (he.tracked ht)
        rw [he.clauses] at h₁
        exact ⟨h₁, he.trans h₂⟩

theorem unsettledFrom_spec (h : s.Coherent ls) (ht : s.Tracked v ls) (is : List Nat)
    (found : List Clause) :
    (unsettledFrom v (ls.length - 1) found s is).1 =
      ((is.filterMap (s.clauses[·]?)).filter (·.status v ≠ .satisfied)).reverse ++ found ∧
    Examined ls s (unsettledFrom v (ls.length - 1) found s is).2 := by
  induction is generalizing s found with
  | nil => exact ⟨rfl, .refl h⟩
  | cons i is ih =>
    unfold unsettledFrom
    cases hc : s.clauses[i]? with
    | none =>
      rw [examine_of_getElem?_eq_none _ hc, List.filterMap_cons_none hc]
      exact ih h ht found
    | some c =>
      rw [List.filterMap_cons_some hc]
      obtain ⟨s', he, hs'⟩ := examine_spec h ht hc
      by_cases hs : c.status v = .satisfied
      · rw [List.filter_cons_of_neg (by simp [hs])]
        obtain ⟨h₁, h₂⟩ := ih he.coherent (he.tracked ht) found
        rw [he.clauses] at h₁
        rcases hs' with hs' | ⟨-, hs'⟩
        · rw [hs', hs]
          exact ⟨h₁, he.trans h₂⟩
        · rw [hs']
          exact ⟨h₁, he.trans h₂⟩
      · rw [List.filter_cons_of_pos (by simp [hs])]
        obtain ⟨h₁, h₂⟩ := ih he.coherent (he.tracked ht) (c :: found)
        rw [he.clauses] at h₁
        rw [hs'.resolve_right fun hr ↦ hs hr.1]
        cases hst : c.status v with
        | satisfied => exact absurd hst hs
        | conflict | unit | pending => exact ⟨by simpa using h₁, he.trans h₂⟩

theorem scanFrom_preserves {P : ClauseStore → Prop} {time : Nat}
    (h : ∀ s i, P s → P (s.examine v time i).2) (hs : P s) (is : List Nat) :
    P (s.scanFrom v time f is).2 := by
  induction is generalizing s with
  | nil => exact hs
  | cons i is ih =>
    have hi := h s i hs
    unfold scanFrom
    split
    next he =>
      rw [he] at hi
      exact ih hi
    next he =>
      rw [he] at hi
      split
      next => exact hi
      next => exact ih hi

theorem unsettledFrom_preserves {P : ClauseStore → Prop} {time : Nat}
    (h : ∀ s i, P s → P (s.examine v time i).2) (hs : P s) (is : List Nat)
    (found : List Clause) : P (unsettledFrom v time found s is).2 := by
  induction is generalizing s found with
  | nil => exact hs
  | cons i is ih =>
    have hi := h s i hs
    unfold unsettledFrom
    split <;> next he =>
      rw [he] at hi
      exact ih hi _

theorem filterMap_range (s : ClauseStore) :
    (List.range s.count).filterMap (s.clauses[·]?) = s.formula := by
  have hm : (List.range s.count).map (s.clauses[·]?) = s.formula.map some := by
    apply List.ext_getElem (by simp [count, formula])
    intro i hi _
    have hi : i < s.clauses.size := by simpa [count] using hi
    simp [formula, hi]
  calc (List.range s.count).filterMap (s.clauses[·]?)
      = ((List.range s.count).map (s.clauses[·]?)).filterMap id := by
        rw [List.filterMap_map]
        rfl
    _ = s.formula := by
        rw [hm, List.filterMap_map, Function.id_comp, List.filterMap_some]

/-- A scan finds the first answer on the clauses in order, whatever is recorded of them. -/
theorem scan_spec (hf : ∀ c, f c .satisfied = none) (h : s.Coherent ls) (ht : s.Tracked v ls) :
    (s.scan v (ls.length - 1) f).1 = s.formula.findSome? (fun c ↦ f c (c.status v)) ∧
    Examined ls s (s.scan v (ls.length - 1) f).2 := by
  have hs := scanFrom_spec hf h ht (List.range s.count)
  rwa [filterMap_range] at hs

theorem unsettled_spec (h : s.Coherent ls) (ht : s.Tracked v ls) :
    (s.unsettled v (ls.length - 1)).1 = s.formula.filter (·.status v ≠ .satisfied) ∧
    Examined ls s (s.unsettled v (ls.length - 1)).2 := by
  have hs := unsettledFrom_spec h ht (List.range s.count) []
  rw [filterMap_range, List.append_nil] at hs
  exact ⟨by simp [unsettled, hs.1], hs.2⟩

end Dpll.ClauseStore
