import Dpll.Clause.InPlace
import Dpll.Proofs.LiteralOrder
import Dpll.Proofs.Mirroring

namespace Dpll

namespace Clause

variable {c d e seen : Clause} {l m : Literal} {sort : Bool}

theorem find?_eq_some_iff (hs : (seen.map Literal.atom).Nodup) :
    (seen.find? fun m ↦ m.atom = l.atom) = some m ↔ m ∈ seen ∧ m.atom = l.atom := by
  refine ⟨mem_of_find?_eq_some, ?_⟩
  rintro ⟨hm, ha⟩
  cases hf : seen.find? fun m ↦ m.atom = l.atom with
  | none =>
    have hn := List.find?_eq_none.1 hf m hm
    simp [ha] at hn
  | some k =>
    obtain ⟨hk, hka⟩ := mem_of_find?_eq_some hf
    rw [List.inj_on_of_nodup_map hs hk hm (hka.trans ha.symm)]

theorem find?_reverse (hs : (seen.map Literal.atom).Nodup) (l : Literal) :
    (seen.reverse.find? fun m ↦ m.atom = l.atom) = seen.find? fun m ↦ m.atom = l.atom := by
  have hr : (seen.reverse.map Literal.atom).Nodup := by
    rwa [List.map_reverse, List.nodup_reverse]
  apply Option.ext
  intro m
  rw [find?_eq_some_iff hr, find?_eq_some_iff hs, List.mem_reverse]

theorem distinctFrom_eq (seen : Clause) (hs : (seen.map Literal.atom).Nodup) (c : Clause) :
    distinctFrom (seen.reverse ++ c) seen.length = distinct seen c := by
  -- No atom occurs twice before the index, so the first literal of an atom found there is the only one.
  induction c generalizing seen with
  | nil =>
    rw [distinctFrom, dif_neg (by simp), List.append_nil]
    rfl
  | cons l c ih =>
    have hlt : seen.length < (seen.reverse ++ l :: c).length := by simp
    have hget : (seen.reverse ++ l :: c).get ⟨seen.length, hlt⟩ = l := by simp
    have htake : (seen.reverse ++ l :: c).take seen.length = seen.reverse := by simp
    have herase : (seen.reverse ++ l :: c).eraseIdx seen.length = seen.reverse ++ c := by
      rw [List.eraseIdx_append_of_length_le (by simp)]
      simp
    rw [distinctFrom, dif_pos hlt, distinct, hget, htake, herase]
    dsimp only
    rw [find?_reverse hs]
    cases hf : seen.find? fun m ↦ m.atom = l.atom with
    | none =>
      have hl : ((l :: seen).map Literal.atom).Nodup :=
        List.nodup_cons.2 ⟨atom_ne_of_find?_eq_none hf, hs⟩
      simpa using ih (l :: seen) hl
    | some m =>
      dsimp only
      rw [ih seen hs]

theorem normalizeInPlace_eq (sort : Bool) (c : Clause) :
    c.normalizeInPlace sort = c.normalize sort := by
  have h : c.distinctFrom 0 = distinct [] c := distinctFrom_eq [] List.nodup_nil c
  cases hd : distinct [] c with
  | clause d => simp only [normalizeInPlace, normalize, h, hd]
  | tautology d => simp only [normalizeInPlace, normalize, h, hd]

theorem distinct_of_nodup (seen : Clause) (h : ((seen.reverse ++ c).map Literal.atom).Nodup) :
    distinct seen c = .clause (seen.reverse ++ c) := by
  induction c generalizing seen with
  | nil =>
    rw [List.append_nil]
    rfl
  | cons l c ih =>
    have hf : (seen.find? fun m ↦ m.atom = l.atom) = none := by
      rw [List.find?_eq_none]
      intro m hm ha
      rw [List.map_append, List.nodup_append] at h
      obtain ⟨-, -, hne⟩ := h
      refine hne m.atom ?_ l.atom (.head _) (of_decide_eq_true ha)
      exact List.mem_map_of_mem (List.mem_reverse.2 hm)
    rw [distinct, hf]
    dsimp only
    rw [ih (l :: seen) (by simpa using h)]
    simp

theorem sortByAtom_of_pairwise (h : c.Pairwise fun l m ↦ l.atom < m.atom) : c.sortByAtom = c := by
  rw [sortByAtom_eq_mergeSort]
  exact List.mergeSort_of_pairwise (h.imp fun hlt ↦ decide_eq_true (Nat.le_of_lt hlt))

theorem pairwise_distinct (pre : Clause) (h : distinct seen c = .clause d)
    (hseen : ∀ l, l ∈ seen ↔ l ∈ pre)
    (hs : seen.reverse.Pairwise fun l m ↦ pre.idxOf l < pre.idxOf m) :
    d.Pairwise fun l m ↦ (pre ++ c).idxOf l < (pre ++ c).idxOf m := by
  -- `pre` is what was examined. Where a literal occurs first in it does not change as it grows.
  induction c generalizing seen pre with
  | nil =>
    cases h
    rwa [List.append_nil]
  | cons l c ih =>
    have hmem {m : Literal} (hm : m ∈ seen.reverse) : m ∈ pre :=
      (hseen m).1 (List.mem_reverse.1 hm)
    have hidx {m : Literal} (hm : m ∈ seen.reverse) : (pre ++ [l]).idxOf m = pre.idxOf m :=
      List.idxOf_append_of_mem (hmem hm)
    have hs' : seen.reverse.Pairwise fun k m ↦ (pre ++ [l]).idxOf k < (pre ++ [l]).idxOf m := by
      refine hs.imp_of_mem ?_
      intro k m hk hm hlt
      rwa [hidx hk, hidx hm]
    rw [List.append_cons]
    unfold distinct at h
    split at h
    next hf =>
      have hl : l ∉ pre := by
        intro hl
        exact atom_ne_of_find?_eq_none hf (List.mem_map_of_mem ((hseen l).2 hl))
      refine ih (pre ++ [l]) h (fun m ↦ ?_) ?_
      · rw [List.mem_cons, hseen, List.mem_append, List.mem_singleton, or_comm]
      · rw [List.reverse_cons, List.pairwise_append]
        refine ⟨hs', List.pairwise_singleton _ _, ?_⟩
        intro m hm k hk
        obtain rfl := List.mem_singleton.1 hk
        rw [hidx hm, List.idxOf_append_of_notMem hl]
        exact Nat.lt_of_lt_of_le (List.idxOf_lt_length_of_mem (hmem hm)) (Nat.le_add_right _ _)
    next m hf =>
      split at h
      next hm =>
        obtain rfl := hm
        have hm := (mem_of_find?_eq_some hf).1
        refine ih (pre ++ [m]) h (fun k ↦ ?_) hs'
        rw [hseen, List.mem_append, List.mem_singleton]
        refine ⟨.inl, ?_⟩
        rintro (hk | rfl)
        · exact hk
        · exact (hseen k).1 hm
      next => cases h

/-- The literals kept of `c` are in order of atom, or of their first occurrences. -/
def Ordered (sort : Bool) (c d : Clause) : Prop :=
  if sort then d.Pairwise fun l m ↦ l.atom < m.atom
  else d.Pairwise fun l m ↦ c.idxOf l < c.idxOf m

theorem ordered_normalize (h : c.normalize sort = .clause d) : Ordered sort c d := by
  have hd := nodup_normal? (normal?_eq_some_iff.2 h)
  unfold normalize at h
  split at h
  next e he =>
    cases h
    cases sort with
    | true =>
      simp only [Ordered, if_true] at hd ⊢
      have hlt := (pairwise_sortByAtom e).and (List.pairwise_map.1 hd)
      exact hlt.imp fun h ↦ Nat.lt_of_le_of_ne h.1 h.2
    | false =>
      exact pairwise_distinct [] he (fun l ↦ Iff.rfl) .nil
  next => cases h

/-- What is to be left of a clause: the same literals, with no atom twice, in the order asked for. -/
structure Normalizes (sort : Bool) (c d : Clause) : Prop where
  mem_iff : ∀ l, l ∈ d ↔ l ∈ c
  nodup : (d.map Literal.atom).Nodup
  ordered : Ordered sort c d

theorem normalizes_of_normalize (h : c.normalize sort = .clause d) : c.Normalizes sort d where
  mem_iff := mem_normalize h
  nodup := nodup_normal? (normal?_eq_some_iff.2 h)
  ordered := ordered_normalize h

theorem normalize_normalize (h : c.normalize sort = .clause d) : d.normalize sort = .clause d := by
  have hn := normalizes_of_normalize h
  have hk : distinct [] d = .clause d := distinct_of_nodup [] hn.nodup
  rw [normalize, hk]
  cases sort with
  | true => exact congrArg Normalized.clause (sortByAtom_of_pairwise hn.ordered)
  | false => rfl

theorem clashes_iff (hc : ∀ l ∈ c, l ≠ 0) :
    c.Clashes ↔ ∃ l ∈ c, ∃ m ∈ c, l.atom = m.atom ∧ l.positive ≠ m.positive := by
  constructor
  · rintro ⟨l, hl, hn⟩
    refine ⟨l, hl, l.negate, hn, (Literal.atom_negate l).symm, ?_⟩
    rw [Literal.positive_negate (hc l hl)]
    cases l.positive <;> nofun
  · rintro ⟨l, hl, m, hm, ha, hp⟩
    obtain rfl | rfl := Formula.eq_or_eq_negate ha.symm
    · exact absurd rfl hp
    · exact ⟨l, hl, hm⟩

def refuting (c : Clause) : Model := fun a ↦ Literal.ofAtom a true ∉ c

theorem not_holds_refuting (hz : ∀ l ∈ c, l ≠ 0) (hc : ¬ c.Clashes) : ¬ c.Holds c.refuting := by
  rintro ⟨l, hl, hM⟩
  unfold Literal.Holds refuting at hM
  cases hp : l.positive with
  | true =>
    rw [hp, decide_eq_true_iff, ← hp, Literal.ofAtom_atom_positive] at hM
    exact hM hl
  | false =>
    have hn := Literal.ofAtom_not_positive (hz l hl)
    rw [hp, decide_eq_false_iff_not, not_not] at hM
    rw [hp, Bool.not_false] at hn
    exact hc ⟨l, hl, hn ▸ hM⟩

theorem clashes_iff_holds (hc : ∀ l ∈ c, l ≠ 0) : c.Clashes ↔ ∀ M : Model, c.Holds M := by
  constructor
  · rintro ⟨l, hl, hn⟩ M
    by_cases hM : l.Holds M
    · exact ⟨l, hl, hM⟩
    · exact ⟨l.negate, hn, (Literal.holds_negate (hc l hl)).2 hM⟩
  · intro h
    by_contra hn
    exact not_holds_refuting hc hn (h _)

theorem normalize_eq_tautology_iff (sort : Bool) (hc : ∀ l ∈ c, l ≠ 0) :
    (∃ d, c.normalize sort = .tautology d) ↔ c.Clashes := by
  constructor
  · rintro ⟨d, hd⟩
    exact (clashes_iff_holds hc).2 (holds_of_normalize_tautology hc hd)
  · rintro ⟨l, hl, hn⟩
    cases hd : c.normalize sort with
    | tautology d => exact ⟨d, rfl⟩
    | clause d =>
      have hd := normalizes_of_normalize hd
      have he := List.inj_on_of_nodup_map hd.nodup ((hd.mem_iff l).2 hl) ((hd.mem_iff _).2 hn)
        (Literal.atom_negate l).symm
      exact absurd he (Literal.ne_negate (hc l hl))

theorem Normalizes.eq (h : c.Normalizes sort d) (h' : c.Normalizes sort e) : d = e := by
  have hp : d.Perm e := by
    refine (List.perm_ext_iff_of_nodup (h.nodup.of_map _) (h'.nodup.of_map _)).2 fun l ↦ ?_
    rw [h.mem_iff, h'.mem_iff]
  have ho := h.ordered
  have ho' := h'.ordered
  cases sort with
  | true => exact hp.eq_of_pairwise (fun _ _ _ _ hlm hml ↦ (Nat.lt_asymm hlm hml).elim) ho ho'
  | false => exact hp.eq_of_pairwise (fun _ _ _ _ hlm hml ↦ (Nat.lt_asymm hlm hml).elim) ho ho'

end Clause

namespace Formula

variable {n : Nat} {sort : Bool} {c d : Clause} {f g g' : Formula}

/-- What is to be left of a formula: its clauses in the same order, of which those that every model
makes true are dropped, and each other is normalized. -/
inductive Normalizes (sort : Bool) : Formula → Formula → Prop
  | nil : Normalizes sort [] []
  | dropped {c : Clause} {f g : Formula} (hc : ∀ M : Model, c.Holds M) (h : Normalizes sort f g) :
      Normalizes sort (c :: f) g
  | kept {c d : Clause} {f g : Formula} (hc : ¬ ∀ M : Model, c.Holds M)
      (hd : c.Normalizes sort d) (h : Normalizes sort f g) : Normalizes sort (c :: f) (d :: g)

theorem normalizes_normals (hf : ∀ c ∈ f, c.fault? n = none) :
    f.Normalizes sort (f.normals sort) := by
  induction f with
  | nil => exact .nil
  | cons c f ih =>
    obtain ⟨hc, hf⟩ := List.forall_mem_cons.1 hf
    have hz : ∀ l ∈ c, l ≠ 0 := fun l hl ↦ (Clause.fault?_eq_none_iff.1 hc l hl).1
    rw [normals_cons]
    cases hn : c.normal? sort with
    | none =>
      have hclash := (Clause.normal?_eq_none_iff hc).1 hn
      exact .dropped ((Clause.clashes_iff_holds hz).1 hclash) (ih hf)
    | some d =>
      refine .kept ?_ (Clause.normalizes_of_normalize (Clause.normal?_eq_some_iff.1 hn)) (ih hf)
      rw [← Clause.clashes_iff_holds hz, ← Clause.normal?_eq_none_iff hc, hn]
      nofun

/-- There is just one formula to be left. -/
theorem Normalizes.eq (h : f.Normalizes sort g) (h' : f.Normalizes sort g') : g = g' := by
  induction h generalizing g' with
  | nil =>
    cases h'
    rfl
  | dropped hc _ ih =>
    cases h' with
    | dropped _ h' => exact ih h'
    | kept hn _ _ => exact absurd hc hn
  | kept hn hd _ ih =>
    cases h' with
    | dropped hc _ => exact absurd hc hn
    | kept _ hd' h' => rw [hd.eq hd', ih h']

end Formula
namespace Problem

variable {ρ : Type} {p q : Problem ρ} {o : Operation}

def accepted? : Operation → Answer → Option Clause
  | .add c, .addition _ => some c
  | _, _ => none

/-- The clauses of the additions which met no fault. -/
def accepted (os : List Operation) (answers : List Answer) : List Clause :=
  (os.zip answers).filterMap fun r ↦ accepted? r.1 r.2

theorem accepted_cons (o : Operation) (os : List Operation) (answer : Answer)
    (answers : List Answer) :
    accepted (o :: os) (answer :: answers) = (accepted? o answer).toList ++ accepted os answers := by
  rw [accepted, List.zip_cons_cons, List.filterMap_cons]
  cases accepted? o answer <;> rfl

theorem accepted?_of_ne (ho : ∀ c, o ≠ .add c) (answer : Answer) : accepted? o answer = none := by
  unfold accepted?
  split
  next c _ => exact absurd rfl (ho c)
  next => rfl

theorem Changed.atomCount (h : p.Changed o q) : q.atomCount = p.atomCount :=
  congrArg (· - 1) h.size

theorem Changed.config (h : p.Changed o q) : q.config = p.config := by
  rcases h.keeps_or_stored with h | ⟨c, d, -, -, -, rfl⟩
  · exact h.config
  · rfl

theorem Changed.formula (h : p.Changed o q) (ho : ∀ c, o ≠ .add c) : q.formula = p.formula := by
  rcases h.keeps_or_stored with h | ⟨c, d, rfl, -⟩
  · exact h.formula
  · exact absurd rfl (ho c)

variable [Chooser ρ]

theorem Coherent.formula_perform (h : p.Coherent) (o : Operation) :
    (p.perform o).2.formula = p.formula ++
      Formula.normals p.config.sortClauses.value (accepted? o (p.perform o).1).toList ∧
    ∀ c ∈ accepted? o (p.perform o).1, c.fault? p.atomCount = none := by
  by_cases ho : ∃ c, o = .add c
  · obtain ⟨c, rfl⟩ := ho
    cases ha : p.add c with
    | error fault =>
      have hp : p.perform (.add c) = (.fault fault, p) := by
        rw [Problem.perform, ha, settle, id]
      rw [hp]
      exact ⟨(List.append_nil _).symm, by simp [accepted?]⟩
    | ok r =>
      obtain ⟨a, q⟩ := r
      have hp : p.perform (.add c) = (.addition a, q) := by
        rw [Problem.perform, ha, settle]
      obtain ⟨-, hf, hq⟩ := add_eq_ok ha
      rw [hp]
      constructor
      · rw [accepted?, Option.toList_some, Formula.normals, List.filterMap_cons, List.filterMap_nil]
        rcases hq with ⟨d, hd, -, rfl⟩ | ⟨d, hd, -, rfl⟩
        · rw [Clause.normal?, hd]
          exact (List.append_nil _).symm
        · rw [Clause.normal?_eq_some_iff.2 hd]
          exact formula_storeNormal p d
      · rintro _ ⟨⟩
        exact hf
  · have ho := not_exists.1 ho
    rw [accepted?_of_ne ho, (h.changed_perform o).formula ho]
    exact ⟨(List.append_nil _).symm, by simp⟩

theorem Coherent.formula_performAll (h : p.Coherent) (os : List Operation) :
    (p.performAll os).2.formula = p.formula ++
      Formula.normals p.config.sortClauses.value (accepted os (p.performAll os).1) ∧
    ∀ c ∈ accepted os (p.performAll os).1, c.fault? p.atomCount = none := by
  induction os generalizing p with
  | nil => exact ⟨(List.append_nil _).symm, nofun⟩
  | cons o os ih =>
    obtain ⟨hq, hf⟩ := h.formula_perform o
    have hconfig := (h.changed_perform o).config
    have hcount := (h.changed_perform o).atomCount
    obtain ⟨hr, hfs⟩ := ih (h.perform o)
    rw [performAll_cons, accepted_cons]
    rw [hconfig] at hr
    rw [hcount] at hfs
    constructor
    · rw [hr, hq, List.append_assoc, Formula.normals, Formula.normals, Formula.normals,
        List.filterMap_append]
    · intro c hc
      rcases List.mem_append.1 hc with hc | hc
      · exact hf c (Option.mem_toList.1 hc)
      · exact hfs c hc

theorem perform_add (c : Clause) (hp : p.phase = .input) :
    accepted? (.add c) (p.perform (.add c)).1 = (if c.fault? p.atomCount = none then some c else none) ∧
      (p.perform (.add c)).2.phase = .input := by
  rw [perform, add_of_input c hp]
  cases c.fault? p.atomCount with
  | some fault => exact ⟨rfl, hp⟩
  | none =>
    cases c.normal? p.config.sortClauses.value with
    | none => exact ⟨rfl, hp⟩
    | some d => exact ⟨rfl, hp⟩

theorem Coherent.accepted_adds (h : p.Coherent) (hp : p.phase = .input) (cs : List Clause) :
    accepted (cs.map .add) (p.performAll (cs.map .add)).1 =
      cs.filter fun c ↦ c.fault? p.atomCount = none := by
  induction cs generalizing p with
  | nil => rfl
  | cons c cs ih =>
    obtain ⟨hc, hp'⟩ := perform_add c hp
    have hcount := (h.changed_perform (.add c)).atomCount
    rw [List.map_cons, performAll_cons, accepted_cons, List.filter_cons, hc,
      ih (h.perform (.add c)) hp', hcount]
    by_cases hf : c.fault? p.atomCount = none
    · simp [hf]
    · simp [hf]

end Problem

/-- Normalizing a clause, in place or not, finds just the clauses which every model makes true, and
leaves of any other the same literals with none of them twice. So what is stored as clauses are added,
of those which are not refused, has their models. -/
theorem Problem.normalize_sound {ρ : Type} [Chooser ρ] (n : Nat) (config : Config) (source : ρ)
    (os : List Operation) :
    (∀ (c : Clause) (sort : Bool), (∀ l ∈ c, l ≠ 0) →
      c.normalizeInPlace sort = c.normalize sort ∧
      ((∃ d, c.normalize sort = .tautology d) ↔
        ∃ l ∈ c, ∃ m ∈ c, l.atom = m.atom ∧ l.positive ≠ m.positive) ∧
      ((∃ d, c.normalize sort = .tautology d) ↔ ∀ M : Model, c.Holds M) ∧
      ∀ d, c.normalize sort = .clause d →
        (∀ l, l ∈ d ↔ l ∈ c) ∧ (d.map Literal.atom).Nodup ∧ Clause.Ordered sort c d ∧
        d.normalize sort = .clause d) ∧
    let r := (Problem.empty n config source).performAll os
    r.2.formula = Formula.normals config.sortClauses.value (accepted os r.1) ∧
      (∀ M, Formula.Holds M (accepted os r.1) ↔ r.2.formula.Holds M) ∧
      ∀ cs : List Clause, os = cs.map .add →
        accepted os r.1 = cs.filter fun c ↦ c.fault? n = none := by
  constructor
  · intro c sort hc
    refine ⟨Clause.normalizeInPlace_eq sort c, ?_, ?_, ?_⟩
    · rw [Clause.normalize_eq_tautology_iff sort hc, Clause.clashes_iff hc]
    · rw [Clause.normalize_eq_tautology_iff sort hc, Clause.clashes_iff_holds hc]
    · intro d hd
      have h := Clause.normalizes_of_normalize hd
      exact ⟨h.mem_iff, h.nodup, h.ordered, Clause.normalize_normalize hd⟩
  · intro r
    have h := coherent_empty n config source
    have hn : (empty n config source).atomCount = n := atomCount_performAll n config source []
    obtain ⟨hformula, hf⟩ := h.formula_performAll os
    refine ⟨hformula, fun M ↦ ?_, ?_⟩
    · rw [hformula]
      exact (Formula.holds_normals hf).symm
    · rintro cs rfl
      have ha := h.accepted_adds rfl cs
      rwa [hn] at ha

theorem Problem.normalize_sound_four :
    let os : List Operation := [[3, 1, 3], [1, -1], [4], [-2, 0]].map .add
    let r := (Problem.empty 3 {} (⟨[]⟩ : Script)).performAll os
    accepted os r.1 = [[3, 1, 3], [1, -1]] ∧ r.2.formula = [[1, 3]] ∧
      Clause.normalize true [1, 3] = .clause [1, 3] ∧ ∀ M, Clause.Holds M [1, -1] := by
  intro os r
  obtain ⟨hclause, hformula, -, haccepted⟩ := normalize_sound 3 {} (⟨[]⟩ : Script) os
  have ha : accepted os r.1 = [[3, 1, 3], [1, -1]] := (haccepted _ rfl).trans (by decide)
  obtain ⟨-, -, -, hkept⟩ := hclause [3, 1, 3] true (by decide)
  obtain ⟨-, -, hclash, -⟩ := hclause [1, -1] true (by decide)
  obtain ⟨-, -, -, hagain⟩ := hkept [1, 3] (by decide +kernel)
  refine ⟨ha, hformula.trans ?_, hagain, hclash.1 ⟨[1, -1], by decide⟩⟩
  have hnormals : Formula.normals true [[3, 1, 3], [1, -1]] = [[1, 3]] := by decide +kernel
  exact (congrArg (Formula.normals true) ha).trans hnormals

end Dpll
