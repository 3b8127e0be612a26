import Dpll.Proofs.BranchEarlyEnd
import Dpll.Proofs.RepeatedSolves

namespace Dpll

theorem getElem?_of_map_eq_range {α : Type} {f : α → Nat} {xs : List α} {n : Nat} {x : α}
    (h : xs.map f = List.range n) (hx : x ∈ xs) : xs[f x]? = some x ∧ f x < n := by
  obtain ⟨i, hi⟩ := List.mem_iff_getElem?.1 hx
  have hf := congrArg (·[i]?) h
  simp only [List.getElem?_map, hi, Option.map_some] at hf
  obtain ⟨hlt, he⟩ := List.getElem?_eq_some_iff.1 hf.symm
  rw [List.getElem_range] at he
  subst he
  exact ⟨hi, by simpa using hlt⟩

namespace Solver

variable {n k : Nat} {f : Formula} {known : Prop} {s s₀ : Solver} {m : Monitor} {info : Loaded}

theorem monitor_oversee (s : Solver) (change : Monitor → Monitor) :
    (s.oversee change).monitor = change s.monitor := by
  cases s <;> rfl

theorem oversee_oversee (s : Solver) (change change' : Monitor → Monitor) :
    (s.oversee change).oversee change' = s.oversee fun m ↦ change' (change m) := by
  cases s <;> rfl

section Chosen

variable [Chooser Pcg]

/-- The solver as it stands at each call which a solve makes. -/
def calls : Solver → List Solver
  | copying s => (s.root.calls s.monitor.start).map fun m ↦ copying { s with monitor := m }
  | trail s => (Search.solveCalls ⟨s.problem, s.monitor.start⟩).map fun t ↦
    trail { s with problem := t.problem, monitor := t.monitor }

/-- What the solve with another monitor is, next to the solve which nothing asks to end. -/
def Echoes (k : Nat) (s : Solver) (m : Monitor) : Prop :=
  ∃ r s', s.solve = .ok (r, s') ∧
    s.calls.map (·.counters.calls) = List.range s'.counters.calls ∧
    ((∃ m', (s.oversee fun _ ↦ m).solve = .ok (r, s'.oversee fun _ ↦ m') ∧
        s'.monitor.EchoedBy k m') ∨
      ∃ t m', t ∈ s.calls ∧ (∀ q, t = trail q → q.problem.phase = .solving) ∧
        t.monitor.CutTo k m' ∧
        (s.oversee fun _ ↦ m).solve = .ok (⟨.unknown, none⟩, t.oversee fun _ ↦ m'))

theorem echoes_copying {s : CopyingSolver} (h : (copying s).Ready n f known)
    (he : s.monitor.start.EchoedBy k m.start) : (copying s).Echoes k m := by
  obtain ⟨rfl, hn, -⟩ := h
  have hleft := CopyingSolver.leftOf_root hn
  have hsolve {m m' : Monitor} {o : Branch.Outcome} (hx : s.root.Searched m.start o m') :
      ((copying s).oversee fun _ ↦ m).solve =
        .ok (CopyingSolver.respond o, copying { s with monitor := m' }) := by
    have hs : Branch.search ⟨s.formula, .blank s.literals⟩ m.start = .ok (o, m') :=
      hx.search_eq hleft
    simp only [oversee, Solver.solve, CopyingSolver.solve, hs]
    rfl
  obtain ⟨o, m', -, hx⟩ := hleft.search s.monitor.start
  refine ⟨_, _, hsolve hx, ?_, ?_⟩
  · obtain ⟨j, hj, hmap⟩ := hx.map_calls hleft
    rw [calls, List.map_map]
    refine hmap.trans ?_
    rw [List.range_eq_range']
    have hj : m'.counters.calls = 0 + j := hj
    rw [Nat.zero_add] at hj
    exact congrArg (List.range' 0) hj.symm
  · obtain ⟨w, hw, he'⟩ | ⟨t, w, ht, hcut, hw⟩ := hx.echo hleft he
    · exact .inl ⟨w, hsolve hw, he'⟩
    · refine .inr ⟨copying { s with monitor := t }, w, List.mem_map_of_mem ht, ?_, hcut, hsolve hw⟩
      rintro q ⟨⟩

theorem echoes_trail {s : TrailSolver} (h : (trail s).Ready n f known)
    (he : s.monitor.start.EchoedBy k m.start) : (trail s).Echoes k m := by
  obtain ⟨hc, -⟩ := h
  obtain ⟨v, s', hs, hmap, hend⟩ :=
    Search.solve_with (s := ⟨s.problem, s.monitor.start⟩) hc rfl he
  refine ⟨_, _, solve_trail hs, ?_, ?_⟩
  · rw [calls, List.map_map]
    exact hmap
  · obtain ⟨m', hs', he'⟩ | ⟨t, m', ht, hphase, hcut, hs'⟩ := hend
    · exact .inl ⟨m', solve_trail (t := { s with monitor := m }) hs', he'⟩
    · refine .inr ⟨trail { s with problem := t.problem, monitor := t.monitor }, m',
        List.mem_map_of_mem ht, ?_, hcut, solve_trail (t := { s with monitor := m }) hs'⟩
      rintro q ⟨⟩
      exact hphase

theorem Ready.echoes (h : s.Ready n f known) (he : s.monitor.start.EchoedBy k m.start) :
    s.Echoes k m := by
  cases s with
  | copying s => exact echoes_copying h he
  | trail s => exact echoes_trail h he

/-- A solve which is ended is what the solve would have been without that, up to the call on which it is
ended. That call and all those under which it is made end with no verdict, and undo nothing. With more
answers before it than are asked for, the solve is the same to its end. In neither does it matter
whether progress is reported, or what the clock shows. -/
theorem solve_ended {σ : Type} [Storage] [ClauseSource σ] {source : σ}
    (h : s₀.load source = .ok (info, s)) (hlimit : s.config.timeLimit.value = 0) (hk : 1 ≤ k)
    (clock clock' : Nat → Duration) (reporting reporting' : Bool) :
    let u := s.oversee fun _ ↦ { Monitor.ofConfig s.config clock with reporting }
    let w := s.oversee fun _ ↦ { Monitor.ofConfig s.config clock' with
      reporting := reporting', terminate := some (Monitor.endFrom k) }
    ∃ r u' r' w', u.solve = .ok (r, u') ∧ w.solve = .ok (r', w') ∧
      u.calls.length = u'.counters.calls ∧
      (u'.counters.calls < Monitor.checkFrequency * k →
        r' = r ∧ w' = u'.oversee (fun _ ↦ w'.monitor) ∧ w'.counters = u'.counters ∧
        w'.monitor.asked = u'.counters.calls / Monitor.checkFrequency) ∧
      (Monitor.checkFrequency * k ≤ u'.counters.calls →
        r' = ⟨.unknown, none⟩ ∧ w'.monitor.asked = k ∧
        ∃ t, u.calls[Monitor.checkFrequency * k - 1]? = some t ∧
          w' = t.oversee (fun _ ↦ w'.monitor) ∧
          w'.counters = { t.counters with calls := Monitor.checkFrequency * k } ∧
          ∀ q, t = trail q → q.problem.phase = .solving) := by
  intro u w
  have hw : u.oversee (fun _ ↦ w.monitor) = w := by
    rw [oversee_oversee, monitor_oversee]
  have he : u.monitor.start.EchoedBy k w.monitor.start := by
    rw [monitor_oversee, monitor_oversee]
    have hl (clock) : (Monitor.ofConfig s.config clock).timeLimit = none := if_pos hlimit
    refine ⟨⟨hl clock, rfl⟩, ⟨hl clock', rfl⟩, rfl, (Nat.zero_div _).symm, ?_⟩
    exact Nat.mul_pos (by decide) hk
  obtain ⟨r, u', hu, hmap, hend⟩ := ((ready_of_load h).oversee _).echoes he
  have hlength : u.calls.length = u'.counters.calls := by
    simpa using congrArg List.length hmap
  rw [hw] at hend
  obtain ⟨m', hs, he'⟩ | ⟨t, m', ht, hphase, hcut, hs⟩ := hend
  · have hlt := he'.calls_lt
    refine ⟨r, u', r, _, hu, hs, hlength, fun _ ↦ ⟨rfl, ?_, ?_, ?_⟩, fun hle ↦ absurd hle ?_⟩
    · rw [monitor_oversee]
    · rw [counters, monitor_oversee, he'.counters]
      rfl
    · rw [monitor_oversee]
      exact he'.asked
    · exact Nat.not_le_of_lt hlt
  · obtain ⟨hget, hlt⟩ := getElem?_of_map_eq_range hmap ht
    have hcalls : t.counters.calls + 1 = Monitor.checkFrequency * k := hcut.calls
    refine ⟨r, u', _, _, hu, hs, hlength, fun hlt' ↦ by omega,
      fun _ ↦ ⟨rfl, ?_, t, ?_, ?_, ?_, hphase⟩⟩
    · rw [monitor_oversee]
      exact hcut.asked
    · rwa [← hcalls, Nat.add_sub_cancel]
    · rw [monitor_oversee]
    · rw [counters, monitor_oversee]
      exact hcut.counters

end Chosen

/-- The formula takes more than a thousand calls to refute its first decision, so the first answer is
asked for, and is enough to end the search. -/
theorem solve_ended_detour :
    ∃ info s w', (ofConfig { heuristic := ⟨"heuristic", .random, .first, .first⟩ } fun _ ↦ 0).load
        (⟨11, Formula.detour 8⟩ : ClauseList) = .ok (info, s) ∧
      (s.oversee fun _ ↦ { Monitor.ofConfig s.config fun _ ↦ 0 with
        reporting := true, terminate := some (Monitor.endFrom 1) }).solve =
          .ok (⟨.unknown, none⟩, w') ∧
      w'.counters.calls = 1024 ∧ w'.monitor.asked = 1 := by
  let config : Config := { heuristic := ⟨"heuristic", .random, .first, .first⟩ }
  obtain ⟨info, t, h⟩ := TrailSolver.exists_load 11 (Formula.detour 8)
    (.ofConfig config fun _ ↦ 0) (by decide) (by decide)
  have hloaded : ((TrailSolver.ofConfig config fun _ ↦ 0).load
      (⟨11, Formula.detour 8⟩ : ClauseList)).toOption.map (fun r ↦
        (r.2.problem.formula, r.2.problem.config.heuristic.value, r.2.config.timeLimit.value)) =
      some (Formula.detour 8, .first, 0) := by
    decide +kernel
  rw [h] at hloaded
  obtain ⟨hformula, hrest⟩ := Prod.mk.inj (Option.some.inj hloaded)
  obtain ⟨hfirst, hlimit⟩ := Prod.mk.inj hrest
  obtain ⟨hc, hv, -, -⟩ := TrailSolver.problem_of_load h
  obtain ⟨r, u', r', w', hu, hw, -, hsame, hcut⟩ := solve_ended (k := 1) (load_trail h) hlimit
    (Nat.le_refl 1) (fun _ ↦ 0) (fun _ ↦ 0) false true
  let m := Monitor.ofConfig t.config fun _ ↦ 0
  let m' : Monitor := { m with reporting := true, terminate := some (Monitor.endFrom 1) }
  have hlimit' : m.timeLimit = none := if_pos hlimit
  obtain ⟨v, s₁, hs₁, -, hv₁, -⟩ := Search.solve_of_endless (s := ⟨t.problem, m.start⟩) hc
    (Monitor.endless_of_none hlimit' rfl).start
  obtain ⟨s₂, hs₂, -⟩ := Search.solve_detour (s := ⟨t.problem, m'.start⟩) hc hfirst hformula hv
    ⟨_, rfl, fun i ↦ decide_eq_true (Nat.le_add_left 1 i)⟩ rfl (by decide) (by decide)
  cases hu.symm.trans (solve_trail (t := { t with monitor := m }) hs₁)
  cases hw.symm.trans (solve_trail (t := { t with monitor := m' }) hs₂)
  rcases Nat.lt_or_ge s₁.monitor.counters.calls (Monitor.checkFrequency * 1) with hlt | hge
  · obtain ⟨he, -⟩ := hsame hlt
    exact absurd (congrArg Response.verdict he).symm hv₁
  · obtain ⟨-, hasked, q, -, -, hcounters, -⟩ := hcut hge
    exact ⟨info, _, _, load_trail h, hw, congrArg Counters.calls hcounters, hasked⟩

end Solver

end Dpll
