namespace Dpll

/-- A change made in place, step by step. What was written before a fault stays written. -/
abbrev Update (σ ε α : Type) := ExceptT ε (StateM σ) α

namespace Update

variable {σ ε α β : Type}

def on (u : Update σ ε α) (s : σ) : Except ε α × σ := StateT.run (ExceptT.run u) s

/-- A change with the result of a whole operation, which writes nothing if that meets a fault. -/
def orKeep (s : σ) : Except ε (α × σ) → Except ε α × σ
  | .error e => (.error e, s)
  | .ok (a, t) => (.ok a, t)

def fail? : Option ε → Update σ ε Unit
  | some e => throw e
  | none => return

def read {τ : Type} (f : σ → Except ε α × σ) : Update (τ × σ) ε α :=
  ExceptT.mk (modifyGet fun (t, s) ↦ ((f s).1, t, (f s).2))

theorem on_pure (a : α) (s : σ) : (pure a : Update σ ε α).on s = (.ok a, s) := rfl

theorem on_get (s : σ) : (get : Update σ ε σ).on s = (.ok s, s) := rfl

theorem on_modify (f : σ → σ) (s : σ) : (modify f : Update σ ε PUnit).on s = (.ok (), f s) := rfl

theorem on_read {τ : Type} (f : σ → Except ε α × σ) (t : τ) (s : σ) :
    (read f).on (t, s) = ((f s).1, t, (f s).2) := rfl

theorem on_bind (u : Update σ ε α) (k : α → Update σ ε β) (s : σ) :
    (u >>= k).on s =
      match u.on s with
      | (.ok a, t) => (k a).on t
      | (.error e, t) => (.error e, t) := by
  change StateT.run (ExceptT.run u >>= ExceptT.bindCont k) s = _
  rw [StateT.run_bind]
  change (match u.on s with | (a, t) => StateT.run (ExceptT.bindCont k a) t) = _
  obtain ⟨_ | _, t⟩ := u.on s <;> rfl

theorem on_forM_modify (f : α → σ → σ) (as : List α) (s : σ) :
    (forM as fun a ↦ (modify (f a) : Update σ ε PUnit)).on s =
      (.ok (), as.foldl (fun s a ↦ f a s) s) := by
  induction as generalizing s with
  | nil => rfl
  | cons a as ih =>
    rw [List.forM_cons, on_bind, on_modify]
    exact ih (f a s)

end Update

end Dpll
