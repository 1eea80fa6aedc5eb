import MavenPom.Action

/-!
# Runs of actions

What a step gives and the state it leaves, where it does not fail. Steps in sequence run one after
the other. What each of them keeps is kept, whether they fail or not.
-/

namespace MavenPom.Action

variable {σ ε α β : Type}

/-- A computation gives a value where each of its steps does. -/
theorem bind_eq_ok {r : Except ε α} {f : α → Except ε β} {y : β} :
    (r >>= f) = .ok y ↔ ∃ x, r = .ok x ∧ f x = .ok y := by
  cases r <;> simp [bind, Except.bind]

theorem ok_of_mapError {r : Except ε α} {f : ε → β} {x : α} (h : r.mapError f = .ok x) :
    r = .ok x := by
  cases r with
  | error e => cases h
  | ok y =>
    cases h
    rfl

/-- The step, taken in state `s`, gives `x` and leaves the state `s'`. -/
def Runs (a : Action σ ε α) (s : σ) (x : α) (s' : σ) : Prop :=
  StateT.run (ExceptT.run a) s = (.ok x, s')

theorem runs_pure {x y : α} {s s' : σ} :
    Runs (pure x : Action σ ε α) s y s' ↔ y = x ∧ s' = s := by
  refine ⟨fun h => ?_, ?_⟩
  · have h' : ((.ok x, s) : Except ε α × σ) = (.ok y, s') := h
    obtain ⟨hx, hs⟩ := Prod.mk.inj h'
    exact ⟨(Except.ok.inj hx).symm, hs.symm⟩
  · rintro ⟨rfl, rfl⟩
    rfl

theorem run_bind (a : Action σ ε α) (f : α → Action σ ε β) (s : σ) :
    StateT.run (ExceptT.run (a >>= f)) s =
      match StateT.run (ExceptT.run a) s with
      | (.ok x, s') => StateT.run (ExceptT.run (f x)) s'
      | (.error e, s') => (.error e, s') := by
  simp only [bind, ExceptT.bind, ExceptT.run, StateT.run, StateT.bind, ExceptT.mk]
  cases h : a s with
  | mk result s' => cases result <;> rfl

theorem runs_bind {a : Action σ ε α} {f : α → Action σ ε β} {s s'' : σ} {y : β} :
    Runs (a >>= f) s y s'' ↔ ∃ x s', Runs a s x s' ∧ Runs (f x) s' y s'' := by
  simp only [Runs, run_bind]
  cases h : StateT.run (ExceptT.run a) s with
  | mk result s' =>
    cases result with
    | ok x =>
      refine ⟨fun hrun => ⟨x, s', rfl, hrun⟩, fun ⟨x', t, heq, hrun⟩ => ?_⟩
      cases heq
      exact hrun
    | error e =>
      refine ⟨fun hrun => ?_, fun ⟨x, t, heq, hrun⟩ => ?_⟩
      · cases hrun
      · cases heq

theorem run_get_bind (f : σ → Action σ ε β) (s : σ) :
    StateT.run (ExceptT.run (get >>= f)) s = StateT.run (ExceptT.run (f s)) s := rfl

theorem runs_pure_bind {x : α} {f : α → Action σ ε β} {s s' : σ} {y : β} :
    Runs (pure x >>= f) s y s' ↔ Runs (f x) s y s' := Iff.rfl

theorem runs_get_bind {f : σ → Action σ ε β} {s s' : σ} {y : β} :
    Runs (get >>= f) s y s' ↔ Runs (f s) s y s' := Iff.rfl

theorem runs_set_bind {t : σ} {f : PUnit → Action σ ε β} {s s' : σ} {y : β} :
    Runs (set t >>= f) s y s' ↔ Runs (f ⟨⟩) t y s' := Iff.rfl

theorem runs_modify {f : σ → σ} {s s' : σ} {u : PUnit} :
    Runs (modify f : Action σ ε PUnit) s u s' ↔ s' = f s := by
  refine ⟨fun h => ?_, ?_⟩
  · have h' : ((.ok u, f s) : Except ε PUnit × σ) = (.ok u, s') := h
    exact (Prod.mk.inj h').2.symm
  · rintro rfl
    rfl

theorem not_runs_throw {e : ε} {s s' : σ} {x : α} :
    ¬Runs (throw e : Action σ ε α) s x s' := by
  intro h
  have h' : ((.error e, s) : Except ε α × σ) = (.ok x, s') := h
  cases (Prod.mk.inj h').1

/-- The step, taken in state `s`, fails with `e` and leaves the state `s'`. -/
def Fails (a : Action σ ε α) (s : σ) (e : ε) (s' : σ) : Prop :=
  StateT.run (ExceptT.run a) s = (.error e, s')

theorem fails_bind {a : Action σ ε α} {f : α → Action σ ε β} {s s'' : σ} {e : ε} :
    Fails (a >>= f) s e s'' ↔
      Fails a s e s'' ∨ ∃ x s', Runs a s x s' ∧ Fails (f x) s' e s'' := by
  simp only [Fails, Runs, run_bind]
  cases h : StateT.run (ExceptT.run a) s with
  | mk result s' =>
    cases result with
    | ok x =>
      refine ⟨fun hrun => .inr ⟨x, s', rfl, hrun⟩, fun hrun => ?_⟩
      rcases hrun with hrun | ⟨x', t, heq, hrun⟩
      · cases hrun
      · cases heq
        exact hrun
    | error e' =>
      refine ⟨fun hrun => ?_, fun hrun => ?_⟩
      · cases hrun
        exact .inl rfl
      · rcases hrun with hrun | ⟨x', t, heq, hrun⟩
        · cases hrun
          rfl
        · cases heq

theorem fails_get_bind {f : σ → Action σ ε β} {s s' : σ} {e : ε} :
    Fails (get >>= f) s e s' ↔ Fails (f s) s e s' := Iff.rfl

theorem run_onPart {τ ε' : Type} (part : τ → σ) (put : τ → σ → τ) (cause : ε → ε')
    (a : Action σ ε α) (s : τ) :
    StateT.run (ExceptT.run (onPart part put cause a)) s =
      ((StateT.run (ExceptT.run a) (part s)).1.mapError cause,
        put s (StateT.run (ExceptT.run a) (part s)).2) := rfl

theorem not_fails_of_runs {a : Action σ ε α} {s s' s'' : σ} {x : α} {e : ε} (h : Runs a s x s') :
    ¬Fails a s e s'' := by
  intro hfails
  rw [Fails, h] at hfails
  cases hfails

theorem fails_throw {e : ε} {s : σ} : Fails (throw e : Action σ ε α) s e s := rfl

/-- The state that the step leaves is related to the one that it is taken in, also
    where it fails. -/
def Keeps (R : σ → σ → Prop) (a : Action σ ε α) : Prop :=
  ∀ s, R s (StateT.run (ExceptT.run a) s).2

section Keeps

variable {R : σ → σ → Prop} {a : Action σ ε α} {f : α → Action σ ε β}

theorem Keeps.of_runs (h : Keeps R a) {s s' : σ} {x : α} (hruns : Runs a s x s') : R s s' := by
  have hkept := h s
  rw [hruns] at hkept
  exact hkept

theorem keeps_pure (hrefl : ∀ s, R s s) (x : α) : Keeps R (pure x : Action σ ε α) := hrefl

theorem keeps_throw (hrefl : ∀ s, R s s) (e : ε) : Keeps R (throw e : Action σ ε α) := hrefl

theorem keeps_get_bind {g : σ → Action σ ε β} (h : ∀ t, Keeps R (g t)) :
    Keeps R (get >>= g) := fun s => h s s

theorem keeps_bind (htrans : ∀ {s t u}, R s t → R t u → R s u) (ha : Keeps R a)
    (hf : ∀ x, Keeps R (f x)) : Keeps R (a >>= f) := by
  intro s
  have hfirst := ha s
  rw [run_bind]
  cases h : StateT.run (ExceptT.run a) s with
  | mk result s' =>
    rw [h] at hfirst
    cases result with
    | ok x => exact htrans hfirst (hf x s')
    | error e => exact hfirst

theorem Keeps.mono {R' : σ → σ → Prop} (h : ∀ {s t}, R s t → R' s t) (ha : Keeps R a) :
    Keeps R' a := fun s => h (ha s)

end Keeps

/-! ## Places that a step ignores -/

/-- A place in a state. It may hold something. -/
structure Cell (σ β : Type) where
  held? : σ → Option β
  /-- Puts something in the place of what is held. -/
  fill : σ → β → σ

/-- A cell of a part of a state. -/
def Cell.ofPart {τ : Type} (part : τ → σ) (put : τ → σ → τ) (cell : Cell σ β) : Cell τ β :=
  ⟨fun s => cell.held? (part s), fun s x => put s (cell.fill (part s) x)⟩

/-- The step, taken in state `s`, neither reads nor changes what a cell holds: it runs alike with
    anything else there. -/
def Ignores (cell : Cell σ β) (a : Action σ ε α) (s : σ) : Prop :=
  ∀ old, cell.held? s = some old →
    cell.held? (StateT.run (ExceptT.run a) s).2 = some old ∧
    ∀ new, StateT.run (ExceptT.run a) (cell.fill s new) =
      ((StateT.run (ExceptT.run a) s).1, cell.fill (StateT.run (ExceptT.run a) s).2 new)

section Ignores

variable {γ : Type} {cell : Cell σ γ} {a : Action σ ε α} {f : α → Action σ ε β} {s : σ}

theorem ignores_pure (x : α) : Ignores cell (pure x : Action σ ε α) s :=
  fun _ hold => ⟨hold, fun _ => rfl⟩

theorem ignores_throw (e : ε) : Ignores cell (throw e : Action σ ε α) s :=
  fun _ hold => ⟨hold, fun _ => rfl⟩

theorem ignores_modify {g : σ → σ} (hheld : cell.held? (g s) = cell.held? s)
    (hfill : ∀ new, g (cell.fill s new) = cell.fill (g s) new) :
    Ignores cell (modify g : Action σ ε PUnit) s := by
  refine fun old hold => ⟨hheld.trans hold, fun new => ?_⟩
  change ((.ok ⟨⟩, g (cell.fill s new)) : Except ε PUnit × σ) = (.ok ⟨⟩, cell.fill (g s) new)
  rw [hfill]

/-- A step that looks at the state ignores a cell where it does not see what the cell holds. -/
theorem ignores_get_bind {g : σ → Action σ ε β} (h : Ignores cell (g s) s)
    (hunseen : ∀ old new, cell.held? s = some old → g (cell.fill s new) = g s) :
    Ignores cell (get >>= g) s := by
  refine fun old hold => ⟨(h old hold).1, fun new => ?_⟩
  change StateT.run (ExceptT.run (g (cell.fill s new))) (cell.fill s new) = _
  rw [hunseen old new hold]
  exact (h old hold).2 new

theorem ignores_bind (ha : Ignores cell a s) (hf : ∀ x s', Runs a s x s' → Ignores cell (f x) s') :
    Ignores cell (a >>= f) s := by
  intro old hold
  obtain ⟨hheld, hfill⟩ := ha old hold
  rw [run_bind]
  cases hrun : StateT.run (ExceptT.run a) s with
  | mk result s' =>
    rw [hrun] at hheld hfill
    cases result with
    | ok x =>
      obtain ⟨hheld', hfill'⟩ := hf x s' hrun old hheld
      refine ⟨hheld', fun new => ?_⟩
      rw [run_bind, hfill new]
      exact hfill' new
    | error e =>
      refine ⟨hheld, fun new => ?_⟩
      rw [run_bind, hfill new]

/-- A step on a part of a state ignores what it ignores in the part. -/
theorem ignores_onPart {τ ε' : Type} {part : τ → σ} {put : τ → σ → τ} {cause : ε → ε'} {s : τ}
    (hpart : ∀ s p, part (put s p) = p) (hput : ∀ s p p', put (put s p) p' = put s p')
    (h : Ignores cell a (part s)) : Ignores (cell.ofPart part put) (onPart part put cause a) s := by
  intro old hold
  obtain ⟨hheld, hfill⟩ := h old hold
  simp only [run_onPart, Cell.ofPart, hpart, hput, hfill]
  exact ⟨hheld, fun new => trivial⟩

end Ignores

end MavenPom.Action
