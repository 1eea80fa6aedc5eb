import MavenPom.Chain
import MavenPom.Proofs.Action

/-!
# Runs of chains

What every command's turn keeps, a chain keeps. Commands that do not apply are passed over.
-/

namespace MavenPom.Chain

open MavenPom.Action

variable {σ ε : Type} [Modifiable σ] {c : Command σ ε} {ran ran' rest commands : List (Command σ ε)}
  {s s' : σ} {handled : Bool}

/-- The first command handles the request, or the others are tried. -/
theorem runs_forward_cons (h : Runs (forward ran (c :: rest)) s (ran', handled) s') :
    (∃ s₁, Runs c.execute s .handled s₁ ∧ ran' = c :: ran ∧ handled = true ∧
      s' = noteHandled c s₁) ∨
    ∃ s₁, Runs c.execute s .notApplicable s₁ ∧
      Runs (forward (c :: ran) rest) s₁ (ran', handled) s' := by
  rw [forward] at h
  obtain ⟨outcome, s₁, hexecute, h⟩ := runs_bind.mp h
  cases outcome with
  | handled =>
    obtain ⟨_, s₂, hnote, h⟩ := runs_bind.mp h
    obtain rfl := runs_modify.mp hnote
    obtain ⟨hran, rfl⟩ := runs_pure.mp h
    obtain ⟨rfl, rfl⟩ := Prod.mk.inj hran
    exact .inl ⟨s₁, hexecute, rfl, rfl, rfl⟩
  | notApplicable => exact .inr ⟨s₁, hexecute, h⟩

/-- A command that does not apply leaves a request to the others. -/
theorem run_forward_of_notApplicable {s₁ : σ} (h : Runs c.execute s .notApplicable s₁) :
    StateT.run (ExceptT.run (forward ran (c :: rest))) s =
      StateT.run (ExceptT.run (forward (c :: ran) rest)) s₁ := by
  rw [forward, run_bind, h]

/-- A command that deals with a request is the last one. -/
theorem runs_forward_of_handled {s₁ : σ} (h : Runs c.execute s .handled s₁) :
    Runs (forward ran (c :: rest)) s (c :: ran, true) (noteHandled c s₁) :=
  runs_bind.mpr ⟨_, s₁, h, runs_bind.mpr ⟨⟨⟩, _, runs_modify.mpr rfl, runs_pure.mpr ⟨rfl, rfl⟩⟩⟩

/-- In this state, the command does not apply. -/
def Passes (c : Command σ ε) (s : σ) : Prop :=
  ∀ outcome s', Runs c.execute s outcome s' ↔ outcome = .notApplicable ∧ s' = s

/-- In this state, the command handles the request and leaves the state `t`, or else it fails. -/
def Handles (c : Command σ ε) (s : σ) (may : Prop) (t : σ) : Prop :=
  ∀ outcome s', Runs c.execute s outcome s' ↔ outcome = .handled ∧ may ∧ s' = t

theorem Passes.runs_forward_cons (h : Passes c s) {r : List (Command σ ε) × Bool} :
    Runs (forward ran (c :: rest)) s r s' ↔ Runs (forward (c :: ran) rest) s r s' := by
  unfold Runs
  rw [run_forward_of_notApplicable ((h _ _).mpr ⟨rfl, rfl⟩)]

/-- Where no command applies, none handles the request. -/
theorem eq_of_passes (h : ∀ c ∈ commands, Passes c s)
    (hruns : Runs (forward ran commands) s (ran', handled) s') : handled = false ∧ s' = s := by
  induction commands generalizing ran with
  | nil =>
    obtain ⟨hran, rfl⟩ := runs_pure.mp hruns
    exact ⟨(Prod.mk.inj hran).2, rfl⟩
  | cons c rest ih =>
    obtain ⟨hc, hrest⟩ := List.forall_mem_cons.mp h
    exact ih hrest (hc.runs_forward_cons.mp hruns)

theorem Handles.runs_forward_cons {may : Prop} {t : σ} (h : Handles c s may t)
    {r : List (Command σ ε) × Bool} :
    Runs (forward ran (c :: rest)) s r s' ↔ may ∧ r = (c :: ran, true) ∧ s' = noteHandled c t := by
  obtain ⟨ran', handled⟩ := r
  constructor
  · intro hruns
    rcases Chain.runs_forward_cons hruns with ⟨s₁, hexecute, rfl, rfl, rfl⟩ | ⟨s₁, hexecute, -⟩
    · obtain ⟨-, hmay, rfl⟩ := (h _ _).mp hexecute
      exact ⟨hmay, rfl, rfl⟩
    · cases ((h _ _).mp hexecute).1
  · rintro ⟨hmay, hr, rfl⟩
    cases hr
    exact runs_forward_of_handled ((h _ _).mpr ⟨rfl, hmay, rfl⟩)

/-- The commands that run are put before those that have run. -/
theorem exists_of_runs_forward (h : Runs (forward ran commands) s (ran', handled) s') :
    ∃ first, (∀ c ∈ first, c ∈ commands) ∧ ran' = first ++ ran := by
  induction commands generalizing ran s with
  | nil =>
    obtain ⟨hran, -⟩ := runs_pure.mp h
    obtain ⟨rfl, -⟩ := Prod.mk.inj hran
    exact ⟨[], by simp, rfl⟩
  | cons c rest ih =>
    rcases runs_forward_cons h with ⟨s₁, -, rfl, -, -⟩ | ⟨s₁, -, h⟩
    · exact ⟨[c], by simp, rfl⟩
    · obtain ⟨first, hfirst, rfl⟩ := ih h
      refine ⟨first ++ [c], fun c' hc' => ?_, by simp⟩
      rcases List.mem_append.mp hc' with hc' | hc'
      · exact List.mem_cons_of_mem _ (hfirst c' hc')
      · rw [List.mem_singleton.mp hc']
        exact List.mem_cons_self ..

/-- Only commands of the chain run. -/
theorem mem_of_runs_forward (h : Runs (forward ran commands) s (ran', handled) s') :
    ∀ c ∈ ran', c ∈ ran ∨ c ∈ commands := by
  obtain ⟨first, hfirst, rfl⟩ := exists_of_runs_forward h
  intro c hc
  rcases List.mem_append.mp hc with hc | hc
  · exact .inr (hfirst c hc)
  · exact .inl hc

omit [Modifiable σ] in
/-- What is reflexive, transitive and holds of every command's way out holds of the chain's. -/
theorem backward_induction {R : σ → σ → Prop} (hrefl : ∀ s, R s s)
    (htrans : ∀ s s₁ s₂, R s s₁ → R s₁ s₂ → R s s₂)
    (hstep : ∀ c ∈ ran, ∀ s x s', Runs c.postProcess s x s' → R s s') {u : Unit}
    (h : Runs (backward ran) s u s') : R s s' := by
  induction ran generalizing s with
  | nil =>
    obtain ⟨-, rfl⟩ := runs_pure.mp h
    exact hrefl _
  | cons c ran ih =>
    obtain ⟨hc, hran⟩ := List.forall_mem_cons.mp hstep
    rw [backward] at h
    obtain ⟨ends, s₁, hpost, h⟩ := runs_bind.mp h
    refine htrans _ _ _ (hc _ _ _ hpost) ?_
    cases ends with
    | true =>
      obtain ⟨-, rfl⟩ := runs_pure.mp h
      exact hrefl _
    | false => exact ih hran h

/-- Commands that never handle a request all run, before the others. -/
theorem runs_forward_support {R : σ → σ → Prop} (hrefl : ∀ s, R s s)
    (htrans : ∀ {s t u}, R s t → R t u → R s u) {support : List (Command σ ε)}
    (h : ∀ c ∈ support, ∀ s outcome s', Runs c.execute s outcome s' →
      outcome = .notApplicable ∧ R s s')
    (hruns : Runs (forward ran (support ++ rest)) s (ran', handled) s') :
    ∃ s₁, R s s₁ ∧ Runs (forward (support.reverse ++ ran) rest) s₁ (ran', handled) s' := by
  induction support generalizing ran s with
  | nil => exact ⟨s, hrefl s, hruns⟩
  | cons c support ih =>
    obtain ⟨hc, hsupport⟩ := List.forall_mem_cons.mp h
    rcases runs_forward_cons hruns with ⟨s₁, hexecute, -⟩ | ⟨s₁, hexecute, hrest⟩
    · cases (hc _ _ _ hexecute).1
    · obtain ⟨s₂, hkept, hruns⟩ := ih hsupport hrest
      refine ⟨s₂, htrans (hc _ _ _ hexecute).2 hkept, ?_⟩
      rwa [List.reverse_cons, List.append_assoc]

omit [Modifiable σ] in
/-- On the way out, commands that have nothing left to do are passed over. -/
theorem backward_append {first : List (Command σ ε)}
    (h : ∀ c ∈ first, c.postProcess = pure false) : backward (first ++ ran) = backward ran := by
  induction first with
  | nil => rfl
  | cons c first ih =>
    obtain ⟨hc, hfirst⟩ := List.forall_mem_cons.mp h
    rw [List.cons_append, backward, hc, ih hfirst]
    rfl

theorem runs_run (h : Runs (run commands) s handled s') :
    ∃ ran s₁, Runs (forward [] commands) s (ran, handled) s₁ ∧ Runs (backward ran) s₁ () s' := by
  unfold run at h
  obtain ⟨⟨ran, b⟩, s₁, hforward, h⟩ := runs_bind.mp h
  obtain ⟨_, s₂, hbackward, h⟩ := runs_bind.mp h
  obtain ⟨rfl, rfl⟩ := runs_pure.mp h
  exact ⟨ran, s₁, hforward, hbackward⟩

end MavenPom.Chain
