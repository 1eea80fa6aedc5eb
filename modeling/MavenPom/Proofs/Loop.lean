import MavenPom.Proofs.Action
import Mathlib.Data.Nat.Notation

/-!
# Loops, and steps taken again

A loop takes rounds until one of them fails or gives a result, and it may never end. A step that is
bounded by a count is such a loop where the count never runs out. What a step has left behind makes
it run alike when it is taken again.
-/

namespace MavenPom.Action

variable {σ ε α β κ : Type}

/-! ## Loops -/

/-- The loop that begins with `k` in a state and goes on with what a round leaves to do ends with an
    outcome and leaves a state. -/
inductive Ends (round : κ → Action σ ε (κ ⊕ α)) : κ → σ → Except ε α → σ → Prop where
  | fails {k : κ} {s s' : σ} {e : ε} : Fails (round k) s e s' → Ends round k s (.error e) s'
  | gives {k : κ} {s s' : σ} {x : α} : Runs (round k) s (.inr x) s' → Ends round k s (.ok x) s'
  | goesOn {k k' : κ} {s s' s'' : σ} {outcome : Except ε α} :
      Runs (round k) s (.inl k') s' → Ends round k' s' outcome s'' → Ends round k s outcome s''

section Loop

variable {round : κ → Action σ ε (κ ⊕ α)} {k : κ} {s s' t : σ} {outcome other : Except ε α}

theorem Ends.unique (h : Ends round k s outcome s') (h' : Ends round k s other t) :
    outcome = other ∧ s' = t := by
  induction h with
  | fails hfails =>
    cases h' with
    | fails hfails' =>
      obtain ⟨herror, rfl⟩ := Prod.mk.inj (hfails.symm.trans hfails')
      exact ⟨congrArg _ (Except.error.inj herror), rfl⟩
    | gives hruns => exact absurd hfails (not_fails_of_runs hruns)
    | goesOn hruns => exact absurd hfails (not_fails_of_runs hruns)
  | gives hruns =>
    cases h' with
    | fails hfails => exact absurd hfails (not_fails_of_runs hruns)
    | gives hruns' =>
      obtain ⟨hgiven, rfl⟩ := Prod.mk.inj (hruns.symm.trans hruns')
      exact ⟨congrArg _ (Sum.inr.inj (Except.ok.inj hgiven)), rfl⟩
    | goesOn hruns' => cases (Prod.mk.inj (hruns.symm.trans hruns')).1
  | goesOn hruns _ ih =>
    cases h' with
    | fails hfails => exact absurd hfails (not_fails_of_runs hruns)
    | gives hruns' => cases (Prod.mk.inj (hruns.symm.trans hruns')).1
    | goesOn hruns' hends =>
      obtain ⟨hgiven, rfl⟩ := Prod.mk.inj (hruns.symm.trans hruns')
      obtain rfl := Sum.inl.inj (Except.ok.inj hgiven)
      exact ih hends

/-- In every state the loop ends, and as the step does. -/
def IsLoop (round : κ → Action σ ε (κ ⊕ α)) (k : κ) (a : Action σ ε α) : Prop :=
  ∀ s, Ends round k s (StateT.run (ExceptT.run a) s).1 (StateT.run (ExceptT.run a) s).2

theorem IsLoop.runs_iff {a : Action σ ε α} (h : IsLoop round k a) {x : α} :
    Runs a s x s' ↔ Ends round k s (.ok x) s' := by
  refine ⟨fun hruns => ?_, fun hends => ?_⟩
  · have hends := h s
    rwa [hruns] at hends
  · obtain ⟨houtcome, hleft⟩ := (h s).unique hends
    exact Prod.ext houtcome hleft

end Loop

/-! ## Taking a step again -/

/-- Where the step `a` leaves enough behind, the step `a'` gives the same in every state that is
    related to the one before, and leaves one that is related to the one after. What is enough after
    the step was enough before it. -/
structure Again (Enough : σ → Prop) (R : σ → σ → Prop) (a a' : Action σ ε α) : Prop where
  enough : ∀ {s x s'}, Runs a s x s' → Enough s' → Enough s
  runs : ∀ {s x s'}, Runs a s x s' → Enough s' → ∀ t, R s t → ∃ t', Runs a' t x t' ∧ R s' t'

section Again

variable {Enough : σ → Prop} {R : σ → σ → Prop} {a a' : Action σ ε α}

theorem again_pure (x : α) : Again Enough R (pure x : Action σ ε α) (pure x) := by
  refine ⟨fun hruns henough => ?_, fun hruns _ t hrel => ?_⟩
  · obtain ⟨-, rfl⟩ := runs_pure.mp hruns
    exact henough
  · obtain ⟨rfl, rfl⟩ := runs_pure.mp hruns
    exact ⟨t, runs_pure.mpr ⟨rfl, rfl⟩, hrel⟩

theorem again_throw (e : ε) : Again Enough R (throw e : Action σ ε α) a' :=
  ⟨fun hruns => absurd hruns not_runs_throw, fun hruns => absurd hruns not_runs_throw⟩

theorem again_bind {f f' : α → Action σ ε β} (ha : Again Enough R a a')
    (hf : ∀ x, Again Enough R (f x) (f' x)) : Again Enough R (a >>= f) (a' >>= f') := by
  refine ⟨fun hruns henough => ?_, fun hruns henough t hrel => ?_⟩
  · obtain ⟨x, s₁, hfirst, hrest⟩ := runs_bind.mp hruns
    exact ha.enough hfirst ((hf x).enough hrest henough)
  · obtain ⟨x, s₁, hfirst, hrest⟩ := runs_bind.mp hruns
    obtain ⟨t₁, hfirst', hrel₁⟩ := ha.runs hfirst ((hf x).enough hrest henough) t hrel
    obtain ⟨t₂, hrest', hrel₂⟩ := (hf x).runs hrest henough t₁ hrel₁
    exact ⟨t₂, runs_bind.mpr ⟨x, t₁, hfirst', hrest'⟩, hrel₂⟩

theorem again_foldlM {f f' : β → α → Action σ ε β} (hf : ∀ x a, Again Enough R (f x a) (f' x a))
    (as : List α) (x : β) : Again Enough R (as.foldlM f x) (as.foldlM f' x) := by
  induction as generalizing x with
  | nil => exact again_pure x
  | cons a as ih =>
    rw [List.foldlM_cons, List.foldlM_cons]
    exact again_bind (hf x a) ih

/-- A loop is taken again round by round. -/
theorem again_loop {round round' : κ → Action σ ε (κ ⊕ α)} {k : κ} (ha : IsLoop round k a)
    (ha' : IsLoop round' k a') (hround : ∀ k, Again Enough R (round k) (round' k)) :
    Again Enough R a a' := by
  have hends : ∀ {k s outcome s'}, Ends round k s outcome s' → ∀ x, outcome = .ok x →
      Enough s' → Enough s ∧ ∀ t, R s t → ∃ t', Ends round' k t (.ok x) t' ∧ R s' t' := by
    intro k s outcome s' h
    induction h with
    | fails => exact fun x heq => absurd heq (by simp)
    | gives hruns =>
      rintro x heq henough
      obtain rfl := Except.ok.inj heq
      refine ⟨(hround _).enough hruns henough, fun t hrel => ?_⟩
      obtain ⟨t', hruns', hrel'⟩ := (hround _).runs hruns henough t hrel
      exact ⟨t', .gives hruns', hrel'⟩
    | goesOn hruns _ ih =>
      intro x heq henough
      obtain ⟨henough₁, hrest⟩ := ih x heq henough
      refine ⟨(hround _).enough hruns henough₁, fun t hrel => ?_⟩
      obtain ⟨t₁, hruns', hrel₁⟩ := (hround _).runs hruns henough₁ t hrel
      obtain ⟨t', hends', hrel'⟩ := hrest t₁ hrel₁
      exact ⟨t', .goesOn hruns' hends', hrel'⟩
  refine ⟨fun hruns henough => ?_, fun hruns henough t hrel => ?_⟩
  · exact (hends (ha.runs_iff.mp hruns) _ rfl henough).1
  · obtain ⟨t', hends', hrel'⟩ := (hends (ha.runs_iff.mp hruns) _ rfl henough).2 t hrel
    exact ⟨t', ha'.runs_iff.mpr hends', hrel'⟩

/-- An invariant is kept by a step that is taken again in the same state. -/
theorem again_self {I : σ → Prop} (henough : ∀ {s x s'}, Runs a s x s' → Enough s' → Enough s)
    (h : ∀ {s x s'}, Runs a s x s' → Enough s' → I s → I s') :
    Again Enough (fun s t => t = s ∧ I s) a a := by
  refine ⟨henough, ?_⟩
  rintro s x s' hruns hleft _ ⟨rfl, hinv⟩
  exact ⟨s', hruns, rfl, h hruns hleft hinv⟩

theorem Again.invariant {I : σ → Prop} {s s' : σ} {x : α}
    (h : Again Enough (fun s t => t = s ∧ I s) a a) (hruns : Runs a s x s') (hleft : Enough s')
    (hinv : I s) : I s' := by
  obtain ⟨t, -, -, hinv'⟩ := h.runs hruns hleft s ⟨rfl, hinv⟩
  exact hinv'

end Again

theorem run_bind_pure (a : Action σ ε α) (f : α → β) (s : σ) :
    StateT.run (ExceptT.run (a >>= fun x => pure (f x))) s =
      ((StateT.run (ExceptT.run a) s).1.map f, (StateT.run (ExceptT.run a) s).2) := by
  rw [run_bind]
  cases StateT.run (ExceptT.run a) s with
  | mk result s' => cases result <;> rfl

/-! ## Loops that are computed -/

theorem runs_iff {a : Action σ ε α} {s s' : σ} {x : α} :
    Runs a s x s' ↔ (StateT.run (ExceptT.run a) s).1.toOption = some x ∧
      (StateT.run (ExceptT.run a) s).2 = s' := by
  rw [Runs]
  cases StateT.run (ExceptT.run a) s with
  | mk result t =>
    cases result with
    | error e => exact ⟨fun h => (by cases (Prod.mk.inj h).1), fun h => by cases h.1⟩
    | ok y =>
      refine ⟨fun h => ?_, ?_⟩
      · obtain ⟨hx, ht⟩ := Prod.mk.inj h
        exact ⟨congrArg some (Except.ok.inj hx), ht⟩
      · rintro ⟨hx, rfl⟩
        obtain rfl := Option.some.inj hx
        rfl

instance [DecidableEq α] [DecidableEq σ] (a : Action σ ε α) (s s' : σ) (x : α) :
    Decidable (Runs a s x s') :=
  decidable_of_iff _ runs_iff.symm

/-- The first rounds of a loop, as far as it takes them. -/
def rounds (round : κ → Action σ ε (κ ⊕ α)) : ℕ → κ → Action σ ε (κ ⊕ α)
  | 0, k => pure (.inl k)
  | n + 1, k => do
    match ← round k with
    | .inl k' => rounds round n k'
    | .inr x => pure (.inr x)

theorem ends_of_rounds {round : κ → Action σ ε (κ ⊕ α)} {n : ℕ} {k : κ} {s s' : σ} {x : α}
    (h : Runs (rounds round n k) s (.inr x) s') : Ends round k s (.ok x) s' := by
  induction n generalizing k s with
  | zero => cases (runs_pure.mp h).1
  | succ n ih =>
    obtain ⟨next, s₁, hfirst, hrest⟩ := runs_bind.mp h
    cases next with
    | inl k' => exact .goesOn hfirst (ih hrest)
    | inr y =>
      obtain ⟨heq, rfl⟩ := runs_pure.mp hrest
      obtain rfl := Sum.inr.inj heq
      exact .gives hfirst

end MavenPom.Action
