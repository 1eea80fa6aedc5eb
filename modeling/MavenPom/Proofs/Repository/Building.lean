import Mathlib.Data.List.Duplicate
import MavenPom.Proofs.Repository.Climb

/-!
# How models are built

Building the model of a lineage always ends. The way up has no bound of its own, but there are
finitely many POMs and it passes no artifact twice, and imports nest no deeper than a limit. A model
that is built has all its ancestors and all that it imports. So there is none where the parents come
round to an artifact again, where the imports come round to a POM again, or where they nest too
deeply.
-/

namespace MavenPom

open MavenPom.Action (Runs Fails Ends)

/-- The POM that a POM names as its parent, if it says of which version. -/
def Pom.parentPom? (p : Pom) : Option PomKey :=
  p.parent.bind fun q => q.version.map fun version => ⟨q.groupId, q.artifactId, version⟩

theorem Pom.parentKey?_of_parentPom? {p : Pom} {key : PomKey} (h : p.parentPom? = some key) :
    p.parentKey? = some key.artifact := by
  obtain ⟨q, hparent, hversion⟩ := Option.bind_eq_some_iff.mp h
  obtain ⟨version, -, rfl⟩ := Option.map_eq_some_iff.mp hversion
  rw [parentKey?, hparent]
  rfl

theorem Action.IsLoop.ends_iff {σ ε α κ : Type} {round : κ → Action σ ε (κ ⊕ α)} {k : κ}
    {a : Action σ ε α} (h : IsLoop round k a) {s s' : σ} {outcome : Except ε α} :
    Ends round k s outcome s' ↔ StateT.run (ExceptT.run a) s = (outcome, s') := by
  refine ⟨fun hends => ?_, fun hrun => ?_⟩
  · obtain ⟨houtcome, hleft⟩ := (h s).unique hends
    exact Prod.ext houtcome hleft
  · have hends := h s
    rwa [hrun] at hends

namespace Resolver

variable {r : Resolver} {s s' : PomStore} {m bom : EffectiveModel} {d : DeclaredDependency}
  {ds : List DeclaredDependency} {lineage whole : List Pom} {depth levels : ℕ} {e : BuildError}
  {modelOf : Pom → Resolving EffectiveModel}

/-! ## Without bounds -/

mutual

/-- Building the model of a lineage, which is imported by `depth` others in a row, ends with an
    outcome and leaves a store. The way up goes on for as long as there are parents. -/
inductive Evaluates (r : Resolver) : ℕ → List Pom → PomStore → Except BuildError EffectiveModel →
    PomStore → Prop where
  | fails {depth : ℕ} {lineage : List Pom} {s s' : PomStore} {e : BuildError} :
      Ends (climbRound r) ⟨[], lineage⟩ s (.error e) s' →
      Evaluates r depth lineage s (.error e) s'
  | nestsTooDeeply {depth : ℕ} {lineage whole : List Pom} {s s' : PomStore} :
      Ends (climbRound r) ⟨[], lineage⟩ s (.ok whole) s' →
      (EffectiveModel.build whole r.selection).imports ≠ [] → importLimit ≤ depth →
      Evaluates r depth lineage s (.error (.invalidModel
        (coordinateOf (EffectiveModel.build whole r.selection))
        ["import-scoped BOMs nest too deeply"])) s'
  | imports {depth : ℕ} {lineage whole : List Pom} {s t s' : PomStore}
      {outcome : Except BuildError EffectiveModel} :
      Ends (climbRound r) ⟨[], lineage⟩ s (.ok whole) t →
      ((EffectiveModel.build whole r.selection).imports ≠ [] → depth < importLimit) →
      EvaluatesImports r depth (EffectiveModel.build whole r.selection).imports
        (EffectiveModel.build whole r.selection) t outcome s' →
      Evaluates r depth lineage s outcome s'

/-- Importing models one after the other into a model ends with an outcome and leaves a store. -/
inductive EvaluatesImports (r : Resolver) : ℕ → List DeclaredDependency → EffectiveModel →
    PomStore → Except BuildError EffectiveModel → PomStore → Prop where
  | done {depth : ℕ} {m : EffectiveModel} {s : PomStore} : EvaluatesImports r depth [] m s (.ok m) s
  | lacksName {depth : ℕ} {d : DeclaredDependency} {ds : List DeclaredDependency}
      {m : EffectiveModel} {s : PomStore} : importKey? d = none →
      EvaluatesImports r depth (d :: ds) m s (.error (.invalidModel (coordinateOf m)
        ["import-scoped dependency lacks coordinates"])) s
  | notLoaded {depth : ℕ} {d : DeclaredDependency} {ds : List DeclaredDependency}
      {m : EffectiveModel} {s s' : PomStore} {key : PomKey} {e : BuildError} :
      importKey? d = some key → Fails (PomStore.load r.toPomSource key) s e s' →
      EvaluatesImports r depth (d :: ds) m s (.error e) s'
  | notBuilt {depth : ℕ} {d : DeclaredDependency} {ds : List DeclaredDependency}
      {m : EffectiveModel} {s t s' : PomStore} {key : PomKey} {pom : Pom} {e : BuildError} :
      importKey? d = some key → Runs (PomStore.load r.toPomSource key) s pom t →
      Evaluates r (depth + 1) [pom] t (.error e) s' →
      EvaluatesImports r depth (d :: ds) m s (.error e) s'
  | next {depth : ℕ} {d : DeclaredDependency} {ds : List DeclaredDependency}
      {m bom : EffectiveModel} {s t u s' : PomStore} {key : PomKey} {pom : Pom}
      {outcome : Except BuildError EffectiveModel} :
      importKey? d = some key → Runs (PomStore.load r.toPomSource key) s pom t →
      Evaluates r (depth + 1) [pom] t (.ok bom) u →
      EvaluatesImports r depth ds (m.importManaged bom) u outcome s' →
      EvaluatesImports r depth (d :: ds) m s outcome s'

end

theorem runs_addImport_iff {next : EffectiveModel} : Runs (addImport r modelOf m d) s next s' ↔
    ∃ key pom t bom, importKey? d = some key ∧ Runs (PomStore.load r.toPomSource key) s pom t ∧
      Runs (modelOf pom) t bom s' ∧ next = m.importManaged bom := by
  rw [addImport]
  cases importKey? d with
  | none => simp [Action.not_runs_throw]
  | some key =>
    simp only [Action.runs_bind, Action.runs_pure, Option.some.injEq, exists_and_left,
      exists_eq_left']
    constructor
    · rintro ⟨pom, t, hload, bom, u, hmodel, rfl, rfl⟩
      exact ⟨pom, t, hload, bom, hmodel, rfl⟩
    · rintro ⟨pom, t, hload, bom, hmodel, rfl⟩
      exact ⟨pom, t, hload, bom, s', hmodel, rfl, rfl⟩

theorem fails_addImport_iff : Fails (addImport r modelOf m d) s e s' ↔
    (importKey? d = none ∧ s' = s ∧ e = .invalidModel (coordinateOf m)
      ["import-scoped dependency lacks coordinates"]) ∨
    ∃ key, importKey? d = some key ∧ (Fails (PomStore.load r.toPomSource key) s e s' ∨
      ∃ pom t, Runs (PomStore.load r.toPomSource key) s pom t ∧ Fails (modelOf pom) t e s') := by
  rw [addImport]
  cases importKey? d with
  | none =>
    simp only [true_and, reduceCtorEq, false_and, exists_false, or_false]
    refine ⟨fun h => ?_, ?_⟩
    · obtain ⟨he, hs⟩ := Prod.mk.inj h
      exact ⟨hs.symm, (Except.error.inj he).symm⟩
    · rintro ⟨rfl, rfl⟩
      exact Action.fails_throw
  | some key =>
    have hpure : ∀ (bom : EffectiveModel) (t : PomStore),
        ¬Fails (pure (m.importManaged bom) : Resolving EffectiveModel) t e s' := fun bom t h => by
      cases (Prod.mk.inj h).1
    simp only [Action.fails_bind, hpure, and_false, exists_false, or_false, reduceCtorEq, false_and,
      false_or, Option.some.injEq, exists_eq_left']

theorem evaluatesImports_nil {outcome : Except BuildError EffectiveModel} :
    EvaluatesImports r depth [] m s outcome s' ↔ (.ok m, s) = (outcome, s') := by
  refine ⟨fun h => ?_, fun h => ?_⟩
  · cases h
    rfl
  · obtain ⟨rfl, rfl⟩ := Prod.mk.inj h
    exact .done

theorem evaluatesImports_iff (hmodel : ∀ pom s outcome s',
      Evaluates r (depth + 1) [pom] s outcome s' ↔
        StateT.run (ExceptT.run (modelOf pom)) s = (outcome, s'))
    {outcome : Except BuildError EffectiveModel} :
    EvaluatesImports r depth ds m s outcome s' ↔
      StateT.run (ExceptT.run (ds.foldlM (addImport r modelOf) m)) s = (outcome, s') := by
  induction ds generalizing m s with
  | nil => exact evaluatesImports_nil
  | cons d ds ih =>
    rw [List.foldlM_cons]
    refine ⟨fun h => ?_, fun h => ?_⟩
    · cases h with
      | lacksName hnone =>
        exact Action.fails_bind.mpr (.inl (fails_addImport_iff.mpr (.inl ⟨hnone, rfl, rfl⟩)))
      | notLoaded hkey hload =>
        exact Action.fails_bind.mpr (.inl (fails_addImport_iff.mpr (.inr ⟨_, hkey, .inl hload⟩)))
      | notBuilt hkey hload hbom =>
        exact Action.fails_bind.mpr (.inl (fails_addImport_iff.mpr
          (.inr ⟨_, hkey, .inr ⟨_, _, hload, (hmodel ..).mp hbom⟩⟩)))
      | next hkey hload hbom hrest =>
        have hfirst : StateT.run (ExceptT.run (addImport r modelOf m d)) s = _ :=
          runs_addImport_iff.mpr ⟨_, _, _, _, hkey, hload, (hmodel ..).mp hbom, rfl⟩
        rw [Action.run_bind, hfirst]
        exact ih.mp hrest
    · rw [Action.run_bind] at h
      cases hfirst : StateT.run (ExceptT.run (addImport r modelOf m d)) s with
      | mk result t =>
        rw [hfirst] at h
        cases result with
        | error e =>
          obtain ⟨rfl, rfl⟩ := Prod.mk.inj h
          rcases fails_addImport_iff.mp hfirst with
            ⟨hnone, rfl, rfl⟩ | ⟨key, hkey, hload | ⟨pom, u, hload, hbom⟩⟩
          · exact .lacksName hnone
          · exact .notLoaded hkey hload
          · exact .notBuilt hkey hload ((hmodel ..).mpr hbom)
        | ok next =>
          obtain ⟨key, pom, u, bom, hkey, hload, hbom, rfl⟩ := runs_addImport_iff.mp hfirst
          exact .next hkey hload ((hmodel ..).mpr hbom) (ih.mpr h)

theorem evaluates_iff_of_fails {outcome : Except BuildError EffectiveModel} {t : PomStore}
    (hends : Ends (climbRound r) ⟨[], lineage⟩ s (.error e) t) :
    Evaluates r depth lineage s outcome s' ↔ (.error e, t) = (outcome, s') := by
  refine ⟨fun h => ?_, fun h => ?_⟩
  · cases h with
    | fails hends' =>
      obtain ⟨heq, rfl⟩ := hends.unique hends'
      obtain rfl := Except.error.inj heq
      rfl
    | nestsTooDeeply hends' => cases (hends.unique hends').1
    | imports hends' => cases (hends.unique hends').1
  · obtain ⟨rfl, rfl⟩ := Prod.mk.inj h
    exact .fails hends

/-- A model whose lineage has all its ancestors imports what it names, unless it is nested too
    deeply. -/
def Finishes (r : Resolver) (depth : ℕ) (m : EffectiveModel) (s : PomStore)
    (outcome : Except BuildError EffectiveModel) (s' : PomStore) : Prop :=
  (m.imports ≠ [] ∧ importLimit ≤ depth ∧ outcome = .error (.invalidModel (coordinateOf m)
    ["import-scoped BOMs nest too deeply"]) ∧ s' = s) ∨
  ((m.imports ≠ [] → depth < importLimit) ∧ EvaluatesImports r depth m.imports m s outcome s')

theorem evaluates_iff_of_whole {outcome : Except BuildError EffectiveModel} {t : PomStore}
    (hends : Ends (climbRound r) ⟨[], lineage⟩ s (.ok whole) t) :
    Evaluates r depth lineage s outcome s' ↔
      Finishes r depth (EffectiveModel.build whole r.selection) t outcome s' := by
  refine ⟨fun h => ?_, ?_⟩
  · cases h with
    | fails hends' => cases (hends.unique hends').1
    | nestsTooDeeply hends' himports hdepth =>
      obtain ⟨heq, rfl⟩ := hends.unique hends'
      obtain rfl := Except.ok.inj heq
      exact .inl ⟨himports, hdepth, rfl, rfl⟩
    | imports hends' hdepth himports =>
      obtain ⟨heq, rfl⟩ := hends.unique hends'
      obtain rfl := Except.ok.inj heq
      exact .inr ⟨hdepth, himports⟩
  · rintro (⟨himports, hdepth, rfl, rfl⟩ | ⟨hdepth, himports⟩)
    · exact .nestsTooDeeply hends himports hdepth
    · exact .imports hends hdepth himports

theorem evaluates_iff_bind {rest : List Pom → Resolving EffectiveModel}
    {outcome : Except BuildError EffectiveModel}
    (hrest : ∀ whole t, Finishes r depth (EffectiveModel.build whole r.selection) t outcome s' ↔
      StateT.run (ExceptT.run (rest whole)) t = (outcome, s')) :
    Evaluates r depth lineage s outcome s' ↔
      StateT.run (ExceptT.run (complete r lineage >>= rest)) s = (outcome, s') := by
  rw [Action.run_bind]
  cases hfirst : StateT.run (ExceptT.run (complete r lineage)) s with
  | mk result t =>
    have hends := (isLoop_complete r lineage).ends_iff.mpr hfirst
    cases result with
    | error e => exact evaluates_iff_of_fails hends
    | ok whole => exact (evaluates_iff_of_whole hends).trans (hrest whole t)

/-- The model that is built within as many levels as the limit leaves is that without bounds. -/
theorem evaluates_iff (hlevels : levels + depth = importLimit)
    {outcome : Except BuildError EffectiveModel} :
    Evaluates r depth lineage s outcome s' ↔
      StateT.run (ExceptT.run (modelWithin r levels lineage)) s = (outcome, s') := by
  induction levels generalizing depth lineage s s' outcome with
  | zero =>
    refine evaluates_iff_bind fun whole t => ?_
    dsimp only
    generalize EffectiveModel.build whole r.selection = m
    have hdepth : importLimit ≤ depth := by omega
    rw [Finishes]
    by_cases himports : m.imports = []
    · simp only [himports, ne_eq, not_true_eq_false, false_and, false_or, false_implies, true_and,
        evaluatesImports_nil, List.isEmpty_nil, if_true]
      exact Iff.rfl
    · rw [if_neg (by simpa using himports)]
      refine ⟨?_, fun h => ?_⟩
      · rintro (⟨-, -, rfl, rfl⟩ | ⟨hbelow, -⟩)
        · rfl
        · exact absurd (hbelow himports) (Nat.not_lt.mpr hdepth)
      · obtain ⟨rfl, rfl⟩ := Prod.mk.inj h
        exact .inl ⟨himports, hdepth, rfl, rfl⟩
  | succ levels ih =>
    refine evaluates_iff_bind fun whole t => ?_
    have hdepth : depth < importLimit := by omega
    rw [Finishes, evaluatesImports_iff fun pom s outcome s' =>
      ih (by omega : levels + (depth + 1) = importLimit)]
    simp only [Nat.not_le.mpr hdepth, hdepth, false_and, and_false, false_or, implies_true,
      true_and]

end Resolver

/-! ## Repositories -/

section Repository

variable {pomOf : PomKey → Option Pom} {selection : ProfileSelection} {lineage whole : List Pom}
  {keys : List PomKey} {key : PomKey} {bom p : Pom}

/-- The POMs that are loaded are those of a repository. -/
def PomStore.Agrees (pomOf : PomKey → Option Pom) (s : PomStore) : Prop :=
  ∀ key pom, s.loaded.get? key = some pom → pomOf key = some pom

theorem PomStore.Agrees.of_grows {s s' : PomStore} (h : Agrees pomOf s') (hgrows : Grows s s') :
    Agrees pomOf s :=
  fun key pom hpom => h key pom (hgrows key pom hpom)

/-- The artifacts that parent references name one after the other, from a POM on. -/
inductive ParentChain (pomOf : PomKey → Option Pom) : Pom → List ArtifactKey → Prop where
  | last {p : Pom} {ref : ArtifactKey} : p.parentKey? = some ref → ParentChain pomOf p [ref]
  | cons {p parent : Pom} {key : PomKey} {refs : List ArtifactKey} :
      p.parentPom? = some key → pomOf key = some parent → ParentChain pomOf parent refs →
      ParentChain pomOf p (key.artifact :: refs)

/-- A lineage is extended by parents up to a POM without one. -/
inductive Ascends (pomOf : PomKey → Option Pom) : List Pom → List Pom → Prop where
  | top {lineage : List Pom} : lineage.head?.bind (·.parent) = none → Ascends pomOf lineage lineage
  | up {p parent : Pom} {key : PomKey} {lineage whole : List Pom} :
      p.parentPom? = some key → pomOf key = some parent →
      Ascends pomOf (parent :: p :: lineage) whole → Ascends pomOf (p :: lineage) whole

/-- The POMs that are imported one by the other, from a lineage on. -/
inductive ImportChain (pomOf : PomKey → Option Pom) (selection : ProfileSelection) :
    List Pom → List PomKey → Prop where
  | last {lineage whole : List Pom} {d : DeclaredDependency} {key : PomKey} :
      Ascends pomOf lineage whole → d ∈ (EffectiveModel.build whole selection).imports →
      Resolver.importKey? d = some key → ImportChain pomOf selection lineage [key]
  | cons {lineage whole : List Pom} {d : DeclaredDependency} {key : PomKey} {bom : Pom}
      {keys : List PomKey} :
      Ascends pomOf lineage whole → d ∈ (EffectiveModel.build whole selection).imports →
      Resolver.importKey? d = some key → pomOf key = some bom →
      ImportChain pomOf selection [bom] keys → ImportChain pomOf selection lineage (key :: keys)

/-- The model of a lineage with all its ancestors and all that it imports. The imports nest in no
    more than some levels. -/
def IsModel (pomOf : PomKey → Option Pom) (selection : ProfileSelection) :
    ℕ → List Pom → EffectiveModel → Prop
  | 0, lineage, m => ∃ whole, Ascends pomOf lineage whole ∧
      m = EffectiveModel.build whole selection ∧ m.imports = []
  | levels + 1, lineage, m => ∃ whole boms, Ascends pomOf lineage whole ∧
      List.Forall₂ (fun d bom => ∃ key pom, Resolver.importKey? d = some key ∧
        pomOf key = some pom ∧ IsModel pomOf selection levels [pom] bom)
        (EffectiveModel.build whole selection).imports boms ∧
      m = boms.foldl EffectiveModel.importManaged (EffectiveModel.build whole selection)

theorem Pom.parent_of_parentPom? (h : p.parentPom? = some key) : p.parent ≠ none := by
  intro hnone
  rw [parentPom?, hnone] at h
  cases h

theorem Ascends.unique {whole' : List Pom} (h : Ascends pomOf lineage whole)
    (h' : Ascends pomOf lineage whole') : whole = whole' := by
  induction h with
  | top htop =>
    cases h' with
    | top => rfl
    | up hparent => exact absurd htop (Pom.parent_of_parentPom? hparent)
  | up hparent hpom _ ih =>
    cases h' with
    | top htop => exact absurd htop (Pom.parent_of_parentPom? hparent)
    | up hparent' hpom' hrest =>
      obtain rfl := Option.some.inj (hparent.symm.trans hparent')
      obtain rfl := Option.some.inj (hpom.symm.trans hpom')
      exact ih hrest

/-- Where there is a model, nothing nests deeper than its levels. -/
theorem IsModel.length_le {levels : ℕ} {m : EffectiveModel}
    (h : IsModel pomOf selection levels lineage m)
    (hchain : ImportChain pomOf selection lineage keys) : keys.length ≤ levels := by
  induction levels generalizing lineage m keys with
  | zero =>
    obtain ⟨whole, hwhole, rfl, himports⟩ := h
    cases hchain with
    | last hwhole' hd =>
      obtain rfl := hwhole.unique hwhole'
      rw [himports] at hd
      cases hd
    | cons hwhole' hd =>
      obtain rfl := hwhole.unique hwhole'
      rw [himports] at hd
      cases hd
  | succ levels ih =>
    obtain ⟨whole, boms, hwhole, hboms, -⟩ := h
    cases hchain with
    | last => exact Nat.succ_le_succ (Nat.zero_le levels)
    | cons hwhole' hd hkey hpom hrest =>
      obtain rfl := hwhole.unique hwhole'
      obtain ⟨i, hi, rfl⟩ := List.getElem_of_mem hd
      obtain ⟨key', pom, hkey', hpom', hmodel⟩ := (List.forall₂_iff_get.mp hboms).2 i hi
        (hboms.length_eq ▸ hi)
      obtain rfl := Option.some.inj (hkey.symm.trans hkey')
      obtain rfl := Option.some.inj (hpom.symm.trans hpom')
      exact Nat.succ_le_succ (ih hmodel hrest)

theorem ImportChain.step {rest : List PomKey} (hrest : rest ≠ [])
    (h : ImportChain pomOf selection lineage (key :: rest)) :
    ∃ bom, pomOf key = some bom ∧ ImportChain pomOf selection [bom] rest ∧
      ∀ other, ImportChain pomOf selection [bom] other →
        ImportChain pomOf selection lineage (key :: other) := by
  cases h with
  | last => exact absurd rfl hrest
  | cons hwhole hd hkey hpom hchain =>
    exact ⟨_, hpom, hchain, fun other hother => .cons hwhole hd hkey hpom hother⟩

/-- A chain goes on from where it passes a POM as another one that begins there. -/
theorem ImportChain.graft {xs ys zs : List PomKey}
    (h : ImportChain pomOf selection lineage (xs ++ key :: ys)) (hbom : pomOf key = some bom)
    (hzs : ImportChain pomOf selection [bom] zs) :
    ImportChain pomOf selection lineage (xs ++ key :: zs) := by
  induction xs generalizing lineage with
  | nil =>
    cases h with
    | last hwhole hd hkey => exact .cons hwhole hd hkey hbom hzs
    | cons hwhole hd hkey _ _ => exact .cons hwhole hd hkey hbom hzs
  | cons x xs ih =>
    obtain ⟨_, -, hchain, hjoin⟩ := h.step (by simp)
    exact hjoin _ (ih hchain)

theorem ImportChain.beyond {xs ys : List PomKey} (hys : ys ≠ [])
    (h : ImportChain pomOf selection lineage (xs ++ key :: ys)) :
    ∃ bom, pomOf key = some bom ∧ ImportChain pomOf selection [bom] ys := by
  induction xs generalizing lineage with
  | nil =>
    obtain ⟨bom, hbom, hchain, -⟩ := h.step hys
    exact ⟨bom, hbom, hchain⟩
  | cons x xs ih =>
    obtain ⟨_, -, hchain, -⟩ := h.step (by simp)
    exact ih hchain

/-- Where imports come round to a POM again, they go round as often as one likes. -/
theorem ImportChain.unbounded (h : ImportChain pomOf selection lineage keys) (hround : ¬keys.Nodup)
    (n : ℕ) : ∃ longer, ImportChain pomOf selection lineage longer ∧ n < longer.length := by
  obtain ⟨key, hdup⟩ := List.exists_duplicate_iff_not_nodup.mpr hround
  obtain ⟨front, back, rfl, hfront, hback⟩ :=
    List.cons_sublist_iff.mp (List.duplicate_iff_sublist.mp hdup)
  obtain ⟨xs, ys, rfl⟩ := List.append_of_mem hfront
  obtain ⟨ys', zs, rfl⟩ := List.append_of_mem (List.singleton_sublist.mp hback)
  rw [List.append_assoc, List.cons_append, ← List.append_assoc] at h
  -- what begins at `key` comes back to it, and may go on there as it began
  obtain ⟨bom, hbom, hround⟩ := h.beyond (by simp)
  have hrounds : ∀ n, ∃ longer, ImportChain pomOf selection [bom] longer ∧ n ≤ longer.length := by
    intro n
    induction n with
    | zero => exact ⟨_, hround, Nat.zero_le _⟩
    | succ n ih =>
      obtain ⟨longer, hlonger, hn⟩ := ih
      refine ⟨_, hround.graft hbom hlonger, ?_⟩
      rw [List.length_append, List.length_cons]
      omega
  obtain ⟨longer, hlonger, hn⟩ := hrounds n
  refine ⟨_, h.graft hbom hlonger, ?_⟩
  rw [List.length_append, List.length_cons]
  omega

end Repository

namespace Resolver

/-! ## What is built -/

section Built

variable {r : Resolver} {s s' : PomStore} {m : EffectiveModel} {lineage whole : List Pom}
  {pomOf : PomKey → Option Pom}

open PomStore (Agrees Grows)

theorem lacking_eq_none {visited : List ArtifactKey} (h : lacking visited lineage = .ok none) :
    lineage.head?.bind (·.parent) = none := by
  rw [lacking] at h
  split at h
  · assumption
  · split at h
    · cases h
    · split at h <;> cases h

theorem lacking_eq_some {visited : List ArtifactKey} {key : PomKey}
    (h : lacking visited lineage = .ok (some key)) :
    ∃ p rest, lineage = p :: rest ∧ p.parentPom? = some key ∧ key.artifact ∉ visited := by
  rw [lacking] at h
  split at h
  · cases h
  · next parent hparent =>
    obtain ⟨p, hhead, hp⟩ := Option.bind_eq_some_iff.mp hparent
    obtain ⟨rest, rfl⟩ := List.head?_eq_some_iff.mp hhead
    split at h
    · cases h
    · next version hversion =>
      split at h
      · cases h
      · next hvisited =>
        obtain rfl := Option.some.inj (Except.ok.inj h)
        refine ⟨p, rest, rfl, ?_, by simpa [PomKey.artifact] using hvisited⟩
        rw [Pom.parentPom?, hp, Option.bind_some, hversion]
        rfl

theorem climbRound_inv {a : Ascent} {next : Ascent ⊕ List Pom}
    (h : Runs (climbRound r a) s next s') :
    (a.lineage.head?.bind (·.parent) = none ∧ next = .inr a.lineage ∧ s' = s) ∨
    ∃ p rest key pom, a.lineage = p :: rest ∧ p.parentPom? = some key ∧ key.artifact ∉ a.visited ∧
      Runs (PomStore.load r.toPomSource key) s pom s' ∧
      next = .inl ⟨key.artifact :: a.visited, pom :: p :: rest⟩ := by
  rw [climbRound] at h
  cases hlacking : lacking a.visited a.lineage with
  | error cause =>
    rw [hlacking] at h
    exact absurd h Action.not_runs_throw
  | ok lacked =>
    rw [hlacking] at h
    cases lacked with
    | none =>
      obtain ⟨rfl, rfl⟩ := Action.runs_pure.mp h
      exact .inl ⟨lacking_eq_none hlacking, rfl, rfl⟩
    | some key =>
      obtain ⟨p, rest, hlineage, hparent, hnew⟩ := lacking_eq_some hlacking
      obtain ⟨pom, t, hload, hpure⟩ := Action.runs_bind.mp h
      obtain ⟨rfl, rfl⟩ := Action.runs_pure.mp hpure
      exact .inr ⟨p, rest, key, pom, hlineage, hparent, hnew, hload, by rw [hlineage]⟩

/-- The way up leads to a lineage with all ancestors, and the parent references on it name no
    artifact twice. -/
theorem ascends_of_ends {a : Ascent} {outcome : Except BuildError (List Pom)}
    (h : Ends (climbRound r) a s outcome s') (hagrees : Agrees pomOf s') :
    ∀ whole, outcome = .ok whole → Grows s s' ∧ Ascends pomOf a.lineage whole ∧
      ∀ p refs, a.lineage.head? = some p → ParentChain pomOf p refs →
        refs.Nodup ∧ ∀ ref ∈ refs, ref ∉ a.visited := by
  induction h with
  | fails => exact fun whole heq => absurd heq (by simp)
  | gives hruns =>
    rintro whole heq
    obtain rfl := Except.ok.inj heq
    rcases climbRound_inv hruns with ⟨htop, hnext, rfl⟩ | ⟨p, rest, key, pom, -, -, -, -, hnext⟩
    · obtain rfl := Sum.inr.inj hnext
      refine ⟨Grows.refl _, .top htop, fun p refs hhead hchain => ?_⟩
      have hparent : p.parent = none := by rwa [hhead] at htop
      cases hchain with
      | last href =>
        rw [Pom.parentKey?, hparent] at href
        cases href
      | cons hparent' => exact absurd hparent (Pom.parent_of_parentPom? hparent')
    · cases hnext
  | goesOn hruns _ ih =>
    intro whole heq
    rcases climbRound_inv hruns with ⟨-, hnext, -⟩ |
      ⟨p, rest, key, pom, hlineage, hparent, hnew, hload, hnext⟩
    · cases hnext
    · obtain rfl := Sum.inl.inj hnext
      obtain ⟨hgrows, hascends, hchains⟩ := ih hagrees whole heq
      obtain ⟨hgrows', hloaded⟩ := PomStore.loaded_of_load hload
      have hpom := hagrees.of_grows hgrows key pom hloaded
      refine ⟨hgrows'.trans hgrows, ?_, fun p' refs hhead hchain => ?_⟩
      · rw [hlineage]
        exact .up hparent hpom hascends
      · obtain rfl : p = p' := by
          rw [hlineage] at hhead
          exact Option.some.inj hhead
        -- a chain from here is one from the parent, behind the parent's artifact
        cases hchain with
        | last href =>
          obtain rfl := Option.some.inj ((Pom.parentKey?_of_parentPom? hparent).symm.trans href)
          exact ⟨List.nodup_singleton _, by simpa using hnew⟩
        | cons hparent' hpom' hrest =>
          obtain rfl := Option.some.inj (hparent.symm.trans hparent')
          obtain rfl := Option.some.inj (hpom.symm.trans hpom')
          obtain ⟨hnodup, hunvisited⟩ := hchains _ _ rfl hrest
          refine ⟨List.nodup_cons.mpr ⟨fun hmem => ?_, hnodup⟩, fun ref hmem hvisited => ?_⟩
          · exact hunvisited _ hmem List.mem_cons_self
          · rcases List.mem_cons.mp hmem with rfl | hmem
            · exact hnew hvisited
            · exact hunvisited ref hmem (List.mem_cons_of_mem _ hvisited)

/-- What is imported one after the other are the models of the POMs that the imports name. -/
theorem exists_imported {modelOf : Pom → Resolving EffectiveModel}
    {Model : Pom → EffectiveModel → Prop}
    (hgrows : ∀ {pom s bom s'}, Runs (modelOf pom) s bom s' → Grows s s')
    (hmodel : ∀ {pom s bom s'}, Runs (modelOf pom) s bom s' → Agrees pomOf s' → Model pom bom)
    {ds : List DeclaredDependency} {next : EffectiveModel}
    (h : Runs (ds.foldlM (addImport r modelOf) m) s next s') (hagrees : Agrees pomOf s') :
    Grows s s' ∧ ∃ boms, List.Forall₂ (fun d bom => ∃ key pom, importKey? d = some key ∧
      pomOf key = some pom ∧ Model pom bom) ds boms ∧
      next = boms.foldl EffectiveModel.importManaged m := by
  induction ds generalizing m s with
  | nil =>
    obtain ⟨rfl, rfl⟩ := Action.runs_pure.mp h
    exact ⟨Grows.refl _, [], .nil, rfl⟩
  | cons d ds ih =>
    rw [List.foldlM_cons] at h
    obtain ⟨m', t, hfirst, hrest⟩ := Action.runs_bind.mp h
    obtain ⟨key, pom, u, bom, hkey, hload, hbom, rfl⟩ := runs_addImport_iff.mp hfirst
    obtain ⟨hgrows₂, boms, hboms, rfl⟩ := ih hrest
    obtain ⟨hgrows₀, hloaded⟩ := PomStore.loaded_of_load hload
    have hagrees₁ := hagrees.of_grows hgrows₂
    have hgrows₁ := hgrows hbom
    have hpom := hagrees₁.of_grows hgrows₁ key pom hloaded
    exact ⟨hgrows₀.trans (hgrows₁.trans hgrows₂), bom :: boms,
      .cons ⟨key, pom, hkey, hpom, hmodel hbom hagrees₁⟩ hboms, rfl⟩

theorem grows_modelWithin {levels : ℕ} (h : Runs (modelWithin r levels lineage) s m s') :
    Grows s s' :=
  (again_modelWithin (again_load r.toPomSource s') rfl levels lineage).enough h (Grows.refl s')

/-- A model that is built within some levels has all ancestors and all that it imports, and the
    parent references on the way up name no artifact twice. -/
theorem isModel_of_modelWithin {levels : ℕ} (h : Runs (modelWithin r levels lineage) s m s')
    (hagrees : Agrees pomOf s') : IsModel pomOf r.selection levels lineage m ∧
      ∀ p refs, lineage.head? = some p → ParentChain pomOf p refs → refs.Nodup := by
  induction levels generalizing lineage s s' m with
  | zero =>
    obtain ⟨whole, t, hcomplete, hrest⟩ := Action.runs_bind.mp h
    have hends := (isLoop_complete r lineage).runs_iff.mp hcomplete
    dsimp only at hrest
    split at hrest
    · next himports =>
      obtain ⟨rfl, rfl⟩ := Action.runs_pure.mp hrest
      obtain ⟨-, hwhole, hchains⟩ := ascends_of_ends hends hagrees whole rfl
      exact ⟨⟨whole, hwhole, rfl, List.isEmpty_iff.mp himports⟩,
        fun p refs hhead hchain => (hchains p refs hhead hchain).1⟩
    · exact absurd hrest Action.not_runs_throw
  | succ levels ih =>
    obtain ⟨whole, t, hcomplete, hrest⟩ := Action.runs_bind.mp h
    have hends := (isLoop_complete r lineage).runs_iff.mp hcomplete
    obtain ⟨hgrows, boms, hboms, rfl⟩ := exists_imported grows_modelWithin
      (fun hbom hagrees => (ih hbom hagrees).1) hrest hagrees
    obtain ⟨-, hwhole, hchains⟩ := ascends_of_ends hends (hagrees.of_grows hgrows) whole rfl
    exact ⟨⟨whole, boms, hwhole, hboms, rfl⟩,
      fun p refs hhead hchain => (hchains p refs hhead hchain).1⟩

/-- Building the model of a lineage ends, with one outcome, although the way up is not bounded. A
    model that is built has all ancestors, of which the farthest has no parent, and the models of
    all that it imports, which have so too. Building fails where the references to parents, from the
    farthest POM of the lineage on, name an artifact again, where the imports come round to a POM
    again, and where they nest deeper than the limit, in any repository that has the POMs which are
    loaded. -/
theorem effectiveModel_ends (r : Resolver) (lineage : List Pom) (s : PomStore) :
    ∃ outcome s', (∀ other t, Evaluates r 0 lineage s other t ↔ other = outcome ∧ t = s') ∧
      StateT.run (ExceptT.run (effectiveModel r lineage)) s = (outcome, s') ∧
      (∀ m, outcome = .ok m → IsModel s'.loaded.get? r.selection importLimit lineage m) ∧
      ∀ pomOf, Agrees pomOf s' →
        ((∃ p refs, lineage.head? = some p ∧ ParentChain pomOf p refs ∧ ¬refs.Nodup) ∨
          ∃ keys, ImportChain pomOf r.selection lineage keys ∧
            (¬keys.Nodup ∨ importLimit < keys.length)) →
        ∃ e, outcome = .error e := by
  cases hrun : StateT.run (ExceptT.run (effectiveModel r lineage)) s with
  | mk outcome s' =>
    refine ⟨outcome, s', fun other t => ?_, rfl, ?_, fun pomOf hagrees hround => ?_⟩
    · rw [evaluates_iff (Nat.add_zero importLimit)]
      change StateT.run (ExceptT.run (effectiveModel r lineage)) s = _ ↔ _
      rw [hrun, Prod.mk.injEq, eq_comm, eq_comm (a := s')]
    · rintro m rfl
      exact (isModel_of_modelWithin hrun fun key pom hpom => hpom).1
    · cases outcome with
      | error e => exact ⟨e, rfl⟩
      | ok m =>
        obtain ⟨hmodel, hchains⟩ := isModel_of_modelWithin hrun hagrees
        rcases hround with ⟨p, refs, hhead, hchain, hround⟩ | ⟨keys, hchain, hround | hdeep⟩
        · exact absurd (hchains p refs hhead hchain) hround
        · obtain ⟨longer, hlonger, hlength⟩ := hchain.unbounded hround importLimit
          exact absurd (hmodel.length_le hlonger) (Nat.not_le.mpr hlength)
        · exact absurd (hmodel.length_le hchain) (Nat.not_le.mpr hdeep)

/-- A managed entry without anything but a name and a scope. -/
def managedEntry (key : PomKey) (scope : Option String) : DeclaredDependency :=
  ⟨some key.groupId, some key.artifactId, some key.version, none, none, scope, false, []⟩

/-- A POM with nothing but managed entries. -/
def managingPom (managed : List DeclaredDependency) : Pom :=
  ⟨none, none, none, none, none, Table.empty, [], managed, []⟩

/-- The POMs `g:p` and `g:q` have each other as parents, and `g:b` manages `g:x`. -/
def roundabout : PomStore :=
  ⟨.empty, Table.ofList [(⟨"g", "p", "1"⟩, childOf ⟨"g", "q", "1"⟩),
    (⟨"g", "q", "1"⟩, childOf ⟨"g", "p", "1"⟩),
    (⟨"g", "b", "1"⟩, managingPom [managedEntry ⟨"g", "x", "2"⟩ none])], []⟩

/-- Where the parents go round there is no model, and where a POM is imported there is one. -/
theorem effectiveModel_ends_roundabout :
    let r : Resolver := ⟨⟨"/m2", none⟩, .none⟩
    let child := childOf ⟨"g", "p", "1"⟩
    let importing := managingPom [managedEntry ⟨"g", "b", "1"⟩ (some "import")]
    (Agrees roundabout.loaded.get? roundabout ∧
      ParentChain roundabout.loaded.get? child [⟨"g", "p"⟩, ⟨"g", "q"⟩, ⟨"g", "p"⟩] ∧
      ∃ e, Fails (effectiveModel r [child]) roundabout e roundabout) ∧
    ∃ m, Runs (effectiveModel r [importing]) roundabout m roundabout ∧
      (m.managed.get? ⟨"g", "x"⟩).bind (·.version) = some "2" ∧
      IsModel roundabout.loaded.get? r.selection importLimit [importing] m := by
  intro r child importing
  constructor
  · obtain ⟨outcome, s', -, hrun, -, herror⟩ := effectiveModel_ends r [child] roundabout
    have hleft : (StateT.run (ExceptT.run (effectiveModel r [child])) roundabout).2 =
        roundabout := by
      decide +kernel
    obtain rfl : s' = roundabout := (congrArg Prod.snd hrun).symm.trans hleft
    have hagrees : Agrees roundabout.loaded.get? roundabout := fun _ _ h => h
    have hp : roundabout.loaded.get? ⟨"g", "p", "1"⟩ = some (childOf ⟨"g", "q", "1"⟩) := by
      decide +kernel
    have hq : roundabout.loaded.get? ⟨"g", "q", "1"⟩ = some child := by decide +kernel
    have hchain : ParentChain roundabout.loaded.get? child [⟨"g", "p"⟩, ⟨"g", "q"⟩, ⟨"g", "p"⟩] :=
      .cons rfl hp (.cons rfl hq (.last rfl))
    obtain ⟨e, rfl⟩ := herror _ hagrees (.inl ⟨child, _, rfl, hchain, by decide⟩)
    exact ⟨hagrees, hchain, e, hrun⟩
  · obtain ⟨outcome, s', -, hrun, hmodel, -⟩ := effectiveModel_ends r [importing] roundabout
    have hleft : (StateT.run (ExceptT.run (effectiveModel r [importing])) roundabout).2 =
        roundabout := by
      decide +kernel
    obtain rfl : s' = roundabout := (congrArg Prod.snd hrun).symm.trans hleft
    have hversion : ((StateT.run (ExceptT.run (effectiveModel r [importing]))
        roundabout).1.toOption.bind fun m => (m.managed.get? ⟨"g", "x"⟩).bind (·.version)) =
        some "2" := by
      decide +kernel
    rw [hrun] at hversion
    obtain ⟨m, hm, hversion⟩ := Option.bind_eq_some_iff.mp hversion
    cases outcome with
    | error e => cases hm
    | ok m' =>
      obtain rfl := Option.some.inj hm
      exact ⟨m', hrun, hversion, hmodel m' rfl⟩

end Built

end Resolver

end MavenPom
