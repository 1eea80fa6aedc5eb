import Mathlib.Algebra.Group.Action.Defs
import MavenPom.Proofs.Repository.Climb

/-!
# The tour of dependencies

Dependencies are visited in the order of a queue, to whose end those go that a visit finds. Each
artifact is visited once, and those that can be found are declared by the root or in the models of
finitely many POMs, so the tour ends.
-/

namespace MavenPom

open MavenPom.Action (Runs Ends IsLoop)
open EffectiveModel (keys)
open PomStore (Obtainable)

theorem Except.map_map {ε α β γ : Type} (f : α → β) (g : β → γ) (x : Except ε α) :
    (x.map f).map g = x.map (g ∘ f) := by
  cases x <;> rfl

theorem Except.of_mapM_eq_ok {ε α β : Type} {f : α → Except ε β} {g : α → β}
    (hg : ∀ a b, f a = .ok b → b = g a) {as : List α} {bs : List β} (h : as.mapM f = .ok bs) :
    (∀ a ∈ as, f a = .ok (g a)) ∧ bs = as.map g := by
  induction as generalizing bs with
  | nil =>
    obtain rfl := Except.ok.inj h
    exact ⟨fun a ha => absurd ha (by simp), rfl⟩
  | cons a as ih =>
    rw [List.mapM_cons] at h
    cases hfirst : f a with
    | error e => rw [hfirst] at h; cases h
    | ok b =>
      cases hrest : as.mapM f with
      | error e => rw [hfirst, hrest] at h; cases h
      | ok rest =>
        rw [hfirst, hrest] at h
        obtain rfl := Except.ok.inj h
        obtain ⟨hall, rfl⟩ := ih hrest
        obtain rfl := hg a b hfirst
        exact ⟨List.forall_mem_cons.mpr ⟨hfirst, hall⟩, rfl⟩

namespace Resolver

variable {r : Resolver} {root : EffectiveModel} {s s' : PomStore} {p q : Pending} {key : PomKey}
  {child : DeclaredDependency} {children : List Pending}

/-! ## Following -/

/-- What is followed of a declaration in the model of a visited dependency. The root's version
    counts over the declared one. -/
def followed? (root : EffectiveModel) (p : Pending) (child : DeclaredDependency) :
    Option Pending := do
  let key ← child.key?
  let scope ← mediate? p.scope child.scope
  let version ← (pin? root key).or child.version
  if child.optional ∨ p.dependency.excludes key then none
  else some ⟨{ child with
    version := some version
    exclusions := child.exclusions ++ p.dependency.exclusions }, scope⟩

theorem followed?_eq_some : followed? root p child = some q ↔
    ∃ name scope version, child.key? = some name ∧ mediate? p.scope child.scope = some scope ∧
      (pin? root name).or child.version = some version ∧ child.optional = false ∧
      p.dependency.excludes name = false ∧
      q = ⟨{ child with
        version := some version
        exclusions := child.exclusions ++ p.dependency.exclusions }, scope⟩ := by
  simp only [followed?, Option.bind_eq_bind, Option.bind_eq_some_iff]
  constructor
  · rintro ⟨name, hkey, scope, hscope, version, hversion, hfound⟩
    split at hfound
    · cases hfound
    · next hin =>
      obtain ⟨hoptional, hincluded⟩ := not_or.mp hin
      exact ⟨name, scope, version, hkey, hscope, hversion, by simpa using hoptional,
        by simpa using hincluded, (Option.some.inj hfound).symm⟩
  · rintro ⟨name, scope, version, hkey, hscope, hversion, hoptional, hincluded, rfl⟩
    refine ⟨name, hkey, scope, hscope, version, hversion, ?_⟩
    rw [if_neg (by simp [hoptional, hincluded])]

theorem key?_of_followed? (h : followed? root p child = some q) :
    q.dependency.key? = child.key? := by
  obtain ⟨name, scope, version, -, -, -, -, -, rfl⟩ := followed?_eq_some.mp h
  rfl

theorem mediate?_of_isLocalScope {outer inner : String} (h : isLocalScope inner = true) :
    mediate? outer inner = none := by
  have hinner : ¬(inner = "compile" ∨ inner = "runtime") := by
    rintro (rfl | rfl)
    · simp [isLocalScope] at h
    · simp [isLocalScope] at h
  unfold mediate?
  rw [if_neg hinner]

theorem eq_followed?_of_follow {found : Option Pending} (h : follow root p key child = .ok found) :
    found = followed? root p child := by
  rw [follow] at h
  by_cases hout : (child.optional || isLocalScope child.scope) = true
  · rw [if_pos hout] at h
    obtain rfl := Except.ok.inj h
    rcases Bool.or_eq_true_iff.mp hout with hoptional | hlocal
    · cases hkey : child.key? <;> cases hscope : mediate? p.scope child.scope <;>
        simp [followed?, hkey, hscope, hoptional]
    · simp [followed?, mediate?_of_isLocalScope hlocal]
  · rw [if_neg hout] at h
    cases hkey : child.key? with
    | none =>
      simp only [hkey] at h
      simp [followed?, hkey, ← Except.ok.inj h]
    | some name =>
      cases hscope : mediate? p.scope child.scope with
      | none =>
        simp only [hkey, Option.bind_some, hscope] at h
        simp [followed?, hkey, hscope, ← Except.ok.inj h]
      | some scope =>
        obtain ⟨hoptional, -⟩ := Bool.or_eq_false_iff.mp (Bool.eq_false_iff.mpr hout)
        simp only [hkey, Option.bind_some, hscope] at h
        split at h
        · next hexcluded =>
          simp [followed?, hkey, hscope, hexcluded, ← Except.ok.inj h]
        · next hincluded =>
          cases hversion : (pin? root name).or child.version with
          | none => simp only [hversion, reduceCtorEq] at h
          | some version =>
            simp only [hversion] at h
            simp [followed?, hkey, hscope, hversion, hincluded, hoptional, ← Except.ok.inj h]

/-- What is visited after a dependency is followed in the model of its POM. -/
theorem followAll_cases (h : Runs (followAll r root p key) s children s') :
    (p.scope = "system" ∧ children = [] ∧ s' = s) ∨
    p.scope ≠ "system" ∧ ∃ pom s₁ m, Runs (PomStore.load r.toPomSource key) s pom s₁ ∧
      Runs (effectiveModel r [pom]) s₁ m s' ∧
      (∀ child ∈ m.dependencies, follow root p key child = .ok (followed? root p child)) ∧
      children = m.dependencies.filterMap (followed? root p) := by
  rw [followAll] at h
  split at h
  · next hsystem =>
    obtain ⟨rfl, rfl⟩ := Action.runs_pure.mp h
    exact .inl ⟨hsystem, rfl, rfl⟩
  · next hsystem =>
    obtain ⟨pom, s₁, hload, hrest⟩ := Action.runs_bind.mp h
    obtain ⟨m, s₂, hmodel, hrest⟩ := Action.runs_bind.mp hrest
    split at hrest
    · exact absurd hrest Action.not_runs_throw
    · next found hfound =>
      obtain ⟨rfl, rfl⟩ := Action.runs_pure.mp hrest
      obtain ⟨hall, rfl⟩ := Except.of_mapM_eq_ok (fun _ _ => eq_followed?_of_follow) hfound
      refine .inr ⟨hsystem, pom, s₁, m, hload, hmodel, hall, ?_⟩
      rw [List.filterMap_map]
      rfl

/-! ## The tour -/

/-- A tour: the artifacts that were seen, the dependencies that were found, and those
    to be visited. -/
structure Tour where
  seen : List ArtifactKey
  found : List Dependency
  queue : List Pending
  deriving DecidableEq

/-- The tour of a model's dependencies before it begins. -/
def Tour.start (root : EffectiveModel) : Tour :=
  ⟨ownKey root, [], root.dependencies.map fun d => ⟨d, d.scope⟩⟩

/-- Visits the first dependency of the queue. -/
def visitRound (r : Resolver) (root : EffectiveModel) (t : Tour) :
    Resolving (Tour ⊕ List Dependency) :=
  match t.queue with
  | [] => pure (.inr t.found)
  | p :: queue =>
    match p.dependency.key?, p.dependency.version with
    | some key, some version =>
      if t.seen.contains key then pure (.inl { t with queue })
      else do
        let children ← followAll r root p ⟨key.groupId, key.artifactId, version⟩
        pure (.inl ⟨key :: t.seen, t.found ++ [p.resolved key version], queue ++ children⟩)
    | _, _ => pure (.inl { t with queue })

/-- The model of a POM, in a store that holds all POMs for it. -/
def ModelAt (r : Resolver) (s : PomStore) (key : PomKey) (m : EffectiveModel) : Prop :=
  ∃ pom, s.loaded.get? key = some pom ∧ Runs (effectiveModel r [pom]) s m s

/-- An artifact that can be found: the root's own one, one that it depends on, or one that a POM of
    a supply depends on. -/
def Known (r : Resolver) (root : EffectiveModel) (supply : List Pom) (s : PomStore)
    (key : ArtifactKey) : Prop :=
  key ∈ ownKey root ∨ key ∈ keys root.dependencies ∨
    ∃ pom ∈ supply, ∃ m, Runs (effectiveModel r [pom]) s m s ∧ key ∈ keys m.dependencies

section Known

variable {supply : List Pom} {name : ArtifactKey}

theorem Known.of_grows (h : Known r root supply s name) (hgrows : PomStore.Grows s s') :
    Known r root supply s' name := by
  refine h.imp_right fun h => h.imp_right ?_
  rintro ⟨pom, hpom, m, hmodel, hname⟩
  exact ⟨pom, hpom, m, runs_effectiveModel_again hmodel hgrows, hname⟩

/-- The artifacts that a POM depends on. -/
def foundIn (r : Resolver) (s : PomStore) (pom : Pom) : List ArtifactKey :=
  ((StateT.run (ExceptT.run (effectiveModel r [pom])) s).1.toOption.map fun m =>
    keys m.dependencies).getD []

/-- All artifacts that can be found. -/
def knownKeys (r : Resolver) (root : EffectiveModel) (supply : List Pom) (s : PomStore) :
    List ArtifactKey :=
  ownKey root ++ (keys root.dependencies ++ supply.flatMap (foundIn r s))

theorem Known.mem (h : Known r root supply s name) : name ∈ knownKeys r root supply s := by
  rw [knownKeys, List.mem_append, List.mem_append]
  refine h.imp_right fun h => h.imp_right ?_
  rintro ⟨pom, hpom, m, hmodel, hname⟩
  refine List.mem_flatMap.mpr ⟨pom, hpom, ?_⟩
  rw [foundIn, hmodel]
  exact hname

theorem length_knownKeys_le (r : Resolver) (root : EffectiveModel)
    (hsupply : ∀ p, Obtainable r.toPomSource s p → p ∈ supply) :
    (knownKeys r root supply s).length ≤ (ownKey root).length +
      (root.dependencies.length + supply.length * (supply.map declaredCount).sum) := by
  have hroot : (keys root.dependencies).length ≤ root.dependencies.length :=
    List.length_filterMap_le ..
  have hfound : ∀ pom ∈ supply, (foundIn r s pom).length ≤ (supply.map declaredCount).sum := by
    intro pom hpom
    rw [foundIn]
    cases hrun : StateT.run (ExceptT.run (effectiveModel r [pom])) s with
    | mk result s' =>
      cases result with
      | error e => exact Nat.zero_le _
      | ok m =>
        exact (List.length_filterMap_le ..).trans (length_of_effectiveModel hsupply hpom hrun)
  have hall : (supply.flatMap (foundIn r s)).length ≤
      supply.length * (supply.map declaredCount).sum := by
    rw [List.length_flatMap, ← smul_eq_mul,
      ← List.length_map (f := fun p => (foundIn r s p).length)]
    refine List.sum_le_card_nsmul _ _ fun n hn => ?_
    obtain ⟨pom, hpom, rfl⟩ := List.mem_map.mp hn
    exact hfound pom hpom
  rw [knownKeys, List.length_append, List.length_append]
  omega

end Known

/-! ## The tour ends -/

theorem grows_followAll (h : Runs (followAll r root p key) s children s') : PomStore.Grows s s' :=
  (again_followAll (again_load r.toPomSource s') rfl root p key).enough h (PomStore.Grows.refl s')

/-- All that a tour knows can be found, and its bound has room for what it has not seen. -/
structure Bounded (r : Resolver) (root : EffectiveModel) (supply : List Pom) (s : PomStore)
    (bound : ℕ) (seen : List ArtifactKey) (queue : List Pending) : Prop where
  obtainable : ∀ pom, Obtainable r.toPomSource s pom → pom ∈ supply
  nodup : seen.Nodup
  known : ∀ name ∈ seen, Known r root supply s name
  queued : ∀ p ∈ queue, ∀ name, p.dependency.key? = some name → Known r root supply s name
  length_le : (ownKey root).length +
    (root.dependencies.length + supply.length * (supply.map declaredCount).sum) ≤
      seen.length + bound

section Bounded

variable {supply : List Pom} {bound : ℕ} {seen : List ArtifactKey} {queue : List Pending}
  {name : ArtifactKey}

theorem Bounded.skip (h : Bounded r root supply s bound seen (p :: queue)) :
    Bounded r root supply s bound seen queue :=
  ⟨h.obtainable, h.nodup, h.known, fun q hq => h.queued q (List.mem_cons_of_mem _ hq), h.length_le⟩

theorem Bounded.exists_room (h : Bounded r root supply s bound seen (p :: queue))
    (hkey : p.dependency.key? = some name) (hnew : name ∉ seen) : ∃ rest, bound = rest + 1 := by
  have hroom : Room (knownKeys r root supply s) bound seen := by
    refine ⟨h.nodup, fun other hother => (h.known other hother).mem, ?_⟩
    exact (length_knownKeys_le r root h.obtainable).trans h.length_le
  obtain ⟨rest, hrest, -⟩ := hroom.cons hnew (h.queued p List.mem_cons_self name hkey).mem
  exact ⟨rest, hrest⟩

theorem known_of_followAll (hsupply : ∀ pom, Obtainable r.toPomSource s pom → pom ∈ supply)
    (h : Runs (followAll r root p key) s children s') {child : Pending} (hchild : child ∈ children)
    (hname : child.dependency.key? = some name) : Known r root supply s' name := by
  rcases followAll_cases h with ⟨-, rfl, -⟩ | ⟨-, pom, s₁, m, hload, hmodel, -, rfl⟩
  · exact absurd hchild (by simp)
  · obtain ⟨declared, hdeclared, hfollowed⟩ := List.mem_filterMap.mp hchild
    refine .inr (.inr ⟨pom, hsupply pom (PomStore.obtainable_of_load hload), m, ?_, ?_⟩)
    · exact runs_effectiveModel_again hmodel (PomStore.Grows.refl s')
    · exact EffectiveModel.mem_keys.mpr
        ⟨declared, hdeclared, (key?_of_followed? hfollowed).symm.trans hname⟩

theorem Bounded.visit (h : Bounded r root supply s (bound + 1) seen (p :: queue))
    (hkey : p.dependency.key? = some name) (hnew : name ∉ seen)
    (hfollow : Runs (followAll r root p key) s children s') :
    Bounded r root supply s' bound (name :: seen) (queue ++ children) := by
  have hgrows := grows_followAll hfollow
  have hconfined := (keeps_followAll (PomStore.Confined.refl _) PomStore.Confined.trans
    (PomStore.keeps_load r.toPomSource) root p key).of_runs hfollow
  refine ⟨fun pom hpom => h.obtainable pom (hconfined.obtainable hpom),
    List.nodup_cons.mpr ⟨hnew, h.nodup⟩, fun other hother => ?_, fun q hq other hother => ?_, ?_⟩
  · rcases List.mem_cons.mp hother with rfl | hother
    · exact (h.queued p List.mem_cons_self other hkey).of_grows hgrows
    · exact (h.known other hother).of_grows hgrows
  · rcases List.mem_append.mp hq with hq | hq
    · exact (h.queued q (List.mem_cons_of_mem _ hq) other hother).of_grows hgrows
    · exact known_of_followAll h.obtainable hfollow hq hother
  · have hlength := h.length_le
    rw [List.length_cons]
    omega

/-- The tour ends where its bound has room for all that it has not seen, and as the bounded one. -/
theorem ends_visit (hbounded : Bounded r root supply s bound seen queue) (found : List Dependency) :
    Ends (visitRound r root) ⟨seen, found, queue⟩ s
      ((StateT.run (ExceptT.run (visit r root bound seen queue)) s).1.map (found ++ ·))
      (StateT.run (ExceptT.run (visit r root bound seen queue)) s).2 := by
  fun_induction visit r root bound seen queue generalizing s found with
  | case1 bound seen =>
    refine Ends.gives (Action.runs_pure.mpr ⟨?_, rfl⟩)
    exact congrArg Sum.inr (List.append_nil found)
  | case2 bound seen p queue name version hversion hkey hseen ih =>
    refine Ends.goesOn ?_ (ih hbounded.skip found)
    simp only [visitRound, hkey, hversion, hseen, if_true]
    exact Action.runs_pure.mpr ⟨rfl, rfl⟩
  | case3 seen p queue name version hversion hkey hseen =>
    obtain ⟨rest, hrest⟩ := hbounded.exists_room hkey (by simpa using hseen)
    cases hrest
  | case4 seen p queue name version hversion hkey hseen bound ih =>
    have hround : visitRound r root ⟨seen, found, p :: queue⟩ =
        followAll r root p ⟨name.groupId, name.artifactId, version⟩ >>= fun children =>
          pure (.inl ⟨name :: seen, found ++ [p.resolved name version], queue ++ children⟩) := by
      simp only [visitRound, hkey, hversion, hseen]
      rfl
    rw [Action.run_bind]
    cases hfollow : StateT.run (ExceptT.run (followAll r root p
        ⟨name.groupId, name.artifactId, version⟩)) s with
    | mk result s' =>
      cases result with
      | error e =>
        refine Ends.fails ?_
        rw [hround]
        exact Action.fails_bind.mpr (.inl hfollow)
      | ok children =>
        have hfirst : Runs (visitRound r root ⟨seen, found, p :: queue⟩) s
            (.inl ⟨name :: seen, found ++ [p.resolved name version], queue ++ children⟩) s' := by
          rw [hround]
          exact Action.runs_bind.mpr ⟨children, s', hfollow, Action.runs_pure.mpr ⟨rfl, rfl⟩⟩
        have hends := ih children (hbounded.visit hkey (by simpa using hseen) hfollow)
          (found ++ [p.resolved name version])
        dsimp only
        rw [Action.run_bind_pure, Except.map_map]
        simp only [List.append_assoc, List.singleton_append] at hends
        exact Ends.goesOn hfirst hends
  | case5 bound seen p queue hnone ih =>
    refine Ends.goesOn ?_ (ih hbounded.skip found)
    have hround :
        visitRound r root ⟨seen, found, p :: queue⟩ = pure (.inl ⟨seen, found, queue⟩) := by
      cases hkey : p.dependency.key? with
      | none => simp only [visitRound, hkey]
      | some name =>
        cases hversion : p.dependency.version with
        | none => simp only [visitRound, hkey, hversion]
        | some version => exact absurd hversion (hnone name version hkey)
    rw [hround]
    exact Action.runs_pure.mpr ⟨rfl, rfl⟩

end Bounded

/-- A model whose dependencies have problems is not resolved. -/
theorem run_resolve (r : Resolver) (root : EffectiveModel) (s : PomStore) :
    StateT.run (ExceptT.run (resolve r root)) s =
      if root.problems = [] then
        StateT.run (ExceptT.run (visit r root (visitBound r root s) (ownKey root)
          (root.dependencies.map fun d => ⟨d, d.scope⟩))) s
      else (.error (.invalidModel (coordinateOf root) root.problems), s) := by
  by_cases hproblems : root.problems = []
  · rw [if_pos hproblems, resolve, if_neg (by simpa using hproblems)]
    rfl
  · rw [if_neg hproblems, resolve, if_pos hproblems]
    rfl

/-- The tour of a model's dependencies ends, and its bound is never met. -/
theorem isLoop_resolve (r : Resolver) {root : EffectiveModel} (h : root.problems = []) :
    IsLoop (visitRound r root) (Tour.start root) (resolve r root) := by
  intro s
  have hbounded : Bounded r root (PomStore.supply r.toPomSource s) s (visitBound r root s)
      (ownKey root) (root.dependencies.map fun d => ⟨d, d.scope⟩) := by
    refine ⟨fun pom => PomStore.mem_supply, ?_, fun name hname => .inl hname,
      fun p hp name hname => ?_, ?_⟩
    · rw [ownKey]
      split <;> simp
    · obtain ⟨d, hd, rfl⟩ := List.mem_map.mp hp
      exact .inr (.inl (EffectiveModel.mem_keys.mpr ⟨d, hd, hname⟩))
    · rw [visitBound, List.sum, List.foldr_map]
  have hends := ends_visit hbounded []
  have hmap : ∀ x : Except BuildError (List Dependency), x.map ([] ++ ·) = x := fun x => by
    cases x <;> rfl
  rw [hmap] at hends
  rw [run_resolve, if_pos h]
  exact hends

section Again

variable {Enough : PomStore → Prop} {R : PomStore → PomStore → Prop} {r' : Resolver}
  (hload : ∀ key,
    Action.Again Enough R (PomStore.load r.toPomSource key) (PomStore.load r'.toPomSource key))
  (hselection : r'.selection = r.selection)
include hload hselection

theorem again_visitRound (root : EffectiveModel) (t : Tour) :
    Action.Again Enough R (visitRound r root t) (visitRound r' root t) := by
  rw [visitRound, visitRound]
  split
  · exact Action.again_pure _
  · split
    · split
      · exact Action.again_pure _
      · exact Action.again_bind (again_followAll hload hselection root _ _) fun _ =>
          Action.again_pure _
    · exact Action.again_pure _

/-- The bounds of the tour depend on the store, but they are not met. -/
theorem again_resolve (root : EffectiveModel) :
    Action.Again Enough R (resolve r root) (resolve r' root) := by
  by_cases hproblems : root.problems = []
  · exact Action.again_loop (isLoop_resolve r hproblems) (isLoop_resolve r' hproblems)
      (again_visitRound hload hselection root)
  · have hnot : ∀ {s ds s'}, ¬Runs (resolve r root) s ds s' := fun {s ds s'} hruns => by
      rw [Runs, run_resolve, if_neg hproblems] at hruns
      cases (Prod.mk.inj hruns).1
    exact ⟨fun hruns => absurd hruns hnot, fun hruns => absurd hruns hnot⟩

end Again

/-- What is resolved can be computed round by round. -/
theorem runs_resolve_of_rounds {n : ℕ} {ds : List Dependency} (h : root.problems = [])
    (hrounds : Runs (Action.rounds (visitRound r root) n (Tour.start root)) s (.inr ds) s') :
    Runs (resolve r root) s ds s' :=
  (isLoop_resolve r h).runs_iff.mpr (Action.ends_of_rounds hrounds)

end Resolver

end MavenPom
