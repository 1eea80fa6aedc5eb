import MavenPom.Proofs.Repository.Mediation
import Mathlib.Data.List.Chain

/-!
# Routes from the root

Every dependency in an answer ends a route of declarations that begins at the root. Each of them is
declared in the model of the one before, and what the dependency is in the answer comes from the
route as a whole: its scope from the scopes along it, and its absence from no exclusion along it.
-/

namespace MavenPom.Resolver

open MavenPom.Action (Runs)

/-- A declaration on a route, with the artifact that it names and the version that counts for it. -/
structure Link where
  declared : DeclaredDependency
  key : ArtifactKey
  version : String

def Link.pomKey (l : Link) : PomKey := ⟨l.key.groupId, l.key.artifactId, l.version⟩

/-- The scope at the end of a route whose first declaration has the scope `outer`. -/
def carriedScope? (outer : String) (rest : List Link) : Option String :=
  rest.foldlM (fun scope l => mediate? scope l.declared.scope) outer

/-- The end of a route. -/
def lastLink (first : Link) (rest : List Link) : Link := rest.getLast?.getD first

/-- A route of declarations that is followed: it begins with a dependency of the root, and goes on
    with dependencies of the models that stand before them. -/
structure Route (r : Resolver) (root : EffectiveModel) (s : PomStore) (first : Link)
    (rest : List Link) (scope : String) : Prop where
  direct : first.declared ∈ root.dependencies
  named : ∀ l ∈ first :: rest, l.declared.key? = some l.key
  below : (first :: rest).IsChain fun l l' =>
    ∃ m, ModelAt r s l.pomKey m ∧ l'.declared ∈ m.dependencies
  carried : ∀ l ∈ rest, l.declared.optional = false ∧
    l.declared.scope ∉ ["test", "provided", "system", "import"]
  included : (first :: rest).Pairwise fun l l' => l.declared.excludes l'.key = false
  notSystem : ∀ l ∈ (first :: rest).dropLast, l.declared.scope ≠ "system"
  version : first.declared.version = some first.version
  pinned : ∀ l ∈ rest,
    ((root.managed.get? l.key).bind (·.version)).or l.declared.version = some l.version
  scope : carriedScope? first.declared.scope rest = some scope

/-- A dependency to be visited is the end of a route, with the exclusions of the whole route. -/
structure Reached (r : Resolver) (root : EffectiveModel) (s : PomStore) (first : Link)
    (rest : List Link) (p : Pending) : Prop where
  route : Route r root s first rest p.scope
  dependency : p.dependency =
    { (lastLink first rest).declared with
      version := some (lastLink first rest).version
      exclusions := (first :: rest).reverse.flatMap (·.declared.exclusions) }

section Scopes

theorem mediate?_eq_some {outer inner scope : String} (h : mediate? outer inner = some scope) :
    (inner = "compile" ∨ inner = "runtime") ∧
      (outer = "compile" ∧ scope = inner ∨
        outer ∈ ["runtime", "provided", "test"] ∧ scope = outer) := by
  unfold mediate? at h
  split at h
  · next hinner =>
    refine ⟨hinner, ?_⟩
    split at h <;> simp_all
  · cases h

theorem carriedScope?_cons (outer : String) (l : Link) (rest : List Link) :
    carriedScope? outer (l :: rest) =
      (mediate? outer l.declared.scope).bind (carriedScope? · rest) := rfl

theorem carriedScope?_concat (outer : String) (rest : List Link) (l : Link) :
    carriedScope? outer (rest ++ [l]) =
      (carriedScope? outer rest).bind (mediate? · l.declared.scope) := by
  rw [carriedScope?, List.foldlM_append]
  simp only [List.foldlM_cons, List.foldlM_nil, bind_pure]
  rfl

theorem ne_system_of_mediate? {outer inner scope : String} (h : mediate? outer inner = some scope) :
    outer ≠ "system" := by
  rintro rfl
  rcases (mediate?_eq_some h).2 with ⟨heq, -⟩ | ⟨hmem, -⟩
  · exact absurd heq (by decide)
  · exact absurd hmem (by decide)

/-- Only a route that is of scope `compile` throughout ends with this scope. -/
theorem carriedScope?_eq_compile {outer : String} {rest : List Link}
    (h : carriedScope? outer rest = some "compile") :
    outer = "compile" ∧ ∀ l ∈ rest, l.declared.scope = "compile" := by
  induction rest generalizing outer with
  | nil => exact ⟨Option.some.inj h, by simp⟩
  | cons l rest ih =>
    obtain ⟨scope, hscope, hrest⟩ :=
      Option.bind_eq_some_iff.mp (carriedScope?_cons outer l rest ▸ h)
    obtain ⟨rfl, hall⟩ := ih hrest
    rcases (mediate?_eq_some hscope).2 with ⟨rfl, hinner⟩ | ⟨houter, rfl⟩
    · exact ⟨rfl, List.forall_mem_cons.mpr ⟨hinner.symm, hall⟩⟩
    · exact absurd houter (by decide)

/-- The other scopes of the first declaration are those of all below it. -/
theorem carriedScope?_of_mem {outer scope : String} {rest : List Link}
    (houter : outer ∈ ["runtime", "provided", "test"]) (h : carriedScope? outer rest = some scope) :
    scope = outer := by
  induction rest generalizing outer with
  | nil => exact (Option.some.inj h).symm
  | cons l rest ih =>
    obtain ⟨next, hnext, hrest⟩ := Option.bind_eq_some_iff.mp (carriedScope?_cons outer l rest ▸ h)
    rcases (mediate?_eq_some hnext).2 with ⟨rfl, -⟩ | ⟨-, rfl⟩
    · exact absurd houter (by decide)
    · exact ih houter hrest

end Scopes

section Routes

variable {r : Resolver} {root : EffectiveModel} {s s' : PomStore} {seen : List ArtifactKey}
  {queue : List Declaration} {visits : List Visit} {first : Link} {rest : List Link} {p q : Pending}

theorem lastLink_concat (first : Link) (rest : List Link) (l : Link) :
    lastLink first (rest ++ [l]) = l := by
  rw [lastLink, List.getLast?_concat, Option.getD_some]

theorem getLast?_route (first : Link) (rest : List Link) :
    (first :: rest).getLast? = some (lastLink first rest) := by
  rw [List.getLast?_cons, lastLink]

theorem reached_direct {d : DeclaredDependency} (hd : d ∈ root.dependencies)
    (hready : IsReady ⟨d, d.scope⟩) : ∃ l, Reached r root s l [] ⟨d, d.scope⟩ := by
  obtain ⟨name, version, hkey, hversion⟩ := hready
  refine ⟨⟨d, name, version⟩, ⟨hd, ?_, List.IsChain.singleton _, by simp,
    List.pairwise_singleton .., by simp, hversion, by simp, rfl⟩, ?_⟩
  · simpa using hkey
  · simp [lastLink, ← hversion]

/-- Following goes on with a route, unless an exclusion along it says otherwise. -/
theorem Reached.followed {m : EffectiveModel} {d : DeclaredDependency}
    (h : Reached r root s first rest p) (hm : ModelAt r s (lastLink first rest).pomKey m)
    (hd : d ∈ m.dependencies) (hfollowed : followed? root p d = some q) :
    ∃ l, Reached r root s first (rest ++ [l]) q := by
  obtain ⟨name, scope, version, hkey, hscope, hversion, hoptional, hincluded, rfl⟩ :=
    followed?_eq_some.mp hfollowed
  obtain ⟨hinner, houter⟩ := mediate?_eq_some hscope
  have hroute := h.route
  have hincluded' : ∀ l ∈ first :: rest, l.declared.excludes name = false := by
    rw [h.dependency, DeclaredDependency.excludes, List.any_eq_false] at hincluded
    intro l hl
    rw [DeclaredDependency.excludes, List.any_eq_false]
    exact fun e he => hincluded e (List.mem_flatMap.mpr ⟨l, List.mem_reverse.mpr hl, he⟩)
  have hnotSystem : ∀ l ∈ first :: rest, l.declared.scope ≠ "system" := by
    refine List.forall_mem_cons.mpr ⟨?_, fun l hl heq => (hroute.carried l hl).2 (by simp [heq])⟩
    cases rest with
    | nil =>
      have hsame : first.declared.scope = p.scope := Option.some.inj hroute.scope
      exact hsame ▸ ne_system_of_mediate? hscope
    | cons l rest => exact hroute.notSystem first List.mem_cons_self
  refine ⟨⟨d, name, version⟩, ⟨hroute.direct, ?_, ?_, ?_, ?_, ?_, hroute.version, ?_, ?_⟩, ?_⟩
  · rw [← List.cons_append]
    exact List.forall_mem_append.mpr ⟨hroute.named, by simpa using hkey⟩
  · rw [← List.cons_append]
    refine hroute.below.append (List.IsChain.singleton _) ?_
    rw [getLast?_route]
    rintro _ ⟨⟩ _ ⟨⟩
    exact ⟨m, hm, hd⟩
  · refine List.forall_mem_append.mpr ⟨hroute.carried, ?_⟩
    rcases hinner with hinner | hinner <;> simp [hoptional, hinner]
  · rw [← List.cons_append]
    refine List.pairwise_append.mpr ⟨hroute.included, List.pairwise_singleton .., ?_⟩
    intro l hl l' hl'
    obtain rfl := List.mem_singleton.mp hl'
    exact hincluded' l hl
  · rw [← List.cons_append, List.dropLast_concat]
    exact hnotSystem
  · exact List.forall_mem_append.mpr ⟨hroute.pinned, by simpa [pin?] using hversion⟩
  · rw [carriedScope?_concat, hroute.scope]
    exact hscope
  · rw [lastLink_concat, h.dependency]
    simp

/-- Every visit is at the end of a route. -/
theorem Visits.reached (h : Visits r root s seen queue visits) :
    (∀ d ∈ queue, ∃ first rest, Reached r root s first rest d.pending) →
      ∀ v ∈ visits, ∃ first rest, Reached r root s first rest v.pending ∧
        (lastLink first rest).key = v.key ∧ (lastLink first rest).version = v.version := by
  induction h with
  | done => simp
  | skip _ _ _ ih => exact fun hqueue => ih (List.forall_mem_cons.mp hqueue).2
  | @visit _ v _ _ _ hfollow _ ih =>
    intro hqueue
    obtain ⟨⟨first, rest, hreached⟩, hqueue⟩ := List.forall_mem_cons.mp hqueue
    have hkey : (lastLink first rest).key = v.key := by
      have hnamed := v.named
      rw [hreached.dependency] at hnamed
      have hlast := hreached.route.named _ (List.mem_of_getLast? (getLast?_route first rest))
      exact Option.some.inj (hlast.symm.trans hnamed)
    have hversion : (lastLink first rest).version = v.version := by
      have hversioned := v.versioned
      rw [hreached.dependency] at hversioned
      exact Option.some.inj hversioned
    refine List.forall_mem_cons.mpr ⟨⟨first, rest, hreached, hkey, hversion⟩, ih ?_⟩
    refine List.forall_mem_append.mpr ⟨hqueue, fun d hd => ?_⟩
    obtain ⟨child, hchild, rfl⟩ := List.mem_map.mp hd
    rcases following_cases hfollow with ⟨-, hnil⟩ | ⟨m, hm, hchildren, -⟩
    · rw [hnil] at hchild
      exact absurd hchild (by simp)
    · rw [hchildren] at hchild
      obtain ⟨declared, hdeclared, hfollowed⟩ := List.mem_filterMap.mp hchild
      have hpom : (lastLink first rest).pomKey = v.pomKey := by
        rw [Link.pomKey, hkey, hversion, Visit.pomKey]
      obtain ⟨l, hl⟩ := hreached.followed (hpom ▸ hm) hdeclared hfollowed
      exact ⟨first, rest ++ [l], hl⟩

end Routes

/-- The dependency that a route brings into the answer. -/
def Link.entry (l : Link) (scope : String) : Dependency :=
  ⟨l.key.groupId, l.key.artifactId, some l.version, l.declared.classifier,
    l.declared.packaging.getD "jar", scope⟩

/-- Every dependency that is resolved is at the end of a route. Its scope is `compile` only if the
    whole route is, and the scopes `runtime`, `provided` and `test` of the first declaration carry
    down. -/
theorem exists_route (r : Resolver) (root : EffectiveModel) {s s' : PomStore} {ds : List Dependency}
    (h : Runs (resolve r root) s ds s') :
    ∀ e ∈ ds, ∃ first rest, Route r root s' first rest e.scope ∧
      e = (lastLink first rest).entry e.scope ∧
      (e.scope = "compile" → ∀ l ∈ first :: rest, l.declared.scope = "compile") ∧
      (first.declared.scope ∈ ["runtime", "provided", "test"] →
        e.scope = first.declared.scope) := by
  obtain ⟨visits, hvisits, rfl⟩ := exists_visits h
  intro e he
  obtain ⟨v, hv, rfl⟩ := List.mem_map.mp he
  have hdirect : ∀ d ∈ direct root, ∃ first rest, Reached r root s' first rest d.pending := by
    intro d hd
    have hready := isReady_direct (problems_of_resolve h) d hd
    obtain ⟨declared, hdeclared, rfl⟩ := List.mem_map.mp hd
    obtain ⟨l, hl⟩ := reached_direct (r := r) (s := s') hdeclared hready
    exact ⟨l, [], hl⟩
  obtain ⟨first, rest, hreached, hkey, hversion⟩ := hvisits.reached hdirect v hv
  have hscope : carriedScope? first.declared.scope rest = some v.entry.scope :=
    hreached.route.scope
  refine ⟨first, rest, hreached.route, ?_, fun hcompile => ?_, fun hfirst => ?_⟩
  · rw [Link.entry, hkey, hversion, Visit.entry, Pending.resolved, hreached.dependency]
  · obtain ⟨hfirst, hrest⟩ := carriedScope?_eq_compile (hcompile ▸ hscope)
    exact List.forall_mem_cons.mpr ⟨hfirst, hrest⟩
  · exact carriedScope?_of_mem hfirst hscope

/-- A root that depends on `g:a:1` for tests, without any artifact `x`, and manages `g:c`. -/
def guardedRoot : EffectiveModel :=
  EffectiveModel.build [{ plainPom "root"
    [{ dependsOn "a" "1" with declaredScope := some "test", exclusions := [⟨"*", "x"⟩] }] with
    managed := [dependsOn "c" "9"] }] .none

/-- A store in which `g:a` depends on `g:b`, and `g:b` on `g:c`. -/
def guardedStore : PomStore :=
  ⟨.empty, Table.ofList [
    (⟨"g", "a", "1"⟩, plainPom "a" [dependsOn "b" "1", dependsOn "x" "1"]),
    (⟨"g", "b", "1"⟩, plainPom "b" [dependsOn "x" "1", dependsOn "c" "1"]),
    (⟨"g", "c", "9"⟩, plainPom "c" [])], []⟩

theorem exists_route_guarded :
    let r : Resolver := ⟨⟨"/m2", none⟩, .none⟩
    let ds := [("a", "1"), ("b", "1"), ("c", "9")].map fun p =>
      (⟨"g", p.1, some p.2, none, "jar", "test"⟩ : Dependency)
    Runs (resolve r guardedRoot) guardedStore ds guardedStore ∧
      ∀ e ∈ ds, ∃ first rest, Route r guardedRoot guardedStore first rest e.scope ∧
        e = (lastLink first rest).entry e.scope ∧
        (e.scope = "compile" → ∀ l ∈ first :: rest, l.declared.scope = "compile") ∧
        (first.declared.scope ∈ ["runtime", "provided", "test"] →
          e.scope = first.declared.scope) := by
  intro r ds
  have hruns : Runs (resolve r guardedRoot) guardedStore ds guardedStore :=
    runs_resolve_of_rounds (n := 4) (by decide +kernel) (by decide +kernel)
  exact ⟨hruns, exists_route r guardedRoot hruns⟩

end MavenPom.Resolver
