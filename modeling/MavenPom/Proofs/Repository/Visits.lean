import MavenPom.Proofs.Repository.Tour

/-!
# What is visited

The visits of a tour, in terms of the store that it leaves. There all POMs that the tour has loaded
are loaded, so what is followed from a visited dependency can be read off its POM's model there.
-/

namespace MavenPom.Resolver

open MavenPom.Action (Runs Ends)

/-- A declaration to be visited, and how many declarations lead to it from the root. -/
structure Declaration where
  pending : Pending
  distance : ℕ

/-- The artifact that is declared. -/
def Declaration.key? (d : Declaration) : Option ArtifactKey := d.pending.dependency.key?

/-- A declaration that counts for its artifact, and what is followed from it. -/
structure Visit extends Declaration where
  key : ArtifactKey
  version : String
  children : List Pending
  named : pending.dependency.key? = some key
  versioned : pending.dependency.version = some version

namespace Visit

theorem key?_eq (v : Visit) : v.toDeclaration.key? = some v.key := v.named

def pomKey (v : Visit) : PomKey := ⟨v.key.groupId, v.key.artifactId, v.version⟩

/-- The dependency in the answer. -/
def entry (v : Visit) : Dependency := v.pending.resolved v.key v.version

/-- The declarations that are followed. -/
def below (v : Visit) : List Declaration := v.children.map fun child => ⟨child, v.distance + 1⟩

theorem distance_below {v : Visit} : ∀ d ∈ v.below, d.distance = v.distance + 1 :=
  List.forall_mem_map.mpr fun _ _ => rfl

end Visit

/-- The visits of a tour that has seen some artifacts, for a queue of declarations. -/
inductive Visits (r : Resolver) (root : EffectiveModel) (s : PomStore) :
    List ArtifactKey → List Declaration → List Visit → Prop where
  | done {seen : List ArtifactKey} : Visits r root s seen [] []
  | skip {seen : List ArtifactKey} {d : Declaration} {queue : List Declaration}
      {visits : List Visit} {key : ArtifactKey} (hkey : d.key? = some key) (hseen : key ∈ seen)
      (hrest : Visits r root s seen queue visits) : Visits r root s seen (d :: queue) visits
  | visit {seen : List ArtifactKey} {v : Visit} {queue : List Declaration} {visits : List Visit}
      (hnew : v.key ∉ seen) (hfollow : Runs (followAll r root v.pending v.pomKey) s v.children s)
      (hrest : Visits r root s (v.key :: seen) (queue ++ v.below) visits) :
      Visits r root s seen (v.toDeclaration :: queue) (v :: visits)

/-- The declarations of the root. -/
def direct (root : EffectiveModel) : List Declaration :=
  root.dependencies.map fun d => ⟨⟨d, d.scope⟩, 1⟩

section Visits

variable {r : Resolver} {root : EffectiveModel} {s s' : PomStore} {t : Tour} {p : Pending}
  {key : PomKey} {children : List Pending}

/-- The declaration names an artifact and a version. -/
def IsReady (p : Pending) : Prop :=
  ∃ name version, p.dependency.key? = some name ∧ p.dependency.version = some version

theorem isReady_of_followAll (h : Runs (followAll r root p key) s children s') :
    ∀ child ∈ children, IsReady child := by
  intro child hchild
  rcases followAll_cases h with ⟨-, rfl, -⟩ | ⟨-, pom, s₁, m, -, -, -, rfl⟩
  · exact absurd hchild (by simp)
  · obtain ⟨declared, -, hfollowed⟩ := List.mem_filterMap.mp hchild
    obtain ⟨name, scope, version, hkey, -, -, -, -, rfl⟩ := followed?_eq_some.mp hfollowed
    exact ⟨name, version, hkey, rfl⟩

theorem isReady_direct (h : root.problems = []) : ∀ d ∈ direct root, IsReady d.pending := by
  intro d hd
  obtain ⟨declared, hdeclared, rfl⟩ := List.mem_map.mp hd
  obtain ⟨name, version, hkey, hversion, -⟩ := EffectiveModel.exists_of_problems h hdeclared
  exact ⟨name, version, hkey, hversion⟩

/-- A round ends the tour, skips an artifact that was seen, or visits one that was not. -/
theorem visitRound_cases {next : Tour ⊕ List Dependency} (hready : ∀ p ∈ t.queue, IsReady p)
    (h : Runs (visitRound r root t) s next s') :
    (t.queue = [] ∧ next = .inr t.found ∧ s' = s) ∨
    ∃ p queue name version, t.queue = p :: queue ∧ p.dependency.key? = some name ∧
      p.dependency.version = some version ∧
      (name ∈ t.seen ∧ next = .inl { t with queue } ∧ s' = s ∨
        name ∉ t.seen ∧ ∃ children,
          Runs (followAll r root p ⟨name.groupId, name.artifactId, version⟩) s children s' ∧
          next =
            .inl ⟨name :: t.seen, t.found ++ [p.resolved name version], queue ++ children⟩) := by
  rw [visitRound] at h
  cases hqueue : t.queue with
  | nil =>
    rw [hqueue] at h
    obtain ⟨rfl, rfl⟩ := Action.runs_pure.mp h
    exact .inl ⟨rfl, rfl, rfl⟩
  | cons p queue =>
    obtain ⟨name, version, hkey, hversion⟩ := hready p (hqueue ▸ List.mem_cons_self)
    simp only [hqueue, hkey, hversion] at h
    refine .inr ⟨p, queue, name, version, rfl, hkey, hversion, ?_⟩
    by_cases hseen : name ∈ t.seen
    · rw [if_pos (by simpa using hseen)] at h
      obtain ⟨rfl, rfl⟩ := Action.runs_pure.mp h
      exact .inl ⟨hseen, rfl, rfl⟩
    · rw [if_neg (by simpa using hseen)] at h
      obtain ⟨children, s₁, hfollow, hpure⟩ := Action.runs_bind.mp h
      obtain ⟨rfl, rfl⟩ := Action.runs_pure.mp hpure
      exact .inr ⟨hseen, children, hfollow, rfl⟩

/-- A tour that ends with an answer has visited its entries. -/
theorem exists_visits_of_ends {outcome : Except BuildError (List Dependency)}
    (h : Ends (visitRound r root) t s outcome s') :
    ∀ (queue : List Declaration) (ds : List Dependency), t.queue = queue.map (·.pending) →
      (∀ p ∈ t.queue, IsReady p) → outcome = .ok ds →
      PomStore.Grows s s' ∧ ∃ visits, Visits r root s' t.seen queue visits ∧
        ds = t.found ++ visits.map Visit.entry := by
  induction h with
  | fails => exact fun _ ds _ _ heq => absurd heq (by simp)
  | gives hruns =>
    intro queue ds hqueue hready heq
    rcases visitRound_cases hready hruns with ⟨hnil, hnext, rfl⟩ | ⟨p, rest, name, version, -, -, -,
      ⟨-, hnext, -⟩ | ⟨-, children, -, hnext⟩⟩
    · obtain rfl : queue = [] := List.map_eq_nil_iff.mp (hqueue.symm.trans hnil)
      obtain rfl : ds = _ := (Except.ok.inj heq).symm.trans (Sum.inr.inj hnext)
      exact ⟨PomStore.Grows.refl _, [], .done, by simp⟩
    · cases hnext
    · cases hnext
  | goesOn hruns _ ih =>
    intro queue ds hqueue hready heq
    rcases visitRound_cases hready hruns with ⟨-, hnext, -⟩ | ⟨p, rest, name, version, hcons, hkey,
      hversion, ⟨hseen, hnext, rfl⟩ | ⟨hnew, children, hfollow, hnext⟩⟩
    · cases hnext
    · obtain rfl := Sum.inl.inj hnext
      obtain ⟨d, queue, rfl, rfl, hrest⟩ := List.map_eq_cons_iff.mp (hqueue.symm.trans hcons)
      rw [hcons] at hready
      obtain ⟨hgrows, visits, hvisits, hds⟩ :=
        ih queue ds hrest.symm (List.forall_mem_cons.mp hready).2 heq
      exact ⟨hgrows, visits, .skip hkey hseen hvisits, hds⟩
    · obtain rfl := Sum.inl.inj hnext
      obtain ⟨d, queue, rfl, rfl, hrest⟩ := List.map_eq_cons_iff.mp (hqueue.symm.trans hcons)
      let v : Visit := ⟨d, name, version, children, hkey, hversion⟩
      rw [hcons] at hready
      have hqueue' : rest ++ children = (queue ++ v.below).map (·.pending) := by
        simp [Visit.below, v, ← hrest, Function.comp_def]
      have hready' : ∀ p ∈ rest ++ children, IsReady p := List.forall_mem_append.mpr
        ⟨(List.forall_mem_cons.mp hready).2, isReady_of_followAll hfollow⟩
      obtain ⟨hgrows, visits, hvisits, hds⟩ := ih (queue ++ v.below) ds hqueue' hready' heq
      refine ⟨(grows_followAll hfollow).trans hgrows, v :: visits, ?_, ?_⟩
      · exact .visit (v := v) hnew (runs_followAll_again hfollow hgrows) hvisits
      · rw [hds, List.map_cons, List.append_assoc]
        rfl

theorem problems_of_resolve {ds : List Dependency} (h : Runs (resolve r root) s ds s') :
    root.problems = [] := by
  by_contra hproblems
  rw [Runs, run_resolve, if_neg hproblems] at h
  cases (Prod.mk.inj h).1

/-- What is resolved was visited, beginning with what the root declares. -/
theorem exists_visits {ds : List Dependency} (h : Runs (resolve r root) s ds s') :
    ∃ visits, Visits r root s' (ownKey root) (direct root) visits ∧
      ds = visits.map Visit.entry := by
  have hproblems := problems_of_resolve h
  have hqueue : (Tour.start root).queue = (direct root).map (·.pending) := by
    simp [Tour.start, direct]
  have hready : ∀ p ∈ (Tour.start root).queue, IsReady p := by
    rw [hqueue]
    intro p hp
    obtain ⟨d, hd, rfl⟩ := List.mem_map.mp hp
    exact isReady_direct hproblems d hd
  obtain ⟨-, visits, hvisits, hds⟩ := exists_visits_of_ends
    ((isLoop_resolve r hproblems).runs_iff.mp h) (direct root) ds hqueue hready rfl
  exact ⟨visits, hvisits, hds⟩

end Visits

end MavenPom.Resolver
