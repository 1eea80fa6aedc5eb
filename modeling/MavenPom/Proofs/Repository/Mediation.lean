import MavenPom.Proofs.Repository.Visits

/-!
# The nearest declaration wins

Visits are in the order of their distances, and the first declaration of an artifact in this order
is the one that is visited. Whatever is followed from a visited dependency is visited itself, or it
is declared before.
-/

namespace MavenPom.Resolver

open MavenPom.Action (Runs Fails IsLoop)

variable {r : Resolver} {root : EffectiveModel} {s s' : PomStore} {seen : List ArtifactKey}
  {queue : List Declaration} {visits : List Visit}

/-- All declarations of a tour, in the order in which they are queued. -/
def declarations (queue : List Declaration) (visits : List Visit) : List Declaration :=
  queue ++ visits.flatMap Visit.below

/-- The first declaration of an artifact. -/
def first? (key : ArtifactKey) (ds : List Declaration) : Option Declaration :=
  ds.find? (·.key? = some key)

theorem declarations_cons (d : Declaration) (queue : List Declaration) (visits : List Visit) :
    declarations (d :: queue) visits = d :: declarations queue visits := rfl

theorem declarations_visit (queue : List Declaration) (v : Visit) (visits : List Visit) :
    declarations queue (v :: visits) = declarations (queue ++ v.below) visits := by
  rw [declarations, declarations, List.flatMap_cons, List.append_assoc]

section Steps

/-! ## What every visit keeps -/

theorem Visits.keys (h : Visits r root s seen queue visits) :
    (visits.map Visit.key).Nodup ∧ ∀ v ∈ visits, v.key ∉ seen := by
  induction h with
  | done => exact ⟨List.nodup_nil, by simp⟩
  | skip _ _ _ ih => exact ih
  | visit hnew _ _ ih =>
    obtain ⟨hnodup, hfresh⟩ := ih
    refine ⟨List.nodup_cons.mpr ⟨fun hmem => ?_, hnodup⟩, List.forall_mem_cons.mpr ⟨hnew, ?_⟩⟩
    · obtain ⟨w, hw, hkey⟩ := List.mem_map.mp hmem
      exact hfresh w hw (hkey ▸ List.mem_cons_self)
    · exact fun w hw hmem => hfresh w hw (List.mem_cons_of_mem _ hmem)

theorem Visits.following (h : Visits r root s seen queue visits) :
    ∀ v ∈ visits, Runs (followAll r root v.pending v.pomKey) s v.children s := by
  induction h with
  | done => simp
  | skip _ _ _ ih => exact ih
  | visit _ hfollow _ ih => exact List.forall_mem_cons.mpr ⟨hfollow, ih⟩

/-- A visited declaration is the first one of its artifact. -/
theorem Visits.first (h : Visits r root s seen queue visits) :
    ∀ v ∈ visits, first? v.key (declarations queue visits) = some v.toDeclaration := by
  induction h with
  | done => simp
  | skip hkey hseen hrest ih =>
    intro v hv
    have hne : ¬Declaration.key? _ = some v.key := fun heq =>
      hrest.keys.2 v hv (Option.some.inj (hkey.symm.trans heq) ▸ hseen)
    rw [declarations_cons, first?, List.find?_cons_of_neg (by simpa using hne)]
    exact ih v hv
  | @visit _ v _ _ _ _ hrest ih =>
    rw [declarations_visit, List.cons_append, declarations_cons]
    refine List.forall_mem_cons.mpr ⟨?_, fun w hw => ?_⟩
    · exact List.find?_cons_of_pos (by simpa using v.key?_eq)
    · have hne : ¬v.toDeclaration.key? = some w.key := fun heq => by
        have hkey : v.key = w.key := Option.some.inj (v.named.symm.trans heq)
        exact hrest.keys.2 w hw (hkey ▸ List.mem_cons_self)
      rw [first?, List.find?_cons_of_neg (by simpa using hne)]
      exact ih w hw

/-- Every declared artifact was seen or is visited. -/
theorem Visits.complete (h : Visits r root s seen queue visits) :
    ∀ d ∈ declarations queue visits, ∃ key, d.key? = some key ∧
      (key ∈ seen ∨ key ∈ visits.map Visit.key) := by
  induction h with
  | done => simp [declarations]
  | skip hkey hseen _ ih => exact List.forall_mem_cons.mpr ⟨⟨_, hkey, .inl hseen⟩, ih⟩
  | @visit _ v _ _ _ _ _ ih =>
    rw [declarations_visit, List.cons_append, declarations_cons]
    refine List.forall_mem_cons.mpr ⟨⟨v.key, v.named, .inr List.mem_cons_self⟩, fun d hd => ?_⟩
    obtain ⟨key, hkey, hseen | hvisited⟩ := ih d hd
    · rcases List.mem_cons.mp hseen with rfl | hseen
      · exact ⟨v.key, hkey, .inr List.mem_cons_self⟩
      · exact ⟨key, hkey, .inl hseen⟩
    · exact ⟨key, hkey, .inr (List.mem_cons_of_mem _ hvisited)⟩

/-! ## Distances -/

theorem Visits.le_distance (h : Visits r root s seen queue visits) :
    ∀ n, (∀ d ∈ queue, n ≤ d.distance) → ∀ v ∈ visits, n ≤ v.distance := by
  induction h with
  | done => simp
  | skip _ _ _ ih => exact fun n hqueue => ih n (List.forall_mem_cons.mp hqueue).2
  | @visit _ v _ _ _ _ _ ih =>
    intro n hqueue
    obtain ⟨hv, hqueue⟩ := List.forall_mem_cons.mp hqueue
    refine List.forall_mem_cons.mpr ⟨hv, ih n (List.forall_mem_append.mpr ⟨hqueue, fun d hd => ?_⟩)⟩
    rw [Visit.distance_below d hd]
    exact Nat.le_succ_of_le hv

/-- The declarations of a queue are in the order of their distances, of which there are two at most:
    those below the nearest one come last. -/
structure InOrder (queue : List Declaration) : Prop where
  sorted : queue.Pairwise (·.distance ≤ ·.distance)
  close : ∀ d ∈ queue, ∀ e ∈ queue, e.distance ≤ d.distance + 1

theorem InOrder.visit {v : Visit} (h : InOrder (v.toDeclaration :: queue)) :
    InOrder (queue ++ v.below) := by
  obtain ⟨hnearest, hsorted⟩ := List.pairwise_cons.mp h.sorted
  have hqueue : ∀ d ∈ queue, d.distance ≤ v.distance + 1 := fun d hd =>
    h.close _ List.mem_cons_self d (List.mem_cons_of_mem _ hd)
  constructor
  · refine List.pairwise_append.mpr ⟨hsorted, ?_, fun d hd e he => ?_⟩
    · exact List.pairwise_map.mpr (List.pairwise_of_forall fun _ _ => le_rfl)
    · rw [Visit.distance_below e he]
      exact hqueue d hd
  · intro d hd e he
    have hlower : v.distance ≤ d.distance := by
      rcases List.mem_append.mp hd with hd | hd
      · exact hnearest d hd
      · rw [Visit.distance_below d hd]
        exact Nat.le_succ _
    rcases List.mem_append.mp he with he | he
    · exact (hqueue e he).trans (Nat.succ_le_succ hlower)
    · rw [Visit.distance_below e he]
      exact Nat.succ_le_succ hlower

theorem Visits.ordered (h : Visits r root s seen queue visits) :
    InOrder queue → visits.Pairwise (·.distance ≤ ·.distance) := by
  induction h with
  | done => exact fun _ => List.Pairwise.nil
  | skip _ _ _ ih =>
    refine fun horder => ih ⟨(List.pairwise_cons.mp horder.sorted).2, fun d hd e he => ?_⟩
    exact horder.close d (List.mem_cons_of_mem _ hd) e (List.mem_cons_of_mem _ he)
  | @visit _ v _ _ _ _ hrest ih =>
    intro horder
    refine List.pairwise_cons.mpr ⟨hrest.le_distance v.distance ?_, ih horder.visit⟩
    refine List.forall_mem_append.mpr ⟨(List.pairwise_cons.mp horder.sorted).1, fun d hd => ?_⟩
    rw [Visit.distance_below d hd]
    exact Nat.le_succ _

end Steps

/-! ## The answer -/

/-- What is followed from a visited dependency is declared in the model of its POM. -/
theorem following_cases {p : Pending} {key : PomKey} {children : List Pending}
    (h : Runs (followAll r root p key) s children s) :
    (p.scope = "system" ∧ children = []) ∨
    ∃ m, ModelAt r s key m ∧ children = m.dependencies.filterMap (followed? root p) ∧
      ∀ child ∈ m.dependencies, follow root p key child = .ok (followed? root p child) := by
  rcases followAll_cases h with ⟨hsystem, hnil, -⟩ | ⟨-, pom, s₁, m, hload, hmodel, hall, hchildren⟩
  · exact .inl ⟨hsystem, hnil⟩
  · have hgrows : PomStore.Grows s₁ s :=
      (again_effectiveModel (again_load r.toPomSource s) rfl [pom]).enough hmodel
        (PomStore.Grows.refl s)
    refine .inr ⟨m, ⟨pom, hgrows _ _ (PomStore.loaded_of_load hload).2, ?_⟩, hchildren, hall⟩
    exact runs_effectiveModel_again hmodel (PomStore.Grows.refl s)

/-- A dependency of group `g` without a scope. -/
def dependsOn (artifactId version : String) : DeclaredDependency :=
  ⟨some "g", some artifactId, some version, none, none, none, false, []⟩

/-- A POM of group `g` and version `1` with nothing but dependencies. -/
def plainPom (artifactId : String) (dependencies : List DeclaredDependency) : Pom :=
  ⟨some "g", some artifactId, some "1", none, none, Table.empty, dependencies, [], []⟩

end MavenPom.Resolver
