import MavenPom.Pom.Effective
import MavenPom.Proofs.Pom.Entries
import MavenPom.Proofs.Table

/-!
# Effective versions

Of all entries for an artifact that a lineage lists, interpolated by its properties, the last one
counts, among the dependencies as among the managed entries.
-/

namespace MavenPom

/-- The entries of a profile in a container. -/
def Profile.entries (q : Profile) : Container → List DeclaredDependency
  | .dependencies => q.dependencies
  | .managed => q.managed

/-- The entries of a POM's profiles in force, in a container. -/
def Pom.profileEntries (s : ProfileSelection) (c : Container) (p : Pom) :
    List DeclaredDependency :=
  (p.activeProfiles s).flatMap (·.entries c)

namespace EffectiveModel

variable {s : ProfileSelection} {m : EffectiveModel} {c : Container} {key : ArtifactKey}
  {d : DeclaredDependency} {ds es : List DeclaredDependency}

/-- The entries of a POM in a container, followed by those of its profiles in force. -/
def entriesIn (s : ProfileSelection) (c : Container) (p : Pom) : List DeclaredDependency :=
  p.entries c ++ p.profileEntries s c

/-- The entries that a lineage lists in a container, interpolated. -/
def listed (s : ProfileSelection) (c : Container) (props : Properties) (lineage : List Pom) :
    List DeclaredDependency :=
  (lineage.flatMap (entriesIn s c)).map (·.interpolated props)

/-- Whether an entry of a container counts for an artifact. A managed import stands for a whole
model instead. -/
def counts (c : Container) (key : ArtifactKey) (d : DeclaredDependency) : Bool :=
  d.key? == some key && (c == .dependencies || d.scope != "import")

/-- The last of a container's entries that counts for an artifact. -/
def last? (c : Container) (key : ArtifactKey) (ds : List DeclaredDependency) :
    Option DeclaredDependency :=
  (ds.filter (counts c key)).getLast?

/-- The dependency on an artifact. -/
def dependency? (m : EffectiveModel) (key : ArtifactKey) : Option DeclaredDependency :=
  m.dependencies.find? (·.key? = some key)

/-- The version that a model has for an artifact: that of the dependency on it, or else of its
managed entry. -/
def versionOf? (m : EffectiveModel) (key : ArtifactKey) : Option String :=
  match m.dependency? key with
  | some d => d.version
  | none => (m.managed.get? key).bind (·.version)

theorem last?_append (front back : List DeclaredDependency) :
    last? c key (front ++ back) = (last? c key back).or (last? c key front) := by
  rw [last?, last?, last?, List.filter_append, List.getLast?_append]

theorem last?_eq_none (h : ∀ d ∈ ds, counts c key d = false) : last? c key ds = none := by
  rw [last?, List.filter_eq_nil_iff.mpr fun d hd => by simp [h d hd], List.getLast?_nil]

theorem counts_dependencies : counts .dependencies key d = decide (d.key? = some key) := by
  by_cases h : d.key? = some key <;> simp [counts, h]

/-! ## Dependencies -/

theorem find?_place (d : DeclaredDependency) (es : List DeclaredDependency) :
    (place d es).find? (·.key? = some key) =
      if d.key? = some key then some d else es.find? (·.key? = some key) := by
  induction es with
  | nil => by_cases h : d.key? = some key <;> simp [place, h]
  | cons e es ih =>
    rw [place]
    split
    · next hsame =>
      obtain ⟨-, hkey⟩ := hsame
      by_cases h : d.key? = some key
      · simp [h]
      · rw [if_neg h, List.find?_cons_of_neg (by simpa using h),
          List.find?_cons_of_neg (by simpa [hkey] using h)]
    · next hother =>
      by_cases he : e.key? = some key
      · have hd : d.key? ≠ some key := fun hd => hother ⟨by simp [hd], he.trans hd.symm⟩
        simp [he, hd]
      · rw [List.find?_cons_of_neg (by simpa using he), ih,
          List.find?_cons_of_neg (by simpa using he)]

theorem find?_foldl_place (ds es : List DeclaredDependency) :
    (ds.foldl (fun es d => place d es) es).find? (·.key? = some key) =
      (last? .dependencies key ds).or (es.find? (·.key? = some key)) := by
  induction ds generalizing es with
  | nil => rfl
  | cons d ds ih =>
    rw [List.foldl_cons, ih, find?_place, ← List.singleton_append, last?_append, Option.or_assoc]
    congr 1
    rw [last?, List.filter_singleton, counts_dependencies]
    by_cases h : d.key? = some key <;> simp [h]

/-! ## Managed entries -/

theorem get?_manage (m : EffectiveModel) (d : DeclaredDependency) :
    (m.manage d).managed.get? key =
      if counts .managed key d then some d else m.managed.get? key := by
  unfold manage counts
  by_cases himport : d.scope = "import"
  · simp [himport]
  · rw [if_neg himport]
    cases hkey : d.key? with
    | none => simp
    | some k =>
      simp only
      rw [Table.get?_insert]
      by_cases h : k = key <;> simp [h, himport]

theorem get?_foldl_manage (ds : List DeclaredDependency) (m : EffectiveModel) :
    (ds.foldl manage m).managed.get? key =
      (last? .managed key ds).or (m.managed.get? key) := by
  induction ds generalizing m with
  | nil => rfl
  | cons d ds ih =>
    rw [List.foldl_cons, ih, get?_manage, ← List.singleton_append, last?_append, Option.or_assoc]
    congr 1
    rw [last?, List.filter_singleton]
    by_cases h : counts .managed key d = true <;> simp [h]

theorem manage_fields (m : EffectiveModel) (d : DeclaredDependency) :
    (m.manage d).properties = m.properties ∧ (m.manage d).dependencies = m.dependencies := by
  unfold manage
  split
  · exact ⟨rfl, rfl⟩
  · split <;> exact ⟨rfl, rfl⟩

theorem foldl_manage_fields (ds : List DeclaredDependency) (m : EffectiveModel) :
    (ds.foldl manage m).properties = m.properties ∧
      (ds.foldl manage m).dependencies = m.dependencies := by
  induction ds generalizing m with
  | nil => exact ⟨rfl, rfl⟩
  | cons d ds ih =>
    obtain ⟨hprops, hdeps⟩ := ih (m.manage d)
    obtain ⟨hprops', hdeps'⟩ := manage_fields m d
    exact ⟨hprops.trans hprops', hdeps.trans hdeps'⟩

/-! ## The entries of a lineage -/

/-- The properties stay those that entries are interpolated by, and the last entry that counts for
an artifact is found. -/
theorem foldl_addEntries (lineage : List Pom) (m : EffectiveModel) (key : ArtifactKey) :
    (lineage.foldl (addEntries s) m).properties = m.properties ∧
      (lineage.foldl (addEntries s) m).dependency? key =
        (last? .dependencies key (listed s .dependencies m.properties lineage)).or
          (m.dependency? key) ∧
      (lineage.foldl (addEntries s) m).managed.get? key =
        (last? .managed key (listed s .managed m.properties lineage)).or
          (m.managed.get? key) := by
  induction lineage generalizing m with
  | nil => exact ⟨rfl, rfl, rfl⟩
  | cons p lineage ih =>
    obtain ⟨hprops, hdeps, hmanaged⟩ := ih (addEntries s m p)
    obtain ⟨hmprops, hmdeps⟩ :=
      foldl_manage_fields ((managedIn s p).map (·.interpolated m.properties)) m
    have hprops' : (addEntries s m p).properties = m.properties := hmprops
    have hsplit : ∀ c, listed s c m.properties (p :: lineage) =
        (entriesIn s c p).map (·.interpolated m.properties) ++
          listed s c m.properties lineage := fun c => by
      rw [listed, List.flatMap_cons, List.map_append, listed]
    rw [hprops'] at hdeps hmanaged
    rw [List.foldl_cons, hdeps, hmanaged, hsplit, hsplit, last?_append, last?_append,
      Option.or_assoc, Option.or_assoc]
    refine ⟨hprops.trans hprops', congrArg _ ?_, congrArg _ ?_⟩
    · rw [addEntries, dependency?, hmdeps, find?_foldl_place]
      rfl
    · exact get?_foldl_manage _ m

/-! ## The model of a lineage -/

private theorem foldl_inherit_fields (lineage : List Pom) (m : EffectiveModel) :
    (lineage.foldl (inherit s) m).dependencies = m.dependencies ∧
      (lineage.foldl (inherit s) m).managed = m.managed := by
  induction lineage generalizing m with
  | nil => exact ⟨rfl, rfl⟩
  | cons p lineage ih => exact ih (inherit s m p)

/-- The dependency with what it leaves out taken from the managed entry for its artifact. -/
def completed (managed : Option DeclaredDependency) (d : DeclaredDependency) :
    DeclaredDependency :=
  match managed with
  | some managed => d.filledFrom managed
  | none => d

theorem version_completed (managed : Option DeclaredDependency) (d : DeclaredDependency) :
    (completed managed d).version = d.version.or (managed.bind (·.version)) := by
  cases managed with
  | none => simp [completed]
  | some managed => rfl

theorem dependency?_applyManaged (m : EffectiveModel) (key : ArtifactKey) :
    m.applyManaged.dependency? key =
      (m.dependency? key).map (completed (m.managed.get? key)) := by
  have hkey : ∀ d : DeclaredDependency,
      (completed (d.key?.bind m.managed.get?) d).key? = d.key? := fun d => by
    cases d.key?.bind m.managed.get? <;> rfl
  have hcomp : ((fun d : DeclaredDependency => decide (d.key? = some key)) ∘ fun d =>
      completed (d.key?.bind m.managed.get?) d) = fun d => decide (d.key? = some key) := by
    funext d
    rw [Function.comp_apply, hkey]
  have hfind : m.applyManaged.dependency? key =
      (m.dependencies.map fun d => completed (d.key?.bind m.managed.get?) d).find?
        (·.key? = some key) := rfl
  rw [hfind, List.find?_map, hcomp, dependency?]
  cases h : m.dependencies.find? (·.key? = some key) with
  | none => rfl
  | some d =>
    have hd : d.key? = some key := by simpa using List.find?_some h
    rw [Option.map_some, Option.map_some, hd, Option.bind_some]

/-- The properties of a lineage's model: those of all POMs, and the names of the project. -/
def propertiesOf (s : ProfileSelection) (lineage : List Pom) : Properties :=
  let named := lineage.foldl (inherit s) initial
  withProjectProperties named.properties named.groupId named.artifactId named.version

/-- The entries of a lineage, interpolated by its properties. -/
def entriesOf (s : ProfileSelection) (c : Container) (lineage : List Pom) :
    List DeclaredDependency :=
  listed s c (propertiesOf s lineage) lineage

/-- What the entries of a lineage are added to: its names and properties alone. -/
def named (s : ProfileSelection) (lineage : List Pom) : EffectiveModel :=
  { lineage.foldl (inherit s) initial with properties := propertiesOf s lineage }

theorem build_eq (lineage : List Pom) (s : ProfileSelection) :
    build lineage s = (lineage.foldl (addEntries s) (named s lineage)).applyManaged := rfl

theorem entries_named (s : ProfileSelection) (lineage : List Pom) :
    (named s lineage).dependencies = [] ∧ (named s lineage).managed = Table.empty :=
  foldl_inherit_fields lineage initial

theorem properties_build (lineage : List Pom) (s : ProfileSelection) :
    (build lineage s).properties = propertiesOf s lineage :=
  (foldl_addEntries lineage (named s lineage) ⟨"", ""⟩).1

/-- The last managed entry for an artifact counts. -/
theorem managed_build (lineage : List Pom) (s : ProfileSelection) (key : ArtifactKey) :
    (build lineage s).managed.get? key =
      last? .managed key (entriesOf s .managed lineage) := by
  obtain ⟨-, -, hmanaged⟩ := foldl_addEntries (s := s) lineage (named s lineage) key
  rw [(entries_named s lineage).2] at hmanaged
  exact hmanaged.trans (Option.or_none ..)

/-- The last dependency on an artifact counts, completed from the managed entry. -/
theorem dependency?_build (lineage : List Pom) (s : ProfileSelection) (key : ArtifactKey) :
    (build lineage s).dependency? key =
      (last? .dependencies key (entriesOf s .dependencies lineage)).map
        (completed ((build lineage s).managed.get? key)) := by
  obtain ⟨-, hdeps, -⟩ := foldl_addEntries (s := s) lineage (named s lineage) key
  have hnone : (named s lineage).dependency? key = none := by
    rw [dependency?, (entries_named s lineage).1, List.find?_nil]
  rw [hnone, Option.or_none] at hdeps
  rw [build_eq, dependency?_applyManaged, hdeps]
  rfl

/-- An artifact has the version of the last dependency on it, or else that of its last managed
entry. -/
theorem versionOf?_build (lineage : List Pom) (s : ProfileSelection) (key : ArtifactKey) :
    (build lineage s).versionOf? key =
      ((last? .dependencies key (entriesOf s .dependencies lineage)).bind (·.version)).or
        ((last? .managed key (entriesOf s .managed lineage)).bind (·.version)) := by
  rw [versionOf?, dependency?_build, managed_build]
  cases last? .dependencies key (entriesOf s .dependencies lineage) with
  | none => rfl
  | some d => exact version_completed _ d

end EffectiveModel

end MavenPom
