import MavenPom.Project.Basic
import MavenPom.Proofs.Interpolation
import MavenPom.Proofs.Pom.Effective
import MavenPom.Proofs.Pom.Properties
import MavenPom.Proofs.Project.Write

/-!
# Lineages

The nearest POM that declares a property provides it, in a lineage's model as in a project. Only the
project's own names come over what POMs declare. An entry that is brought into one POM of several
counts for its artifact where no entry behind it does: none further on in its container, of the
profiles in force there, or of a nearer POM.
-/

namespace MavenPom

open VersionSlot (isBuiltin)

/-! ## Properties -/

namespace EffectiveModel

variable {s : ProfileSelection} {lineage lineage' : List Pom} {name : String}

/-- The names that a POM gives a model. -/
def names (p : Pom) : Option String × Option String × Option String :=
  (p.effectiveGroupId?, p.artifactId, p.effectiveVersion?)

/-- The properties that a lineage's POMs declare, the nearer ones over the farther ones. -/
def declaredProperties (s : ProfileSelection) (lineage : List Pom) : Properties :=
  lineage.foldl (fun props p => props.extend (p.activeProperties s)) Table.empty

theorem properties_foldl_inherit (s : ProfileSelection) (lineage : List Pom) (m : EffectiveModel) :
    (lineage.foldl (inherit s) m).properties =
      lineage.foldl (fun props p => props.extend (p.activeProperties s)) m.properties := by
  induction lineage generalizing m with
  | nil => rfl
  | cons p lineage ih => exact ih (inherit s m p)

theorem distinct_activeProperties {p : Pom} (h : p.DistinctNames) (s : ProfileSelection) :
    (p.activeProperties s).Distinct := by
  have hfold : ∀ (qs : List Profile) (props : Properties), props.Distinct →
      (qs.foldl (fun props q => props.extend q.properties) props).Distinct := by
    intro qs
    induction qs with
    | nil => exact fun _ hprops => hprops
    | cons q qs ih => exact fun props hprops => ih _ (hprops.extend _)
  exact hfold _ _ h.project

theorem get?_declaredProperties (h : ∀ p ∈ lineage, p.DistinctNames) (s : ProfileSelection)
    (name : String) : (declaredProperties s lineage).get? name =
      lineage.reverse.findSome? fun p => (p.activeProperties s).get? name := by
  rw [declaredProperties, Table.get?_foldl_extend fun p hp => distinct_activeProperties (h p hp) s]
  exact Option.or_none ..

/-! ## The names of the project -/

/-- The names among the properties for one of the project's own. -/
def ownNames (label : String) : List String := ["project." ++ label, "pom." ++ label]

/-- The value that a name of the project's own has. -/
def ownProperty? (label : String) (value : Option String) (name : String) : Option String :=
  if name ∈ ownNames label then value else none

theorem get?_withProjectProperty (props : Properties) (label : String) (value : Option String)
    (name : String) : (withProjectProperty props label value).get? name =
      (ownProperty? label value name).or (props.get? name) := by
  unfold withProjectProperty ownProperty? ownNames
  simp only [List.mem_cons, List.not_mem_nil, or_false]
  cases value with
  | none => rw [ite_self, Option.none_or]
  | some v =>
    simp only [Table.get?_insert]
    by_cases hpom : "pom." ++ label = name
    · rw [if_pos hpom, if_pos (.inr hpom.symm), Option.some_or]
    · by_cases hproject : "project." ++ label = name
      · rw [if_neg hpom, if_pos hproject, if_pos (.inl hproject.symm), Option.some_or]
      · rw [if_neg hpom, if_neg hproject, if_neg, Option.none_or]
        exact not_or.mpr ⟨Ne.symm hproject, Ne.symm hpom⟩

/-- Only the names for a label depend on what it stands for. -/
theorem get?_withProjectProperty_eq {props props' : Properties} {label : String}
    {value value' : Option String} (h : props.get? name = props'.get? name)
    (hvalue : name ∈ ownNames label → value = value') :
    (withProjectProperty props label value).get? name =
      (withProjectProperty props' label value').get? name := by
  have hown : ownProperty? label value name = ownProperty? label value' name :=
    ite_congr rfl hvalue fun _ => rfl
  rw [get?_withProjectProperty, get?_withProjectProperty, h, hown]

theorem withProjectProperties_congr {props props' : Properties} (groupId artifactId version :
    Option String) (h : props'.get? name = props.get? name) :
    (withProjectProperties props' groupId artifactId version).get? name =
      (withProjectProperties props groupId artifactId version).get? name := by
  simp only [withProjectProperties, get?_withProjectProperty, h]

private theorem isPrefixOf_append (front back : String) :
    front.isPrefixOf (front ++ back) = true := by
  rw [String.isPrefixOf, String.startsWith_string_iff, String.toList_append]
  exact List.prefix_append _ _

theorem ne_of_isBuiltin_eq_false (h : isBuiltin name = false) (label : String) :
    "project." ++ label ≠ name ∧ "pom." ++ label ≠ name := by
  have hfront : ∀ start ∈ ["project.", "pom.", "env.", "settings.", "java.", "os.", "user."],
      start.isPrefixOf name = false := by
    simp only [isBuiltin, Bool.or_eq_false_iff, List.any_eq_false] at h
    exact fun start hstart => Bool.eq_false_iff.mpr (h.2 start hstart)
  constructor
  · rintro rfl
    exact absurd (hfront "project." (by simp)) (by simp [isPrefixOf_append])
  · rintro rfl
    exact absurd (hfront "pom." (by simp)) (by simp [isPrefixOf_append])

/-- Only the names of the project come over what POMs declare. -/
theorem get?_withProjectProperties (h : isBuiltin name = false) (props : Properties)
    (groupId artifactId version : Option String) :
    (withProjectProperties props groupId artifactId version).get? name = props.get? name := by
  have hnone : ∀ label value, ownProperty? label value name = none := fun label value =>
    if_neg (by simp [ownNames, (ne_of_isBuiltin_eq_false h label).imp Ne.symm Ne.symm])
  simp only [withProjectProperties, get?_withProjectProperty, hnone, Option.none_or]

theorem get?_propertiesOf (h : isBuiltin name = false) (hnames : ∀ p ∈ lineage, p.DistinctNames)
    (s : ProfileSelection) : (propertiesOf s lineage).get? name =
      lineage.reverse.findSome? fun p => (p.activeProperties s).get? name := by
  rw [propertiesOf, get?_withProjectProperties h, properties_foldl_inherit]
  exact get?_declaredProperties hnames s name

/-! ## The nearest names -/

/-- Of what POMs give a model, the nearest one's counts. -/
theorem foldl_inherit_eq {f : EffectiveModel → Option String} {own : Pom → Option String}
    (h : ∀ m p, f (inherit s m p) = (own p).or (f m)) (lineage : List Pom)
    (m : EffectiveModel) :
    f (lineage.foldl (inherit s) m) = (lineage.reverse.findSome? own).or (f m) := by
  induction lineage generalizing m with
  | nil => rfl
  | cons p lineage ih =>
    rw [List.foldl_cons, ih, h, List.reverse_cons, List.findSome?_append, Option.or_assoc,
      List.findSome?_singleton]

theorem names_foldl_inherit (s : ProfileSelection) (lineage : List Pom) :
    (lineage.foldl (inherit s) initial).groupId =
        lineage.reverse.findSome? (·.effectiveGroupId?) ∧
      (lineage.foldl (inherit s) initial).artifactId =
        lineage.reverse.findSome? (·.artifactId) ∧
      (lineage.foldl (inherit s) initial).version =
        lineage.reverse.findSome? (·.effectiveVersion?) := by
  refine ⟨?_, ?_, ?_⟩
  · exact (foldl_inherit_eq (f := (·.groupId)) (fun _ _ => rfl) _ _).trans (Option.or_none ..)
  · exact (foldl_inherit_eq (f := (·.artifactId)) (fun _ _ => rfl) _ _).trans
      (Option.or_none ..)
  · exact (foldl_inherit_eq (f := (·.version)) (fun _ _ => rfl) _ _).trans (Option.or_none ..)

/-- What is nearest depends on what each POM of a lineage has. -/
theorem findSome?_reverse_congr {f : Pom → Option String} (h : lineage'.map f = lineage.map f) :
    lineage'.reverse.findSome? f = lineage.reverse.findSome? f := by
  have hmap : ∀ l : List Pom, l.reverse.findSome? f = (l.map f).reverse.findSome? id := fun l => by
    rw [← List.map_reverse, List.findSome?_map, Function.id_comp]
  rw [hmap, hmap, h]

/-- A property that every POM of a lineage declares as another one's does is provided alike. -/
theorem get?_propertiesOf_congr (h : lineage'.map names = lineage.map names)
    (hnames : ∀ p ∈ lineage, p.DistinctNames) (hnames' : ∀ p ∈ lineage', p.DistinctNames)
    (hprops : lineage'.map (fun p => (p.activeProperties s).get? name) =
      lineage.map fun p => (p.activeProperties s).get? name) :
    (propertiesOf s lineage').get? name = (propertiesOf s lineage).get? name := by
  have hmap : ∀ {f : Pom → Option String} {g : Option String × Option String × Option String →
      Option String}, (∀ p, f p = g (names p)) → lineage'.map f = lineage.map f := by
    intro f g hf
    simpa only [List.map_map, Function.comp_def, ← hf] using congrArg (List.map g) h
  have hgroup : lineage'.reverse.findSome? (·.effectiveGroupId?) =
      lineage.reverse.findSome? (·.effectiveGroupId?) :=
    findSome?_reverse_congr (hmap (g := fun n => n.1) fun _ => rfl)
  have hartifact : lineage'.reverse.findSome? (·.artifactId) =
      lineage.reverse.findSome? (·.artifactId) :=
    findSome?_reverse_congr (hmap (g := fun n => n.2.1) fun _ => rfl)
  have hversion : lineage'.reverse.findSome? (·.effectiveVersion?) =
      lineage.reverse.findSome? (·.effectiveVersion?) :=
    findSome?_reverse_congr (hmap (g := fun n => n.2.2) fun _ => rfl)
  simp only [propertiesOf, names_foldl_inherit, hgroup, hartifact, hversion]
  refine withProjectProperties_congr _ _ _ ?_
  rw [properties_foldl_inherit, properties_foldl_inherit]
  exact (get?_declaredProperties hnames' s name).trans
    ((findSome?_reverse_congr hprops).trans (get?_declaredProperties hnames s name).symm)

end EffectiveModel

/-- The nearest document that declares a property provides it. -/
theorem Project.get?_properties {p : Project} {name : String} (h : isBuiltin name = false)
    (hnames : ∀ pom ∈ p.lineage, pom.DistinctNames) : p.properties.get? name =
      p.lineage.reverse.findSome? fun pom =>
        (pom.activeProperties p.request.selection).get? name := by
  rw [Project.properties, EffectiveModel.get?_withProjectProperties h]
  exact EffectiveModel.get?_declaredProperties hnames _ name

/-! ## The last word on an artifact -/

open EffectiveModel Interpolation

/-- An artifact's names are written without references. -/
def ArtifactKey.IsPlain (key : ArtifactKey) : Prop :=
  hasReference key.groupId = false ∧ hasReference key.artifactId = false

instance (key : ArtifactKey) : Decidable key.IsPlain := inferInstanceAs (Decidable (_ ∧ _))

variable {s : ProfileSelection} {c : Container} {props : Properties} {d : Dependency}
  {key : ArtifactKey} {text : String} {index : Nat} {poms : List Pom} {pom : Pom}

theorem DeclaredDependency.key?_interpolated {x : DeclaredDependency} (hkey : key.IsPlain)
    (h : x.key? = some key) : (x.interpolated props).key? = some key := by
  obtain ⟨hg, ha⟩ := hkey
  unfold DeclaredDependency.key? at h ⊢
  simp only [DeclaredDependency.interpolated]
  cases hgroup : x.groupId with
  | none => simp [hgroup] at h
  | some g =>
    cases hartifact : x.artifactId with
    | none => simp [hgroup, hartifact] at h
    | some a =>
      simp only [hgroup, hartifact, Option.some.injEq] at h
      subst h
      simp only [Option.map_some]
      rw [interpolate_of_not_hasReference hg, interpolate_of_not_hasReference ha]

/-- The entry that a version is brought to. -/
def broughtEntry (d : Dependency) (text : String) (es : List DeclaredDependency) :
    DeclaredDependency :=
  match es.find? (·.key? = some d.key) with
  | some x => { x with version := some text }
  | none => d.declared (some text)

/-- The entries behind it in its container. -/
def entriesBehind (key : ArtifactKey) (es : List DeclaredDependency) : List DeclaredDependency :=
  (es.dropWhile (·.key? ≠ some key)).tail

theorem bringEntry_eq (d : Dependency) (text : String) (es : List DeclaredDependency) :
    bringEntry d text es = es.takeWhile (·.key? ≠ some d.key) ++
      broughtEntry d text es :: entriesBehind d.key es := by
  induction es with
  | nil => rfl
  | cons x es ih =>
    by_cases h : x.key? = some d.key
    · simp [bringEntry, broughtEntry, entriesBehind, h]
    · rw [bringEntry, if_neg h, ih, List.takeWhile_cons_of_pos (by simpa using h),
        List.cons_append, broughtEntry, broughtEntry, entriesBehind, entriesBehind,
        List.find?_cons_of_neg (by simpa using h), List.dropWhile_cons_of_pos (by simpa using h)]

theorem key?_broughtEntry (d : Dependency) (text : String) (es : List DeclaredDependency) :
    (broughtEntry d text es).key? = some d.key ∧ (broughtEntry d text es).version = some text := by
  unfold broughtEntry
  split
  · next x hx =>
    have hkey : x.key? = some d.key := by simpa using List.find?_some hx
    exact ⟨hkey, rfl⟩
  · exact ⟨rfl, rfl⟩

theorem find?_bringEntry (d : Dependency) (text : String) (es : List DeclaredDependency) :
    (bringEntry d text es).find? (·.key? = some d.key) = some (broughtEntry d text es) := by
  have hfront : (es.takeWhile (·.key? ≠ some d.key)).find? (·.key? = some d.key) = none :=
    List.find?_eq_none.mpr fun x hx => by simpa using List.mem_takeWhile_imp hx
  rw [bringEntry_eq, List.find?_append, hfront, Option.none_or,
    List.find?_cons_of_pos (by simpa using (key?_broughtEntry d text es).1)]

/-- The entries behind one that is brought into a container of the POM at a place: further ones
there, those of the profiles in force, and those of the nearer POMs. -/
def behind (s : ProfileSelection) (index : Nat) (c : Container) (key : ArtifactKey)
    (poms : List Pom) : List DeclaredDependency :=
  (poms[index]?.map fun pom =>
    entriesBehind key (pom.entries c) ++ pom.profileEntries s c).getD [] ++
      (poms.take index).reverse.flatMap (entriesIn s c)

theorem profileEntries_withEntries (p : Pom) (c : Container) (es : List DeclaredDependency)
    (s : ProfileSelection) (c' : Container) :
    (p.withEntries c es).profileEntries s c' = p.profileEntries s c' := by
  cases c <;> rfl

/-- An entry with nothing behind it that counts for its artifact is the last one. -/
theorem last?_bring (hpom : poms[index]? = some pom) (hbehind : ∀ x ∈ behind s index c d.key poms,
      counts c d.key (x.interpolated props) = false)
    (hself : counts c d.key ((broughtEntry d text (pom.entries c)).interpolated props) = true) :
    last? c d.key (listed s c props (poms.modify index (·.bring c d text)).reverse) =
      some ((broughtEntry d text (pom.entries c)).interpolated props) := by
  obtain ⟨hlt, rfl⟩ := List.getElem?_eq_some_iff.mp hpom
  rw [behind, hpom, Option.map_some, Option.getD_some] at hbehind
  have hsplit : listed s c props (poms.modify index (·.bring c d text)).reverse =
      ((poms.drop (index + 1)).reverse.flatMap (entriesIn s c) ++
        (poms[index].entries c).takeWhile (·.key? ≠ some d.key)).map (·.interpolated props) ++
      [(broughtEntry d text (poms[index].entries c)).interpolated props] ++
      (entriesBehind d.key (poms[index].entries c) ++ poms[index].profileEntries s c ++
        (poms.take index).reverse.flatMap (entriesIn s c)).map (·.interpolated props) := by
    rw [listed, List.modify_eq_take_cons_drop hlt, List.reverse_append, List.reverse_cons,
      List.flatMap_append, List.flatMap_append, List.flatMap_singleton, entriesIn, Pom.bring,
      Pom.entries_withEntries, profileEntries_withEntries, bringEntry_eq]
    simp
  have hnone : ∀ y ∈ (entriesBehind d.key (poms[index].entries c) ++
      poms[index].profileEntries s c ++ (poms.take index).reverse.flatMap (entriesIn s c)).map
        (·.interpolated props), counts c d.key y = false := by
    intro y hy
    obtain ⟨x, hx, rfl⟩ := List.mem_map.mp hy
    exact hbehind x hx
  rw [hsplit, last?_append, last?_eq_none hnone, Option.none_or, last?_append]
  simp [last?, hself]

end MavenPom
