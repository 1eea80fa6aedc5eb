import MavenPom.Proofs.Edit.Step

/-!
# What editors look up

An editor looks up the first entry for an artifact, the version that it gives, and the values of
properties. All of that is read off the nodes that the editor's tree shows, so that trees of the
same content are looked up alike. An edit under one name changes only what is looked up under it,
and what an edit has written is found by the next one.
-/

namespace MavenPom

open Markup Markup.Tree
open Strict.Node (Appended ChangedAt GivenText Puts SetsField SetsProperty leaf)

/-! ## Looking up nodes -/

namespace Markup.Strict.Node

variable {n n' : Node} {name value : String}

/-- The trimmed text before the child elements. -/
def content (n : Node) : String := Text.trim ((n.leadingText?).getD "")

/-- The first entry for an artifact. -/
def entryFor? (c : Container) (key : ArtifactKey) (n : Node) : Option Node :=
  (n.select (c.path ++ ["dependency"])).find? fun m => (Pom.dependencyOf m).key? = some key

/-- The first version that this entry gives. -/
def version? (c : Container) (key : ArtifactKey) (n : Node) : Option String :=
  ((n.entryFor? c key).bind (·.child? "version")).map content

/-- The version that this entry gives, if it gives just one. -/
def soleVersion? (c : Container) (key : ArtifactKey) (n : Node) : Option String :=
  (n.entryFor? c key).bind fun m =>
    match m.childrenNamed "version" with
    | [v] => some v.content
    | _ => none

/-- The profiles of a POM. -/
def profileNodes (n : Node) : List Node :=
  ((n.child? "profiles").map (·.childrenNamed "profile")).getD []

/-- The node that a block of properties is in. -/
def owner? (scope : PropertyScope) (n : Node) : Option Node :=
  match scope with
  | .project => some n
  | .profile id => n.profileNodes.find? fun m => (m.child? "id").map content == some id

/-- The value of a property that is declared below a node. -/
def value? (name : String) (n : Node) : Option String :=
  ((n.child? "properties").bind (·.child? name)).map content

/-- The value of a property in a block. -/
def property? (scope : PropertyScope) (name : String) (n : Node) : Option String :=
  (n.owner? scope).bind (value? name)

/-- The nodes differ in their children of one name, if at all. -/
def KeepsOthers (name : String) (n n' : Node) : Prop :=
  ∀ other, other ≠ name → n'.childrenNamed other = n.childrenNamed other

namespace KeepsOthers

theorem refl (name : String) (n : Node) : KeepsOthers name n n := fun _ _ => rfl

variable (h : KeepsOthers name n n') {c : Container} {key : ArtifactKey}

include h

theorem child?_eq {other : String} (hne : other ≠ name) : n'.child? other = n.child? other := by
  rw [Node.child?_eq, Node.child?_eq, h other hne]

theorem entryFor?_eq (hc : c.first ≠ name) : n'.entryFor? c key = n.entryFor? c key := by
  rw [entryFor?, entryFor?, c.path_eq, List.cons_append, select, select, h _ hc]

theorem soleVersion?_eq (hc : c.first ≠ name) : n'.soleVersion? c key = n.soleVersion? c key := by
  rw [soleVersion?, soleVersion?, h.entryFor?_eq hc]

theorem version?_eq (hc : c.first ≠ name) : n'.version? c key = n.version? c key := by
  rw [version?, version?, h.entryFor?_eq hc]

theorem profileNodes_eq (hne : "profiles" ≠ name) : n'.profileNodes = n.profileNodes := by
  rw [profileNodes, profileNodes, h.child?_eq hne]

theorem property?_eq {scope : PropertyScope} (hscope : scope.first ≠ name) (property : String) :
    n'.property? scope property = n.property? scope property := by
  cases scope with
  | project =>
    simp only [property?, owner?, Option.bind_some, value?]
    rw [h.child?_eq (show "properties" ≠ name from hscope)]
  | profile id =>
    simp only [property?, owner?]
    rw [h.profileNodes_eq hscope]

end KeepsOthers

theorem owner?_of_profileNodes {id : String} {front back : List Node} {m : Node}
    (h : n.profileNodes = front ++ m :: back)
    (hfront : ∀ m ∈ front, ((m.child? "id").map content == some id) = false)
    (hid : ((m.child? "id").map content == some id) = true) :
    n.owner? (.profile id) = some m :=
  List.find?_eq_some_iff_append.mpr ⟨hid, front, back, h, fun m hm => by simp [hfront m hm]⟩

theorem childrenNamed_leaves (own text name : String) (fields : List (String × String)) :
    (Node.element own (.text text :: fields.map leaf)).childrenNamed name =
      (fields.filter (·.1 == name)).map leaf := by
  rw [childrenNamed, children, List.filter_cons_of_neg (by simp), List.filter_map]
  rfl

/-- An entry that gives just one version gives that one first. -/
theorem version?_of_soleVersion? {c : Container} {key : ArtifactKey} {v : String}
    (h : n.soleVersion? c key = some v) : n.version? c key = some v := by
  obtain ⟨m, hm, hversion⟩ := Option.bind_eq_some_iff.mp h
  split at hversion
  · next sole hsole =>
    rw [version?, hm, Option.bind_some, child?_eq, hsole]
    exact hversion
  · cases hversion

/-- A property that is set below a node has its value there. -/
theorem SetsProperty.value?_eq (h : SetsProperty name value n n')
    (hvalue : Text.trim value = value) :
    n'.value? name = some value := by
  obtain ⟨old, block, hblock, front, back, field, new, hputs, hgiven, -⟩ := h
  obtain ⟨own, rest, rest', -, rfl⟩ := hgiven
  rw [value?, hblock.child?.2, Option.bind_some, (Puts.child? ⟨front, back, hputs⟩).2,
    Option.map_some]
  exact congrArg some hvalue

theorem SetsProperty.child?_eq (h : SetsProperty name value n n') {other : String}
    (hne : other ≠ "properties") : n'.child? other = n.child? other := by
  obtain ⟨old, block, hblock, -⟩ := h
  exact hblock.child?_of_ne hne

end Markup.Strict.Node

open Strict.Node (KeepsOthers)

/-! ## What POMs say of profiles and of themselves -/

namespace Pom

variable {n n' : Strict.Node} {name value : String}

/-- What a POM says of itself: its names, how it is packaged and its parent. -/
def header (p : Pom) : Pom :=
  { p with properties := Table.empty, dependencies := [], managed := [], profiles := [] }

/-- The header is read from other children than entries, properties and profiles are. -/
theorem header_ofNode (h : KeepsOthers name n n')
    (hname : name ∈ ["dependencies", "dependencyManagement", "properties", "profiles"]) :
    (ofNode n').header = (ofNode n).header := by
  have hne : ∀ other ∈ ["groupId", "artifactId", "version", "packaging", "parent"],
      other ≠ name := by
    simp only [List.mem_cons, List.not_mem_nil, or_false] at hname
    rcases hname with rfl | rfl | rfl | rfl <;> decide
  have hchild := fun other hother => h.child?_eq (hne other hother)
  simp only [ofNode, header, Strict.Node.childText?]
  rw [hchild "groupId" (by decide), hchild "artifactId" (by decide), hchild "version" (by decide),
    hchild "packaging" (by decide), hchild "parent" (by decide)]

/-- What is read from headers alone is the same for POMs of the same header. -/
theorem eq_of_header_eq {α : Type} {p p' : Pom} (h : p'.header = p.header) (f : Pom → α)
    (hf : ∀ q : Pom, f q.header = f q) : f p' = f p := by
  rw [← hf, h, hf]

theorem profiles_ofNode (n : Strict.Node) : (ofNode n).profiles = n.profileNodes.map profileOf := by
  simp only [ofNode, Strict.Node.profileNodes]
  cases n.child? "profiles" <;> rfl

/-- What is in force in a POM but for its entries. -/
theorem activeProperties_ofNode {c : Container} (h : KeepsOthers c.first n n')
    (s : ProfileSelection) : (ofNode n').activeProperties s = (ofNode n).activeProperties s := by
  rw [ofNode_of_child?_eq fun _ hne => h.child?_eq hne]
  cases c <;> rfl

/-- What decides whether a profile is the one that provides a property. -/
def provision (name : String) (q : Profile) : String × Bool × Bool :=
  (q.id, q.activeByDefault, (q.properties.get? name).isSome)

/-- The block that a property is in does not depend on what it is set to. -/
theorem scopeOf_eq {p p' : Pom}
    (h : p'.profiles.map (provision name) = p.profiles.map (provision name))
    (s : ProfileSelection) : VersionSlot.scopeOf s p' name = VersionSlot.scopeOf s p name := by
  have hscope : ∀ pom : Pom, VersionSlot.scopeOf s pom name =
      let provisions := pom.profiles.map (provision name)
      let asked := provisions.any fun x => s.activates x.1
      ((((provisions.filter fun x =>
        !s.deactivates x.1 && (s.activates x.1 || (x.2.1 && !asked))).filter
          (·.2.2)).getLast?).map (·.1)).elim .project .profile := by
    intro pom
    dsimp only
    rw [List.any_map, List.filter_map, List.filter_map, List.getLast?_map, Option.map_map]
    unfold VersionSlot.scopeOf Pom.activeProfiles
    split <;> next hlast => exact (congrArg (fun q : Option Profile => (q.map (·.id)).elim
      PropertyScope.project PropertyScope.profile) hlast).symm
  rw [hscope, hscope, h]

end Pom

/-! ## Looking up elements -/

namespace Markup.Tree

variable {t : Tree} {ns : Option String}

theorem content_shownNode (depth : ℕ) (id : NodeId) :
    (t.shownNode ns (depth + 1) id).content = Text.trim (t.text id) := by
  simp [Strict.Node.content, leadingText?_shownNode]

theorem value?_shownNode (depth : ℕ) (id : NodeId) (name : String) :
    (t.shownNode ns (depth + 3) id).value? name =
      ((t.childNamed? id ns "properties").bind (t.childNamed? · ns name)).map
        fun field => Text.trim (t.text field) := by
  rw [Strict.Node.value?, child?_shownNode]
  cases t.childNamed? id ns "properties" with
  | none => rfl
  | some block =>
    rw [Option.map_some, Option.bind_some, Option.bind_some, child?_shownNode, Option.map_map]
    cases t.childNamed? block ns name with
    | none => rw [Option.map_none, Option.map_none]
    | some field => rw [Option.map_some, Option.map_some, Function.comp_apply, content_shownNode]

end Markup.Tree

namespace Editor

variable {e e' : Editor} {c : Container} {key : ArtifactKey} {name value : String}

theorem entryFor?_shown (e : Editor) (c : Container) (key : ArtifactKey) :
    e.shown.entryFor? c key =
      (e.findDependency? c.path key).map (e.tree.shownNode e.ns (c.depth + 2)) := by
  have hdepth : shownDepth = c.depth + 1 + (c.path ++ ["dependency"]).length + 1 := by
    cases c <;> rfl
  have hkey : (fun m => decide ((Pom.dependencyOf m).key? = some key)) ∘
      e.tree.shownNode e.ns (c.depth + 2) = e.hasKey key := by
    funext id
    rw [Bool.eq_iff_iff, Function.comp_apply, decide_eq_true_eq]
    exact key?_entry id
  rw [Strict.Node.entryFor?, shown, hdepth, select_shownNode, List.find?_map, hkey,
    findDependency?_eq]
  rfl

theorem version?_shown (e : Editor) (c : Container) (key : ArtifactKey) :
    e.shown.version? c key = e.version? c key := by
  rw [Strict.Node.version?, version?, entryFor?_shown]
  cases e.findDependency? c.path key with
  | none => rfl
  | some entry =>
    rw [Option.map_some, Option.bind_some, Option.bind_some, child?_shownNode, child?,
      Option.map_map]
    cases e.tree.childNamed? entry e.ns "version" with
    | none => rw [Option.map_none, Option.map_none]
    | some slot =>
      rw [Option.map_some, Option.map_some, Function.comp_apply, content_shownNode, text]

theorem soleVersion?_shown (e : Editor) (c : Container) (key : ArtifactKey) :
    e.shown.soleVersion? c key = e.slotText? c key := by
  rw [Strict.Node.soleVersion?, slotText?, slot?, entryFor?_shown]
  cases e.findDependency? c.path key with
  | none => rfl
  | some entry =>
    rw [Option.map_some, Option.bind_some, Option.bind_some, childrenNamed_shownNode, versionSlot?]
    rcases e.tree.childrenNamed entry e.ns "version" with _ | ⟨slot, _ | ⟨other, rest⟩⟩
    · rfl
    · simp only [List.map_cons, List.map_nil, content_shownNode, Option.map_some, text]
    · rfl

theorem profileNodes_shown (e : Editor) :
    e.shown.profileNodes = e.profileIds.map (e.tree.shownNode e.ns 7) := by
  rw [Strict.Node.profileNodes, shown, shownDepth, child?_shownNode, profileIds, child?]
  cases e.tree.childNamed? e.root e.ns "profiles" with
  | none => rfl
  | some m =>
    rw [Option.map_some, Option.map_some, Option.map_some, childrenNamed_shownNode]
    rfl

/-- Whether a profile has an id shows in what it shows. -/
theorem hasId_shownNode (e : Editor) (profile : NodeId) (id : String) :
    (((e.tree.shownNode e.ns 7 profile).child? "id").map Strict.Node.content == some id) =
      ((e.child? profile "id").map e.text == some id) := by
  rw [child?_shownNode, child?, Option.map_map]
  cases e.tree.childNamed? profile e.ns "id" with
  | none => rw [Option.map_none, Option.map_none]
  | some field =>
    rw [Option.map_some, Option.map_some, Function.comp_apply, content_shownNode, text]

theorem profile?_eq_find? (e : Editor) (id : String) : e.profile? id =
    e.profileIds.find? fun profile => (e.child? profile "id").map e.text == some id := by
  rw [profile?, profileIds]
  cases e.child? e.root "profiles" <;> rfl

theorem profile?_shown (e : Editor) (id : String) :
    e.shown.owner? (.profile id) = (e.profile? id).map (e.tree.shownNode e.ns 7) := by
  rw [Strict.Node.owner?, profileNodes_shown, List.find?_map, profile?_eq_find?]
  exact congrArg (Option.map _) (congrArg (List.find? · e.profileIds)
    (funext fun profile => hasId_shownNode e profile id))

theorem property?_shown (e : Editor) (scope : PropertyScope) (name : String) :
    e.shown.property? scope name = e.property? scope name := by
  rw [Strict.Node.property?, property?]
  cases scope with
  | project => exact value?_shownNode 6 e.root name
  | profile id =>
    rw [profile?_shown, owner?]
    cases e.profile? id with
    | none => rfl
    | some profile => exact value?_shownNode 4 profile name

theorem Alters.keepsOthers (h : e.Alters e' name) : KeepsOthers name e.shown e'.shown := by
  obtain ⟨tree, dirty, rfl⟩ := h.eq
  exact fun other hne => childrenNamed_shown_of_changedUnder h.changed hne dirty

/-! ## Finding what has been written -/

theorem filter_entryFields (d : Dependency) (version : Option String) :
    (entryFields d version).filter (·.1 == "version") = (version.map ("version", ·)).toList := by
  have hother : ∀ (p : Prop) [Decidable p] (name text : String), name ≠ "version" →
      (if p then [] else [(name, text)]).filter (·.1 == "version") = [] := by
    intro p _ name text hname
    split <;> simp [hname]
  have hclassifier :
      (d.classifier.map ("classifier", ·)).toList.filter (·.1 == "version") = [] := by
    cases d.classifier <;> rfl
  have hversion : (version.map ("version", ·)).toList.filter (·.1 == "version") =
      (version.map ("version", ·)).toList := by
    cases version <;> rfl
  simp only [entryFields, List.filter_append, hversion, hclassifier,
    hother _ "type" _ (by decide), hother _ "scope" _ (by decide)]
  simp

section Entries

variable {d : Dependency} {text : String} (hsound : e.Sound) (hd : d.Proper)

include hsound

/-- An entry that is given a version is found again, with it. -/
theorem entryFor?_addVersion {entry : NodeId} (hentry : e.findDependency? c.path d.key = some entry)
    (htext : Text.trim text = text) :
    ∃ m m', e.shown.entryFor? c d.key = some m ∧
      (e.addVersion entry text).shown.entryFor? c d.key = some m' ∧
      ChangedAt (GivenText text) ["version"] m m' := by
  have hmem := mem_entryIds_of_findDependency? hentry
  have hfound : (e.addVersion entry text).findDependency? c.path d.key = some entry :=
    (congrArg List.head? (findDependencies_addVersion hsound hmem text d.key)).trans hentry
  have hcolon : ∀ step ∈ ["version"], ':' ∉ step.toList := by decide
  have hchanged := changedAt_putText (hsound.hasElement_root.select hmem) hcolon htext
    ElementOrder.dependency c.depth
  refine ⟨_, _, by rw [entryFor?_shown, hentry]; rfl, by rw [entryFor?_shown, hfound]; rfl, ?_⟩
  obtain ⟨tree, dirty, heq⟩ := e.putText_eq entry ElementOrder.dependency ["version"] text
  rw [addVersion_eq, heq]
  rw [heq] at hchanged
  exact hchanged

include hd

/-- An entry that is added is found, with its fields. -/
theorem entryFor?_addEntry {version : Option String}
    (hversion : ∀ v, version = some v → Text.IsTrimmed v)
    (hnone : e.findDependency? c.path d.key = none) :
    ∃ gap, (Insertion.addEntry c.path d version e).shown.entryFor? c d.key =
      some (.element "dependency" (.text gap :: (entryFields d version).map leaf)) := by
  obtain ⟨tree, heq, -, hchanged⟩ := addEntry_spec hsound hd hversion
  obtain ⟨front, new, back, ⟨gap, rfl⟩, hbefore, hafter⟩ := hchanged.select
    (P := fun n => ∃ gap, n = .element "dependency" (.text gap :: (entryFields d version).map leaf))
    fun m m' ⟨gap, happended⟩ =>
      ⟨_, ⟨gap, rfl⟩, @Appended.childrenNamed _ _ _ happended "dependency" rfl⟩
  have hothers : e.shown.entryFor? c d.key = none := by rw [entryFor?_shown, hnone, Option.map_none]
  rw [Strict.Node.entryFor?, hbefore, List.find?_append, Option.or_eq_none_iff] at hothers
  refine ⟨gap, ?_⟩
  rw [heq, Strict.Node.entryFor?, hafter, List.find?_append, hothers.1, Option.none_or,
    List.find?_cons_of_pos]
  rw [Pom.dependencyOf_entryFields hd hversion gap, Dependency.key?_declared, decide_eq_true rfl]

theorem alters_bring (htext : Text.IsTrimmed text) :
    e.Alters (e.bring c d text) c.first := by
  unfold bring
  split
  · next hentry => exact alters_addVersion hsound (mem_entryIds_of_findDependency? hentry) text
  · exact alters_addEntry hsound hd fun v hv => Option.some.inj hv ▸ htext

/-- An entry that is brought in is found with its version, and with just one if it had just one. -/
theorem entryFor?_bring (htext : Text.IsTrimmed text) :
    ∃ m' v rest, (e.bring c d text).shown.entryFor? c d.key = some m' ∧
      m'.childrenNamed "version" = v :: rest ∧ v.content = text ∧
      ∀ m, e.shown.entryFor? c d.key = some m →
        (m.childrenNamed "version").length = 1 → rest = [] := by
  unfold bring
  split
  · next hentry =>
    obtain ⟨m, m', hm, hm', old, v, hputs, own, rest, rest', -, rfl⟩ :=
      entryFor?_addVersion hsound hentry htext.1
    obtain ⟨others, hbefore, hafter, hnone⟩ := hputs.childrenNamed
    refine ⟨m', _, others, hm', hafter, htext.1, fun m₁ hm₁ hlength => ?_⟩
    obtain rfl := Option.some.inj (hm.symm.trans hm₁)
    cases old with
    | none => exact hnone rfl
    | some first =>
      rw [hbefore, List.length_append, Option.toList_some, List.length_singleton] at hlength
      exact List.length_eq_zero_iff.mp (by omega)
  · next hnone =>
    obtain ⟨gap, hentry⟩ := entryFor?_addEntry hsound hd
      (show ∀ v, some text = some v → Text.IsTrimmed v from fun v hv => Option.some.inj hv ▸ htext)
      hnone
    refine ⟨_, leaf ("version", text), [], hentry, ?_, htext.1, fun _ _ _ => rfl⟩
    rw [Strict.Node.childrenNamed_leaves, filter_entryFields]
    rfl

theorem version?_bring (htext : Text.IsTrimmed text) :
    (e.bring c d text).shown.version? c d.key = some text := by
  obtain ⟨m, v, rest, hm, hnamed, hcontent, -⟩ := @entryFor?_bring _ c _ _ hsound hd htext
  rw [Strict.Node.version?, hm, Option.bind_some, Strict.Node.child?_eq, hnamed, List.head?_cons,
    Option.map_some, hcontent]

theorem soleVersion?_bring (htext : Text.IsTrimmed text)
    (h : (e.shown.soleVersion? c d.key).isSome = true) :
    (e.bring c d text).shown.soleVersion? c d.key = some text := by
  obtain ⟨m', v, rest, hm', hnamed, hcontent, hrest⟩ := @entryFor?_bring _ c _ _ hsound hd htext
  obtain ⟨sole, hsole⟩ := Option.isSome_iff_exists.mp h
  obtain ⟨m, hm, hversion⟩ := Option.bind_eq_some_iff.mp hsole
  have hlength : (m.childrenNamed "version").length = 1 := by
    split at hversion
    · next hone => rw [hone, List.length_singleton]
    · cases hversion
  rw [Strict.Node.soleVersion?, hm', Option.bind_some, hnamed, hrest m hm hlength]
  exact congrArg some hcontent

theorem alters_enlist : e.Alters (e.enlist c d) c.first := by
  unfold enlist
  split
  · exact alters_self hsound _
  · exact alters_addEntry hsound hd (by simp)

/-- An entry that is enlisted is found, without a version unless it had one. -/
theorem entryFor?_enlist : ((e.enlist c d).shown.entryFor? c d.key).isSome = true ∧
    (e.enlist c d).shown.soleVersion? c d.key = e.shown.soleVersion? c d.key := by
  unfold enlist
  split
  · next hentry => exact ⟨by rwa [entryFor?_shown, Option.isSome_map], rfl⟩
  · next hentry =>
    rw [Bool.not_eq_true, Option.isSome_eq_false_iff, Option.isNone_iff_eq_none] at hentry
    obtain ⟨gap, hadded⟩ := entryFor?_addEntry hsound hd
      (show ∀ v, (none : Option String) = some v → Text.IsTrimmed v by simp) hentry
    refine ⟨by rw [hadded]; rfl, ?_⟩
    rw [Strict.Node.soleVersion?, Strict.Node.soleVersion?, hadded, Option.bind_some,
      Strict.Node.childrenNamed_leaves, filter_entryFields, entryFor?_shown, hentry]
    rfl

end Entries

section Properties

variable (hsound : e.Sound) (hname : ':' ∉ name.toList) (hvalue : Text.trim value = value)

include hsound hname hvalue

theorem setsProperty_project :
    SetsProperty name value e.shown (e.setProperty .project name value).shown := by
  have hset := setsProperty_putText hsound.hasElement_root hname hvalue (blockOrder .project) 6
  obtain ⟨tree, dirty, heq⟩ :=
    e.putText_eq e.root (blockOrder .project) ["properties", name] value
  rw [@setProperty_eq _ .project _ rfl, heq]
  rw [heq] at hset
  exact hset

/-- Setting a property in a profile changes the node of that profile, the first one with its id. -/
theorem profileNodes_setProperty {id : String} {profile : NodeId}
    (hprofile : e.profile? id = some profile) :
    ∃ front n n' back, e.shown.profileNodes = front ++ n :: back ∧
      (e.setProperty (.profile id) name value).shown.profileNodes = front ++ n' :: back ∧
      (∀ m ∈ front, ((m.child? "id").map Strict.Node.content == some id) = false) ∧
      ((n.child? "id").map Strict.Node.content == some id) = true ∧
      SetsProperty name value n n' := by
  have hfind := hprofile
  rw [profile?_eq_find?] at hfind
  obtain ⟨hid, front, back, hsplit, hfront⟩ := List.find?_eq_some_iff_append.mp hfind
  obtain ⟨tree, dirty, heq, -, hids, hsame, hset⟩ :=
    setProperty_profile hsound hname hvalue hprofile hsplit
  have hshown : ∀ ids : List NodeId, (∀ x ∈ ids, x ∈ front ++ back) →
      ids.map (tree.shownNode e.ns 7) = ids.map (e.tree.shownNode e.ns 7) := fun ids hmem =>
    map_shownNode_congr (fun x hx => hsame x (hmem x hx)) 7
  refine ⟨front.map (e.tree.shownNode e.ns 7), e.tree.shownNode e.ns 7 profile,
    tree.shownNode e.ns 7 profile, back.map (e.tree.shownNode e.ns 7), ?_, ?_, ?_, ?_, hset⟩
  · rw [profileNodes_shown, hsplit, List.map_append, List.map_cons]
  · rw [heq, profileNodes_shown, hids, hsplit, List.map_append, List.map_cons]
    rw [hshown front fun x hx => List.mem_append_left _ hx,
      hshown back fun x hx => List.mem_append_right _ hx]
  · intro m hm
    obtain ⟨x, hx, rfl⟩ := List.mem_map.mp hm
    rw [hasId_shownNode]
    simpa using hfront x hx
  · rw [hasId_shownNode, hid]

/-- A property that is set is found with its value. -/
theorem property?_setProperty {scope : PropertyScope} (howner : (e.owner? scope).isSome = true) :
    (e.setProperty scope name value).shown.property? scope name = some value := by
  cases scope with
  | project =>
    rw [Strict.Node.property?, Strict.Node.owner?, Option.bind_some]
    exact (setsProperty_project hsound hname hvalue).value?_eq hvalue
  | profile id =>
    obtain ⟨profile, hprofile⟩ := Option.isSome_iff_exists.mp howner
    obtain ⟨front, n, n', back, -, hafter, hfront, hid, hset⟩ :=
      profileNodes_setProperty hsound hname hvalue hprofile
    rw [← hset.child?_eq (by decide)] at hid
    rw [Strict.Node.property?, Strict.Node.owner?_of_profileNodes hafter hfront hid,
      Option.bind_some, hset.value?_eq hvalue]

/-- The block that a property is in stays the same where the property is set. -/
theorem scopeOf_setProperty {scope : PropertyScope}
    (hscope : scope = .project ∨ (e.property? scope name).isSome = true) (s : ProfileSelection)
    (other : String) : VersionSlot.scopeOf s (e.setProperty scope name value).pom other =
      VersionSlot.scopeOf s e.pom other := by
  refine Pom.scopeOf_eq ?_ s
  rw [pom, pom, Pom.profiles_ofNode, Pom.profiles_ofNode]
  cases scope with
  | project =>
    have hnodes :
        (e.setProperty .project name value).shown.profileNodes = e.shown.profileNodes := by
      rw [Strict.Node.profileNodes, Strict.Node.profileNodes,
        (setsProperty_project hsound hname hvalue).child?_eq (by decide)]
    rw [hnodes]
  | profile id =>
    obtain hnot | hdeclared := hscope
    · cases hnot
    cases hprofile : e.profile? id with
    | none =>
      rw [property?, owner?, hprofile] at hdeclared
      cases hdeclared
    | some profile =>
      obtain ⟨front, n, n', back, hbefore, hafter, hfront, hid, hset⟩ :=
        profileNodes_setProperty hsound hname hvalue hprofile
      rw [← property?_shown, Strict.Node.property?,
        Strict.Node.owner?_of_profileNodes hbefore hfront hid, Option.bind_some,
        Strict.Node.value?, Option.isSome_map] at hdeclared
      have hprovision : Pom.provision other (Pom.profileOf n') =
          Pom.provision other (Pom.profileOf n) := by
        simp only [Pom.provision, Pom.profileOf, Strict.Node.childText?]
        rw [hset.child?_eq (show "id" ≠ _ by decide),
          hset.child?_eq (show "activation" ≠ _ by decide),
          Pom.isSome_get?_propertiesOf_set hset hvalue hdeclared]
      simp only [hbefore, hafter, List.map_append, List.map_cons, hprovision]

end Properties

end Editor

end MavenPom
