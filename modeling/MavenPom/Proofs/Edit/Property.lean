import MavenPom.Edit.VersionSlot
import MavenPom.Proofs.Edit.Entry
import MavenPom.Proofs.Table

/-!
# Setting properties

A property that is set shows as its value in its block, and changes nothing else, where the block
gives the name at most once.
-/

namespace MavenPom

open Markup Markup.Tree
open Strict.Node (ChangedAt GivenText Puts PutsBetween Single blank)

namespace Markup.Strict.Node

/-- The first block of properties gives a name at most once. -/
def DeclaresOnce (name : String) (n : Node) : Prop :=
  ∀ block ∈ n.child? "properties", (block.childrenNamed name).length ≤ 1

instance (name : String) (n : Node) : Decidable (DeclaresOnce name n) :=
  inferInstanceAs (Decidable (∀ block ∈ n.child? "properties", _))

/-- `n'` is `n` with one of its children of a name set to a text, or with such a child at its
    end. -/
def SetsField (name value : String) (n n' : Node) : Prop :=
  ∃ front back old new, PutsBetween front back name n n' old new ∧
    GivenText value (old.getD (blank name)) new ∧ (old = none → back = [])

/-- `n'` is `n` with a property set in its first block of properties. -/
def SetsProperty (name value : String) : Node → Node → Prop :=
  ChangedAt (SetsField name value) ["properties"]

end Markup.Strict.Node

open Strict.Node (DeclaresOnce SetsField SetsProperty)

namespace Pom

private theorem propertyOf?_eq_some {m : Strict.Node} {name : String} (h : m.isNamed name = true) :
    propertyOf? m = some (name, Text.trim ((m.leadingText?).getD "")) := by
  cases m with
  | element own children =>
    obtain rfl : own = name := by simpa [Strict.Node.isNamed] using h
    rfl
  | text content => simp at h
  | aside => simp [Strict.Node.isNamed] at h

private theorem isNamed_of_propertyOf? {m : Strict.Node} {name value : String}
    (h : propertyOf? m = some (name, value)) : m.isNamed name = true := by
  cases m with
  | element own children =>
    obtain ⟨rfl, -⟩ : own = name ∧ _ := by simpa [propertyOf?] using h
    simp [Strict.Node.isNamed]
  | text content => simp [propertyOf?] at h
  | aside => simp [propertyOf?] at h

private theorem propertyOf?_givenText {n new : Strict.Node} {name value : String}
    (h : GivenText value n new) (hname : new.isNamed name = true)
    (hvalue : Text.trim value = value) : propertyOf? new = some (name, value) := by
  obtain ⟨own, rest, rest', -, rfl⟩ := h
  obtain rfl : own = name := by simpa [Strict.Node.isNamed] using hname
  simp [propertyOf?, Strict.Node.leadingText?, Strict.Node.children, hvalue]

/-- The properties that a block gives, in their order. -/
def pairsOf (block : Strict.Node) : List (String × String) := block.children.filterMap propertyOf?

theorem propertiesOf_eq (n : Strict.Node) :
    propertiesOf n =
      Table.ofList (pairsOf ((n.child? "properties").getD (blank "properties"))) := by
  rw [propertiesOf]
  cases n.child? "properties" <;> rfl

private theorem key_ne_of_unnamed {ms : List Strict.Node} {name : String}
    (h : ∀ x ∈ ms, x.isNamed name = false) :
    ∀ pair ∈ ms.filterMap propertyOf?, pair.1 ≠ name := by
  rintro ⟨key, value⟩ hpair rfl
  obtain ⟨x, hx, hprop⟩ := List.mem_filterMap.mp hpair
  exact Bool.noConfusion ((h x hx).symm.trans (isNamed_of_propertyOf? hprop))

theorem ofList_pairsOf_set {block block' : Strict.Node} {name value : String}
    (h : SetsField name value block block') (hvalue : Text.trim value = value)
    (honce : (block.childrenNamed name).length ≤ 1) :
    Table.ofList (pairsOf block') = (Table.ofList (pairsOf block)).insert name value := by
  obtain ⟨front, back, old, new, hputs, hgiven, hlast⟩ := h
  obtain ⟨rest, hnamed, -, -⟩ := Puts.childrenNamed ⟨front, back, hputs⟩
  obtain ⟨own, text, text', rfl, rfl, hnew, hold, hfront, -⟩ := hputs
  have hpair := propertyOf?_givenText hgiven hnew hvalue
  have htext : ∀ s, propertyOf? (.text s) = none := fun _ => rfl
  simp only [pairsOf, Strict.Node.children, List.filterMap_cons, List.filterMap_append, htext,
    hpair]
  cases old with
  | none =>
    simp only [hlast rfl, Option.toList_none, List.filterMap_nil, List.append_nil]
    exact Table.ofList_append_singleton _ name value
  | some m =>
    have hm := propertyOf?_eq_some (hold m rfl)
    have hback : ∀ x ∈ back, x.isNamed name = false := by
      intro x hx
      have hfilter : back.filter (Strict.Node.isNamed name) = [] := by
        have hlength : ((m :: back).filter (Strict.Node.isNamed name)).length ≤ 1 := by
          refine Nat.le_trans ?_ honce
          simp [Strict.Node.childrenNamed, Strict.Node.children, List.filter_append,
            List.filter_cons]
        rw [List.filter_cons_of_pos (hold m rfl), List.length_cons] at hlength
        exact List.eq_nil_of_length_eq_zero (Nat.le_zero.mp (Nat.le_of_succ_le_succ hlength))
      simpa using List.filter_eq_nil_iff.mp hfilter x hx
    simp only [Option.toList_some, List.filterMap_cons, hm, List.filterMap_nil, List.append_assoc,
      List.singleton_append]
    exact Table.ofList_replace _ value _ (key_ne_of_unnamed hback)

/-- A property that a block gives may be set, and the block gives the same names. -/
theorem names_pairsOf_set {block block' : Strict.Node} {name value : String}
    (h : SetsField name value block block') (hvalue : Text.trim value = value)
    (hgiven : (block.child? name).isSome = true) :
    (pairsOf block').map (·.1) = (pairsOf block).map (·.1) := by
  obtain ⟨front, back, old, new, hputs, hnew, -⟩ := h
  obtain ⟨hold, -⟩ := Puts.child? ⟨front, back, hputs⟩
  rw [hold] at hgiven
  obtain ⟨m, rfl⟩ := Option.isSome_iff_exists.mp hgiven
  obtain ⟨own, text, text', rfl, rfl, hnamed, hnamed', -, -⟩ := hputs
  have hpair := propertyOf?_givenText hnew hnamed hvalue
  have hpair' := propertyOf?_eq_some (hnamed' m rfl)
  have htext : ∀ s, propertyOf? (.text s) = none := fun _ => rfl
  simp [pairsOf, Strict.Node.children, List.filterMap_append, htext, hpair, hpair']

theorem isSome_get?_propertiesOf_set {n n' : Strict.Node} {name value : String}
    (h : SetsProperty name value n n') (hvalue : Text.trim value = value)
    (hgiven : ((n.child? "properties").bind (·.child? name)).isSome = true) (other : String) :
    ((propertiesOf n').get? other).isSome = ((propertiesOf n).get? other).isSome := by
  obtain ⟨old, new, hputs, hset⟩ := h
  obtain ⟨hold, hnew⟩ := hputs.child?
  rw [hold] at hgiven
  obtain ⟨block, rfl⟩ : ∃ block, old = some block := by
    cases old with
    | none => cases hgiven
    | some block => exact ⟨block, rfl⟩
  rw [propertiesOf_eq, propertiesOf_eq, hold, hnew, Option.getD_some, Option.getD_some,
    Table.isSome_get?_ofList, Table.isSome_get?_ofList]
  exact congrArg (·.contains other) (names_pairsOf_set hset hvalue hgiven)

/-- A property that is set shows as its value. -/
theorem propertiesOf_set {n n' : Strict.Node} {name value : String}
    (h : SetsProperty name value n n') (hvalue : Text.trim value = value)
    (honce : DeclaresOnce name n) :
    propertiesOf n' = (propertiesOf n).insert name value := by
  obtain ⟨old, new, hputs, hset⟩ := h
  obtain ⟨hold, hnew⟩ := hputs.child?
  rw [propertiesOf_eq, propertiesOf_eq, hold, hnew, Option.getD_some]
  refine ofList_pairsOf_set hset hvalue ?_
  cases old with
  | none => exact Nat.zero_le 1
  | some block => exact honce block hold

/-- The value of a property in a block that gives its name at most once. -/
theorem get?_propertiesOf {n : Strict.Node} {name : String} (honce : DeclaresOnce name n) :
    (propertiesOf n).get? name =
      ((n.child? "properties").bind (·.child? name)).map
        fun m => Text.trim ((m.leadingText?).getD "") := by
  rw [propertiesOf_eq]
  cases hblock : n.child? "properties" with
  | none => rfl
  | some block =>
    have hlength := honce block hblock
    rw [Option.getD_some, Option.bind_some, Table.get?_ofList, Strict.Node.child?_eq]
    cases hnamed : block.childrenNamed name with
    | nil =>
      have hnone : ∀ x ∈ block.children, x.isNamed name = false := fun x hx => by
        simpa using List.filter_eq_nil_iff.mp hnamed x hx
      exact Table.lastPair?_eq_none (key_ne_of_unnamed hnone)
    | cons m rest =>
      obtain ⟨front, back, hsplit, -, hm, hrest⟩ := List.filter_eq_cons_iff.mp hnamed
      have hback : ∀ x ∈ back, x.isNamed name = false := by
        rw [hnamed, List.length_cons] at hlength
        have hnil := List.eq_nil_of_length_eq_zero (Nat.le_zero.mp (Nat.le_of_succ_le_succ hlength))
        rw [hnil] at hrest
        exact fun x hx => by simpa using List.filter_eq_nil_iff.mp hrest x hx
      have hpairs : pairsOf block = front.filterMap propertyOf? ++
          ([(name, Text.trim ((m.leadingText?).getD ""))] ++ back.filterMap propertyOf?) := by
        rw [pairsOf, hsplit, List.filterMap_append, List.filterMap_cons, propertyOf?_eq_some hm]
        rfl
      rw [hpairs, Table.lastPair?_append, Table.lastPair?_append,
        Table.lastPair?_eq_none (key_ne_of_unnamed hback), Table.lastPair?_singleton, if_pos rfl]
      rfl

/-- The properties of the first profile with an id, with one of them set. -/
def setInProfile (id name value : String) : List Profile → List Profile
  | [] => []
  | q :: rest =>
    if q.id = id then { q with properties := q.properties.insert name value } :: rest
    else q :: setInProfile id name value rest

/-- The POM with a property set in a block. -/
def setProperty (p : Pom) (scope : PropertyScope) (name value : String) : Pom :=
  match scope with
  | .project => { p with properties := p.properties.insert name value }
  | .profile id => { p with profiles := setInProfile id name value p.profiles }

/-- The value of a property in a block. -/
def property? (p : Pom) (scope : PropertyScope) (name : String) : Option String :=
  match scope with
  | .project => p.properties.get? name
  | .profile id => (p.profiles.find? (·.id = id)).bind (·.properties.get? name)

end Pom

namespace Editor

variable {e : Editor} {owner block : NodeId} {name value : String}

private theorem setsField_putText (h : e.HasElement block) (hname : ':' ∉ name.toList)
    (hvalue : Text.trim value = value) (depth : Nat) :
    SetsField name value (e.tree.shownNode e.ns (depth + 2) block)
      ((e.putText block [] [name] value).tree.shownNode e.ns (depth + 2) block) := by
  rw [putText, ensureBelow]
  rcases e.ensureChild_cases h.wellFormed h.lt name [] with
    ⟨c, rest, hnamed, heq⟩ | ⟨hnone, tree, front, back, hinserted, heq, hback⟩
  · rw [heq]
    have hmem : c ∈ e.tree.childrenNamed block e.ns name := hnamed ▸ List.mem_cons_self ..
    have hwithin := setText_within h.wellFormed (h.named hmem).lt value
    obtain ⟨front, back, hputs⟩ := hwithin.puts hnamed depth
    exact ⟨front, back, some _, _, hputs, setText_spec (h.named hmem) hvalue depth, by simp⟩
  · rw [heq]
    have hnew := h.inserted hname hinserted true
    have hwithin := setText_within hnew.wellFormed hnew.lt value
    refine ⟨_, _, none, _, hinserted.putsBetween hwithin h.wellFormed h.isElement h.ns_eq hname
      hnone depth, ?_, fun _ => by rw [hback rfl]; rfl⟩
    rw [Option.getD_none, ← @Inserted.shownNode_new _ _ e.ns _ _ _ _ hinserted hname depth]
    exact setText_spec hnew hvalue depth

/-- A property that is set below an element shows as set there. -/
theorem setsProperty_putText (h : e.HasElement owner) (hname : ':' ∉ name.toList)
    (hvalue : Text.trim value = value) (order : List String) (depth : Nat) :
    SetsProperty name value (e.tree.shownNode e.ns (depth + 3) owner)
      ((e.putText owner order ["properties", name] value).tree.shownNode e.ns (depth + 3)
        owner) := by
  have hpath : ∀ step ∈ ["properties"], ':' ∉ step.toList := by decide
  have hblock := hasElement_ensureBelow h hpath order
  have hwithin := within_putText hblock.wellFormed hblock.lt [] [name] value
  have hset := setsField_putText hblock hname hvalue depth
  obtain ⟨tree, dirty, heq⟩ := e.ensureBelow_eq owner order ["properties"]
  have hns : (e.ensureBelow owner order ["properties"]).1.ns = e.ns := by rw [heq]
  rw [hns] at hset
  exact (@changedAt_ensureBelow _ _ _ _ h hpath _ (depth + 1) _ hwithin hset).2

/-- What the profiles show, in their order. -/
def profileIds (e : Editor) : List NodeId :=
  ((e.child? e.root "profiles").map (e.tree.childrenNamed · e.ns "profile")).getD []

/-- What a profile shows. -/
def profileAt (e : Editor) (id : NodeId) : Profile :=
  Pom.profileOf (e.tree.shownNode e.ns 7 id)

theorem profiles_pom (e : Editor) : e.pom.profiles = e.profileIds.map e.profileAt := by
  have hchild : e.shown.child? "profiles" =
      (e.tree.childNamed? e.root e.ns "profiles").map (e.tree.shownNode e.ns 8) := by
    rw [shown, shownDepth, child?_shownNode]
  simp only [pom, Pom.ofNode, hchild, profileIds, child?]
  cases e.tree.childNamed? e.root e.ns "profiles" with
  | none => simp
  | some m =>
    simp only [Option.map_some, Option.getD_some, childrenNamed_shownNode, List.map_map]
    rfl

/-- A profile's id, unless it is empty, is the text of its first element of that name. -/
theorem id_profileAt {id : String} (hid : id ≠ "") (profile : NodeId) :
    (e.profileAt profile).id = id ↔ (e.child? profile "id").map e.text = some id := by
  rw [profileAt, Pom.profileOf, childText?_shownNode, childText?, child?]
  cases e.tree.childNamed? profile e.ns "id" with
  | none => simpa using Ne.symm hid
  | some m =>
    simp only [Option.bind_some, Option.map_some, Option.some.injEq, text, Text.trim?]
    split
    · next hempty =>
      rw [String.isEmpty_iff] at hempty
      simp [hempty]
    · simp

theorem profile?_eq {id : String} (hid : id ≠ "") :
    e.profile? id = e.profileIds.find? fun profile => (e.profileAt profile).id = id := by
  rw [profile?, profileIds]
  cases e.child? e.root "profiles" with
  | none => rfl
  | some m =>
    simp only [Option.bind_some, Option.map_some, Option.getD_some]
    congr 1
    funext profile
    rw [Bool.eq_iff_iff, beq_iff_eq, decide_eq_true_eq, id_profileAt hid]

theorem mem_select_of_profile? {id : String} {profile : NodeId} (h : e.profile? id = some profile) :
    profile ∈ e.tree.select e.ns ["profiles", "profile"] e.root := by
  obtain ⟨profiles, hprofiles, hfind⟩ := Option.bind_eq_some_iff.mp h
  refine mem_select_cons.mpr ⟨profiles, List.mem_of_mem_head? hprofiles, mem_select_cons.mpr
    ⟨profile, List.mem_of_find?_eq_some hfind, List.mem_singleton_self _⟩⟩

/-- No block of properties gives a name twice. -/
def DeclaresOnce (e : Editor) (name : String) : Prop :=
  e.shown.DeclaresOnce name ∧ ∀ profiles ∈ e.shown.child? "profiles",
    ∀ profile ∈ profiles.childrenNamed "profile", profile.DeclaresOnce name

theorem DeclaresOnce.profile (h : e.DeclaresOnce name) {profile : NodeId}
    (hprofile : profile ∈ e.profileIds) :
    (e.tree.shownNode e.ns 7 profile).DeclaresOnce name := by
  rw [profileIds, child?] at hprofile
  cases hm : e.tree.childNamed? e.root e.ns "profiles" with
  | none => simp [hm] at hprofile
  | some m =>
    rw [hm, Option.map_some, Option.getD_some] at hprofile
    have hshown : e.shown.child? "profiles" = some (e.tree.shownNode e.ns 8 m) := by
      rw [shown, shownDepth, child?_shownNode, hm]
      rfl
    refine h.2 _ hshown _ ?_
    rw [childrenNamed_shownNode]
    exact List.mem_map_of_mem hprofile

/-- The value of a property below an element, where the first block there gives its name once. -/
theorem map_text_child? {depth : Nat}
    (h : (e.tree.shownNode e.ns (depth + 3) owner).DeclaresOnce name) :
    ((e.child? owner "properties").bind (e.child? · name)).map e.text =
      (Pom.propertiesOf (e.tree.shownNode e.ns (depth + 3) owner)).get? name := by
  rw [Pom.get?_propertiesOf h, child?_shownNode, child?]
  cases e.tree.childNamed? owner e.ns "properties" with
  | none => simp
  | some block =>
    simp only [Option.map_some, Option.bind_some, child?_shownNode, child?, Option.map_map]
    cases e.tree.childNamed? block e.ns name with
    | none => simp
    | some m => simp [leadingText?_shownNode, text]

/-- The value of a property shows in the POM. -/
theorem property?_eq (honce : e.DeclaresOnce name) {scope : PropertyScope}
    (hid : ∀ id, scope = .profile id → id ≠ "") :
    e.property? scope name = e.pom.property? scope name := by
  cases scope with
  | project =>
    rw [property?, owner?, Option.bind_some]
    exact @map_text_child? _ _ _ 6 honce.1
  | profile id =>
    rw [property?, owner?, profile?_eq (hid id rfl), Pom.property?, profiles_pom, List.find?_map]
    cases hfind : e.profileIds.find? fun profile => (e.profileAt profile).id = id with
    | none =>
      rw [show e.profileIds.find? ((fun q => decide (q.id = id)) ∘ e.profileAt) = none from hfind]
      rfl
    | some profile =>
      rw [show e.profileIds.find? ((fun q => decide (q.id = id)) ∘ e.profileAt) =
        some profile from hfind]
      exact @map_text_child? _ _ _ 4 (honce.profile (List.mem_of_find?_eq_some hfind))

end Editor

/-- The first name on the way from the root to a block of properties. -/
def PropertyScope.first : PropertyScope → String
  | .project => "properties"
  | .profile _ => "profiles"

theorem PropertyScope.first_ne (scope : PropertyScope) (c : Container) : c.first ≠ scope.first := by
  cases scope <;> cases c <;> simp [Container.first, PropertyScope.first]

namespace Pom

variable {n n' : Strict.Node}

theorem ofNode_of_properties (h : ∀ name, name ≠ "properties" → n'.child? name = n.child? name) :
    ofNode n' = { ofNode n with properties := propertiesOf n' } := by
  have htext : ∀ name, name ≠ "properties" → n'.childText? name = n.childText? name :=
    fun name hne => by rw [Strict.Node.childText?, Strict.Node.childText?, h name hne]
  simp only [ofNode, dependenciesOf, managedOf]
  rw [htext "groupId" (by decide), htext "artifactId" (by decide), htext "version" (by decide),
    htext "packaging" (by decide), h "parent" (by decide), h "dependencies" (by decide),
    h "dependencyManagement" (by decide), h "profiles" (by decide)]

theorem ofNode_of_profiles (h : ∀ name, name ≠ "profiles" → n'.child? name = n.child? name) :
    ofNode n' = { ofNode n with profiles := (ofNode n').profiles } := by
  have htext : ∀ name, name ≠ "profiles" → n'.childText? name = n.childText? name :=
    fun name hne => by rw [Strict.Node.childText?, Strict.Node.childText?, h name hne]
  simp only [ofNode, dependenciesOf, managedOf, propertiesOf]
  rw [htext "groupId" (by decide), htext "artifactId" (by decide), htext "version" (by decide),
    htext "packaging" (by decide), h "parent" (by decide), h "properties" (by decide),
    h "dependencies" (by decide), h "dependencyManagement" (by decide)]

theorem profileOf_set {name value : String} (h : SetsProperty name value n n')
    (hvalue : Text.trim value = value) (honce : n.DeclaresOnce name) :
    profileOf n' =
      { profileOf n with properties := (profileOf n).properties.insert name value } := by
  have hchild : ∀ other, other ≠ "properties" → n'.child? other = n.child? other := by
    obtain ⟨old, new, hputs, -⟩ := h
    exact fun other hne => hputs.child?_of_ne hne
  have hid : n'.childText? "id" = n.childText? "id" := by
    rw [Strict.Node.childText?, Strict.Node.childText?, hchild "id" (by decide)]
  simp only [profileOf, dependenciesOf, managedOf, propertiesOf_set h hvalue honce]
  rw [hid, hchild "activation" (by decide), hchild "dependencies" (by decide),
    hchild "dependencyManagement" (by decide)]

theorem setInProfile_append {id name value : String} {front : List Profile}
    (hfront : ∀ q ∈ front, q.id ≠ id) (rest : List Profile) :
    setInProfile id name value (front ++ rest) = front ++ setInProfile id name value rest := by
  induction front with
  | nil => rfl
  | cons q front ih =>
    obtain ⟨hq, hfront⟩ := List.forall_mem_cons.mp hfront
    rw [List.cons_append, setInProfile, if_neg hq, ih hfront, List.cons_append]

theorem setInProfile_of_forall {id name value : String} {profiles : List Profile}
    (h : ∀ q ∈ profiles, q.id ≠ id) : setInProfile id name value profiles = profiles := by
  have happend := @setInProfile_append id name value _ h []
  rwa [List.append_nil, setInProfile, List.append_nil] at happend

end Pom

namespace Editor

variable {e : Editor} {name value : String}

/-- An edit under a name that leads to no container of entries keeps the containers. -/
private theorem unrepeated_of_changedUnder (hsingle : e.Unrepeated) {scope : PropertyScope}
    {tree : Tree} (h : ChangedUnder e.tree tree e.ns e.root scope.first) (dirty : Bool) :
    Unrepeated { e with tree, dirty } := by
  intro c
  have hold := hsingle c
  rw [Container.path_eq] at hold ⊢
  exact single_of_childrenNamed
    (childrenNamed_shown_of_changedUnder h (scope.first_ne c) dirty) hold

private theorem became_setProjectProperty (hsound : e.Sound) (hsingle : e.Unrepeated)
    (hname : ':' ∉ name.toList) (hvalue : Text.trim value = value) (honce : e.DeclaresOnce name) :
    e.Became (e.setProperty .project name value) (e.pom.setProperty .project name value) ∧
      ChangedUnder e.tree (e.setProperty .project name value).tree e.ns e.root "properties" := by
  have hpath : ∀ step ∈ ["properties", name], ':' ∉ step.toList := by
    simpa using hname
  rw [@setProperty_eq _ .project _ rfl]
  obtain ⟨tree, dirty, heq⟩ :=
    e.putText_eq e.root (blockOrder .project) ["properties", name] value
  have hunder := changedUnder_putText hsound.hasElement_root hpath (blockOrder .project) value
  have hset := setsProperty_putText hsound.hasElement_root hname hvalue (blockOrder .project) 6
  rw [heq] at hunder hset ⊢
  refine ⟨⟨⟨tree, dirty, rfl⟩, hsound.of_within hunder.within dirty,
    @unrepeated_of_changedUnder _ hsingle .project _ hunder dirty, ?_⟩, hunder⟩
  have hpom := Pom.ofNode_of_properties fun other hne =>
    child?_shown_of_changedUnder hunder hne dirty
  rw [pom, hpom]
  simp only [Pom.setProperty]
  rw [show Pom.propertiesOf (shown { e with tree, dirty }) =
    (Pom.propertiesOf e.shown).insert name value from Pom.propertiesOf_set hset hvalue honce.1]
  rfl

theorem mem_profileIds_of_profile? {id : String} {profile : NodeId}
    (h : e.profile? id = some profile) : profile ∈ e.profileIds := by
  obtain ⟨profiles, hprofiles, hfind⟩ := Option.bind_eq_some_iff.mp h
  rw [profileIds, hprofiles, Option.map_some, Option.getD_some]
  exact List.mem_of_find?_eq_some hfind

/-- A property that is set in a profile shows there, and every other profile shows what it did. -/
theorem setProperty_profile (hsound : e.Sound) (hname : ':' ∉ name.toList)
    (hvalue : Text.trim value = value) {id : String} {profile : NodeId}
    (hprofile : e.profile? id = some profile) {front back : List NodeId}
    (hsplit : e.profileIds = front ++ profile :: back) :
    ∃ tree dirty, e.setProperty (.profile id) name value = { e with tree, dirty } ∧
      ChangedUnder e.tree tree e.ns e.root "profiles" ∧
      profileIds { e with tree, dirty } = e.profileIds ∧
      (∀ x ∈ front ++ back, SameBelow e.tree tree x) ∧
      SetsProperty name value (e.tree.shownNode e.ns 7 profile)
        (tree.shownNode e.ns 7 profile) := by
  have hpath := mem_select_of_profile? hprofile
  have helement := hsound.hasElement_root.select hpath
  obtain ⟨m, hm, -⟩ := Option.bind_eq_some_iff.mp hprofile
  have hlist : e.profileIds = e.tree.childrenNamed m e.ns "profile" := by
    rw [profileIds, hm]
    rfl
  rw [@setProperty_eq _ (.profile id) profile hprofile]
  obtain ⟨tree, dirty, heq⟩ :=
    e.putText_eq profile (blockOrder (.profile id)) ["properties", name] value
  have hwithin := within_putText helement.wellFormed helement.lt (blockOrder (.profile id))
    ["properties", name] value
  have hset := setsProperty_putText helement hname hvalue (blockOrder (.profile id)) 4
  rw [heq] at hwithin hset ⊢
  have habove := hsound.wellFormed.mem_ancestors_of_select_cons hpath
  have hlt := hsound.wellFormed.lt_of_mem_ancestors habove
  have hm' : child? { e with tree, dirty } e.root "profiles" = some m := by
    rw [← hm, child?, child?, childNamed?, childNamed?]
    refine congrArg List.head? (hwithin.childrenNamed_eq hsound.root_lt (Nat.ne_of_lt hlt) ?_ _)
    exact fun hmem => Nat.lt_asymm hlt (hsound.wellFormed.lt_of_mem_ancestors hmem)
  obtain ⟨hsplit', hsame⟩ := hwithin.childrenNamed_split (hlist.symm.trans hsplit)
  refine ⟨tree, dirty, rfl, hwithin.changedUnder hsound.root_lt hpath, ?_, hsame, hset⟩
  rw [profileIds, hm', hsplit]
  exact hsplit'

private theorem became_setProfileProperty (hsound : e.Sound) (hsingle : e.Unrepeated)
    (hname : ':' ∉ name.toList) (hvalue : Text.trim value = value) (honce : e.DeclaresOnce name)
    {id : String} (hid : id ≠ "") :
    e.Became (e.setProperty (.profile id) name value)
        (e.pom.setProperty (.profile id) name value) ∧
      ChangedUnder e.tree (e.setProperty (.profile id) name value).tree e.ns e.root
        "profiles" := by
  cases hprofile : e.profile? id with
  | none =>
    have hsame : e.setProperty (.profile id) name value = e := by
      rw [setProperty, owner?, hprofile]
    have hnone : ∀ q ∈ e.pom.profiles, q.id ≠ id := by
      rw [profile?_eq hid, List.find?_eq_none] at hprofile
      rw [profiles_pom]
      intro q hq
      obtain ⟨profile, hmem, rfl⟩ := List.mem_map.mp hq
      simpa using hprofile profile hmem
    rw [hsame, Pom.setProperty]
    simp only [Pom.setInProfile_of_forall hnone]
    exact ⟨became_self hsound hsingle, changedUnder_self hsound.wellFormed hsound.root_lt _⟩
  | some profile =>
    have hfind := hprofile
    rw [profile?_eq hid] at hfind
    obtain ⟨hkey, front, back, hsplit, hfront⟩ := List.find?_eq_some_iff_append.mp hfind
    obtain ⟨tree, dirty, heq, hunder, hids, hsame, hset⟩ :=
      setProperty_profile hsound hname hvalue hprofile hsplit
    rw [heq]
    refine ⟨⟨⟨tree, dirty, rfl⟩, hsound.of_within hunder.within dirty,
      @unrepeated_of_changedUnder _ hsingle (.profile id) _ hunder dirty, ?_⟩, hunder⟩
    have hother : ∀ ids : List NodeId, (∀ x ∈ ids, x ∈ front ++ back) →
        ids.map (profileAt { e with tree, dirty }) = ids.map e.profileAt := by
      refine fun ids hids => List.map_congr_left fun x hx => ?_
      rw [profileAt, profileAt, (hsame x (hids x hx)).shownNode_eq]
    have hset' : profileAt { e with tree, dirty } profile =
        { e.profileAt profile with
          properties := (e.profileAt profile).properties.insert name value } :=
      Pom.profileOf_set hset hvalue (honce.profile (mem_profileIds_of_profile? hprofile))
    have hchanged : (pom { e with tree, dirty }).profiles =
        Pom.setInProfile id name value e.pom.profiles := by
      rw [profiles_pom, profiles_pom, hids, hsplit, List.map_append, List.map_cons,
        List.map_append, List.map_cons, hother front fun x hx => List.mem_append_left _ hx,
        hother back fun x hx => List.mem_append_right _ hx, hset', Pom.setInProfile_append,
        Pom.setInProfile, if_pos (by simpa using hkey)]
      intro q hq
      obtain ⟨x, hx, rfl⟩ := List.mem_map.mp hq
      simpa using hfront x hx
    rw [pom, Pom.ofNode_of_profiles fun other hne => child?_shown_of_changedUnder hunder hne dirty]
    simp only [Pom.setProperty]
    rw [← hchanged]
    rfl

/-- A property that is set shows as its value, and everything else as it was. -/
theorem became_setProperty (hsound : e.Sound) (hsingle : e.Unrepeated)
    (hname : ':' ∉ name.toList) (hvalue : Text.trim value = value) (honce : e.DeclaresOnce name)
    {scope : PropertyScope} (hid : ∀ id, scope = .profile id → id ≠ "") :
    e.Became (e.setProperty scope name value) (e.pom.setProperty scope name value) ∧
      ChangedUnder e.tree (e.setProperty scope name value).tree e.ns e.root scope.first := by
  cases scope with
  | project => exact became_setProjectProperty hsound hsingle hname hvalue honce
  | profile id => exact became_setProfileProperty hsound hsingle hname hvalue honce (hid id rfl)

end Editor

end MavenPom
