import MavenPom.Proofs.Edit.Slot

/-!
# Steps of editing

A request sets properties, gives entries of its dependency a version, and adds an entry where there
is none. Each of these changes what is under one name below the root, and adds at most one element
there.
-/

namespace MavenPom

open Markup Markup.Tree
open Strict.Node (Appended ChangedAt blank)

/-- `n'` is `n`, or one where that is zero. -/
def AtMostOnce (n n' : ℕ) : Prop := n' = n ∨ n = 0 ∧ n' = 1

namespace AtMostOnce

variable {n n' n'' : ℕ}

theorem refl (n : ℕ) : AtMostOnce n n := .inl rfl

theorem trans (h : AtMostOnce n n') (h' : AtMostOnce n' n'') : AtMostOnce n n'' := by
  unfold AtMostOnce at *
  omega

theorem le_max (h : AtMostOnce n n') : n' ≤ max 1 n := by
  unfold AtMostOnce at h
  omega

end AtMostOnce

/-! ## Nodes at the end of a path -/

namespace Markup.Strict.Node

/-- The nodes that a path leads to. -/
def select : List String → Node → List Node
  | [], n => [n]
  | name :: path, n => (n.childrenNamed name).flatMap (select path)

/-- Where one child has been added to what a path leads to, there is one more at its end. -/
theorem ChangedAt.select {R : Node → Node → Prop} {P : Node → Prop} {name : String}
    (hR : ∀ m m', R m m' → ∃ new, P new ∧ m'.childrenNamed name = m.childrenNamed name ++ [new])
    {path : List String} {n n' : Node} (h : ChangedAt R path n n') :
    ∃ front new back, P new ∧ n.select (path ++ [name]) = front ++ back ∧
      n'.select (path ++ [name]) = front ++ new :: back := by
  induction path generalizing n n' with
  | nil =>
    obtain ⟨new, hP, hnamed⟩ := hR n n' h
    refine ⟨n.childrenNamed name, new, [], hP, ?_, ?_⟩
    · simp [Node.select]
    · simp [Node.select, hnamed]
  | cons step path ih =>
    obtain ⟨old, m, hputs, hchanged⟩ := h
    obtain ⟨rest, hnamed, hnamed', hrest⟩ := hputs.childrenNamed
    obtain ⟨front, new, back, hP, hselect, hselect'⟩ := ih hchanged
    refine ⟨front, new, back ++ rest.flatMap (Node.select (path ++ [name])), hP, ?_, ?_⟩
    · rw [List.cons_append, Node.select, hnamed, List.flatMap_append, ← List.append_assoc,
        ← hselect]
      cases old with
      | some first => simp
      | none =>
        have hblank : (blank step).select (path ++ [name]) = [] := by
          cases path <;> simp [Node.select, blank, childrenNamed, children]
        rw [Option.getD_none, hblank]
        rfl
    · rw [List.cons_append, Node.select, hnamed', List.flatMap_cons, hselect']
      simp

end Markup.Strict.Node

theorem Markup.Tree.select_shownNode {t : Tree} {ns : Option String} {path : List String}
    (depth : ℕ) (id : NodeId) :
    (t.shownNode ns (depth + path.length + 1) id).select path =
      (t.select ns path id).map (t.shownNode ns (depth + 1)) := by
  induction path generalizing id with
  | nil => rfl
  | cons name path ih =>
    rw [List.length_cons, ← Nat.add_assoc, Strict.Node.select, childrenNamed_shownNode, select,
      List.map_flatMap, List.flatMap_map]
    exact List.flatMap_congr fun c _ => ih c

namespace Editor

variable {e e' : Editor} {c : Container} {key : ArtifactKey} {d : Dependency}

/-! ## What is counted -/

/-- How many entries a container has for an artifact. -/
def entryCount (e : Editor) (c : Container) (key : ArtifactKey) : ℕ :=
  (e.findDependencies c.path key).length

/-- How many children of a name the root element has. -/
def blockCount (e : Editor) (name : String) : ℕ :=
  (e.tree.childrenNamed e.root e.ns name).length

/-- The entries for an artifact are counted as well among the nodes that are shown. -/
theorem entryCount_eq (e : Editor) (c : Container) (key : ArtifactKey) :
    e.entryCount c key = (e.shown.select (c.path ++ ["dependency"])).countP
      fun n => (Pom.dependencyOf n).key? = some key := by
  have hdepth : shownDepth = c.depth + 1 + (c.path ++ ["dependency"]).length + 1 := by
    cases c <;> rfl
  rw [shown, hdepth, select_shownNode, List.countP_map, entryCount, findDependencies,
    ← List.countP_eq_length_filter, select]
  refine List.countP_congr fun id _ => ?_
  rw [← @key?_entry e c key id, Function.comp_apply, decide_eq_true_eq]
  rfl

theorem entryCount_eq_zero (h : e.findDependency? c.path key = none) : e.entryCount c key = 0 := by
  rw [entryCount, List.length_eq_zero_iff]
  exact List.head?_eq_none_iff.mp h

/-! ## Changes under one name -/

/-- `e'` is `e` with changes under the root's children of a name. At most the first of these has
    been added. -/
structure Alters (e e' : Editor) (name : String) : Prop where
  eq : ∃ tree dirty, e' = { e with tree, dirty }
  changed : ChangedUnder e.tree e'.tree e.ns e.root name
  count : AtMostOnce (e.blockCount name) (e'.blockCount name)

namespace Alters

variable {name : String}

theorem sound (h : e.Alters e' name) (hsound : e.Sound) : e'.Sound := by
  obtain ⟨tree, dirty, rfl⟩ := h.eq
  exact hsound.of_within h.changed.within dirty

theorem blockCount (h : e.Alters e' name) (other : String) :
    AtMostOnce (e.blockCount other) (e'.blockCount other) := by
  by_cases hother : other = name
  · exact hother ▸ h.count
  · obtain ⟨tree, dirty, rfl⟩ := h.eq
    exact .inl (congrArg List.length (h.changed.childrenNamed_eq other hother))

theorem findDependencies_eq (h : e.Alters e' name) (hne : c.first ≠ name) :
    e'.findDependencies c.path key = e.findDependencies c.path key := by
  obtain ⟨tree, dirty, rfl⟩ := h.eq
  exact findDependencies_of_changedUnder h.changed hne dirty

theorem findDependency?_eq (h : e.Alters e' name) (hne : c.first ≠ name) :
    e'.findDependency? c.path key = e.findDependency? c.path key :=
  congrArg List.head? (h.findDependencies_eq hne)

theorem slot?_eq (h : e.Alters e' name) (hne : c.first ≠ name) :
    e'.slot? c key = e.slot? c key := by
  obtain ⟨tree, dirty, rfl⟩ := h.eq
  exact slot?_of_changedUnder h.changed hne dirty

end Alters

theorem alters_self (hsound : e.Sound) (name : String) : e.Alters e name where
  eq := ⟨e.tree, e.dirty, rfl⟩
  changed := changedUnder_self hsound.wellFormed hsound.root_lt name
  count := .refl _

/-- An edit within what a path leads to from the root adds no child of the root. -/
theorem alters_of_select (hsound : e.Sound) {id : NodeId} {step : String} {path : List String}
    (hid : id ∈ e.tree.select e.ns (step :: path) e.root) {tree : Tree}
    (hwithin : Within e.tree tree id) (dirty : Bool) : e.Alters { e with tree, dirty } step where
  eq := ⟨tree, dirty, rfl⟩
  changed := hwithin.changedUnder hsound.root_lt hid
  count := by
    have habove := hsound.wellFormed.mem_ancestors_of_select_cons hid
    have hlt := hsound.wellFormed.lt_of_mem_ancestors habove
    refine .inl (congrArg List.length
      (hwithin.childrenNamed_eq hsound.root_lt (Nat.ne_of_lt hlt) (fun hmem => ?_) step))
    exact Nat.lt_asymm hlt (hsound.wellFormed.lt_of_mem_ancestors hmem)

/-- Following a path from the root adds at most a child of its first name to the root. -/
theorem alters_of_ensureBelow (hsound : e.Sound) {order : List String} {step : String}
    {path : List String} (hpath : ∀ name ∈ step :: path, ':' ∉ name.toList) {tree : Tree}
    (hwithin : Within (e.ensureBelow e.root order (step :: path)).1.tree tree
      (e.ensureBelow e.root order (step :: path)).2) (dirty : Bool) :
    e.Alters { e with tree, dirty } step where
  eq := ⟨tree, dirty, rfl⟩
  changed := changedUnder_ensureBelow hsound.hasElement_root hpath hwithin
  count := by
    obtain ⟨-, old, new, hputs, -⟩ := @changedAt_ensureBelow _ _ _ _ hsound.hasElement_root
      hpath _ 0 (fun _ _ => True) hwithin trivial
    obtain ⟨rest, hbefore, hafter, hrest⟩ := hputs.childrenNamed
    rw [List.length_cons, ← Nat.add_assoc, childrenNamed_shownNode] at hbefore hafter
    have hlength := congrArg List.length hbefore
    have hlength' := congrArg List.length hafter
    rw [List.length_map] at hlength hlength'
    rw [blockCount, blockCount, hlength, hlength']
    cases old with
    | some first => exact .inl (by simp)
    | none => exact .inr (by simp [hrest rfl])

/-! ## Steps -/

/-- A property that is set, whatever its name, changes what is under its block's first name. -/
theorem alters_setProperty (hsound : e.Sound) (scope : PropertyScope) (name value : String) :
    e.Alters (e.setProperty scope name value) scope.first := by
  cases howner : e.owner? scope with
  | none =>
    have hself : e.setProperty scope name value = e := by rw [setProperty, howner]
    rw [hself]
    exact alters_self hsound _
  | some owner =>
    rw [setProperty_eq howner]
    obtain ⟨tree, dirty, heq⟩ := e.putText_eq owner (blockOrder scope) ["properties", name] value
    cases scope with
    | project =>
      obtain rfl : e.root = owner := Option.some.inj howner
      have hpath : ∀ step ∈ ["properties"], ':' ∉ step.toList := by decide
      have hblock := hasElement_ensureBelow hsound.hasElement_root hpath (blockOrder .project)
      have hwithin := within_putText hblock.wellFormed hblock.lt [] [name] value
      have halters := alters_of_ensureBelow hsound hpath hwithin dirty
      have htree : (e.putText e.root (blockOrder .project) ["properties", name] value).tree =
        tree := by rw [heq]
      rw [heq, ← htree]
      exact halters
    | profile id =>
      have hmem := mem_select_of_profile? howner
      have hwithin := within_putText hsound.wellFormed
        (hsound.wellFormed.lt_of_select hsound.root_lt hmem) (blockOrder (.profile id))
        ["properties", name] value
      rw [heq] at hwithin ⊢
      exact alters_of_select hsound hmem hwithin dirty

section AddVersion

variable {entry : NodeId} (hsound : e.Sound) (hentry : entry ∈ e.entryIds c) (version : String)

include hsound hentry

theorem alters_addVersion : e.Alters (e.addVersion entry version) c.first := by
  rw [addVersion_eq]
  obtain ⟨tree, dirty, heq⟩ := e.putText_eq entry ElementOrder.dependency ["version"] version
  have hmem : entry ∈ e.tree.select e.ns (c.first :: (c.below ++ ["dependency"])) e.root := by
    rw [← List.cons_append, ← c.path_eq]
    exact hentry
  have hwithin := within_putText hsound.wellFormed
    (hsound.wellFormed.lt_of_select hsound.root_lt hmem) ElementOrder.dependency ["version"] version
  rw [heq] at hwithin ⊢
  exact alters_of_select hsound hmem hwithin dirty

/-- Giving an entry a version adds no entry, and leaves all entries the keys they have. -/
theorem findDependencies_addVersion (key : ArtifactKey) :
    (e.addVersion entry version).findDependencies c.path key = e.findDependencies c.path key := by
  rw [addVersion_eq]
  have hlt := hsound.wellFormed.lt_of_select hsound.root_lt hentry
  have hwithin := within_putText hsound.wellFormed hlt ElementOrder.dependency ["version"] version
  have hunder := changedUnder_putText (hsound.hasElement_root.select hentry)
    (by decide : ∀ step ∈ ["version"], ':' ∉ step.toList) ElementOrder.dependency version
  obtain ⟨tree, dirty, heq⟩ := e.putText_eq entry ElementOrder.dependency ["version"] version
  rw [heq] at hwithin hunder ⊢
  have hids : entryIds { e with tree, dirty } c = e.entryIds c :=
    hwithin.select_eq hsound.root_lt hentry
  rw [findDependencies, findDependencies,
    show select { e with tree, dirty } _ = e.select _ from hids]
  refine List.filter_congr fun id hid => ?_
  by_cases hid' : id = entry
  · subst hid'
    simp only [hasKey, hunder.childText?_eq "groupId" (by decide),
      hunder.childText?_eq "artifactId" (by decide)]
  · exact hasKey_of_sameBelow (hwithin.sameBelow_of_select hsound.root_lt hentry hid hid')

end AddVersion

section AddEntry

variable (hsound : e.Sound) (hd : d.Proper) {version : Option String}
  (hversion : ∀ v, version = some v → Text.IsTrimmed v)

include hsound hd hversion

theorem alters_addEntry : e.Alters (Insertion.addEntry c.path d version e) c.first := by
  obtain ⟨tree, heq, hwithin, -⟩ := addEntry_spec hsound hd hversion
  rw [heq]
  exact alters_of_ensureBelow hsound (c.path_eq ▸ c.path_colon) (c.path_eq ▸ hwithin) true

/-- An entry that is added is one more for its own artifact, and none for another. -/
theorem entryCount_addEntry (key : ArtifactKey) :
    (Insertion.addEntry c.path d version e).entryCount c key =
      e.entryCount c key + if d.key = key then 1 else 0 := by
  obtain ⟨tree, heq, -, hchanged⟩ := addEntry_spec hsound hd hversion
  obtain ⟨front, new, back, hnew, hbefore, hafter⟩ := hchanged.select
    (P := fun n => Pom.dependencyOf n = d.declared version) fun m m' ⟨text, happended⟩ =>
      ⟨_, Pom.dependencyOf_entryFields hd hversion text,
        @Appended.childrenNamed _ _ _ happended "dependency" rfl⟩
  rw [entryCount_eq, entryCount_eq, heq, hbefore, hafter, List.countP_append, List.countP_cons,
    List.countP_append, hnew, Dependency.key?_declared, ← Nat.add_assoc]
  simp

end AddEntry

/-- An edit that a request for a dependency makes of a POM. -/
inductive Step (d : Dependency) : Editor → Editor → Prop
  | setProperty (e : Editor) (scope : PropertyScope) (name value : String) :
      Step d e (e.setProperty scope name value)
  | addVersion {e : Editor} {c : Container} {entry : NodeId}
      (h : e.findDependency? c.path d.key = some entry) (version : String) :
      Step d e (e.addVersion entry version)
  | addEntry {e : Editor} {c : Container} (h : e.findDependency? c.path d.key = none)
      {version : Option String} (hversion : ∀ v, version = some v → Text.IsTrimmed v) :
      Step d e (Insertion.addEntry c.path d version e)

/-- Several such edits, one after the other. -/
abbrev Steps (d : Dependency) : Editor → Editor → Prop := Relation.ReflTransGen (Step d)

theorem Step.alters (hd : d.Proper) (hsound : e.Sound) (h : Step d e e') :
    ∃ name, e.Alters e' name := by
  cases h with
  | setProperty scope name value => exact ⟨_, alters_setProperty hsound scope name value⟩
  | addVersion h version =>
    exact ⟨_, alters_addVersion hsound (mem_entryIds_of_findDependency? h) version⟩
  | addEntry h hversion => exact ⟨_, alters_addEntry hsound hd hversion⟩

theorem Steps.sound (hd : d.Proper) (hsound : e.Sound) (h : Steps d e e') :
    e'.Sound ∧ ∃ tree dirty, e' = { e with tree, dirty } := by
  induction h with
  | refl => exact ⟨hsound, e.tree, e.dirty, rfl⟩
  | tail _ hstep ih =>
    obtain ⟨hsound, tree, dirty, rfl⟩ := ih
    obtain ⟨name, halters⟩ := hstep.alters hd hsound
    exact ⟨halters.sound hsound, halters.eq⟩

/-! ## Counts after steps -/

/-- `e'` has at most one more entry for an artifact and one more child of each name at its root than
    `e`, and these only where `e` has none. It has as many entries for every other artifact. -/
structure Tallies (key : ArtifactKey) (e e' : Editor) : Prop where
  own : ∀ c, AtMostOnce (e.entryCount c key) (e'.entryCount c key)
  others : ∀ c other, other ≠ key → e'.entryCount c other = e.entryCount c other
  blocks : ∀ name, AtMostOnce (e.blockCount name) (e'.blockCount name)

theorem Tallies.refl (key : ArtifactKey) (e : Editor) : Tallies key e e :=
  ⟨fun _ => .refl _, fun _ _ _ => rfl, fun _ => .refl _⟩

theorem Tallies.trans {e'' : Editor} (h : Tallies key e e') (h' : Tallies key e' e'') :
    Tallies key e e'' where
  own c := (h.own c).trans (h'.own c)
  others c other hother := (h'.others c other hother).trans (h.others c other hother)
  blocks name := (h.blocks name).trans (h'.blocks name)

/-- Only the containers under the changed name are to be counted anew. -/
theorem Alters.tallies {name : String} (h : e.Alters e' name)
    (hown : ∀ c, Container.first c = name → AtMostOnce (e.entryCount c key) (e'.entryCount c key) ∧
      ∀ other, other ≠ key → e'.entryCount c other = e.entryCount c other) : Tallies key e e' where
  own c := by
    by_cases hc : c.first = name
    · exact (hown c hc).1
    · exact .inl (congrArg List.length (h.findDependencies_eq hc))
  others c other hother := by
    by_cases hc : c.first = name
    · exact (hown c hc).2 other hother
    · exact congrArg List.length (h.findDependencies_eq hc)
  blocks := h.blockCount

theorem Step.tallies (hd : d.Proper) (hsound : e.Sound) (h : Step d e e') :
    Tallies d.key e e' := by
  have hsame : ∀ {c c' : Container}, c'.first = c.first → c' = c := fun hfirst =>
    by_contra fun hne => Container.first_ne hne hfirst
  cases h with
  | setProperty scope name value =>
    exact (alters_setProperty hsound scope name value).tallies fun c hc =>
      absurd hc (scope.first_ne c)
  | @addVersion c entry h version =>
    have hentry := mem_entryIds_of_findDependency? h
    refine (alters_addVersion hsound hentry version).tallies fun c' hc => ?_
    obtain rfl := hsame hc
    have hcount := fun key =>
      congrArg List.length (findDependencies_addVersion hsound hentry version key)
    exact ⟨.inl (hcount d.key), fun other _ => hcount other⟩
  | @addEntry c h version hversion =>
    refine (alters_addEntry hsound hd hversion).tallies fun c' hc => ?_
    obtain rfl := hsame hc
    have hcount := fun key => @entryCount_addEntry e c' d hsound hd version hversion key
    have hzero := entryCount_eq_zero h
    refine ⟨.inr ⟨hzero, ?_⟩, fun other hother => ?_⟩
    · rw [hcount, hzero, if_pos rfl]
    · rw [hcount, if_neg hother.symm, Nat.add_zero]

theorem Steps.tallies (hd : d.Proper) (hsound : e.Sound) (h : Steps d e e') :
    Tallies d.key e e' := by
  induction h with
  | refl => exact .refl _ _
  | tail hsteps hstep ih => exact ih.trans (hstep.tallies hd (Steps.sound hd hsound hsteps).1)

end Editor

end MavenPom
