import MavenPom.Edit.Insertion
import MavenPom.Proofs.Pom.Entries

/-!
# Bringing in an entry

Where a container has an entry for an artifact, the first one is given a version. Where it has none,
one is added at the end. Both show in the POM as just this change of its entries.
-/

namespace MavenPom

open Markup Markup.Tree
open Strict.Node (ChangedAt GivenText Appended Puts)

namespace Markup.Strict.Node

/-- No node on a path has two children of the path's next name. -/
def Single : List String → Node → Prop
  | [], _ => True
  | name :: path, n =>
    (n.childrenNamed name).length ≤ 1 ∧ ∀ m ∈ n.childrenNamed name, Single path m

instance Single.decidable : (path : List String) → (n : Node) → Decidable (Single path n)
  | [], _ => isTrue trivial
  | name :: path, n =>
    have := fun m => Single.decidable path m
    inferInstanceAs (Decidable ((n.childrenNamed name).length ≤ 1 ∧
      ∀ m ∈ n.childrenNamed name, Single path m))

/-- What is missing on a path is added once. -/
theorem ChangedAt.single {R : Node → Node → Prop} {path : List String} {n n' : Node}
    (h : ChangedAt R path n n') (hn : Single path n) : Single path n' := by
  induction path generalizing n n' with
  | nil => trivial
  | cons name path ih =>
    obtain ⟨old, new, hputs, hchanged⟩ := h
    obtain ⟨rest, hnamed, hnamed', hrest⟩ := hputs.childrenNamed
    obtain ⟨hlength, hall⟩ := hn
    have hnil : rest = [] := by
      cases old with
      | none => exact hrest rfl
      | some m =>
        rw [hnamed] at hlength
        exact List.eq_nil_of_length_eq_zero (Nat.le_zero.mp (Nat.le_of_succ_le_succ hlength))
    subst hnil
    refine ⟨by simp [hnamed'], fun m hm => ?_⟩
    rw [hnamed', List.mem_singleton] at hm
    subst hm
    refine ih hchanged ?_
    cases old with
    | some m => exact hall m (by simp [hnamed])
    | none =>
      cases path with
      | nil => trivial
      | cons step path =>
        exact ⟨by simp [blank, childrenNamed, children], by simp [blank, childrenNamed, children]⟩

end Markup.Strict.Node

open Strict.Node (Single)

namespace Markup.Tree

variable {t t' : Tree} {ns : Option String} {id m : NodeId} {path : List String}

/-- The element that a path leads to through the first child of each name. -/
def follow? (t : Tree) (ns : Option String) : List String → NodeId → Option NodeId
  | [], id => some id
  | name :: path, id => (t.childNamed? id ns name).bind (t.follow? ns path)

theorem follow?_shownNode (depth : Nat) :
    (t.shownNode ns (depth + path.length + 1) id).follow? path =
      (t.follow? ns path id).map (t.shownNode ns (depth + 1)) := by
  induction path generalizing id with
  | nil => rfl
  | cons name path ih =>
    rw [Strict.Node.follow?, List.length_cons, ← Nat.add_assoc, child?_shownNode, follow?]
    cases t.childNamed? id ns name with
    | none => rfl
    | some c => exact ih

/-- A path on which no element is repeated leads to one place only. -/
theorem select_of_single (depth : Nat)
    (h : Single path (t.shownNode ns (depth + path.length + 1) id)) (name : String) :
    t.select ns (path ++ [name]) id =
      ((t.follow? ns path id).map (t.childrenNamed · ns name)).getD [] := by
  induction path generalizing id with
  | nil => simp [select, follow?]
  | cons step path ih =>
    rw [List.length_cons, ← Nat.add_assoc] at h
    obtain ⟨hlength, hall⟩ := h
    rw [childrenNamed_shownNode] at hlength hall
    rw [List.cons_append, select, follow?, childNamed?]
    cases hnamed : t.childrenNamed id ns step with
    | nil => rfl
    | cons c rest =>
      rw [hnamed] at hlength hall
      obtain rfl : rest = [] := by
        rw [List.length_map, List.length_cons] at hlength
        exact List.eq_nil_of_length_eq_zero (Nat.le_zero.mp (Nat.le_of_succ_le_succ hlength))
      simpa using ih (hall _ (by simp))

theorem childNamed?_eq_some {c : NodeId} {name : String} (h : t.childNamed? id ns name = some c) :
    ∃ rest, t.childrenNamed id ns name = c :: rest := by
  rw [childNamed?] at h
  cases hnamed : t.childrenNamed id ns name with
  | nil => simp [hnamed] at h
  | cons first rest =>
    rw [hnamed] at h
    exact ⟨rest, by rw [Option.some.inj h]⟩

theorem mem_select_of_follow? (h : t.follow? ns path id = some m) : m ∈ t.select ns path id := by
  induction path generalizing id with
  | nil => simpa [select, follow?, eq_comm] using h
  | cons name path ih =>
    obtain ⟨c, hc, hm⟩ := Option.bind_eq_some_iff.mp h
    obtain ⟨rest, hnamed⟩ := childNamed?_eq_some hc
    exact mem_select_cons.mpr ⟨c, by simp [hnamed], ih hm⟩

/-- An edit within what a path leads to shows as an edit at the end of the path. -/
theorem Within.changedAt (h : Within t t' m) (hm : t.follow? ns path id = some m) (depth : Nat) :
    ChangedAt (fun _ _ => True) path (t.shownNode ns (depth + path.length + 1) id)
      (t'.shownNode ns (depth + path.length + 1) id) := by
  induction path generalizing id with
  | nil => trivial
  | cons name path ih =>
    obtain ⟨c, hc, hfollow⟩ := Option.bind_eq_some_iff.mp hm
    obtain ⟨rest, hnamed⟩ := childNamed?_eq_some hc
    have hwithin : Within t t' c := by
      rcases List.mem_cons.mp
        (h.before.mem_ancestors_of_select (mem_select_of_follow? hfollow)) with rfl | hmem
      · exact h
      · exact h.above hmem
    exact ⟨some _, _, hwithin.puts hnamed (depth + path.length), ih hfollow⟩

end Markup.Tree

/-- The version of the first entry for an artifact, or a new entry at the end. -/
def bringEntry (d : Dependency) (version : String) :
    List DeclaredDependency → List DeclaredDependency
  | [] => [d.declared (some version)]
  | x :: rest =>
    if x.key? = some d.key then { x with version := some version } :: rest
    else x :: bringEntry d version rest

/-- An entry without a version at the end, unless there is one for the artifact. -/
def referEntry (d : Dependency) (entries : List DeclaredDependency) : List DeclaredDependency :=
  if entries.any (·.key? = some d.key) then entries else entries ++ [d.declared none]

theorem bringEntry_append {d : Dependency} {version : String} {front : List DeclaredDependency}
    (hfront : ∀ x ∈ front, x.key? ≠ some d.key) (rest : List DeclaredDependency) :
    bringEntry d version (front ++ rest) = front ++ bringEntry d version rest := by
  induction front with
  | nil => rfl
  | cons x front ih =>
    obtain ⟨hx, hfront⟩ := List.forall_mem_cons.mp hfront
    rw [List.cons_append, bringEntry, if_neg hx, ih hfront, List.cons_append]

/-- How deep the entries of a container are shown. -/
def Container.depth : Container → Nat
  | .dependencies => 5
  | .managed => 4

theorem Container.shownDepth_eq (c : Container) :
    Editor.shownDepth = c.depth + 2 + c.path.length + 1 := by
  cases c <;> rfl

namespace Editor

variable {e e' : Editor} {c : Container} {key : ArtifactKey}

/-- No container of entries is repeated, nor what it is in. -/
def Unrepeated (e : Editor) : Prop := ∀ c : Container, Single c.path e.shown

/-- The elements of a container's entries. -/
def entryIds (e : Editor) (c : Container) : List NodeId := e.select (c.path ++ ["dependency"])

/-- What an entry shows. -/
def entry (e : Editor) (c : Container) (id : NodeId) : DeclaredDependency :=
  Pom.dependencyOf (e.tree.shownNode e.ns (c.depth + 2) id)

theorem key?_entry (id : NodeId) : (e.entry c id).key? = some key ↔ e.hasKey key id = true := by
  obtain ⟨g, a⟩ := key
  simp only [entry, Pom.dependencyOf, DeclaredDependency.key?, childText?_shownNode, hasKey]
  cases e.tree.childText? id e.ns "groupId" <;> cases e.tree.childText? id e.ns "artifactId" <;>
    simp

theorem entryIds_eq (h : Single c.path e.shown) :
    e.entryIds c =
      ((e.tree.follow? e.ns c.path e.root).map
        (e.tree.childrenNamed · e.ns "dependency")).getD [] := by
  rw [shown, c.shownDepth_eq] at h
  exact select_of_single (c.depth + 2) h "dependency"

/-- The entries of the POM that is shown are what its entries' elements show. -/
theorem entries_pom (h : Single c.path e.shown) :
    e.pom.entries c = (e.entryIds c).map (e.entry c) := by
  rw [entryIds_eq h, pom, Pom.entries_ofNode, shown, c.shownDepth_eq, follow?_shownNode]
  cases e.tree.follow? e.ns c.path e.root with
  | none => rfl
  | some m =>
    simp only [Option.map_some, Option.getD_some, childrenNamed_shownNode, List.map_map]
    rfl

theorem findDependency?_eq (e : Editor) (c : Container) (key : ArtifactKey) :
    e.findDependency? c.path key = (e.entryIds c).find? (e.hasKey key) := by
  rw [findDependency?, findDependencies, List.head?_filter, entryIds]

/-- Whether a container has an entry for an artifact shows in its entries. -/
theorem findDependency?_isSome (h : Single c.path e.shown) :
    (e.findDependency? c.path key).isSome = (e.pom.entries c).any (·.key? = some key) := by
  rw [Bool.eq_iff_iff, findDependency?_eq, List.find?_isSome, entries_pom h, List.any_map]
  simp only [List.any_eq_true, Function.comp_apply, decide_eq_true_eq, key?_entry]

/-! ## Bringing in an entry -/

/-- The first entry for a dependency's artifact, given a version, or a new entry. -/
def bring (c : Container) (d : Dependency) (version : String) (e : Editor) : Editor :=
  match e.findDependency? c.path d.key with
  | some entry => e.addVersion entry version
  | none => Insertion.addEntry c.path d (some version) e

/-- An entry for a dependency's artifact, without a version where there was none. -/
def refer (d : Dependency) (e : Editor) : Editor :=
  if (e.findDependency? dependencies d.key).isSome then e
  else Insertion.addEntry dependencies d none e

/-- An entry for a dependency's artifact in a container, without a version where there was none. -/
def enlist (c : Container) (d : Dependency) (e : Editor) : Editor :=
  if (e.findDependency? c.path d.key).isSome then e else Insertion.addEntry c.path d none e

/-- `e'` has come from `e` by an edit, and its tree shows `p`. -/
structure Became (e e' : Editor) (p : Pom) : Prop where
  eq : ∃ tree dirty, e' = { e with tree, dirty }
  sound : e'.Sound
  unrepeated : e'.Unrepeated
  pom : e'.pom = p

/-- A path that begins with an unchanged child leads where it led. -/
theorem single_of_childrenNamed {n n' : Strict.Node} {name : String} {path : List String}
    (h : n'.childrenNamed name = n.childrenNamed name) (hn : Single (name :: path) n) :
    Single (name :: path) n' := by
  rw [Single, h]
  exact hn

theorem childrenNamed_shown_of_changedUnder {tree : Tree} {name other : String}
    (h : ChangedUnder e.tree tree e.ns e.root name) (hne : other ≠ name) (dirty : Bool) :
    (shown { e with tree, dirty }).childrenNamed other = e.shown.childrenNamed other := by
  rw [shown, shown, shownDepth, childrenNamed_shownNode, childrenNamed_shownNode,
    h.childrenNamed_eq other hne]
  exact map_shownNode_congr (fun x hx => h.sameBelow other hne x hx) _

theorem child?_shown_of_changedUnder {tree : Tree} {name other : String}
    (h : ChangedUnder e.tree tree e.ns e.root name) (hne : other ≠ name) (dirty : Bool) :
    (shown { e with tree, dirty }).child? other = e.shown.child? other := by
  rw [Strict.Node.child?_eq, Strict.Node.child?_eq, childrenNamed_shown_of_changedUnder h hne]

theorem Container.first_ne {c c' : Container} (h : c' ≠ c) : c'.first ≠ c.first := by
  cases c <;> cases c' <;> first | exact absurd rfl h | decide

/-- An edit under a container's first name that keeps the container single has changed the
    container's entries alone. -/
theorem became_of_changedUnder (hsound : e.Sound) (hsingle : e.Unrepeated) {tree : Tree}
    {dirty : Bool} (h : ChangedUnder e.tree tree e.ns e.root c.first)
    (hc : Single c.path (shown { e with tree, dirty })) {es : List DeclaredDependency}
    (hes : (pom { e with tree, dirty }).entries c = es) :
    e.Became { e with tree, dirty } (e.pom.withEntries c es) where
  eq := ⟨tree, dirty, rfl⟩
  sound := hsound.of_within h.within dirty
  unrepeated c' := by
    by_cases hc' : c' = c
    · rw [hc']
      exact hc
    · have hold := hsingle c'
      rw [Container.path_eq] at hold ⊢
      exact single_of_childrenNamed
        (childrenNamed_shown_of_changedUnder h (Container.first_ne hc') dirty) hold
  pom := by
    rw [← hes]
    exact Pom.ofNode_of_child?_eq fun name hne => child?_shown_of_changedUnder h hne dirty

theorem addEntry_eq (e : Editor) (path : List String) (d : Dependency) (version : Option String) :
    Insertion.addEntry path d version e =
      (e.ensureBelow e.root ElementOrder.project path).1.appendDependency
        (e.ensureBelow e.root ElementOrder.project path).2 d version := rfl

/-- An entry is added within a container, behind what that shows. -/
theorem addEntry_spec (hsound : e.Sound) {d : Dependency} (hd : d.Proper) {version : Option String}
    (hversion : ∀ v, version = some v → Text.IsTrimmed v) :
    ∃ tree, Insertion.addEntry c.path d version e = { e with tree, dirty := true } ∧
      Within (e.ensureBelow e.root ElementOrder.project c.path).1.tree tree
        (e.ensureBelow e.root ElementOrder.project c.path).2 ∧
      ChangedAt (fun n n' => ∃ text, Appended
          [.element "dependency" (.text text :: (entryFields d version).map Strict.Node.leaf)] n n')
        c.path e.shown (shown { e with tree, dirty := true }) := by
  have hid := hasElement_ensureBelow hsound.hasElement_root c.path_colon ElementOrder.project
  obtain ⟨tree, dirty, heq⟩ := e.ensureBelow_eq e.root ElementOrder.project c.path
  obtain ⟨hwithin, text, happended⟩ :=
    appendDependency_spec hid hd (fun v hv => (hversion v hv).1) c.depth
  obtain ⟨tree', heq'⟩ := appendDependency_eq
    (e.ensureBelow e.root ElementOrder.project c.path).1
    (e.ensureBelow e.root ElementOrder.project c.path).2 d version
  rw [heq'] at hwithin happended
  have hns : (e.ensureBelow e.root ElementOrder.project c.path).1.ns = e.ns := by rw [heq]
  rw [hns] at happended
  obtain ⟨-, hchanged⟩ := @changedAt_ensureBelow _ _ _ _ hsound.hasElement_root
    c.path_colon _ (c.depth + 2) (fun n n' => ∃ text, Appended
      [.element "dependency" (.text text :: (entryFields d version).map Strict.Node.leaf)] n n')
    hwithin ⟨text, happended⟩
  rw [← c.shownDepth_eq] at hchanged
  exact ⟨tree', by rw [addEntry_eq, heq', heq], hwithin, hchanged⟩

/-- Adding an entry to a container shows as an entry at its end. -/
theorem became_addEntry (hsound : e.Sound) (hsingle : e.Unrepeated) {d : Dependency}
    (hd : d.Proper) {version : Option String}
    (hversion : ∀ v, version = some v → Text.IsTrimmed v) :
    e.Became (Insertion.addEntry c.path d version e)
      (e.pom.withEntries c (e.pom.entries c ++ [d.declared version])) := by
  obtain ⟨tree, heq, hwithin, hchanged⟩ := addEntry_spec hsound hd hversion
  have hunder : ChangedUnder e.tree tree e.ns e.root c.first :=
    changedUnder_ensureBelow hsound.hasElement_root
      (c.path_eq ▸ c.path_colon) (c.path_eq ▸ hwithin)
  rw [heq]
  refine became_of_changedUnder hsound hsingle hunder (hchanged.single (hsingle c)) ?_
  refine Pom.entries_ofNode_appended (fun n n' ⟨text, h⟩ => ⟨_, h, rfl, ?_⟩) hchanged
  exact Pom.dependencyOf_entryFields hd hversion text

/-- Giving the first entry for an artifact a version shows as that version. -/
theorem became_addVersion (hsound : e.Sound) (hsingle : e.Unrepeated) {d : Dependency}
    {id : NodeId} (hid : e.findDependency? c.path d.key = some id) {version : String}
    (hversion : Text.IsTrimmed version) :
    e.Became (e.addVersion id version)
      (e.pom.withEntries c (bringEntry d version (e.pom.entries c))) := by
  rw [findDependency?_eq] at hid
  obtain ⟨hkey, front, back, hsplit, hfront⟩ := List.find?_eq_some_iff_append.mp hid
  have hmem : id ∈ e.entryIds c := by simp [hsplit]
  have helement := hsound.hasElement_root.select hmem
  have hcolon : ∀ name ∈ ["version"], ':' ∉ name.toList := by decide
  obtain ⟨tree, dirty, heq⟩ := e.putText_eq id ElementOrder.dependency ["version"] version
  have hwithin := within_putText helement.wellFormed helement.lt ElementOrder.dependency
    ["version"] version
  have hchanged := changedAt_putText helement hcolon hversion.1 ElementOrder.dependency c.depth
  rw [addVersion_eq, heq]
  rw [heq] at hwithin hchanged
  -- The container is the only one, so that the entries are its children.
  have hentries := entryIds_eq (hsingle c)
  obtain ⟨m, hm⟩ : ∃ m, e.tree.follow? e.ns c.path e.root = some m := by
    cases hm : e.tree.follow? e.ns c.path e.root with
    | none => simp [hentries, hm] at hmem
    | some m => exact ⟨m, rfl⟩
  rw [hm, Option.map_some, Option.getD_some] at hentries
  have hchild : ∀ x ∈ e.entryIds c, x ∈ e.tree.children m := fun x hx =>
    mem_children_of_named (hentries ▸ hx)
  have habove : Within e.tree tree m := by
    refine hwithin.above ?_
    rw [hsound.wellFormed.ancestors_child (hchild id hmem)]
    exact List.mem_cons_self ..
  have hcontainer := habove.changedAt hm (c.depth + 2)
  rw [← c.shownDepth_eq] at hcontainer
  have hsingle' : Single c.path (shown { e with tree, dirty }) := hcontainer.single (hsingle c)
  have hunder : ChangedUnder e.tree tree e.ns e.root c.first := by
    refine @Within.changedUnder _ _ _ _ _ _ (c.below ++ ["dependency"]) hwithin hsound.root_lt ?_
    rw [← List.cons_append, ← c.path_eq]
    exact hmem
  refine became_of_changedUnder hsound hsingle hunder hsingle' ?_
  have hids : entryIds { e with tree, dirty } c = e.entryIds c :=
    hwithin.select_eq hsound.root_lt hmem
  obtain ⟨-, hsame⟩ := hwithin.childrenNamed_split (hentries.symm.trans hsplit)
  have hother : ∀ ids : List NodeId, (∀ x ∈ ids, x ∈ front ++ back) →
      ids.map (entry { e with tree, dirty } c) = ids.map (e.entry c) := by
    refine fun ids hids => List.map_congr_left fun x hx => ?_
    rw [entry, entry, (hsame x (hids x hx)).shownNode_eq]
  have hgiven : entry { e with tree, dirty } c id =
      { e.entry c id with version := some version } :=
    Pom.dependencyOf_givenVersion hchanged hversion
  rw [entries_pom hsingle', entries_pom (hsingle c), hids, hsplit, List.map_append, List.map_cons,
    List.map_append, List.map_cons, hother front fun x hx => List.mem_append_left _ hx,
    hother back fun x hx => List.mem_append_right _ hx, hgiven, bringEntry_append, bringEntry,
    if_pos ((key?_entry id).mpr hkey)]
  intro x hx
  obtain ⟨y, hy, rfl⟩ := List.mem_map.mp hx
  exact fun heq => by simpa [(key?_entry y).mp heq] using hfront y hy

theorem bringEntry_of_forall {d : Dependency} {version : String} {es : List DeclaredDependency}
    (h : ∀ x ∈ es, x.key? ≠ some d.key) :
    bringEntry d version es = es ++ [d.declared (some version)] := by
  have happend := @bringEntry_append _ version _ h []
  rwa [List.append_nil] at happend

/-- Bringing in an entry shows as the version of the first entry, or as an entry at the end. -/
theorem became_bring (hsound : e.Sound) (hsingle : e.Unrepeated) {d : Dependency} (hd : d.Proper)
    {version : String} (hversion : Text.IsTrimmed version) :
    e.Became (e.bring c d version)
      (e.pom.withEntries c (bringEntry d version (e.pom.entries c))) := by
  unfold bring
  split
  · next id hid => exact became_addVersion hsound hsingle hid hversion
  · next hnone =>
    have hkey : ∀ x ∈ e.pom.entries c, x.key? ≠ some d.key := by
      have hsome := @findDependency?_isSome _ _ d.key (hsingle c)
      rw [hnone] at hsome
      simpa using hsome.symm
    rw [bringEntry_of_forall hkey]
    refine became_addEntry hsound hsingle hd fun v hv => ?_
    rwa [← Option.some.inj hv]

theorem became_self (hsound : e.Sound) (hsingle : e.Unrepeated) : e.Became e e.pom :=
  ⟨⟨e.tree, e.dirty, rfl⟩, hsound, hsingle, rfl⟩

/-- Listing a dependency shows as an entry without a version, unless there is one. -/
theorem became_enlist (hsound : e.Sound) (hsingle : e.Unrepeated) {d : Dependency} (hd : d.Proper) :
    e.Became (e.enlist c d) (e.pom.withEntries c (referEntry d (e.pom.entries c))) := by
  have hsome := @findDependency?_isSome _ _ d.key (hsingle c)
  unfold enlist referEntry
  rw [hsome]
  split
  · rw [Pom.withEntries_entries]
    exact became_self hsound hsingle
  · exact became_addEntry hsound hsingle hd (by simp)

theorem became_refer (hsound : e.Sound) (hsingle : e.Unrepeated) {d : Dependency} (hd : d.Proper) :
    e.Became (e.refer d)
      (e.pom.withEntries .dependencies (referEntry d (e.pom.entries .dependencies))) :=
  became_enlist (c := .dependencies) hsound hsingle hd

end Editor

end MavenPom
