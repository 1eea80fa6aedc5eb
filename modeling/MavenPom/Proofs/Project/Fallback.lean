import MavenPom.Edit.Guard
import MavenPom.Proofs.Action
import MavenPom.Proofs.Project.Ancestry

/-!
# Falling back to paths alone

The search by coordinates takes the same steps as the one by paths, and stops at the first file that
is not what its reference names. So it finds the beginning of what the other finds, and fails as the
other does, unless a path that the reference gives itself leads to the wrong file.
-/

namespace MavenPom

namespace Ancestry

open MavenPom.Action (Fails bind_eq_ok)

variable {files : FileTree} {limit : Location} {visited : List Location}
  {child parent target : Found} {e : ProjectError}

/-- The error for a file that is not what the reference leading to it names. -/
def misnamed (l : Location) (r : ParentReference) : ProjectError :=
  .model (l.path ++ " does not declare parent " ++ r.groupId ++ ":" ++ r.artifactId)

/-- Of what is found by its path, the search by coordinates takes what the child's reference names.
    It fails at another file if the reference gives the path itself. -/
def confirmed (child : Found) : Option Found → Except ProjectError (Option Found)
  | none => .ok none
  | some parent =>
    match child.document.pom.parent with
    | none => .ok none
    | some r =>
      if parent.document.pom.isNamedBy r then .ok (some parent)
      else
        match r.relativePath with
        | .explicit _ => .error (misnamed parent.location r)
        | _ => .ok none

theorem map_eq_ok {ε α β : Type} {r : Except ε α} {f : α → β} {y : β} :
    r.map f = .ok y ↔ ∃ x, r = .ok x ∧ y = f x := by
  cases r <;> simp [Except.map, eq_comm]

theorem map_eq_error {ε α β : Type} {r : Except ε α} {f : α → β} {e : ε} :
    r.map f = .error e ↔ r = .error e := by
  cases r <;> simp [Except.map]

theorem parent?_byCoordinates :
    parent? files limit .byCoordinates visited child =
      parent? files limit .byPath visited child >>= confirmed child := by
  unfold parent?
  cases hr : child.document.pom.parent with
  | none => rfl
  | some r =>
    dsimp only
    cases candidate? files child.location r.relativePath with
    | error e => rfl
    | ok candidate =>
      cases candidate with
      | none => rfl
      | some l =>
        simp only [bind, Except.bind]
        cases limit.isPrefixOf l
        · cases r.relativePath <;> rfl
        cases files.isFileAt l
        · rfl
        cases visited.contains l
        · cases Document.load files l.path with
          | error e => rfl
          | ok document =>
            cases hnamed : document.pom.isNamedBy r <;> cases hpath : r.relativePath <;>
              simp [confirmed, hr, hnamed, hpath, misnamed, pure, Except.pure]
        · rfl

/-! ## One step -/

/-- The reference of a document names the other one. -/
def Found.Names (child parent : Found) : Prop :=
  ∃ r, child.document.pom.parent = some r ∧ parent.document.pom.isNamedBy r = true

/-- The reference of a document gives a path to a file that it does not name. -/
structure Misnames (files : FileTree) (child parent : Found) (e : ProjectError) : Prop where
  leadsTo : child.LeadsTo files parent
  isLoaded : parent.IsLoaded files
  reference : ∃ r path, child.document.pom.parent = some r ∧ r.relativePath = .explicit path ∧
    parent.document.pom.isNamedBy r = false ∧ e = misnamed parent.location r

theorem confirmed_eq_some {found : Option Found} (h : confirmed child found = .ok (some parent)) :
    found = some parent ∧ child.Names parent := by
  unfold confirmed at h
  split at h
  · cases h
  · split at h
    · cases h
    · next r hr =>
      split at h
      · next hnamed =>
        cases h
        exact ⟨rfl, r, hr, hnamed⟩
      · split at h <;> cases h

theorem confirmed_eq_error {found : Option Found} (h : confirmed child found = .error e) :
    ∃ parent r path, found = some parent ∧ child.document.pom.parent = some r ∧
      r.relativePath = .explicit path ∧ parent.document.pom.isNamedBy r = false ∧
      e = misnamed parent.location r := by
  unfold confirmed at h
  split at h
  · cases h
  · next parent =>
    split at h
    · cases h
    · next r hr =>
      split at h
      · cases h
      · next hnamed =>
        split at h
        · next path hpath =>
          exact ⟨parent, r, path, rfl, hr, hpath, Bool.eq_false_iff.mpr hnamed,
            (Except.error.inj h).symm⟩
        · cases h

theorem parent?_byPath_of_some
    (h : parent? files limit .byCoordinates visited child = .ok (some parent)) :
    parent? files limit .byPath visited child = .ok (some parent) ∧ child.Names parent := by
  rw [parent?_byCoordinates] at h
  obtain ⟨found, hfound, h⟩ := bind_eq_ok.mp h
  obtain ⟨rfl, hnames⟩ := confirmed_eq_some h
  exact ⟨hfound, hnames⟩

theorem parent?_byPath_of_error (hl : child.location.Proper)
    (h : parent? files limit .byCoordinates visited child = .error e) :
    parent? files limit .byPath visited child = .error e ∨
      ∃ parent, Misnames files child parent e := by
  rw [parent?_byCoordinates] at h
  cases hfound : parent? files limit .byPath visited child with
  | error e' =>
    rw [hfound] at h
    cases h
    exact .inl rfl
  | ok found =>
    rw [hfound] at h
    obtain ⟨parent, r, path, rfl, hr⟩ := confirmed_eq_error h
    have hparent := isParent_of_parent? hl hfound
    exact .inr ⟨parent, hparent.leadsTo, hparent.isLoaded, r, path, hr⟩

/-! ## The whole climb -/

/-- What the search by coordinates finds begins what the one by paths finds. -/
theorem ancestors_prefix {bound : ℕ} {above above' : List Document}
    (h : ancestors files limit .byCoordinates bound visited child = .ok above)
    (h' : ancestors files limit .byPath bound visited child = .ok above') : above <+: above' := by
  induction bound generalizing visited child above above' with
  | zero =>
    cases h
    exact List.nil_prefix
  | succ bound ih =>
    rw [ancestors_succ] at h h'
    cases hparent : parent? files limit .byCoordinates visited child with
    | error e => rw [hparent] at h; cases h
    | ok found =>
      rw [hparent] at h
      cases found with
      | none =>
        cases h
        exact List.nil_prefix
      | some parent =>
        rw [(parent?_byPath_of_some hparent).1] at h'
        obtain ⟨rest, hrest, rfl⟩ := map_eq_ok.mp h
        obtain ⟨rest', hrest', rfl⟩ := map_eq_ok.mp h'
        exact List.cons_prefix_cons.mpr ⟨rfl, ih hrest hrest'⟩

/-- Where the search by coordinates fails, the one by paths fails alike, or the last document that
    was found gives a path to a file that it does not name. -/
theorem ancestors_byPath_of_error {bound : ℕ} (hchild : child.IsLoaded files)
    (hl : child.location.Proper) (hvisited : child.location ∈ visited)
    (h : ancestors files limit .byCoordinates bound visited child = .error e) :
    ancestors files limit .byPath bound visited child = .error e ∨
      ∃ above last parent, Climb files limit child above ∧
        (∀ f ∈ above, f.location ∉ visited) ∧ (child :: above).getLast? = some last ∧
        Misnames files last parent e := by
  induction bound generalizing visited child with
  | zero => cases h
  | succ bound ih =>
    rw [ancestors_succ] at h ⊢
    cases hparent : parent? files limit .byCoordinates visited child with
    | error e' =>
      rw [hparent] at h
      cases h
      rcases parent?_byPath_of_error hl hparent with hparent | ⟨parent, hmisnames⟩
      · rw [hparent]
        exact .inl rfl
      · exact .inr ⟨[], child, parent, .nil hchild, by simp, rfl, hmisnames⟩
    | ok found =>
      rw [hparent] at h
      cases found with
      | none => cases h
      | some parent =>
        have hfound := isParent_of_parent? hl hparent
        rw [(parent?_byPath_of_some hparent).1]
        rcases ih hfound.isLoaded hfound.proper (List.mem_cons_self ..) (map_eq_error.mp h) with
          hrest | ⟨above, last, other, hclimb, hfresh, hlast, hmisnames⟩
        · exact .inl (map_eq_error.mpr hrest)
        · obtain ⟨hclimb, hfresh⟩ := hclimb.cons hchild hvisited hfound hfresh
          exact .inr ⟨parent :: above, last, other, hclimb, hfresh, by simpa using hlast, hmisnames⟩

/-- In what the search by coordinates finds, each document is linked with the next. -/
theorem isLinked_of_ancestors {bound : ℕ} {above : List Document}
    (h : ancestors files limit .byCoordinates bound visited child = .ok above) :
    List.IsChain (fun d a => Guard.isLinked d a = true) (child.document :: above) := by
  induction bound generalizing visited child above with
  | zero =>
    cases h
    exact .singleton _
  | succ bound ih =>
    rw [ancestors_succ] at h
    cases hparent : parent? files limit .byCoordinates visited child with
    | error e => rw [hparent] at h; cases h
    | ok found =>
      rw [hparent] at h
      cases found with
      | none =>
        cases h
        exact .singleton _
      | some parent =>
        obtain ⟨rest, hrest, rfl⟩ := map_eq_ok.mp h
        obtain ⟨r, hr, hnamed⟩ := (parent?_byPath_of_some hparent).2
        refine List.isChain_cons_cons.mpr ⟨?_, ih hrest⟩
        simp only [Pom.isNamedBy, Bool.and_eq_true] at hnamed
        simp [Guard.isLinked, hr, hnamed.1.1, hnamed.1.2]

end Ancestry

namespace Guard

open MavenPom.Action (Fails fails_get_bind)

theorem linkFaults_eq_none {d : Document} {above : List Document}
    (h : List.IsChain (fun d a => isLinked d a = true) (d :: above)) :
    ((d :: above).zip above).findSome? (fun (child, parent) => linkFault? child parent) = none := by
  induction above generalizing d with
  | nil => rfl
  | cons a above ih =>
    obtain ⟨hlinked, hrest⟩ := List.isChain_cons_cons.mp h
    rw [List.zip_cons_cons, List.findSome?_cons_of_isNone (by simp [linkFault?, hlinked]), ih hrest]

/-- Where each document of a project is linked with the next, the guard finds no fault with their
    references. -/
theorem ne_invalidParent_of_fails {p p' : Project} {e : RequestError}
    (hlinked : List.IsChain (fun d a => isLinked d a = true) p.documents)
    (h : Fails parentPackaging.execute p e p') (location expected : String) :
    e ≠ .invalidParent location expected := by
  rintro rfl
  simp only [parentPackaging, fails_get_bind] at h
  split at h
  · next fault hfault =>
    rw [hierarchyFault?, Project.documents, linkFaults_eq_none hlinked, Option.or_none] at hfault
    obtain ⟨a, -, hfault⟩ := List.exists_of_findSome?_eq_some hfault
    obtain rfl : RequestError.invalidParent location expected = fault :=
      Except.error.inj (Prod.mk.inj h).1.symm
    unfold packagingFault? at hfault
    split at hfault <;> cases hfault
  · cases h

end Guard

namespace Ancestry

open MavenPom.Action (Fails)

theorem find_of_byPath_error {path boundary : String} {e' : ProjectError}
    (hfirst : start files path boundary = .ok (limit, target))
    (h : ancestorsOf files limit .byCoordinates target = .error e)
    (h' : ancestorsOf files limit .byPath target = .error e') :
    find files path boundary = .error e' ∧ findByPath files path boundary = .error e' := by
  simp only [find, findByPath, hfirst, bind, Except.bind, h, h', and_self]

/-- Where the whole search fails, the one by paths fails alike. -/
theorem findByPath_of_find_error {path boundary : String}
    (h : find files path boundary = .error e) :
    findByPath files path boundary = .error e := by
  cases hfirst : start files path boundary with
  | error e' =>
    simp only [find, hfirst, bind, Except.bind] at h
    cases h
    simp only [findByPath, hfirst, bind, Except.bind]
  | ok first =>
    obtain ⟨limit, target⟩ := first
    cases habove : ancestorsOf files limit .byCoordinates target with
    | ok above =>
      simp only [find, hfirst, bind, Except.bind, habove] at h
      cases h
    | error e' =>
      cases hbyPath : ancestorsOf files limit .byPath target with
      | ok above =>
        simp only [find, hfirst, bind, Except.bind, habove, hbyPath] at h
        cases h
      | error e'' =>
        obtain ⟨hfind, hfindByPath⟩ := find_of_byPath_error hfirst habove hbyPath
        rw [hfind] at h
        cases h
        exact hfindByPath

theorem find_prefix {path boundary : String} {l l' : Lineage}
    (h : find files path boundary = .ok l) (h' : findByPath files path boundary = .ok l') :
    l.target = l'.target ∧ l.ancestors <+: l'.ancestors := by
  obtain ⟨limit', target', hfirst', htarget', habove'⟩ := findByPath_eq_ok.mp h'
  obtain ⟨limit, target, hfirst, htarget, habove⟩ := find_eq_ok.mp h
  obtain ⟨rfl, rfl⟩ := Prod.mk.inj (Except.ok.inj (hfirst.symm.trans hfirst'))
  refine ⟨htarget.trans htarget'.symm, ?_⟩
  rcases habove with habove | ⟨-, habove⟩
  · exact ancestors_prefix habove habove'
  · exact Except.ok.inj (habove.symm.trans habove') ▸ List.prefix_rfl

/-- Where the whole search fails, the one by paths fails alike, and where both succeed, the first
    finds the beginning of what the second finds. Falling back hides no error of the search by
    coordinates but one: a path that a reference gives leads to a file that it does not name. In
    what is found by coordinates, the guard finds no invalid parent. -/
theorem find_refines_findByPath (hstart : files.workingDirectory.Proper) (path boundary : String) :
    (∀ e, find files path boundary = .error e → findByPath files path boundary = .error e) ∧
    (∀ l l', find files path boundary = .ok l → findByPath files path boundary = .ok l' →
      l.target = l'.target ∧ l.ancestors <+: l'.ancestors) ∧
    ∀ limit target, start files path boundary = .ok (limit, target) →
      (∀ e, ancestorsOf files limit .byCoordinates target = .error e →
        (find files path boundary = .error e ∧ findByPath files path boundary = .error e) ∨
        ∃ above last parent, Climb files limit target above ∧
          (target :: above).getLast? = some last ∧ Misnames files last parent e) ∧
      ∀ above, ancestorsOf files limit .byCoordinates target = .ok above →
        find files path boundary = .ok ⟨target.document, above⟩ ∧
        ∀ request p' location expected,
          ¬Fails Guard.parentPackaging.execute (Project.new target.document above request)
            (.invalidParent location expected) p' := by
  refine ⟨fun e => findByPath_of_find_error, fun l l' => find_prefix, ?_⟩
  intro limit target hfirst
  have hbegin := start_eq_ok.mp hfirst
  refine ⟨fun e he => ?_, fun above habove => ⟨?_, ?_⟩⟩
  · rcases ancestors_byPath_of_error (hbegin.isLoaded hstart) (hbegin.proper hstart)
      (List.mem_singleton_self _) he with
      hbyPath | ⟨above, last, parent, hclimb, -, hlast, hmisnames⟩
    · exact .inl (find_of_byPath_error hfirst he hbyPath)
    · exact .inr ⟨above, last, parent, hclimb, hlast, hmisnames⟩
  · exact find_eq_ok.mpr ⟨limit, target, hfirst, rfl, .inl habove⟩
  · exact fun request p' location expected hfails =>
      Guard.ne_invalidParent_of_fails (p := Project.new target.document above request)
        (isLinked_of_ancestors habove) hfails location expected rfl

def outerModule : List Char :=
  "<project><groupId>g</groupId><artifactId>m</artifactId><parent/></project>".toList

def innerModule : List Char :=
  "<project><parent><groupId>g</groupId><artifactId>m</artifactId></parent></project>".toList

/-- The inner module names the outer one, which does not name the project that it is in. -/
def detached : FileTree :=
  ⟨⟨[(["p"], .directory), (["p", "m"], .directory), (["p", "m", "c"], .directory),
    (["p", "pom.xml"], .file (Utf8.encode "<project/>".toList)),
    (["p", "m", "pom.xml"], .file (Utf8.encode outerModule)),
    (["p", "m", "c", "pom.xml"], .file (Utf8.encode innerModule))]⟩, ["p"]⟩

theorem find_refines_findByPath_detached :
    Location.Proper detached.workingDirectory ∧
    ∃ l l', find detached "m/c/pom.xml" "/p" = .ok l ∧
      findByPath detached "m/c/pom.xml" "/p" = .ok l' ∧
      l.ancestors.length = 1 ∧ l'.ancestors.length = 2 ∧
      l.target = l'.target ∧ l.ancestors <+: l'.ancestors := by
  have hstart : Location.Proper detached.workingDirectory := fun name hname =>
    List.mem_singleton.mp hname ▸ ⟨by decide, by decide, by decide, by decide⟩
  have hlengths : (find detached "m/c/pom.xml" "/p").toOption.map (·.ancestors.length) = some 1 ∧
      (findByPath detached "m/c/pom.xml" "/p").toOption.map (·.ancestors.length) = some 2 := by
    have houter : outerModule = _ := @String.toList_ofList _
    have hinner : innerModule = _ := @String.toList_ofList _
    rw [detached, houter, hinner]
    decide +kernel
  obtain ⟨hone, htwo⟩ := hlengths
  refine ⟨hstart, ?_⟩
  cases hfind : find detached "m/c/pom.xml" "/p" with
  | error e =>
    rw [hfind] at hone
    cases hone
  | ok l =>
    cases hbyPath : findByPath detached "m/c/pom.xml" "/p" with
    | error e =>
      rw [hbyPath] at htwo
      cases htwo
    | ok l' =>
      rw [hfind] at hone
      rw [hbyPath] at htwo
      exact ⟨l, l', rfl, rfl, Option.some.inj hone, Option.some.inj htwo,
        (find_refines_findByPath hstart _ _).2.1 l l' hfind hbyPath⟩

end Ancestry

end MavenPom
