import MavenPom.Project.Ancestry
import MavenPom.Proofs.Action
import MavenPom.Proofs.Files.Write
import Mathlib.Data.List.Chain
import Mathlib.Data.List.Nodup
import Mathlib.Data.List.Perm.Subperm

/-!
# Climbing to ancestors

Every climb ends, since it meets no file twice. The files that it finds are inside the boundary, and
each is where the parent reference of the one before leads.
-/

namespace MavenPom

namespace FileTree

variable {t : FileTree} {l : Location} {content : Bytes}

theorem mem_files_of_file? (h : t.file? l = some content) : l ∈ t.files := by
  have hpair : ∀ {pairs : List (Location × Entry)} {entry : Entry},
      Table.getPair? l pairs = some entry → (l, entry) ∈ pairs := by
    intro pairs entry
    induction pairs with
    | nil => exact fun h => nomatch h
    | cons pair pairs ih =>
      intro h
      rw [Table.getPair?] at h
      split at h
      · next heq =>
        rw [← heq, ← Option.some.inj h]
        exact List.mem_cons_self ..
      · exact List.mem_cons_of_mem _ (ih h)
  have hentry := file?_eq_some.mp h
  unfold entry? at hentry
  split at hentry
  · cases hentry
  · exact List.mem_filterMap.mpr ⟨_, hpair hentry, rfl⟩

end FileTree

namespace Ancestry

open MavenPom.Action (bind_eq_ok)

variable {files : FileTree} {boundary limit : Location} {following : Following}
  {visited : List Location} {child parent target : Found}

/-- The document is the one of the file at its location. -/
def Found.IsLoaded (files : FileTree) (f : Found) : Prop :=
  ∃ bytes, files.file? f.location = some bytes ∧
    Document.ofBytes bytes (.file f.location.path) = .ok f.document

/-- A document that is loaded from the path of a location is the one of the file there. -/
theorem Found.isLoaded_of_load {l : Location} (hl : l.Proper) {d : Document}
    (h : Document.load files l.path = .ok d) : Found.IsLoaded files ⟨l, d⟩ := by
  unfold Document.load at h
  split at h
  · cases h
  · next bytes hread =>
    have hfile := FileTree.file?_of_read hread
    rw [FileTree.location_path files hl] at hfile
    exact ⟨bytes, hfile, h⟩

/-- The POM at a location. A directory stands for the one in it. -/
def pomAt (files : FileTree) (l : Location) : Location :=
  if files.isDirectoryAt l then l ++ ["pom.xml"] else l

/-- A parent reference leads from the file at a location to another one, by a path from the
    directory of the first that begins at no root and no home. -/
def Leads (files : FileTree) (l : Location) (r : RelativePath) (l' : Location) : Prop :=
  ∃ path, relativePath? r = some path ∧ isAnchored path = false ∧
    l' = pomAt files (files.location (Path.join (Location.path l.dropLast) path))

/-- The reference of a document to its parent leads to another one. -/
def Found.LeadsTo (files : FileTree) (child parent : Found) : Prop :=
  ∃ r, child.document.pom.parent = some r ∧
    Leads files child.location r.relativePath parent.location

theorem head?_ne_of_isAnchored {path : String} (h : isAnchored path = false) :
    path.toList.head? ≠ some '/' := by
  intro hhead
  obtain ⟨cs, hcs⟩ := List.head?_eq_some_iff.mp hhead
  simp [isAnchored, hcs] at h

theorem proper_pomAt {l : Location} (h : l.Proper) : (pomAt files l).Proper := by
  rw [pomAt]
  split
  · exact h.append fun name hname =>
      List.mem_singleton.mp hname ▸ ⟨by decide, by decide, by decide, by decide⟩
  · exact h

/-- Where a reference is looked for is where it leads. -/
theorem leads_of_candidate? {l l' : Location} (hl : l.Proper) {r : RelativePath}
    (h : candidate? files l r = .ok (some l')) : Leads files l r l' ∧ l'.Proper := by
  unfold candidate? at h
  split at h
  · cases h
  · next path hpath =>
    split at h
    · cases h
    · next hanchored =>
      have hrelative := head?_ne_of_isAnchored (Bool.eq_false_iff.mpr hanchored)
      have hl' : l' = pomAt files (Location.descend l.dropLast path) :=
        (Option.some.inj (Except.ok.inj h)).symm
      refine ⟨⟨path, hpath, Bool.eq_false_iff.mpr hanchored, ?_⟩, ?_⟩
      · rw [hl', FileTree.location_join_path files hl.dropLast hrelative]
      · rw [hl']
        exact proper_pomAt (hl.dropLast.descend path)

/-! ## One step -/

/-- What the parent of a document is when it is found. -/
structure IsParent (files : FileTree) (boundary : Location) (visited : List Location)
    (child parent : Found) : Prop where
  leadsTo : child.LeadsTo files parent
  inside : boundary <+: parent.location
  fresh : parent.location ∉ visited
  proper : parent.location.Proper
  isLoaded : parent.IsLoaded files

theorem isParent_of_parent? (hl : child.location.Proper)
    (h : parent? files boundary following visited child = .ok (some parent)) :
    IsParent files boundary visited child parent := by
  unfold parent? at h
  split at h
  · cases h
  · next r hr =>
    cases hcandidate : candidate? files child.location r.relativePath with
    | error e => rw [hcandidate] at h; cases h
    | ok candidate =>
      rw [hcandidate] at h
      cases candidate with
      | none => cases h
      | some l =>
        obtain ⟨hleads, hproper⟩ := leads_of_candidate? hl hcandidate
        simp only [bind, Except.bind] at h
        split at h
        · split at h <;> cases h
        · next hinside =>
          split at h
          · cases h
          · split at h
            · cases h
            · next hfresh =>
              cases hload : Document.load files l.path with
              | error e => rw [hload] at h; cases h
              | ok document =>
                rw [hload] at h
                have hparent : parent = ⟨l, document⟩ := by
                  simp only at h
                  split at h
                  · split at h <;> cases h
                  · exact (Option.some.inj (Except.ok.inj h)).symm
                rw [hparent]
                refine ⟨⟨r, hr, hleads⟩, ?_, ?_, hproper, Found.isLoaded_of_load hproper hload⟩
                · simpa using hinside
                · simpa using hfresh

/-! ## The whole climb -/

/-- A climb from a document ends and gives its ancestors or an error, whatever number of steps it
    takes. -/
inductive Ascends (files : FileTree) (boundary : Location) (following : Following) :
    List Location → Found → Except ProjectError (List Document) → Prop where
  | fails {visited : List Location} {child : Found} {e : ProjectError} :
      parent? files boundary following visited child = .error e →
      Ascends files boundary following visited child (.error e)
  | stops {visited : List Location} {child : Found} :
      parent? files boundary following visited child = .ok none →
      Ascends files boundary following visited child (.ok [])
  | goesOn {visited : List Location} {child parent : Found}
      {above : Except ProjectError (List Document)} :
      parent? files boundary following visited child = .ok (some parent) →
      Ascends files boundary following (parent.location :: visited) parent above →
      Ascends files boundary following visited child (above.map (parent.document :: ·))

theorem ancestors_succ (bound : ℕ) : ancestors files boundary following (bound + 1) visited child =
    match parent? files boundary following visited child with
    | .error e => .error e
    | .ok none => .ok []
    | .ok (some parent) => (ancestors files boundary following bound (parent.location :: visited)
        parent).map (parent.document :: ·) := by
  rw [ancestors]
  cases parent? files boundary following visited child with
  | error e => rfl
  | ok found =>
    cases found with
    | none => rfl
    | some parent =>
      simp only [bind, Except.bind]
      cases ancestors files boundary following bound (parent.location :: visited) parent <;> rfl

/-- Where there are steps for all files that have not been visited, the climb ends before they are
    used up. -/
theorem ascends_ancestors {bound : ℕ} (hbound : files.files.length < bound + visited.length)
    (hvisited : visited ⊆ files.files) (hnodup : visited.Nodup) (hl : child.location.Proper) :
    Ascends files boundary following visited child
      (ancestors files boundary following bound visited child) := by
  induction bound generalizing visited child with
  | zero =>
    have hlength := (List.subperm_of_subset hnodup hvisited).length_le
    omega
  | succ bound ih =>
    rw [ancestors_succ]
    cases hparent : parent? files boundary following visited child with
    | error e => exact .fails hparent
    | ok found =>
      cases found with
      | none => exact .stops hparent
      | some parent =>
        have hfound := isParent_of_parent? hl hparent
        obtain ⟨bytes, hfile, -⟩ := hfound.isLoaded
        refine .goesOn hparent (ih ?_ ?_ (hnodup.cons hfound.fresh) hfound.proper)
        · rw [List.length_cons]
          omega
        · exact List.cons_subset.mpr ⟨FileTree.mem_files_of_file? hfile, hvisited⟩

/-- Documents that are found one after another, from the target on. -/
structure Climb (files : FileTree) (limit : Location) (target : Found) (above : List Found) :
    Prop where
  isLoaded : ∀ f ∈ target :: above, f.IsLoaded files
  leadsTo : List.IsChain (Found.LeadsTo files) (target :: above)
  inside : ∀ f ∈ above, limit <+: f.location
  distinct : ((target :: above).map (·.location)).Nodup

theorem Climb.nil (h : child.IsLoaded files) : Climb files limit child [] :=
  ⟨by simpa using h, .singleton _, by simp, by simp⟩

/-- A climb that begins with the parent of a document continues one from the document itself. -/
theorem Climb.cons {above : List Found} (hchild : child.IsLoaded files)
    (hvisited : child.location ∈ visited) (hparent : IsParent files limit visited child parent)
    (h : Climb files limit parent above)
    (hfresh : ∀ f ∈ above, f.location ∉ parent.location :: visited) :
    Climb files limit child (parent :: above) ∧ ∀ f ∈ parent :: above, f.location ∉ visited := by
  have hnew : ∀ f ∈ parent :: above, f.location ∉ visited :=
    List.forall_mem_cons.mpr ⟨hparent.fresh, fun f hf hmem =>
      hfresh f hf (List.mem_cons_of_mem _ hmem)⟩
  refine ⟨⟨?_, ?_, ?_, ?_⟩, hnew⟩
  · exact List.forall_mem_cons.mpr ⟨hchild, h.isLoaded⟩
  · exact List.isChain_cons_cons.mpr ⟨hparent.leadsTo, h.leadsTo⟩
  · exact List.forall_mem_cons.mpr ⟨hparent.inside, h.inside⟩
  · refine List.nodup_cons.mpr ⟨fun hmem => ?_, h.distinct⟩
    obtain ⟨f, hf, heq⟩ := List.mem_map.mp hmem
    exact hnew f hf (heq ▸ hvisited)

theorem climb_of_ascends {result : Except ProjectError (List Document)}
    (h : Ascends files boundary following visited child result) (hchild : child.IsLoaded files)
    (hl : child.location.Proper) (hvisited : child.location ∈ visited) {ds : List Document}
    (hresult : result = .ok ds) :
    ∃ above, ds = above.map (·.document) ∧ Climb files boundary child above ∧
      ∀ f ∈ above, f.location ∉ visited := by
  induction h generalizing ds with
  | fails _ => cases hresult
  | stops _ =>
    cases hresult
    exact ⟨[], rfl, .nil hchild, by simp⟩
  | @goesOn visited child parent result hparent _ ih =>
    have hfound := isParent_of_parent? hl hparent
    cases hrest : result with
    | error e => rw [hrest] at hresult; cases hresult
    | ok ds' =>
      rw [hrest] at hresult
      cases hresult
      obtain ⟨above, rfl, hclimb, hfresh⟩ :=
        ih hfound.isLoaded hfound.proper (List.mem_cons_self ..) hrest
      exact ⟨parent :: above, rfl, hclimb.cons hchild hvisited hfound hfresh⟩

/-! ## From a path and a boundary -/

theorem canonical_eq_ok {path : String} {l : Location} :
    canonical files path = .ok l ↔ files.locate path = .ok l := by
  rw [canonical]
  cases files.locate path <;> simp [Except.mapError]

/-- What a climb begins with: the locations that the boundary and the path lead to, and the document
    that is loaded from the second. -/
structure Start (files : FileTree) (path boundary : String) (limit : Location) (target : Found) :
    Prop where
  boundary : files.locate boundary = .ok limit
  path : files.locate path = .ok target.location
  load : Document.load files target.location.path = .ok target.document

theorem start_eq_ok {path boundary : String} :
    start files path boundary = .ok (limit, target) ↔ Start files path boundary limit target := by
  constructor
  · intro h
    rw [start] at h
    obtain ⟨limit', hlimit, h⟩ := bind_eq_ok.mp h
    obtain ⟨l, hl, h⟩ := bind_eq_ok.mp h
    obtain ⟨d, hd, h⟩ := bind_eq_ok.mp h
    cases h
    exact ⟨canonical_eq_ok.mp hlimit, canonical_eq_ok.mp hl, hd⟩
  · intro h
    rw [start, canonical_eq_ok.mpr h.boundary, canonical_eq_ok.mpr h.path]
    simp [bind, Except.bind, h.load, pure, Except.pure]

theorem Start.proper {path boundary : String} (h : Start files path boundary limit target)
    (hstart : files.workingDirectory.Proper) : target.location.Proper :=
  FileTree.proper_of_locate hstart h.path

theorem Start.isLoaded {path boundary : String} (h : Start files path boundary limit target)
    (hstart : files.workingDirectory.Proper) : target.IsLoaded files :=
  Found.isLoaded_of_load (h.proper hstart) h.load

/-- The climb ends before its bound is reached. -/
theorem Start.ascends {path boundary : String} (h : Start files path boundary limit target)
    (hstart : files.workingDirectory.Proper) (following : Following) :
    Ascends files limit following [target.location] target
      (ancestorsOf files limit following target) := by
  obtain ⟨bytes, hfile, -⟩ := h.isLoaded hstart
  refine ascends_ancestors ?_ ?_ (List.nodup_singleton _) (h.proper hstart)
  · simp
  · exact List.cons_subset.mpr ⟨FileTree.mem_files_of_file? hfile, List.nil_subset _⟩

/-- The documents that are found are those of a climb. -/
theorem Start.climb {path boundary : String} (h : Start files path boundary limit target)
    (hstart : files.workingDirectory.Proper) {ds : List Document}
    (hds : ancestorsOf files limit following target = .ok ds) :
    ∃ above, ds = above.map (·.document) ∧ Climb files limit target above := by
  obtain ⟨above, hdocuments, hclimb, -⟩ := climb_of_ascends (h.ascends hstart following)
    (h.isLoaded hstart) (h.proper hstart) (List.mem_singleton_self _) hds
  exact ⟨above, hdocuments, hclimb⟩

theorem findByPath_eq_ok {path boundary : String} {lineage : Lineage} :
    findByPath files path boundary = .ok lineage ↔ ∃ limit target,
      start files path boundary = .ok (limit, target) ∧ lineage.target = target.document ∧
      ancestorsOf files limit .byPath target = .ok lineage.ancestors := by
  rw [findByPath, bind_eq_ok]
  constructor
  · rintro ⟨⟨limit, target⟩, hfirst, h⟩
    obtain ⟨above, habove, h⟩ := bind_eq_ok.mp h
    cases h
    exact ⟨limit, target, hfirst, rfl, habove⟩
  · rintro ⟨limit, target, hfirst, htarget, habove⟩
    refine ⟨_, hfirst, bind_eq_ok.mpr ⟨_, habove, ?_⟩⟩
    rw [← htarget]
    rfl

theorem find_eq_ok {path boundary : String} {lineage : Lineage} :
    find files path boundary = .ok lineage ↔ ∃ limit target,
      start files path boundary = .ok (limit, target) ∧ lineage.target = target.document ∧
      (ancestorsOf files limit .byCoordinates target = .ok lineage.ancestors ∨
        (∃ e, ancestorsOf files limit .byCoordinates target = .error e) ∧
          ancestorsOf files limit .byPath target = .ok lineage.ancestors) := by
  rw [find, bind_eq_ok]
  constructor
  · rintro ⟨⟨limit, target⟩, hfirst, h⟩
    refine ⟨limit, target, hfirst, ?_⟩
    cases habove : ancestorsOf files limit .byCoordinates target with
    | ok above =>
      simp only [habove] at h
      cases h
      exact ⟨rfl, .inl rfl⟩
    | error e =>
      simp only [habove] at h
      obtain ⟨above, habove', h⟩ := bind_eq_ok.mp h
      cases h
      exact ⟨rfl, .inr ⟨⟨e, rfl⟩, habove'⟩⟩
  · rintro ⟨limit, target, hfirst, htarget, habove | ⟨⟨e, he⟩, habove⟩⟩
    · refine ⟨_, hfirst, ?_⟩
      simp only [habove, ← htarget]
      rfl
    · refine ⟨_, hfirst, ?_⟩
      simp only [he]
      refine bind_eq_ok.mpr ⟨_, habove, ?_⟩
      rw [← htarget]
      rfl

/-- Every climb ends before its bound is reached. What a search finds is the target and, one after
    another, files inside the boundary, no two of them the same, each where the parent reference of
    the one before leads by a relative path. -/
theorem climb_of_find (hstart : files.workingDirectory.Proper) (path boundary : String) :
    (∀ limit target following, start files path boundary = .ok (limit, target) →
      Ascends files limit following [target.location] target
        (ancestorsOf files limit following target)) ∧
    ∀ lineage, find files path boundary = .ok lineage ∨
        findByPath files path boundary = .ok lineage →
      ∃ limit l above, files.locate boundary = .ok limit ∧ files.locate path = .ok l ∧
        lineage.ancestors = above.map (·.document) ∧
        Climb files limit ⟨l, lineage.target⟩ above := by
  refine ⟨fun limit target following h => (start_eq_ok.mp h).ascends hstart following, ?_⟩
  intro lineage hfound
  obtain ⟨limit, target, following, hfirst, htarget, habove⟩ : ∃ limit target following,
      start files path boundary = .ok (limit, target) ∧ lineage.target = target.document ∧
      ancestorsOf files limit following target = .ok lineage.ancestors := by
    rcases hfound with hfound | hfound
    · obtain ⟨limit, target, hfirst, htarget, habove | ⟨-, habove⟩⟩ := find_eq_ok.mp hfound
      · exact ⟨limit, target, _, hfirst, htarget, habove⟩
      · exact ⟨limit, target, _, hfirst, htarget, habove⟩
    · obtain ⟨limit, target, hfirst, htarget, habove⟩ := findByPath_eq_ok.mp hfound
      exact ⟨limit, target, _, hfirst, htarget, habove⟩
  have h := start_eq_ok.mp hfirst
  obtain ⟨above, hdocuments, hclimb⟩ := h.climb hstart habove
  refine ⟨limit, target.location, above, h.boundary, h.path, hdocuments, ?_⟩
  rw [htarget]
  exact hclimb

/-- A module in a module. The inner one gives the directory of its parent, and that one gives no
    path. -/
def nested : FileTree :=
  ⟨⟨[(["p"], .directory), (["p", "m"], .directory), (["p", "m", "c"], .directory),
    (["p", "pom.xml"], .file (Utf8.encode "<project/>".toList)),
    (["p", "m", "pom.xml"], .file (Utf8.encode "<project><parent/></project>".toList)),
    (["p", "m", "c", "pom.xml"], .file (Utf8.encode
      "<project><parent><relativePath>..</relativePath></parent></project>".toList))]⟩, ["p"]⟩

theorem climb_of_find_nested :
    Location.Proper nested.workingDirectory ∧
    ∃ lineage, findByPath nested "m/c/pom.xml" "/p" = .ok lineage ∧
      lineage.ancestors.length = 2 ∧
      ∃ limit l above, nested.locate "/p" = .ok limit ∧ nested.locate "m/c/pom.xml" = .ok l ∧
        lineage.ancestors = above.map (·.document) ∧
        Climb nested limit ⟨l, lineage.target⟩ above := by
  have hstart : Location.Proper nested.workingDirectory := fun name hname =>
    List.mem_singleton.mp hname ▸ ⟨by decide, by decide, by decide, by decide⟩
  have hlength : (findByPath nested "m/c/pom.xml" "/p").toOption.map (·.ancestors.length) =
      some 2 := by decide +kernel
  refine ⟨hstart, ?_⟩
  cases hfound : findByPath nested "m/c/pom.xml" "/p" with
  | error e =>
    rw [hfound] at hlength
    cases hlength
  | ok lineage =>
    rw [hfound] at hlength
    exact ⟨lineage, rfl, Option.some.inj hlength,
      (climb_of_find hstart _ _).2 lineage (.inr hfound)⟩

end Ancestry

end MavenPom
