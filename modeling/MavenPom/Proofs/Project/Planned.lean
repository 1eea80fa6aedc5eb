import MavenPom.Proofs.Pom.Lineage
import MavenPom.Proofs.Project.Modify

/-!
# What is planned

What the POMs of a project list, declare and name once a request has been carried out, against what
they did before. Documents that are read again from its results declare what has been planned for
them, if they carry the content that has been written and both readings of it agree.
-/

namespace MavenPom

open VersionSlot EffectiveModel

/-! ## Changes of a POM -/

namespace Pom

theorem activeProperties_withEntries (p : Pom) (c : Container) (es : List DeclaredDependency)
    (s : ProfileSelection) : (p.withEntries c es).activeProperties s = p.activeProperties s := by
  cases c <;> rfl

theorem names_withEntries (p : Pom) (c : Container) (es : List DeclaredDependency) :
    names (p.withEntries c es) = names p := by
  cases c <;> rfl

theorem names_setProperty (p : Pom) (scope : PropertyScope) (name value : String) :
    names (p.setProperty scope name value) = names p := by
  cases scope <;> rfl

/-- The entries of a POM in a container, and those of its profiles in force. -/
def listing (s : ProfileSelection) (c : Container) (p : Pom) :
    List DeclaredDependency × List DeclaredDependency :=
  (p.entries c, p.profileEntries s c)

theorem listing_setProperty {p : Pom} (hids : (p.profiles.map (·.id)).Nodup)
    (scope : PropertyScope) (name value : String) (s : ProfileSelection) (c : Container) :
    (p.setProperty scope name value).listing s c = p.listing s c := by
  cases scope with
  | project => cases c <;> rfl
  | profile id =>
    have hentries : ∀ q, (setIn id name value q).entries c = q.entries c := fun q => by
      unfold setIn
      split <;> cases c <;> rfl
    have hprofile : (p.setProperty (.profile id) name value).profileEntries s c =
        p.profileEntries s c := by
      rw [profileEntries, activeProfiles_setProperty hids, List.flatMap_map, profileEntries]
      simp only [hentries]
    rw [listing, hprofile]
    cases c <;> rfl

theorem listing_withEntries (p : Pom) (c : Container) (es : List DeclaredDependency)
    (s : ProfileSelection) : (p.withEntries c es).listing s c = (es, p.profileEntries s c) := by
  cases c <;> rfl

theorem listing_withEntries_of_ne (p : Pom) {c c' : Container} (h : c' ≠ c)
    (es : List DeclaredDependency) (s : ProfileSelection) :
    (p.withEntries c es).listing s c' = p.listing s c' := by
  cases c <;> cases c' <;> first | exact absurd rfl h | rfl

end Pom

theorem map_modify {α β : Type} {f : α → α} {g : α → β} {h : β → β} {l : List α} {index : Nat}
    (hcomm : ∀ a, l[index]? = some a → g (f a) = h (g a)) :
    (l.modify index f).map g = (l.map g).modify index h := by
  refine List.ext_getElem? fun i => ?_
  rw [List.getElem?_map, List.getElem?_modify, List.getElem?_modify, List.getElem?_map]
  by_cases heq : index = i
  · subst heq
    cases hi : l[index]? with
    | none => simp
    | some a => simp [hcomm a hi]
  · simp [heq]

theorem map_modify_eq {α β : Type} {f : α → α} {g : α → β} {l : List α} {index : Nat}
    (h : ∀ a, l[index]? = some a → g (f a) = g a) : (l.modify index f).map g = l.map g := by
  rw [map_modify (h := id) h, List.modify_id]

theorem listed_congr {s : ProfileSelection} {c : Container} {props : Properties}
    {poms poms' : List Pom} (h : poms'.map (Pom.listing s c) = poms.map (Pom.listing s c)) :
    listed s c props poms'.reverse = listed s c props poms.reverse := by
  have hsplit : ∀ l : List Pom, listed s c props l.reverse =
      ((l.map (Pom.listing s c)).reverse.flatMap fun x => x.1 ++ x.2).map
        (·.interpolated props) := fun l => by
    rw [listed, ← List.map_reverse, List.flatMap_map]
    rfl
  rw [hsplit, hsplit, h]

namespace Project

variable {p : Project} {d : Dependency} {v : String} {s : ProfileSelection} {c : Container}

/-- The POMs with the target's reference to a dependency, if there is to be one. -/
def referred (p : Project) (d : Dependency) : List Pom :=
  if (p.site d).refers then p.poms.modify 0 (·.refer d) else p.poms

/-- The text that stands for the version afterwards: the one that is left in place, or the one that
    is written. -/
def finalText (p : Project) (d : Dependency) (v : String) : String :=
  let site := p.site d
  if p.leaves site.index site.container d v then
    (p.slotText? site.index site.container d.key).getD ""
  else p.versionText site.index site.container d v

/-- The documents' profiles can be told apart by their ids, where properties are written. -/
def DistinctProfiles (p : Project) : Prop :=
  ∀ pom ∈ p.poms, (pom.profiles.map (·.id)).Nodup

section Listing

variable (hids : p.request.useProperties = true → p.DistinctProfiles)

include hids

theorem listing_declaring (index : Nat) (c c' : Container) (s : ProfileSelection) :
    (p.declaring index c d v).map (Pom.listing s c') = p.poms.map (Pom.listing s c') := by
  rw [declaring]
  split
  · next hprops =>
    exact map_modify_eq fun pom hpom =>
      Pom.listing_setProperty (hids hprops pom (List.mem_of_getElem? hpom)) ..
  · rfl

/-- Once a version has been written, its entry is brought in where it has been written. -/
theorem listing_written {index : Nat} (hleaves : p.leaves index c d v = false)
    (s : ProfileSelection) :
    (p.written index c d v).map (Pom.listing s c) =
      (p.poms.modify index (·.bring c d (p.versionText index c d v))).map (Pom.listing s c) := by
  have hbring : ∀ pom : Pom, (pom.bring c d (p.versionText index c d v)).listing s c =
      (bringEntry d (p.versionText index c d v) (pom.listing s c).1, (pom.listing s c).2) :=
    fun pom => Pom.listing_withEntries ..
  rw [written, if_neg (by simp [hleaves]),
    map_modify (h := fun x => (bringEntry d (p.versionText index c d v) x.1, x.2))
      fun pom _ => hbring pom,
    map_modify (h := fun x => (bringEntry d (p.versionText index c d v) x.1, x.2))
      fun pom _ => hbring pom, listing_declaring hids]

/-- The other container lists what it did. -/
theorem listing_written_of_ne {c' : Container} (h : c' ≠ c) (index : Nat) (s : ProfileSelection) :
    (p.written index c d v).map (Pom.listing s c') = p.poms.map (Pom.listing s c') := by
  rw [written]
  split
  · rfl
  · rw [← listing_declaring (v := v) hids index c c' s]
    exact map_modify_eq fun pom _ => Pom.listing_withEntries_of_ne pom h _ s

end Listing

theorem listing_refer (poms : List Pom) (index : Nat) (d : Dependency) (s : ProfileSelection) :
    (poms.modify index (·.refer d)).map (Pom.listing s .managed) =
      poms.map (Pom.listing s .managed) :=
  map_modify_eq fun pom _ => Pom.listing_withEntries_of_ne pom (by simp) _ s

/-- The version that stands in a place is the one of the first entry there, unless it is empty. -/
theorem find?_of_slotText? (hp : p.Pristine) {index : Nat} {text : String}
    (htext : p.slotText? index c d.key = some text) :
    ∃ pom x, p.poms[index]? = some pom ∧
      (pom.entries c).find? (·.key? = some d.key) = some x ∧
      x.version = if text.isEmpty then none else some text := by
  obtain ⟨doc, e, hdoc, he, htext⟩ := lookup?_eq_some htext
  have hshows := hp doc (mem_documents_of_document? hdoc)
  obtain ⟨e', he', -, hsingle, hpom⟩ := hshows.editor?
  obtain rfl := Option.some.inj (he.symm.trans he')
  obtain ⟨x, hx, hversion⟩ := Editor.find?_entries_of_slotText? (hsingle c) htext
  rw [hpom] at hx
  refine ⟨doc.pom, x, ?_, hx, hversion⟩
  rw [poms, List.getElem?_map, show p.documents[index]? = some doc from hdoc]
  rfl

theorem keeps_empty (p : Project) (v : String) : keeps p "" v = false := by
  have hparse : Version.parse? (interpolate p.properties "") = none := by
    rw [interpolate_of_not_hasReference (by simp [Interpolation.hasReference,
      Interpolation.pieces])]
    decide
  rw [keeps, Version.isNewer?, hparse]
  cases Version.parse? v <;> simp

theorem bringEntry_self {text : String} {es : List DeclaredDependency} {x : DeclaredDependency}
    (h : es.find? (·.key? = some d.key) = some x) (hversion : x.version = some text) :
    bringEntry d text es = es := by
  induction es with
  | nil => cases h
  | cons y es ih =>
    by_cases hy : y.key? = some d.key
    · obtain rfl : y = x := by simpa [hy] using h
      rw [bringEntry, if_pos hy, ← hversion]
    · rw [bringEntry, if_neg hy, ih (by rwa [List.find?_cons_of_neg (by simpa using hy)] at h)]

/-- A version that is left in place is the one that its entry has. -/
theorem bring_of_leaves (hp : p.Pristine) {index : Nat} (hleaves : p.leaves index c d v = true) :
    p.poms.modify index (·.bring c d ((p.slotText? index c d.key).getD "")) = p.poms := by
  rw [leaves, Option.any_eq_true_iff_get] at hleaves
  obtain ⟨hsome, hkeeps⟩ := hleaves
  obtain ⟨text, htext⟩ := Option.isSome_iff_exists.mp hsome
  obtain ⟨pom, x, hpom, hx, hversion⟩ := find?_of_slotText? hp htext
  simp only [htext, Option.get_some] at hkeeps
  have hempty : text.isEmpty = false := by
    refine Bool.eq_false_iff.mpr fun hempty => ?_
    rw [String.isEmpty_iff.mp hempty, keeps_empty] at hkeeps
    cases hkeeps
  rw [hempty, if_neg (by simp)] at hversion
  have hbring : pom.bring c d text = pom := by
    rw [Pom.bring, bringEntry_self hx hversion, Pom.withEntries_entries]
  refine List.ext_getElem? fun i => ?_
  rw [List.getElem?_modify, htext, Option.getD_some]
  split
  · next hi =>
    subst hi
    rw [hpom]
    exact congrArg some hbring
  · simp

/-- What the documents list in the container that the version is written in. -/
theorem listing_planned (hp : p.Pristine)
    (hids : p.request.useProperties = true → p.DistinctProfiles) (s : ProfileSelection) :
    (p.planned d v).map (Pom.listing s (p.site d).container) =
      (p.poms.modify (p.site d).index (·.bring (p.site d).container d (p.finalText d v))).map
        (Pom.listing s (p.site d).container) := by
  have hwritten : (p.written (p.site d).index (p.site d).container d v).map
      (Pom.listing s (p.site d).container) =
      (p.poms.modify (p.site d).index (·.bring (p.site d).container d (p.finalText d v))).map
        (Pom.listing s (p.site d).container) := by
    rw [finalText]
    cases hleaves : p.leaves (p.site d).index (p.site d).container d v with
    | true => rw [if_pos rfl, bring_of_leaves hp hleaves, written, if_pos hleaves]
    | false => rw [if_neg (by simp), listing_written hids hleaves]
  rw [planned]
  split
  · next hrefers =>
    rw [← hwritten, container_of_refers hrefers]
    exact listing_refer _ 0 d s
  · exact hwritten

/-- What the documents list in the other container. -/
theorem listing_planned_of_ne (hids : p.request.useProperties = true → p.DistinctProfiles)
    (s : ProfileSelection) (hc : c ≠ (p.site d).container) :
    (p.planned d v).map (Pom.listing s c) = (p.referred d).map (Pom.listing s c) := by
  have hwritten := listing_written_of_ne (d := d) (v := v) hids hc (p.site d).index s
  rw [planned, referred]
  split
  · next hrefers =>
    obtain rfl : c = .dependencies := by
      rw [container_of_refers hrefers] at hc
      cases c <;> first | rfl | exact absurd rfl hc
    have hrefer : ∀ pom : Pom, (pom.refer d).listing s .dependencies =
        (referEntry d (pom.listing s .dependencies).1, (pom.listing s .dependencies).2) :=
      fun pom => Pom.listing_withEntries ..
    rw [map_modify (h := fun x => (referEntry d x.1, x.2)) fun pom _ => hrefer pom,
      map_modify (h := fun x => (referEntry d x.1, x.2)) fun pom _ => hrefer pom, hwritten]
  · exact hwritten

end Project

/-! ## Reading results again -/

namespace Document

/-- A document as it has been read: both readings of it agree, and it has no container of entries
twice. -/
structure Fresh (d : Document) : Prop where
  read : ∃ bytes source, ofBytes bytes source = .ok d
  readAlike : d.ReadAlike
  unrepeated : d.tree.Unrepeated

/-- `r` is what is read again from the result of `d`: the content that `d` has been edited to, with
both readings of it agreeing. -/
structure Reloaded (d r : Document) : Prop where
  read : ∃ bytes, d.result = some bytes ∧ ofBytes bytes d.source = .ok r
  sameContent : d.edited.sameContent r.tree = true
  readAlike : r.ReadAlike

variable {d r : Document} {p : Pom}

theorem Fresh.shows (h : d.Fresh) : d.Shows d.pom := by
  obtain ⟨bytes, source, hread⟩ := h.read
  obtain ⟨-, -, hedited, hwf, -⟩ := facts_of_ofBytes hread
  exact ⟨hedited ▸ hwf, hedited ▸ h.unrepeated, hedited ▸ h.readAlike⟩

theorem Reloaded.pom_eq (h : d.Reloaded r) (hd : d.Shows p) : r.pom = p := by
  have hsame := Markup.Tree.shownPom?_of_sameContent h.sameContent
  exact Option.some.inj (h.readAlike.symm.trans (hsame.symm.trans hd.shownPom?))

theorem distinctNames_of_ofBytes {bytes : Bytes} {source : DocumentSource}
    (h : ofBytes bytes source = .ok d) : d.pom.DistinctNames := by
  simp only [ofBytes, bind, Except.bind] at h
  split at h
  · cases h
  split at h
  · cases h
  split at h
  · cases h
  split at h
  · cases h
  next pom hpom =>
  cases h
  unfold Pom.parse at hpom
  split at hpom
  · cases hpom
    exact Pom.distinctNames_ofNode _
  · cases hpom

end Document

/-- `d` at version `v` is a dependency that has been read from a coordinate. -/
structure Dependency.Requested (d : Dependency) (v : String) : Prop where
  coordinate : ∃ text, Dependency.parse text = .ok d
  version : d.version = some v

theorem Dependency.Requested.trimmed {d : Dependency} {v : String} (h : d.Requested v) :
    d.Proper ∧ Text.IsTrimmed v := by
  obtain ⟨text, hparse⟩ := h.coordinate
  have hproper := Dependency.proper_of_parse hparse
  exact ⟨hproper, hproper.version v h.version⟩

namespace Project

variable {p p' q : Project} {d : Dependency} {v : String}

/-- `q` is what becomes of `p` by bringing in `d` at version `v`: the project read as it was, the
request carried out, and all results read again for the same request. -/
structure Brings (p : Project) (d : Dependency) (v : String) (q : Project) : Prop where
  fresh : ∀ doc ∈ p.documents, doc.Fresh
  requested : d.Requested v
  dependency : p.request.dependency = some d
  mutation : p.request.isMutation = true
  run : ∃ handled p', Action.Runs Project.modify p handled p' ∧
    List.Forall₂ Document.Reloaded p'.documents q.documents
  request : q.request = p.request

theorem Brings.pristine (h : p.Brings d v q) : p.Pristine := fun doc hdoc =>
  (h.fresh doc hdoc).shows

/-- Read again, the documents declare what has been planned. -/
theorem Brings.poms_eq (h : p.Brings d v q) (hname : p.request.useProperties = true →
    p.Declarable (p.versionProperty (p.site d).index (p.site d).container d)) :
    q.poms = p.planned d v ∧ p.MayWrite (p.site d).index (p.site d).container d v := by
  obtain ⟨handled, p', hruns, hreloaded⟩ := h.run
  obtain ⟨hproper, htrimmed⟩ := h.requested.trimmed
  obtain ⟨-, hcarried⟩ := carriedOut_modify ⟨h.pristine, hproper, htrimmed, hname⟩ h.dependency
    h.requested.version hruns
  refine ⟨?_, hcarried.mayWrite⟩
  have hpoms : ∀ {ds rs : List Document} {shown : List Pom},
      List.Forall₂ Document.Reloaded ds rs → List.Forall₂ Document.Shows ds shown →
      rs.map (·.pom) = shown := by
    intro ds rs shown hds
    induction hds generalizing shown with
    | nil =>
      intro hshown
      cases hshown
      rfl
    | cons hd _ ih =>
      intro hshown
      cases hshown with
      | cons hfirst hrest => rw [List.map_cons, hd.pom_eq hfirst, ih hrest]
  exact hpoms hreloaded hcarried.became.shows

end Project

end MavenPom
