import MavenPom.Proofs.Edit.Step
import MavenPom.Proofs.Project.Edits

/-!
# Writing a version

A version is written where a document has its entry, as a text or through a property. Either way,
the documents show the entry brought in and the property set, and nothing else is changed.
-/

namespace MavenPom

open MavenPom.Action VersionSlot

namespace VersionSlot

theorem toList_reference (name : String) :
    (reference name).toList = '$' :: '\x7b' :: name.toList ++ ['\x7d'] := by
  simp [reference, String.toList_append]

theorem isTrimmed_reference (name : String) : Text.IsTrimmed (reference name) := by
  refine ⟨?_, fun hempty => ?_⟩
  · have hfront : Text.isBlank '$' = false := by decide
    have hback : Text.isBlank '\x7d' = false := by decide
    rw [Text.trim, toList_reference, Text.trimChars, List.cons_append,
      List.dropWhile_cons_of_neg (by simp [hfront]), Text.dropEndWhile]
    simp only [List.reverse_cons, List.reverse_append, List.reverse_nil, List.nil_append,
      List.cons_append]
    rw [List.dropWhile_cons_of_neg (by simp [hback])]
    apply String.toList_injective
    rw [toList_reference, String.toList_ofList]
    simp
  · have hlist := toList_reference name
    rw [hempty] at hlist
    simp at hlist

theorem propertyToWrite_empty (artifactId : String) :
    propertyToWrite "" artifactId = propertyFor artifactId := by
  rfl

end VersionSlot

namespace Pom

/-- The POM with an entry for a dependency brought to a version. -/
def bring (c : Container) (d : Dependency) (version : String) (p : Pom) : Pom :=
  p.withEntries c (bringEntry d version (p.entries c))

/-- The POM with an entry that refers to a dependency. -/
def refer (d : Dependency) (p : Pom) : Pom :=
  p.withEntries .dependencies (referEntry d (p.entries .dependencies))

end Pom

namespace Project

variable {p p' : Project} {index owner : Nat} {c : Container} {d : Dependency}
  {name value v : String} {u : Unit}

/-- The documents show what they declare, as they do before they are edited. -/
def Pristine (p : Project) : Prop := ∀ d ∈ p.documents, d.Shows d.pom

/-- The text of the version element that the document at a place has for an artifact. -/
def slotText? (p : Project) (index : Nat) (c : Container) (key : ArtifactKey) : Option String :=
  Insertion.lookup? p index (·.slotText? c key)

/-- The block that a property is written in: where it is declared, or else the project's of the
document at `owner`. -/
def propertySite (p : Project) (owner : Nat) (name : String) : Nat × PropertyScope :=
  ((declaration? p owner name).map fun found => (found.index, found.scope)).getD (owner, .project)

/-- The guard of shared properties lets a property have a value. -/
def MayDeclare (p : Project) (owner : Nat) (name value : String) : Prop :=
  ∀ found ∈ declaration? p owner name,
    found.value = value ∨ p.request.overrideExisting = true ∨ uses p name ≤ 1

/-- A property can be declared, and is found again where it is declared. -/
structure Declarable (p : Project) (name : String) : Prop where
  colon : ':' ∉ name.toList
  once : ∀ d ∈ p.documents, d.edited.DeclaresOnce name
  named : ∀ pom ∈ p.poms, ∀ q ∈ pom.profiles, q.id ≠ ""
  distinct : ∀ pom ∈ p.poms, (pom.profiles.map (·.id)).Nodup

theorem scopeOf_named (h : p.Declarable name) {d : Document} (hd : d ∈ p.documents)
    (s : ProfileSelection) : ∀ id, scopeOf s d.pom name = .profile id → id ≠ "" := by
  intro id hid
  unfold scopeOf at hid
  split at hid
  · next q hq =>
    cases hid
    have hmem := List.mem_of_getLast? hq
    exact h.named d.pom (List.mem_map_of_mem hd) q
      (List.mem_of_mem_filter (List.mem_of_mem_filter hmem))
  · cases hid

/-- The project with a property given a value in the block that it is written in. -/
def withProperty (p : Project) (owner : Nat) (name value : String) : Project :=
  p.edit (p.propertySite owner name).1 (·.setProperty (p.propertySite owner name).2 name value)

/-- A property is written, unless the guard of shared properties keeps it from having the value. -/
theorem runs_writeProperty : Runs (writeProperty owner name value) p u p' ↔
    p.MayDeclare owner name value ∧ p' = p.withProperty owner name value := by
  unfold writeProperty MayDeclare withProperty propertySite
  simp only [runs_get_bind]
  cases hfound : declaration? p owner name with
  | none =>
    simp only [runs_pure_bind, runs_modify]
    exact ⟨fun h => ⟨by simp, h⟩, fun h => h.2⟩
  | some found =>
    dsimp only
    split
    · next hguard =>
      obtain ⟨hvalue, hoverride, huses⟩ := hguard
      refine ⟨fun h => ?_, fun ⟨hmay, _⟩ => ?_⟩
      · simp only [runs_bind] at h
        obtain ⟨_, _, hthrow, -⟩ := h
        exact absurd hthrow not_runs_throw
      · rcases hmay found rfl with heq | htrue | hle
        · exact absurd heq hvalue
        · exact absurd htrue hoverride
        · exact absurd hle (Nat.not_le_of_lt huses)
    · next hguard =>
      simp only [runs_pure_bind, runs_modify]
      refine ⟨fun h => ⟨?_, h⟩, fun h => h.2⟩
      rintro _ ⟨rfl⟩
      by_contra hnot
      obtain ⟨hvalue, hoverride, huses⟩ : found.value ≠ value ∧
          ¬p.request.overrideExisting = true ∧ ¬uses p name ≤ 1 := by
        simpa only [not_or] using hnot
      exact hguard ⟨hvalue, hoverride, Nat.lt_of_not_le huses⟩

theorem declarationIn?_eq_some {found : Declaration}
    (h : declarationIn? p name index = some found) :
    ∃ d e, p.document? index = some d ∧ d.editor? = some e ∧ found.index = index ∧
      found.scope = scopeOf p.request.selection d.pom name ∧
      e.property? found.scope name = some found.value := by
  obtain ⟨d, hd, h⟩ := Option.bind_eq_some_iff.mp h
  obtain ⟨value, hvalue, rfl⟩ := Option.map_eq_some_iff.mp h
  obtain ⟨e, he, hvalue⟩ := Option.bind_eq_some_iff.mp hvalue
  exact ⟨d, e, hd, he, rfl, rfl, hvalue⟩

theorem mem_documents_of_document? {d : Document} (h : p.document? index = some d) :
    d ∈ p.documents :=
  List.mem_of_getElem? h

/-- A property is written in the project's block, or in that of a profile with an id. -/
theorem propertySite_named (h : p.Declarable name) (owner : Nat) :
    ∀ id, (p.propertySite owner name).2 = .profile id → id ≠ "" := by
  intro id hid
  unfold propertySite at hid
  cases hfound : declaration? p owner name with
  | none =>
    rw [hfound] at hid
    cases hid
  | some found =>
    rw [hfound] at hid
    obtain ⟨index, -, hin⟩ := List.exists_of_findSome?_eq_some hfound
    obtain ⟨d, -, hd, -, -, hscope, -⟩ := declarationIn?_eq_some hin
    exact scopeOf_named h (mem_documents_of_document? hd) _ id (hscope.symm.trans hid)

/-- The document that a property is set in shows it, and its entries are where they were. -/
theorem editor_setProperty (hname : p.Declarable name) (hvalue : Text.trim value = value)
    {scope : PropertyScope} (hscope : ∀ id, scope = .profile id → id ≠ "") {doc : Document}
    (hdoc : p.document? index = some doc) {e : Editor} (he : doc.editor? = some e)
    (hsound : e.Sound) (hsingle : e.Unrepeated) :
    e.Became (e.setProperty scope name value) (e.pom.setProperty scope name value) ∧
      Markup.Tree.ChangedUnder e.tree (e.setProperty scope name value).tree e.ns e.root
        scope.first := by
  refine Editor.became_setProperty hsound hsingle hname.colon hvalue ?_ hscope
  exact hname.once doc (mem_documents_of_document? hdoc) _ (Document.shownRoot?_of_editor? he)

theorem Pristine.became (h : p.Pristine) : p.Became p p.poms :=
  ⟨rfl, List.forall₂_same.mpr fun d _ => .refl d,
    List.forall₂_map_right_iff.mpr (List.forall₂_same.mpr h)⟩

/-- Writing a property shows as the property set where it is declared. -/
theorem became_withProperty (hp : p.Pristine) (hname : p.Declarable name)
    (hvalue : Text.trim value = value) (owner : Nat) :
    p.Became (p.withProperty owner name value) (p.poms.modify (p.propertySite owner name).1
      (·.setProperty (p.propertySite owner name).2 name value)) := by
  have hscope := propertySite_named hname owner
  exact hp.became.edit fun doc hdoc e he hsound hsingle =>
    (editor_setProperty hname hvalue hscope hdoc he hsound hsingle).1

/-- Writing a property, whatever its name, leaves every entry where it is. -/
theorem lookups_withProperty (hp : ∀ doc ∈ p.documents, doc.edited.WellFormed) {doc' : Document}
    (hdoc' : (p.withProperty owner name value).document? index = some doc') {e' : Editor}
    (he' : doc'.editor? = some e') :
    ∃ doc e, p.document? index = some doc ∧ doc.editor? = some e ∧
      ∀ c key, e'.findDependency? (Container.path c) key = e.findDependency? c.path key ∧
        e'.slot? c key = e.slot? c key := by
  rw [withProperty, document?_edit_eq] at hdoc'
  split at hdoc'
  · obtain ⟨doc, hdoc, rfl⟩ := Option.map_eq_some_iff.mp hdoc'
    cases he : doc.editor? with
    | none =>
      rw [Document.edit_of_none he, he] at he'
      cases he'
    | some e =>
      have hsound := Document.sound_of_editor? (hp doc (mem_documents_of_document? hdoc)) he
      have halters := Editor.alters_setProperty hsound (p.propertySite owner name).2 name value
      obtain rfl := Option.some.inj (he'.symm.trans
        (Document.editor?_edit_of_sound he halters.eq (halters.sound hsound)))
      exact ⟨doc, e, hdoc, he,
        fun c key => ⟨halters.findDependency?_eq (PropertyScope.first_ne _ c),
        halters.slot?_eq (PropertyScope.first_ne _ c)⟩⟩
  · exact ⟨doc', e', hdoc', he', fun _ _ => ⟨rfl, rfl⟩⟩

/-! ## Versions -/

/-- The property that a version is written into. -/
def versionProperty (p : Project) (index : Nat) (c : Container) (d : Dependency) : String :=
  propertyToWrite ((p.slotText? index c d.key).getD "") d.artifactId

/-- Whether the version that stands in a place is left there. -/
def leaves (p : Project) (index : Nat) (c : Container) (d : Dependency) (v : String) : Bool :=
  (p.slotText? index c d.key).any (keeps p · v)

/-- The text that is written for a version. -/
def versionText (p : Project) (index : Nat) (c : Container) (d : Dependency) (v : String) :
    String :=
  if p.request.useProperties then reference (p.versionProperty index c d) else v

/-- The project with the property for a version written, if it is to be. -/
def prepared (p : Project) (index : Nat) (c : Container) (d : Dependency) (v : String) : Project :=
  if p.request.useProperties then p.withProperty index (p.versionProperty index c d) v else p

/-- Writes a text in a place: in the version element there, or in a new one of the entry there, or
    in a new entry. -/
def place (p : Project) (index : Nat) (c : Container) (d : Dependency) (text : String) :
    Editor → Editor :=
  match Insertion.lookup? p index (·.slot? c d.key),
    Insertion.lookup? p index (·.findDependency? c.path d.key) with
  | some slot, _ => (·.setText slot text)
  | none, some entry => (·.addVersion entry text)
  | none, none => Insertion.addEntry c.path d (some text)

/-- The project with a version written in a place, unless the one that stands there is left. -/
def withVersion (p : Project) (index : Nat) (c : Container) (d : Dependency) (v : String) :
    Project :=
  if p.leaves index c d v then p
  else (p.prepared index c d v).edit index (p.place index c d (p.versionText index c d v))

/-- What the documents show once the property for a version has been written, if it is to be. -/
def declaring (p : Project) (index : Nat) (c : Container) (d : Dependency) (v : String) :
    List Pom :=
  if p.request.useProperties then
    let name := p.versionProperty index c d
    let (owner, scope) := p.propertySite index name
    p.poms.modify owner (·.setProperty scope name v)
  else p.poms

/-- What the documents show once a version has been written in a place. -/
def written (p : Project) (index : Nat) (c : Container) (d : Dependency) (v : String) :
    List Pom :=
  if p.leaves index c d v then p.poms
  else (p.declaring index c d v).modify index (·.bring c d (p.versionText index c d v))

/-- What is asked of a project and a dependency for a version to show where it is written. -/
structure Writable (p : Project) (index : Nat) (c : Container) (d : Dependency) (v : String) :
    Prop where
  pristine : p.Pristine
  proper : d.Proper
  trimmed : Text.IsTrimmed v
  declarable : p.request.useProperties = true → p.Declarable (p.versionProperty index c d)

/-- The guard of shared properties has let the version be written. -/
def MayWrite (p : Project) (index : Nat) (c : Container) (d : Dependency) (v : String) : Prop :=
  p.leaves index c d v = false → p.request.useProperties = true →
    p.MayDeclare index (p.versionProperty index c d) v

/-! ### Lookups -/

theorem lookup?_eq_some {α : Type} {look : Editor → Option α} {x : α}
    (h : Insertion.lookup? p index look = some x) :
    ∃ doc e, p.document? index = some doc ∧ doc.editor? = some e ∧ look e = some x := by
  obtain ⟨doc, hdoc, h⟩ := Option.bind_eq_some_iff.mp h
  obtain ⟨e, he, h⟩ := Option.bind_eq_some_iff.mp h
  exact ⟨doc, e, hdoc, he, h⟩

theorem lookup?_eq {α : Type} {look : Editor → Option α} {doc : Document} {e : Editor}
    (hdoc : p.document? index = some doc) (he : doc.editor? = some e) :
    Insertion.lookup? p index look = look e := by
  rw [Insertion.lookup?, hdoc, Option.bind_some, he, Option.bind_some]

theorem slotText?_isSome (p : Project) (index : Nat) (c : Container) (key : ArtifactKey) :
    (p.slotText? index c key).isSome = (Insertion.lookup? p index (·.slot? c key)).isSome := by
  rw [slotText?, Insertion.lookup?, Insertion.lookup?]
  cases p.document? index with
  | none => rfl
  | some doc =>
    rw [Option.bind_some, Option.bind_some]
    cases doc.editor? with
    | none => rfl
    | some e => rw [Option.bind_some, Option.bind_some, Editor.slotText?, Option.isSome_map]

theorem slotText?_eq_none {key : ArtifactKey}
    (h : Insertion.lookup? p index (·.slot? c key) = none) : p.slotText? index c key = none := by
  rw [← Option.isNone_iff_eq_none, ← Option.not_isSome, slotText?_isSome, h]
  rfl

/-- No version is left where none stands. -/
theorem leaves_of_lookup?_eq_none (h : Insertion.lookup? p index (·.slot? c d.key) = none)
    (v : String) : p.leaves index c d v = false := by
  rw [leaves, slotText?_eq_none h, Option.any_none]

theorem lookups_prepared (hp : ∀ doc ∈ p.documents, doc.edited.WellFormed) {other : Nat}
    {doc' : Document} (hdoc' : (p.prepared index c d v).document? other = some doc') {e' : Editor}
    (he' : doc'.editor? = some e') :
    ∃ doc e, p.document? other = some doc ∧ doc.editor? = some e ∧
      ∀ c key, e'.findDependency? (Container.path c) key = e.findDependency? c.path key ∧
        e'.slot? c key = e.slot? c key := by
  unfold prepared at hdoc'
  split at hdoc'
  · exact lookups_withProperty hp hdoc' he'
  · exact ⟨doc', e', hdoc', he', fun _ _ => ⟨rfl, rfl⟩⟩

/-- Where the entries are where they were looked up, what is written in a place is the entry brought
to its version. -/
theorem place_eq_bring {doc : Document} {e e' : Editor} (hdoc : p.document? index = some doc)
    (he : doc.editor? = some e)
    (hfind : e'.findDependency? c.path d.key = e.findDependency? c.path d.key)
    (hslot : e'.slot? c d.key = e.slot? c d.key) (text : String) :
    p.place index c d text e' = e'.bring c d text := by
  rw [place, lookup?_eq hdoc he, lookup?_eq hdoc he, ← hfind, ← hslot]
  cases hslot' : e'.slot? c d.key with
  | some slot => exact (Editor.bring_eq_setText hslot').symm
  | none =>
    cases hentry : e'.findDependency? c.path d.key with
    | some entry => exact (Editor.bring_eq_addVersion hentry).symm
    | none => exact (Editor.bring_eq_addEntry hentry).symm

/-- Writing the property has left the entries where they were, so that the version is brought in. -/
theorem place_prepared (hp : ∀ doc ∈ p.documents, doc.edited.WellFormed) {doc' : Document}
    (hdoc' : (p.prepared index c d v).document? index = some doc') {e' : Editor}
    (he' : doc'.editor? = some e') (text : String) :
    p.place index c d text e' = e'.bring c d text := by
  obtain ⟨doc, e, hdoc, he, hlook⟩ := lookups_prepared hp hdoc' he'
  exact place_eq_bring hdoc he (hlook c d.key).1 (hlook c d.key).2 text

/-! ### Steps that write a version -/

theorem runs_versionText {text : String} :
    Runs (if p.request.useProperties = true then
      writeReference index (p.versionProperty index c d) v else pure v) p text p' ↔
    (p.request.useProperties = true → p.MayDeclare index (p.versionProperty index c d) v) ∧
      text = p.versionText index c d v ∧ p' = p.prepared index c d v := by
  unfold versionText prepared
  split
  · next hprops =>
    unfold writeReference
    rw [runs_bind]
    constructor
    · rintro ⟨_, p₁, hwrite, hpure⟩
      obtain ⟨rfl, rfl⟩ := runs_pure.mp hpure
      obtain ⟨hmay, rfl⟩ := runs_writeProperty.mp hwrite
      exact ⟨fun _ => hmay, rfl, rfl⟩
    · rintro ⟨hmay, rfl, rfl⟩
      exact ⟨(), _, runs_writeProperty.mpr ⟨hmay hprops, rfl⟩, runs_pure.mpr ⟨rfl, rfl⟩⟩
  · next hprops =>
    rw [runs_pure]
    exact ⟨fun h => ⟨fun hnot => absurd hnot hprops, h⟩, fun h => h.2⟩

/-- Once the text for a version is known, it is written in its place. -/
theorem runs_placing {g : String → Editor → Editor} (hleaves : p.leaves index c d v = false)
    (hplace : p.place index c d = g) :
    Runs ((if p.request.useProperties = true then
      writeReference index (p.versionProperty index c d) v else pure v) >>=
        fun text => Insertion.editAt index (g text)) p u p' ↔
    p.MayWrite index c d v ∧ p' = p.withVersion index c d v := by
  have hwritten : p.withVersion index c d v =
      (p.prepared index c d v).edit index (g (p.versionText index c d v)) := by
    rw [withVersion, if_neg (by simp [hleaves]), hplace]
  rw [runs_bind, hwritten]
  constructor
  · rintro ⟨text, p₁, htext, hedit⟩
    obtain ⟨hmay, rfl, rfl⟩ := runs_versionText.mp htext
    exact ⟨fun _ => hmay, runs_modify.mp hedit⟩
  · rintro ⟨hmay, rfl⟩
    exact ⟨_, _, runs_versionText.mpr ⟨hmay hleaves, rfl, rfl⟩, runs_modify.mpr rfl⟩

/-- A version element is left as it is, or it is given the text for the version. -/
theorem runs_update {slot : Markup.NodeId}
    (hslot : Insertion.lookup? p index (·.slot? c d.key) = some slot) :
    Runs (update index slot d.artifactId v) p u p' ↔
      p.MayWrite index c d v ∧ p' = p.withVersion index c d v := by
  obtain ⟨doc, e, hdoc, he, hfound⟩ := lookup?_eq_some hslot
  have htext : p.slotText? index c d.key = some (e.text slot) := by
    rw [slotText?, lookup?_eq hdoc he, Editor.slotText?, hfound, Option.map_some]
  have hkeeps : keeps p (e.text slot) v = p.leaves index c d v := by
    rw [leaves, htext, Option.any_some]
  have hname : propertyToWrite (e.text slot) d.artifactId = p.versionProperty index c d := by
    rw [versionProperty, htext, Option.getD_some]
  have hplace : p.place index c d = fun text => (·.setText slot text) := by
    unfold place
    rw [hslot]
  unfold update
  simp only [runs_get_bind, hdoc, he, Option.bind_some, hkeeps, hname]
  cases hleaves : p.leaves index c d v with
  | true =>
    rw [if_pos rfl, runs_pure, withVersion, if_pos hleaves, MayWrite, hleaves]
    simp
  | false =>
    rw [if_neg (by simp), ← runs_placing hleaves hplace]
    split <;> rfl

/-- Where there is no version element yet, the text for a new one is that for the property of the
artifact's own. -/
theorem runs_newText {g : String → Editor → Editor}
    (hslot : Insertion.lookup? p index (·.slot? c d.key) = none) (hplace : p.place index c d = g) :
    Runs (do
      let text ← newText index d.artifactId v
      Insertion.editAt index (g text)) p u p' ↔
    p.MayWrite index c d v ∧ p' = p.withVersion index c d v := by
  have hname : propertyFor d.artifactId = p.versionProperty index c d := by
    rw [versionProperty, slotText?_eq_none hslot, Option.getD_none, propertyToWrite_empty]
  rw [← runs_placing (leaves_of_lookup?_eq_none hslot v) hplace, ← hname, newText, runs_bind,
    runs_bind]
  rfl

/-! ### What a written version shows -/

theorem became_prepared (h : p.Writable index c d v) :
    p.Became (p.prepared index c d v) (p.declaring index c d v) := by
  unfold prepared declaring
  split
  · next hprops => exact became_withProperty h.pristine (h.declarable hprops) h.trimmed.1 index
  · exact h.pristine.became

/-- Writing a version shows as the entry brought to it, and as the property that it
    is written into. -/
theorem became_withVersion (h : p.Writable index c d v) :
    p.Became (p.withVersion index c d v) (p.written index c d v) := by
  unfold withVersion written
  split
  · exact h.pristine.became
  · refine (became_prepared h).edit fun doc hdoc e he hsound hsingle => ?_
    rw [place_prepared (fun doc hdoc => (h.pristine doc hdoc).wellFormed) hdoc he]
    refine Editor.became_bring hsound hsingle h.proper ?_
    unfold versionText
    split
    · exact isTrimmed_reference _
    · exact h.trimmed

end Project

end MavenPom
