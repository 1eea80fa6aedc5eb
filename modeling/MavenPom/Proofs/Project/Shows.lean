import MavenPom.Project.Basic
import MavenPom.Proofs.Edit.Property
import MavenPom.Proofs.Markup.Read

/-!
# What documents show

A document shows the POM that is read from the elements of its edited tree. An edit of one document
shows as a change of its POM, and a document that is read again from the same content shows the
same.
-/

namespace MavenPom

open Markup

namespace Markup.Tree

/-- What a tree shows of its root element, in that one's namespace. -/
def shownRoot? (t : Tree) : Option Strict.Node :=
  t.rootElement?.map fun root => t.shownNode (t.namespace? root) Editor.shownDepth root

/-- The POM that a tree shows. -/
def shownPom? (t : Tree) : Option Pom := t.shownRoot?.map Pom.ofNode

/-- No container of entries is repeated, nor what it is in. -/
def Unrepeated (t : Tree) : Prop :=
  ∀ n ∈ t.shownRoot?, ∀ c : Container, Strict.Node.Single c.path n

instance (t : Tree) : Decidable t.Unrepeated :=
  decidable_of_iff (∀ n ∈ t.shownRoot?, Strict.Node.Single (Container.path .dependencies) n ∧
      Strict.Node.Single (Container.path .managed) n)
    ⟨fun h n hn c => match c with
      | .dependencies => (h n hn).1
      | .managed => (h n hn).2,
      fun h n hn => ⟨h n hn .dependencies, h n hn .managed⟩⟩

/-- No block of properties gives a name twice. -/
def DeclaresOnce (t : Tree) (name : String) : Prop :=
  ∀ n ∈ t.shownRoot?, n.DeclaresOnce name ∧ ∀ profiles ∈ n.child? "profiles",
    ∀ profile ∈ profiles.childrenNamed "profile", profile.DeclaresOnce name

instance (t : Tree) (name : String) : Decidable (t.DeclaresOnce name) :=
  inferInstanceAs (Decidable (∀ n ∈ t.shownRoot?, _))

/-- Trees of the same content show the same. -/
theorem shownRoot?_of_sameContent {left right : Tree} (h : left.sameContent right = true) :
    left.shownRoot? = right.shownRoot? := by
  unfold sameContent at h
  unfold shownRoot?
  split at h
  · next l r hl hr =>
    rw [hl, hr, Option.map_some, Option.map_some, namespace?_of_sameElement h,
      shownNode_of_sameElement h]
  · next hl hr =>
    rw [hl, hr]
    rfl
  · cases h

theorem shownPom?_of_sameContent {left right : Tree} (h : left.sameContent right = true) :
    left.shownPom? = right.shownPom? := by
  rw [shownPom?, shownPom?, shownRoot?_of_sameContent h]

end Markup.Tree

namespace Document

/-- Both readings of a document agree: the elements of its tree show what its POM declares. -/
def ReadAlike (d : Document) : Prop := d.tree.shownPom? = some d.pom

/-- The document's edited tree shows a POM, in containers that are not repeated. -/
structure Shows (d : Document) (p : Pom) : Prop where
  wellFormed : d.edited.WellFormed
  unrepeated : d.edited.Unrepeated
  shownPom? : d.edited.shownPom? = some p

variable {d d' : Document} {p : Pom} {e : Editor}

theorem sound_of_editor? (hwf : d.edited.WellFormed) (he : d.editor? = some e) : e.Sound := by
  obtain ⟨root, hroot, rfl⟩ := Option.map_eq_some_iff.mp he
  exact ⟨hwf, hroot, rfl⟩

theorem shownRoot?_of_editor? (he : d.editor? = some e) : d.edited.shownRoot? = some e.shown := by
  obtain ⟨root, hroot, rfl⟩ := Option.map_eq_some_iff.mp he
  rw [Tree.shownRoot?, hroot]
  rfl

theorem Shows.editor? (h : d.Shows p) : ∃ e, d.editor? = some e ∧ e.Sound ∧ e.Unrepeated ∧
    e.pom = p := by
  obtain ⟨n, hn, rfl⟩ := Option.map_eq_some_iff.mp h.shownPom?
  obtain ⟨root, hroot, -⟩ := Option.map_eq_some_iff.mp hn
  have he : d.editor? = some
      ⟨d.edited, root, d.edited.namespace? root, d.indent, d.dirty⟩ := by
    rw [Document.editor?, hroot]
    rfl
  have hshown := shownRoot?_of_editor? he
  refine ⟨_, he, sound_of_editor? h.wellFormed he, h.unrepeated _ hshown, ?_⟩
  rw [Editor.pom, Option.some.inj (hn.symm.trans hshown)]

theorem shows_of_editor? (he : d.editor? = some e) (hsound : e.Sound) (hsingle : e.Unrepeated) :
    d.Shows e.pom := by
  have hshown := shownRoot?_of_editor? he
  obtain ⟨root, hroot, rfl⟩ := Option.map_eq_some_iff.mp he
  refine ⟨hsound.wellFormed, fun n hn => ?_, ?_⟩
  · rw [← Option.some.inj (hshown.symm.trans hn)]
    exact hsingle
  · rw [Tree.shownPom?, hshown]
    rfl

/-- A sound edit leaves its editor in the document. -/
theorem editor?_edit_of_sound {f : Editor → Editor} (he : d.editor? = some e)
    (heq : ∃ tree dirty, f e = { e with tree, dirty }) (hsound : (f e).Sound) :
    (d.edit f).editor? = some (f e) := by
  obtain ⟨tree, dirty, heq⟩ := heq
  obtain ⟨root, hroot, rfl⟩ := Option.map_eq_some_iff.mp he
  rw [heq] at hsound ⊢
  have hedit : d.edit f = { d with edited := tree, dirty } := by
    rw [edit, he]
    simp only [heq]
  rw [hedit, Document.editor?]
  exact Option.map_eq_some_iff.mpr ⟨root, hsound.rootElement?, by rw [hsound.ns_root]; rfl⟩

theorem editor?_edit {f : Editor → Editor} {p' : Pom} (he : d.editor? = some e)
    (hbecame : e.Became (f e) p') : (d.edit f).editor? = some (f e) :=
  editor?_edit_of_sound he hbecame.eq hbecame.sound

theorem edit_of_none (he : d.editor? = none) (f : Editor → Editor) : d.edit f = d := by
  rw [Document.edit, he]

/-- A document that is edited shows what the edit makes of its POM. -/
theorem Shows.edit {f : Editor → Editor} {p' : Pom} (he : d.editor? = some e)
    (hbecame : e.Became (f e) p') : (d.edit f).Shows p' := by
  have hshows := shows_of_editor? (editor?_edit he hbecame) hbecame.sound hbecame.unrepeated
  rwa [hbecame.pom] at hshows

theorem edit_congr {f g : Editor → Editor} (h : ∀ e, d.editor? = some e → f e = g e) :
    d.edit f = d.edit g := by
  unfold Document.edit
  cases he : d.editor? with
  | none => rfl
  | some e => simp only [h e he]

theorem edit_id (d : Document) : d.edit id = d := by
  unfold Document.edit
  cases he : d.editor? with
  | none => rfl
  | some e =>
    obtain ⟨root, hroot, rfl⟩ := Option.map_eq_some_iff.mp he
    rfl

/-- Both documents were read from the same, whatever has been done to them since. -/
structure SameBasis (d d' : Document) : Prop where
  source : d'.source = d.source
  bytes : d'.bytes = d.bytes
  text : d'.text = d.text
  tree : d'.tree = d.tree
  pom : d'.pom = d.pom

/-- Besides, both have been edited alike. -/
structure SameEdits (d d' : Document) : Prop extends SameBasis d d' where
  edited : d'.edited = d.edited

theorem SameBasis.refl (d : Document) : SameBasis d d := ⟨rfl, rfl, rfl, rfl, rfl⟩

theorem SameBasis.trans {d'' : Document} (h : SameBasis d d') (h' : SameBasis d' d'') :
    SameBasis d d'' :=
  ⟨h'.source.trans h.source, h'.bytes.trans h.bytes, h'.text.trans h.text, h'.tree.trans h.tree,
    h'.pom.trans h.pom⟩

theorem SameEdits.refl (d : Document) : SameEdits d d := ⟨.refl d, rfl⟩

theorem SameEdits.trans {d'' : Document} (h : SameEdits d d') (h' : SameEdits d' d'') :
    SameEdits d d'' :=
  ⟨h.toSameBasis.trans h'.toSameBasis, h'.edited.trans h.edited⟩

theorem SameEdits.shows (h : SameEdits d d') (hd : d.Shows p) : d'.Shows p := by
  obtain ⟨hwf, hsingle, hshows⟩ := hd
  rw [← h.edited] at hwf hsingle hshows
  exact ⟨hwf, hsingle, hshows⟩

theorem sameBasis_edit (f : Editor → Editor) (d : Document) : SameBasis d (d.edit f) := by
  unfold Document.edit
  split
  · exact .refl d
  · exact ⟨rfl, rfl, rfl, rfl, rfl⟩

/-- A document as it has been read shows its tree, unedited. -/
theorem facts_of_ofBytes {bytes : Bytes} {source : DocumentSource}
    (h : ofBytes bytes source = .ok d) :
    d.bytes = bytes ∧ d.source = source ∧ d.edited = d.tree ∧ d.tree.WellFormed ∧
      d.layout = none ∧ d.result = none := by
  simp only [ofBytes, bind, Except.bind] at h
  split at h
  · cases h
  split at h
  · cases h
  next text htext =>
  split at h
  · cases h
  next tree htree =>
  split at h
  · cases h
  cases h
  refine ⟨rfl, rfl, rfl, ?_, rfl, rfl⟩
  cases hparse : Tree.parse text with
  | error fault =>
    rw [hparse] at htree
    cases htree
  | ok t =>
    rw [hparse] at htree
    cases htree
    exact Tree.wellFormed_of_parse hparse

end Document

end MavenPom
