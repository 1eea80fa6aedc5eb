import MavenPom.Proofs.Edit.View
import MavenPom.Proofs.Project.Modify

/-!
# What projects look up

What a project looks up in its documents is read off what these show. An edit of one document
changes only what is looked up there, under the name that it is made under.
-/

namespace MavenPom

open Markup VersionSlot
open Strict.Node (KeepsOthers)

namespace Project

variable {p p' : Project} {index k : ℕ} {name : String} {c : Container} {d : Dependency}

/-- What the document at a place shows of its root element. -/
def shownAt? (p : Project) (index : ℕ) : Option Strict.Node :=
  ((p.document? index).bind (·.editor?)).map (·.shown)

theorem shownAt?_eq (p : Project) (k : Nat) :
    p.shownAt? k = (p.document? k).bind (·.edited.shownRoot?) := by
  rw [shownAt?, Option.map_bind]
  refine Option.bind_congr fun doc _ => ?_
  unfold Document.editor? Tree.shownRoot?
  rw [Function.comp_apply, Option.map_map]
  rfl

theorem shownAt?_of_forall₂ {R : Document → Document → Prop} {q : Project}
    (h : List.Forall₂ R p.documents q.documents)
    (hshown : ∀ doc doc', doc' ∈ q.documents → R doc doc' →
      doc'.edited.shownRoot? = doc.edited.shownRoot?) (k : Nat) :
    q.shownAt? k = p.shownAt? k := by
  rw [shownAt?_eq, shownAt?_eq]
  have hk := forall₂_getElem? h k
  cases hdoc' : q.documents[k]? with
  | none =>
    rw [hdoc'] at hk
    cases hdoc : p.documents[k]? with
    | none => rw [document?, document?, hdoc, hdoc']
    | some doc => rw [hdoc] at hk; cases hk
  | some doc' =>
    rw [hdoc'] at hk
    cases hdoc : p.documents[k]? with
    | none => rw [hdoc] at hk; cases hk
    | some doc =>
      rw [hdoc] at hk
      cases hk with
      | some hrel =>
        rw [document?, document?, hdoc, hdoc', Option.bind_some, Option.bind_some]
        exact hshown doc doc' (List.mem_of_getElem? hdoc') hrel

/-- What is read off there. -/
def view? {α : Type} (p : Project) (index : ℕ) (view : Strict.Node → Option α) : Option α :=
  (p.shownAt? index).bind view

theorem lookup?_eq_view? {α : Type} {look : Editor → Option α} {view : Strict.Node → Option α}
    (h : ∀ e : Editor, view e.shown = look e) (p : Project) (index : ℕ) :
    Insertion.lookup? p index look = p.view? index view := by
  rw [lookup?_eq_bind, view?, shownAt?, Option.bind_map]
  exact Option.bind_congr fun e _ => (h e).symm

theorem slotText?_eq_view? (p : Project) (index : ℕ) (c : Container) (key : ArtifactKey) :
    p.slotText? index c key = p.view? index (·.soleVersion? c key) :=
  lookup?_eq_view? (fun e => e.soleVersion?_shown c key) p index

theorem isSome_findDependency? (p : Project) (index : ℕ) (c : Container) (key : ArtifactKey) :
    (Insertion.lookup? p index (·.findDependency? c.path key)).isSome =
      (p.view? index (·.entryFor? c key)).isSome := by
  rw [lookup?_eq_bind, view?, shownAt?]
  cases (p.document? index).bind (·.editor?) with
  | none => rfl
  | some e =>
    rw [Option.bind_some, Option.map_some, Option.bind_some, Editor.entryFor?_shown,
      Option.isSome_map]

/-- The documents show what they declare. -/
def ReadsAlike (p : Project) : Prop := ∀ doc ∈ p.documents, doc.edited.shownPom? = some doc.pom

theorem shownAt?_of_document? (h : p.ReadsAlike) {doc : Document}
    (hdoc : p.document? index = some doc) :
    ∃ n, p.shownAt? index = some n ∧ Pom.ofNode n = doc.pom := by
  have hpom := h doc (List.mem_of_getElem? hdoc)
  obtain ⟨n, hn, hpom⟩ := Option.map_eq_some_iff.mp hpom
  obtain ⟨root, hroot, -⟩ := Option.map_eq_some_iff.mp hn
  have he : ∃ e, doc.editor? = some e := by
    rw [Document.editor?, hroot]
    exact ⟨_, rfl⟩
  obtain ⟨e, he⟩ := he
  have hshown := Document.shownRoot?_of_editor? he
  refine ⟨e.shown, ?_, ?_⟩
  · rw [shownAt?, hdoc, Option.bind_some, he, Option.map_some]
  · rw [← Option.some.inj (hn.symm.trans hshown), hpom]

/-- `p'` shows what `p` does, but for the children of one name in one document. -/
def AltersAt (p p' : Project) (index : ℕ) (name : String) : Prop :=
  ∀ k, Option.Rel (fun n n' => KeepsOthers name n n' ∧ (k ≠ index → n' = n))
    (p.shownAt? k) (p'.shownAt? k)

namespace AltersAt

variable (h : p.AltersAt p' index name)

include h

/-- What is read off elsewhere, or under other names, stays. -/
theorem view?_eq {α : Type} {view : Strict.Node → Option α}
    (hview : k ≠ index ∨ ∀ n n', KeepsOthers name n n' → view n' = view n) :
    p'.view? k view = p.view? k view := by
  have hk := h k
  rw [view?, view?]
  generalize p.shownAt? k = before, p'.shownAt? k = after at hk
  cases hk with
  | none => rfl
  | some hrel =>
    obtain ⟨hkeeps, hsame⟩ := hrel
    rcases hview with hne | hview
    · rw [hsame hne]
    · exact hview _ _ hkeeps

theorem isSome_shownAt? : (p'.shownAt? k).isSome = (p.shownAt? k).isSome := by
  have hk := h k
  generalize p.shownAt? k = before, p'.shownAt? k = after at hk
  cases hk <;> rfl

end AltersAt

/-! ## Edits -/

section Edits

variable {f : Editor → Editor} (hp : ∀ doc ∈ p.documents, doc.edited.WellFormed)
  (hf : ∀ e : Editor, e.Sound → e.Alters (f e) name)

include hp hf

theorem shownAt?_edit (index k : ℕ) : (p.edit index f).shownAt? k =
    ((p.document? k).bind (·.editor?)).map fun e => if index = k then (f e).shown else e.shown := by
  rw [shownAt?, document?_edit_eq]
  by_cases hk : index = k
  · simp only [if_pos hk]
    cases hdoc : p.document? k with
    | none => rfl
    | some doc =>
      rw [Option.map_some, Option.bind_some, Option.bind_some]
      cases he : doc.editor? with
      | none => rw [Document.edit_of_none he, he]; rfl
      | some e =>
        have hsound := Document.sound_of_editor? (hp doc (List.mem_of_getElem? hdoc)) he
        have halters := hf e hsound
        rw [Document.editor?_edit_of_sound he halters.eq (halters.sound hsound)]
        rfl
  · simp only [if_neg hk]

theorem altersAt_edit (index : ℕ) : p.AltersAt (p.edit index f) index name := by
  intro k
  rw [shownAt?_edit hp hf, shownAt?]
  cases hdoc : p.document? k with
  | none => exact .none
  | some doc =>
    rw [Option.bind_some]
    cases he : doc.editor? with
    | none => exact .none
    | some e =>
      have hsound := Document.sound_of_editor? (hp doc (List.mem_of_getElem? hdoc)) he
      by_cases hk : index = k
      · simp only [Option.map_some, if_pos hk]
        exact .some ⟨(hf e hsound).keepsOthers, fun hne => absurd hk.symm hne⟩
      · simp only [Option.map_some, if_neg hk]
        exact .some ⟨.refl _ _, fun _ => rfl⟩

theorem wellFormed_edit (index : ℕ) :
    ∀ doc ∈ (p.edit index f).documents, doc.edited.WellFormed := by
  intro doc' hdoc'
  obtain ⟨k, hk⟩ := List.getElem?_of_mem hdoc'
  rw [show (p.edit index f).documents[k]? = (p.edit index f).document? k from rfl,
    document?_edit_eq] at hk
  split at hk
  · obtain ⟨doc, hdoc, rfl⟩ := Option.map_eq_some_iff.mp hk
    have hwell := hp doc (List.mem_of_getElem? hdoc)
    cases he : doc.editor? with
    | none => rwa [Document.edit_of_none he]
    | some e =>
      have hsound := Document.sound_of_editor? hwell he
      rw [Document.edit, he]
      exact ((hf e hsound).sound hsound).wellFormed
  · exact hp doc' (List.mem_of_getElem? hk)

/-- What the edit has written is read off where it has been made. -/
theorem view?_edit {α : Type} {view : Strict.Node → Option α} :
    (p.edit index f).view? index view =
      ((p.document? index).bind (·.editor?)).bind fun e => view (f e).shown := by
  rw [view?, shownAt?_edit hp hf]
  cases (p.document? index).bind (·.editor?) with
  | none => rfl
  | some e => simp

end Edits

/-! ## What stays -/

/-- The documents say the same of themselves, and properties are in the same blocks. -/
structure Preserves (p p' : Project) : Prop where
  header : ∀ k, p'.view? k (fun n => some (Pom.ofNode n).header) =
    p.view? k fun n => some (Pom.ofNode n).header
  scope : ∀ k s name, p'.view? k (fun n => some (scopeOf s (Pom.ofNode n) name)) =
    p.view? k fun n => some (scopeOf s (Pom.ofNode n) name)

namespace Preserves

theorem refl (p : Project) : p.Preserves p := ⟨fun _ => rfl, fun _ _ _ => rfl⟩

theorem trans {p'' : Project} (h : p.Preserves p') (h' : p'.Preserves p'') : p.Preserves p'' :=
  ⟨fun k => (h'.header k).trans (h.header k),
    fun k s name => (h'.scope k s name).trans (h.scope k s name)⟩

end Preserves

theorem AltersAt.preserves (h : p.AltersAt p' index c.first) : p.Preserves p' where
  header k := by
    refine h.view?_eq (.inr fun n n' hkeeps => ?_)
    rw [Pom.header_ofNode hkeeps (by cases c <;> decide)]
  scope k s name := by
    refine h.view?_eq (.inr fun n n' hkeeps => ?_)
    rw [Pom.scopeOf_eq]
    rw [Pom.profiles_ofNode, Pom.profiles_ofNode,
      hkeeps.profileNodes_eq (by cases c <;> decide)]

theorem Preserves.isSome (h : p.Preserves p') (k : ℕ) :
    (p'.shownAt? k).isSome = (p.shownAt? k).isSome := by
  have hheader := congrArg Option.isSome (h.header k)
  rw [view?, view?] at hheader
  cases hafter : p'.shownAt? k <;> cases hbefore : p.shownAt? k <;> simp_all

section ReadsAlike

variable (halike : p.ReadsAlike)

include halike

/-- What is read off what a document shows is what it declares. -/
theorem view?_ofNode {α : Type} (f : Pom → α) (k : ℕ) :
    p.view? k (fun n => some (f (Pom.ofNode n))) = (p.poms.map f)[k]? := by
  rw [poms, List.map_map, List.getElem?_map, view?]
  cases hdoc : p.document? k with
  | none =>
    rw [shownAt?, hdoc, show p.documents[k]? = none from hdoc]
    rfl
  | some doc =>
    obtain ⟨n, hn, hpom⟩ := shownAt?_of_document? halike hdoc
    rw [hn, show p.documents[k]? = some doc from hdoc, Option.bind_some, hpom]
    rfl

theorem declarationIn?_eq_of_shownAt? {k : ℕ} {n : Strict.Node}
    (hn : p.shownAt? k = some n) (name : String) : declarationIn? p name k =
      (n.property? (scopeOf p.request.selection (Pom.ofNode n) name) name).map
        (⟨k, scopeOf p.request.selection (Pom.ofNode n) name, ·⟩) := by
  obtain ⟨e, he, rfl⟩ := Option.map_eq_some_iff.mp hn
  obtain ⟨doc, hdoc, he'⟩ := Option.bind_eq_some_iff.mp he
  obtain ⟨n', hn', hpom⟩ := shownAt?_of_document? halike hdoc
  rw [Option.some.inj (hn.symm.trans hn'), declarationIn?, hdoc, Option.bind_some, he', ← hpom,
    ← Option.some.inj (hn.symm.trans hn'), Editor.property?_shown]
  rfl

omit halike in
theorem declarationIn?_of_shownAt?_eq_none {k : ℕ} (hn : p.shownAt? k = none) (name : String) :
    declarationIn? p name k = none := by
  rw [shownAt?, Option.map_eq_none_iff] at hn
  rw [declarationIn?]
  cases hdoc : p.document? k with
  | none => rfl
  | some doc =>
    rw [hdoc, Option.bind_some] at hn
    rw [Option.bind_some, hn]
    rfl

theorem Preserves.header_eq (h : p.Preserves p') (halike' : p'.ReadsAlike) :
    p'.poms.map Pom.header = p.poms.map Pom.header := by
  refine List.ext_getElem? fun k => ?_
  rw [← view?_ofNode halike, ← view?_ofNode halike']
  exact h.header k

end ReadsAlike

/-! ## Writing a property -/

section Property

variable {owner : ℕ} {value : String}

/-- A property is written in its own block, or where no document declares it, in the project's. -/
theorem propertySite_cases (p : Project) (owner : ℕ) (name : String) :
    (declaration? p owner name = none ∧ p.propertySite owner name = (owner, .project)) ∨
      ∃ found doc e, declaration? p owner name = some found ∧
        p.propertySite owner name = (found.index, found.scope) ∧
        p.document? found.index = some doc ∧ doc.editor? = some e ∧
        e.property? found.scope name = some found.value := by
  cases hfound : declaration? p owner name with
  | none => exact .inl ⟨rfl, by rw [propertySite, hfound]; rfl⟩
  | some found =>
    obtain ⟨index, -, hin⟩ := List.exists_of_findSome?_eq_some hfound
    obtain ⟨doc, e, hdoc, he, rfl, -, hvalue⟩ := declarationIn?_eq_some hin
    exact .inr ⟨found, doc, e, rfl, by rw [propertySite, hfound]; rfl, hdoc, he, hvalue⟩

variable (hp : ∀ doc ∈ p.documents, doc.edited.WellFormed)

include hp

theorem altersAt_withProperty (owner : ℕ) (name value : String) :
    p.AltersAt (p.withProperty owner name value) (p.propertySite owner name).1
      (p.propertySite owner name).2.first :=
  altersAt_edit hp (fun _ hsound => Editor.alters_setProperty hsound _ name value) _

theorem wellFormed_withProperty (owner : ℕ) (name value : String) :
    ∀ doc ∈ (p.withProperty owner name value).documents, doc.edited.WellFormed :=
  wellFormed_edit hp (fun _ hsound => Editor.alters_setProperty hsound _ name value) _

variable (hname : ':' ∉ name.toList) (hvalue : Text.trim value = value)

include hname hvalue

/-- A property that is written has its value in its block. -/
theorem property?_withProperty (howner : (p.shownAt? owner).isSome = true) :
    (p.withProperty owner name value).view? (p.propertySite owner name).1
      (·.property? (p.propertySite owner name).2 name) = some value := by
  obtain ⟨doc, e, hdoc, he, hblock⟩ : ∃ doc e,
      p.document? (p.propertySite owner name).1 = some doc ∧ doc.editor? = some e ∧
        (e.owner? (p.propertySite owner name).2).isSome = true := by
    rcases p.propertySite_cases owner name with ⟨-, hsite⟩ |
      ⟨found, doc, e, -, hsite, hdoc, he, hfound⟩
    · obtain ⟨n, hn⟩ := Option.isSome_iff_exists.mp howner
      obtain ⟨e, he, -⟩ := Option.map_eq_some_iff.mp hn
      obtain ⟨doc, hdoc, he⟩ := Option.bind_eq_some_iff.mp he
      rw [hsite]
      exact ⟨doc, e, hdoc, he, rfl⟩
    · rw [hsite]
      obtain ⟨id, hid, -⟩ := Option.map_eq_some_iff.mp hfound
      obtain ⟨block, hblock, -⟩ := Option.bind_eq_some_iff.mp hid
      exact ⟨doc, e, hdoc, he, by rw [hblock]; rfl⟩
  have hsound := Document.sound_of_editor? (hp doc (List.mem_of_getElem? hdoc)) he
  rw [withProperty, view?_edit hp fun _ hsound => Editor.alters_setProperty hsound _ name value,
    hdoc, Option.bind_some, he, Option.bind_some]
  exact Editor.property?_setProperty hsound hname hvalue hblock

theorem preserves_withProperty (owner : ℕ) : p.Preserves (p.withProperty owner name value) where
  header k := by
    refine (altersAt_withProperty hp owner name value).view?_eq (.inr fun n n' hkeeps => ?_)
    rw [Pom.header_ofNode hkeeps]
    cases (p.propertySite owner name).2 <;> simp [PropertyScope.first]
  scope k s other := by
    by_cases hk : k = (p.propertySite owner name).1
    swap
    · exact (altersAt_withProperty hp owner name value).view?_eq (.inl hk)
    subst hk
    rw [withProperty, view?_edit hp fun _ hsound => Editor.alters_setProperty hsound _ name value,
      view?, shownAt?, Option.bind_map]
    refine Option.bind_congr fun e he => ?_
    obtain ⟨doc, hdoc, he⟩ := Option.bind_eq_some_iff.mp he
    have hsound := Document.sound_of_editor? (hp doc (List.mem_of_getElem? hdoc)) he
    refine congrArg some (Editor.scopeOf_setProperty hsound hname hvalue ?_ s other)
    rcases p.propertySite_cases owner name with ⟨-, hsite⟩ |
      ⟨found, doc', e', -, hsite, hdoc', he', hfound⟩
    · exact .inl (by rw [hsite])
    · rw [hsite] at hdoc ⊢
      obtain rfl := Option.some.inj (hdoc.symm.trans hdoc')
      obtain rfl := Option.some.inj (he.symm.trans he')
      exact .inr (by rw [hfound]; rfl)

end Property

/-! ## Writing an entry -/

section Entry

variable (hp : ∀ doc ∈ p.documents, doc.edited.WellFormed) (hd : d.Proper)

include hp hd

theorem altersAt_enlist (index : ℕ) (c : Container) :
    p.AltersAt (p.edit index (Editor.enlist c d)) index c.first :=
  altersAt_edit hp (fun _ hsound => Editor.alters_enlist hsound hd) index

theorem wellFormed_enlist (index : ℕ) (c : Container) :
    ∀ doc ∈ (p.edit index (Editor.enlist c d)).documents, doc.edited.WellFormed :=
  wellFormed_edit hp (fun _ hsound => Editor.alters_enlist hsound hd) index

theorem entryFor?_enlist (hindex : (p.shownAt? index).isSome = true) :
    ((p.edit index (Editor.enlist c d)).view? index (·.entryFor? c d.key)).isSome = true := by
  obtain ⟨n, hn⟩ := Option.isSome_iff_exists.mp hindex
  obtain ⟨e, he, -⟩ := Option.map_eq_some_iff.mp hn
  obtain ⟨doc, hdoc, he'⟩ := Option.bind_eq_some_iff.mp he
  have hsound := Document.sound_of_editor? (hp doc (List.mem_of_getElem? hdoc)) he'
  rw [view?_edit hp fun _ hsound => Editor.alters_enlist hsound hd, he]
  exact (Editor.entryFor?_enlist hsound hd).1

theorem soleVersion?_enlist (index : ℕ) (c : Container) :
    (p.edit index (Editor.enlist c d)).view? index (·.soleVersion? c d.key) =
      p.view? index (·.soleVersion? c d.key) := by
  rw [view?_edit hp fun _ hsound => Editor.alters_enlist hsound hd, view?, shownAt?,
    Option.bind_map]
  refine Option.bind_congr fun e he => ?_
  obtain ⟨doc, hdoc, he⟩ := Option.bind_eq_some_iff.mp he
  have hsound := Document.sound_of_editor? (hp doc (List.mem_of_getElem? hdoc)) he
  exact (Editor.entryFor?_enlist hsound hd).2

variable {text : String} (htext : Text.IsTrimmed text)

include htext

theorem altersAt_bring (index : ℕ) (c : Container) :
    p.AltersAt (p.edit index (Editor.bring c d text)) index c.first :=
  altersAt_edit hp (fun _ hsound => Editor.alters_bring hsound hd htext) index

theorem wellFormed_bring (index : ℕ) (c : Container) :
    ∀ doc ∈ (p.edit index (Editor.bring c d text)).documents, doc.edited.WellFormed :=
  wellFormed_edit hp (fun _ hsound => Editor.alters_bring hsound hd htext) index

theorem version?_bring (hindex : (p.shownAt? index).isSome = true) :
    (p.edit index (Editor.bring c d text)).view? index (·.version? c d.key) = some text := by
  obtain ⟨n, hn⟩ := Option.isSome_iff_exists.mp hindex
  obtain ⟨e, he, -⟩ := Option.map_eq_some_iff.mp hn
  obtain ⟨doc, hdoc, he'⟩ := Option.bind_eq_some_iff.mp he
  have hsound := Document.sound_of_editor? (hp doc (List.mem_of_getElem? hdoc)) he'
  rw [view?_edit hp fun _ hsound => Editor.alters_bring hsound hd htext, he]
  exact Editor.version?_bring hsound hd htext

theorem soleVersion?_bring (h : (p.view? index (·.soleVersion? c d.key)).isSome = true) :
    ((p.edit index (Editor.bring c d text)).view? index
      (·.soleVersion? c d.key)).isSome = true := by
  obtain ⟨v, hv⟩ := Option.isSome_iff_exists.mp h
  obtain ⟨n, hn, hv⟩ := Option.bind_eq_some_iff.mp hv
  obtain ⟨e, he, rfl⟩ := Option.map_eq_some_iff.mp hn
  obtain ⟨doc, hdoc, he'⟩ := Option.bind_eq_some_iff.mp he
  have hsound := Document.sound_of_editor? (hp doc (List.mem_of_getElem? hdoc)) he'
  rw [view?_edit hp fun _ hsound => Editor.alters_bring hsound hd htext, he, Option.bind_some,
    Editor.soleVersion?_bring hsound hd htext (by rw [hv]; rfl)]
  rfl

end Entry

/-! ## Bringing a dependency in -/

section Entered

variable {q : Project}

/-- The property that writing an entry's version writes, if it writes one. -/
def writtenProperty? (p : Project) (index : ℕ) (c : Container) (d : Dependency) :
    Option String :=
  d.version.bind fun v =>
    if p.request.useProperties && !p.leaves index c d v then some (p.versionProperty index c d)
    else none

/-- `q` shows what `p` does once the entry for a dependency in a container has been written: a
    version that was not left, and the property for it. Nothing else that a request looks at has
    changed. -/
structure Entered (p q : Project) (index : ℕ) (c : Container) (d : Dependency) : Prop where
  preserves : p.Preserves q
  elsewhere : ∀ k c', k ≠ index ∨ c' ≠ c →
    q.view? k (·.soleVersion? c' d.key) = p.view? k (·.soleVersion? c' d.key)
  sole : (p.view? index (·.soleVersion? c d.key)).isSome = true →
    (q.view? index (·.soleVersion? c d.key)).isSome = true
  left : ∀ v ∈ d.version, p.leaves index c d v = true →
    q.view? index (·.soleVersion? c d.key) = p.view? index (·.soleVersion? c d.key) ∧
      ∀ k s, q.view? k (fun n => some ((Pom.ofNode n).activeProperties s)) =
        p.view? k fun n => some ((Pom.ofNode n).activeProperties s)
  version : ∀ v ∈ d.version, p.leaves index c d v = false →
    q.view? index (·.version? c d.key) = some (p.versionText index c d v)
  listed : d.version = none → (q.view? index (·.entryFor? c d.key)).isSome = true
  property : ∀ v ∈ d.version, ∀ name ∈ p.writtenProperty? index c d,
    q.view? (p.propertySite index name).1 (·.property? (p.propertySite index name).2 name) = some v
  undeclared : ∀ name ∈ p.writtenProperty? index c d, ∀ k scope,
    k ≠ (p.propertySite index name).1 ∨ scope.first ≠ (p.propertySite index name).2.first →
      q.view? k (·.property? scope name) = p.view? k (·.property? scope name)

/-- `q` shows what `p` does once the property for a version has been written, if it is to be. -/
structure Declared (p q : Project) (index : ℕ) (c : Container) (d : Dependency) : Prop where
  wellFormed : ∀ doc ∈ q.documents, doc.edited.WellFormed
  preserves : p.Preserves q
  isSome : ∀ k, (q.shownAt? k).isSome = (p.shownAt? k).isSome
  entries : ∀ k c' key, q.view? k (·.soleVersion? c' key) = p.view? k (·.soleVersion? c' key)
  property : ∀ v ∈ d.version, ∀ name ∈ p.writtenProperty? index c d,
    q.view? (p.propertySite index name).1 (·.property? (p.propertySite index name).2 name) = some v
  undeclared : ∀ name ∈ p.writtenProperty? index c d, ∀ k scope,
    k ≠ (p.propertySite index name).1 ∨ scope.first ≠ (p.propertySite index name).2.first →
      q.view? k (·.property? scope name) = p.view? k (·.property? scope name)

variable (hp : ∀ doc ∈ p.documents, doc.edited.WellFormed)
  (hname : ∀ name ∈ p.writtenProperty? index c d, ':' ∉ name.toList)

include hp hname

theorem declared_prepared {v : String} (hv : d.version = some v) (htrim : Text.trim v = v)
    (hleaves : p.leaves index c d v = false) (hindex : (p.shownAt? index).isSome = true) :
    p.Declared (p.prepared index c d v) index c d := by
  unfold prepared
  split
  · next hprops =>
    have hwritten : p.writtenProperty? index c d = some (p.versionProperty index c d) := by
      simp [writtenProperty?, hv, hprops, hleaves]
    generalize p.versionProperty index c d = name at hwritten
    have hcolon := hname name hwritten
    have halters := altersAt_withProperty hp index name v
    refine ⟨wellFormed_withProperty hp index name v,
      preserves_withProperty hp hcolon htrim index, fun k => halters.isSome_shownAt?,
      fun k c' key => halters.view?_eq (.inr fun n n' hkeeps =>
        hkeeps.soleVersion?_eq (PropertyScope.first_ne _ c')), ?_, ?_⟩
    · rintro v' hv' name' hname'
      obtain rfl := Option.some.inj (hv.symm.trans hv')
      obtain rfl := Option.some.inj (hwritten.symm.trans hname')
      exact property?_withProperty hp hcolon htrim hindex
    · rintro name' hname' k scope hne
      obtain rfl := Option.some.inj (hwritten.symm.trans hname')
      exact halters.view?_eq (hne.imp_right fun hscope n n' hkeeps =>
        hkeeps.property?_eq hscope name)
  · next hprops =>
    have hnone : p.writtenProperty? index c d = none := by simp [writtenProperty?, hv, hprops]
    exact ⟨hp, .refl p, fun _ => rfl, fun _ _ _ => rfl, by simp [hnone], by simp [hnone]⟩

variable (hd : d.Proper)

include hd

/-- Writing an entry shows as such. -/
theorem entered_withEntry (hindex : (p.shownAt? index).isSome = true) :
    p.Entered (p.withEntry index c d) index c d ∧
      ∀ doc ∈ (p.withEntry index c d).documents, doc.edited.WellFormed := by
  have hother : ∀ {c' : Container}, c' ≠ c → c'.first ≠ c.first := Editor.Container.first_ne
  unfold withEntry
  cases hversion : d.version with
  | none =>
    have halters := altersAt_enlist hp hd index c
    have hnone : p.writtenProperty? index c d = none := by rw [writtenProperty?, hversion]; rfl
    refine ⟨⟨halters.preserves,
      fun k c' hne => halters.view?_eq (hne.imp_right fun hc n n' hkeeps =>
      hkeeps.soleVersion?_eq (hother hc)), fun hsole => ?_, by simp [hversion], by simp [hversion],
      fun _ => entryFor?_enlist hp hd hindex, by simp [hversion], by simp [hnone]⟩,
      wellFormed_enlist hp hd index c⟩
    rwa [soleVersion?_enlist hp hd]
  | some v =>
    have htrim := hd.version v hversion
    dsimp only
    cases hleaves : p.leaves index c d v with
    | true =>
      have hnone : p.writtenProperty? index c d = none := by
        simp [writtenProperty?, hversion, hleaves]
      rw [withVersion, if_pos hleaves]
      refine ⟨⟨.refl p, fun _ _ _ => rfl, id, fun _ _ _ => ⟨rfl, fun _ _ => rfl⟩, ?_,
        by simp [hversion], by simp [hnone], by simp [hnone]⟩, hp⟩
      intro v' hv' hnot
      obtain rfl := Option.some.inj (hversion.symm.trans hv')
      exact Bool.noConfusion (hnot.symm.trans hleaves)
    | false =>
      have htext : Text.IsTrimmed (p.versionText index c d v) := isTrimmed_versionText htrim
      have hbring : p.withVersion index c d v =
          (p.prepared index c d v).edit index (Editor.bring c d (p.versionText index c d v)) := by
        rw [withVersion, if_neg (by simp [hleaves])]
        exact edit_congr fun doc e hdoc he => place_prepared hp hdoc he _
      have hdeclared := declared_prepared hp hname hversion htrim.1 hleaves hindex
      have halters := altersAt_bring hdeclared.wellFormed hd htext index c
      rw [hbring]
      refine ⟨⟨hdeclared.preserves.trans halters.preserves, fun k c' hne => ?_, fun hsole => ?_, ?_,
        ?_, by simp [hversion], fun v' hv' name hname' => ?_, fun name hname' k scope hne => ?_⟩,
        wellFormed_bring hdeclared.wellFormed hd htext index c⟩
      · rw [halters.view?_eq
          (hne.imp_right fun hc n n' hkeeps => hkeeps.soleVersion?_eq (hother hc)),
          hdeclared.entries]
      · rw [← hdeclared.entries] at hsole
        exact soleVersion?_bring hdeclared.wellFormed hd htext hsole
      · intro v' hv' hleft
        obtain rfl := Option.some.inj (hversion.symm.trans hv')
        exact Bool.noConfusion (hleaves.symm.trans hleft)
      · intro v' hv' _
        obtain rfl := Option.some.inj (hversion.symm.trans hv')
        exact version?_bring hdeclared.wellFormed hd htext ((hdeclared.isSome index).trans hindex)
      · rw [halters.view?_eq (.inr fun n n' hkeeps =>
          hkeeps.property?_eq (PropertyScope.first_ne _ c).symm name)]
        exact hdeclared.property v' hv' name hname'
      · rw [halters.view?_eq (.inr fun n n' hkeeps =>
          hkeeps.property?_eq (PropertyScope.first_ne _ c).symm name)]
        exact hdeclared.undeclared name hname' k scope hne

omit hp hname in
/-- Having the target refer to what is managed leaves the managed entry as it has been written. -/
theorem Entered.enlist (h : p.Entered q index .managed d)
    (hq : ∀ doc ∈ q.documents, doc.edited.WellFormed) :
    p.Entered (q.edit 0 (Editor.enlist .dependencies d)) index .managed d := by
  have halters := altersAt_enlist hq hd 0 .dependencies
  have hne : Container.managed.first ≠ Container.dependencies.first := by decide
  refine ⟨h.preserves.trans halters.preserves, fun k c' hother => ?_, fun hsole => ?_,
    fun v hv hleaves => ⟨?_, fun k s => ?_⟩, fun v hv hleaves => ?_, fun hversion => ?_,
    fun v hv name hname => ?_, fun name hname k scope hother => ?_⟩
  · rw [← h.elsewhere k c' hother]
    cases c' with
    | managed => exact halters.view?_eq (.inr fun n n' hkeeps => hkeeps.soleVersion?_eq hne)
    | dependencies =>
      by_cases hk : k = 0
      · subst hk
        exact soleVersion?_enlist hq hd 0 .dependencies
      · exact halters.view?_eq (.inl hk)
  · rw [halters.view?_eq (.inr fun n n' hkeeps => hkeeps.soleVersion?_eq hne)]
    exact h.sole hsole
  · rw [halters.view?_eq (.inr fun n n' hkeeps => hkeeps.soleVersion?_eq hne)]
    exact (h.left v hv hleaves).1
  · rw [halters.view?_eq (.inr fun n n' hkeeps =>
      congrArg some (Pom.activeProperties_ofNode hkeeps s))]
    exact (h.left v hv hleaves).2 k s
  · rw [halters.view?_eq (.inr fun n n' hkeeps => hkeeps.version?_eq hne)]
    exact h.version v hv hleaves
  · rw [halters.view?_eq (.inr fun n n' hkeeps => hkeeps.entryFor?_eq hne)]
    exact h.listed hversion
  · rw [halters.view?_eq (.inr fun n n' hkeeps =>
      hkeeps.property?_eq (PropertyScope.first_ne _ .dependencies).symm name)]
    exact h.property v hv name hname
  · rw [halters.view?_eq (.inr fun n n' hkeeps =>
      hkeeps.property?_eq (PropertyScope.first_ne _ .dependencies).symm name)]
    exact h.undeclared name hname k scope hother

end Entered

section Brought

theorem managedIndex?_bounds {index : ℕ} (h : p.managedIndex? = some index) :
    0 < index ∧ index < p.documents.length := by
  unfold managedIndex? at h
  split at h
  · cases h
  · next hempty =>
    have hpos : 0 < p.ancestors.length := List.length_pos_iff.mpr (by simpa using hempty)
    simp only [documents, List.length_cons]
    split at h <;> cases h <;> omega

theorem index_site_lt (p : Project) (d : Dependency) : (p.site d).index < p.documents.length := by
  have hpos : 0 < p.documents.length := Nat.succ_pos _
  unfold site
  split
  · exact hpos
  · split
    · exact hpos
    · split
      · next hindex => exact (managedIndex?_bounds hindex).2
      · split <;> exact hpos

theorem shownAt?_site (halike : p.ReadsAlike) (d : Dependency) :
    (p.shownAt? (p.site d).index).isSome = true := by
  obtain ⟨n, hn, -⟩ := shownAt?_of_document? halike
    (show p.document? (p.site d).index = some _ from List.getElem?_eq_getElem (p.index_site_lt d))
  rw [hn]
  rfl

/-- Bringing a dependency in writes its entry, and has the target refer to it if it is to. -/
theorem entered_brought (hp : ∀ doc ∈ p.documents, doc.edited.WellFormed) (halike : p.ReadsAlike)
    (hd : d.Proper) (hname : ∀ name ∈ p.writtenProperty? (p.site d).index (p.site d).container d,
      ':' ∉ name.toList) :
    p.Entered (p.brought d) (p.site d).index (p.site d).container d ∧ ((p.site d).refers = true →
      ((p.brought d).view? 0 (·.entryFor? .dependencies d.key)).isSome = true) := by
  obtain ⟨hentered, hwell⟩ := entered_withEntry hp hname hd (shownAt?_site halike d)
  unfold brought
  dsimp only
  split
  · next hrefers =>
    rw [container_of_refers hrefers] at hentered hwell ⊢
    rw [show Editor.refer d = Editor.enlist .dependencies d from rfl]
    refine ⟨hentered.enlist hd hwell, fun _ => entryFor?_enlist hwell hd ?_⟩
    obtain ⟨n, hn, -⟩ := shownAt?_of_document? halike (show p.document? 0 = some p.target from rfl)
    have hheader := hentered.preserves.header 0
    rw [view?, view?, hn] at hheader
    cases hzero : (p.withEntry (p.site d).index .managed d).shownAt? 0 with
    | none => simp [hzero] at hheader
    | some n' => rfl
  · next hrefers => exact ⟨hentered, fun h => absurd h hrefers⟩

end Brought

theorem Entered.of_shownAt? {q r : Project}
    (h : p.Entered q index c d) (hshown : ∀ k, r.shownAt? k = q.shownAt? k) :
    p.Entered r index c d := by
  have hview : ∀ {α : Type} (k : ℕ) (view : Strict.Node → Option α),
      r.view? k view = q.view? k view := fun k view => congrArg (·.bind view) (hshown k)
  exact
    { preserves := ⟨fun k => (hview k _).trans (h.preserves.header k),
        fun k s name => (hview k _).trans (h.preserves.scope k s name)⟩
      elsewhere k c' hne := (hview k _).trans (h.elsewhere k c' hne)
      sole hsole := (congrArg Option.isSome (hview index _)).trans (h.sole hsole)
      left v hv hleaves := ⟨(hview index _).trans (h.left v hv hleaves).1,
        fun k s => (hview k _).trans ((h.left v hv hleaves).2 k s)⟩
      version v hv hleaves := (hview index _).trans (h.version v hv hleaves)
      listed hv := (congrArg Option.isSome (hview index _)).trans (h.listed hv)
      property v hv name hname := (hview _ _).trans (h.property v hv name hname)
      undeclared name hname k scope hne := (hview k _).trans (h.undeclared name hname k scope hne) }

end Project

end MavenPom
