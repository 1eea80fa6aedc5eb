import MavenPom.Proofs.Edit.Uniform
import MavenPom.Proofs.Project.Indentation
import MavenPom.Proofs.Refusal

/-!
# Uniform documents stay uniform

A request for a change that is carried out leaves every document uniform which was. The indentation
is found in each document before it is edited, and all that is added to it is laid out so. The line
breaks of a document are found in its text as a whole, and what is written must not bring in others.
-/

namespace MavenPom

open Markup MavenPom.Action

/-- Where a version element is nothing but a reference, all line breaks in the property's name are
    `e`. -/
def Markup.Tree.RefersOnly (t : Tree) (e : LineBreak) : Prop :=
  ∀ x, ∀ element ∈ t.element? x, element.localName = "version" →
    ∀ name ∈ VersionSlot.referenced? (Text.trim (t.text x)), e.Only name

theorem Markup.Tree.refersOnly_of_forall_lt {t : Tree} {e : LineBreak}
    (h : ∀ x < t.size, ∀ element ∈ t.element? x, element.localName = "version" →
      ∀ name ∈ VersionSlot.referenced? (Text.trim (t.text x)), e.Only name) : t.RefersOnly e := by
  intro x element helement
  refine h x (Nat.lt_of_not_le fun hle => ?_) element helement
  rw [Tree.element?, Tree.content_eq_document hle] at helement
  cases helement

/-! ## Documents -/

namespace Document

variable {d d' d'' : Document} {style : Indent}

/-- `d'` comes from `d` by edits that keep its tree uniform. -/
structure Lays (d d' : Document) : Prop where
  indent : d'.indent = d.indent
  edited : d.edited.WellFormed → Tree.Lays d.indent d.edited d'.edited

theorem Lays.refl (d : Document) : Lays d d := ⟨rfl, .refl⟩

theorem Lays.trans (h : Lays d d') (h' : Lays d' d'') : Lays d d'' where
  indent := h'.indent.trans h.indent
  edited hwell := by
    have hfirst := h.edited hwell
    exact hfirst.trans (h.indent ▸ h'.edited hfirst.wellFormed)

theorem facts_of_editor? {e : Editor} (he : d.editor? = some e) :
    e.tree = d.edited ∧ e.indent = d.indent ∧ (d.edited.WellFormed → e.root < d.edited.size) := by
  obtain ⟨root, hroot, rfl⟩ := Option.map_eq_some_iff.mp he
  exact ⟨rfl, rfl, fun hwell => hwell.child_lt (List.mem_of_find?_eq_some hroot)⟩

theorem lays_edit {f : Editor → Editor} (hf : ∀ e, d.editor? = some e → e.tree.WellFormed →
    e.root < e.tree.size → e.Lays (f e)) : Lays d (d.edit f) := by
  unfold Document.edit
  cases he : d.editor? with
  | none => exact .refl d
  | some e =>
    refine ⟨rfl, fun hwell => ?_⟩
    obtain ⟨htree, hindent, hroot⟩ := facts_of_editor? he
    have hlays := (hf e he (htree ▸ hwell) (htree ▸ hroot hwell)).tree
    rwa [htree, hindent] at hlays

/-- A document as it has been read, whose tree is uniform in a style and has elements inside its
    root element. -/
structure Regular (d : Document) (style : Indent) : Prop where
  read : ∃ bytes source, ofBytes bytes source = .ok d
  uniform : d.tree.Uniform style
  inhabited : ∃ r, d.tree.rootElement? = some r ∧ d.tree.childElements r ≠ []

/-- A regular document whose text, end tags and all, has mostly the line breaks of its tree, and
    whose versions refer to no property with others in its name. -/
structure Even (d : Document) (style : Indent) : Prop extends Regular d style where
  lineBreak : LineBreak.detect d.text = style.lineBreak
  refersOnly : d.tree.RefersOnly style.lineBreak

/-- A document whose edited tree is uniform in the style that further edits are indented in, with
    references to properties as in an even document. -/
structure Styled (d : Document) (style : Indent) : Prop where
  indent : d.indent = style
  wellFormed : d.edited.WellFormed
  uniform : d.edited.Uniform style
  refersOnly : d.edited.RefersOnly style.lineBreak

theorem regular_ofChars {cs : List Char} (hread : Readable cs) (hunit : ∃ m, style.IsMeasured m)
    (h : ∀ x < (ofChars cs).tree.size,
      ((ofChars cs).tree.content x).BreaksOnly style.lineBreak ∧
        LaidOut style ((ofChars cs).tree.isElement x) ((ofChars cs).tree.depthInside x)
          ((ofChars cs).tree.contents x))
    (hchild : ((ofChars cs).tree.rootElement?.any fun r =>
      !((ofChars cs).tree.childElements r).isEmpty) = true) : (ofChars cs).Regular style := by
  refine ⟨⟨_, _, ofBytes_encode hread⟩, Tree.uniform_of_forall_lt hunit h, ?_⟩
  obtain ⟨r, hr, hchild⟩ := (Option.any_eq_true ..).mp hchild
  exact ⟨r, hr, by simpa using hchild⟩

theorem detect_ofChars (cs : List Char) :
    LineBreak.detect (ofChars cs).text = (Indent.inferChars cs).lineBreak := by
  rw [← Indent.infer_ofList]
  rfl

theorem Regular.even_ofChars {cs : List Char} (h : (ofChars cs).Regular style)
    (hbreak : (Indent.inferChars cs).lineBreak = style.lineBreak)
    (hrefers : ∀ x < (ofChars cs).tree.size, ∀ element ∈ (ofChars cs).tree.element? x,
      element.localName = "version" →
        ∀ name ∈ VersionSlot.referenced? (Text.trim ((ofChars cs).tree.text x)),
          style.lineBreak.Only name) : (ofChars cs).Even style :=
  ⟨h, (detect_ofChars cs).trans hbreak, Tree.refersOnly_of_forall_lt hrefers⟩

/-- Once its layout has been captured, a document that has just been read has its edits indented as
    the text suggests. -/
theorem indent_of_capture (hfresh : d.layout = none) (h : Formatting.capture d = .ok d') :
    d'.edited = d.edited ∧ d'.indent = Indent.infer d.text := by
  unfold Formatting.capture captureLayout at h
  cases hcapture : d.capture with
  | error fault =>
    rw [hcapture] at h
    cases h
  | ok layout =>
    rw [hcapture] at h
    cases h
    have hlayout := capture_of_fresh hfresh hcapture
    unfold Layout.capture at hlayout
    cases hspan : rootTagSpan d.text with
    | error fault =>
      rw [hspan] at hlayout
      cases hlayout
    | ok span =>
      rw [hspan] at hlayout
      cases hlayout
      exact ⟨rfl, rfl⟩

/-- A uniform document is captured with its own style. -/
theorem Even.capture (h : d.Even style) (hcapture : Formatting.capture d = .ok d') :
    d'.Styled style := by
  obtain ⟨bytes, source, hread⟩ := h.read
  obtain ⟨hparse, node, hstrict, -⟩ := exists_node_of_ofBytes hread
  obtain ⟨-, -, hedited, hwell, hfresh, -⟩ := facts_of_ofBytes hread
  obtain ⟨hsame, hindent⟩ := indent_of_capture hfresh hcapture
  obtain ⟨r, hr, hchild⟩ := h.inhabited
  have hunit := Indent.unit_infer hparse hstrict h.uniform hr hchild
  have hbreak : (Indent.infer d.text).lineBreak = style.lineBreak := h.lineBreak
  have htree : d'.edited = d.tree := hsame.trans hedited
  refine ⟨?_, htree ▸ hwell, htree ▸ h.uniform, htree ▸ h.refersOnly⟩
  rw [hindent]
  obtain ⟨unit, lineBreak⟩ := style
  exact (Indent.mk.injEq ..).mpr ⟨hunit, hbreak⟩

theorem Styled.lays (h : d.Styled style) (hlays : d.Lays d') : d'.edited.Uniform style :=
  (h.indent ▸ hlays.edited h.wellFormed).uniform h.uniform

end Document

/-! ## Steps -/

namespace Project

variable {p p' p'' : Project} {d : Dependency} {index : ℕ} {x : NodeId} {name text : String}

/-- `p'` comes from `p` by edits that keep its documents uniform. -/
structure Lays (p p' : Project) : Prop where
  request : p'.request = p.request
  documents : List.Forall₂ Document.Lays p.documents p'.documents

theorem Lays.refl (p : Project) : Lays p p :=
  ⟨rfl, List.forall₂_same.mpr fun d _ => .refl d⟩

theorem Lays.trans (h : Lays p p') (h' : Lays p' p'') : Lays p p'' :=
  ⟨h'.request.trans h.request,
    forall₂_trans (fun _ _ _ hd hd' => hd.trans hd') h.documents h'.documents⟩

theorem lays_edit {f : Editor → Editor}
    (hf : ∀ doc e, p.document? index = some doc → doc.editor? = some e → e.tree.WellFormed →
      e.root < e.tree.size → e.Lays (f e)) : p.Lays (p.edit index f) := by
  refine ⟨request_modifyDocument .., ?_⟩
  rw [Project.edit, documents_modifyDocument]
  nth_rewrite 1 [← List.modify_id index p.documents]
  exact forall₂_modify (List.forall₂_same.mpr fun d _ => Document.Lays.refl d) index
    fun doc doc' _ hdoc h => h.trans (Document.lays_edit fun e he => hf doc' e hdoc he)

/-- All line breaks of a text are those of the document at a place. -/
def BreaksAlike (p : Project) (index : ℕ) (text : String) : Prop :=
  ∀ doc ∈ p.document? index, doc.indent.lineBreak.Only text

theorem Lays.exists_document (h : p.Lays p') {doc' : Document} (hdoc : doc' ∈ p'.document? index) :
    ∃ doc ∈ p.document? index, doc.Lays doc' := by
  have hrel := forall₂_getElem? h.documents index
  rw [show p'.documents[index]? = some doc' from hdoc] at hrel
  cases hget : p.documents[index]? with
  | none =>
    rw [hget] at hrel
    cases hrel
  | some doc =>
    rw [hget] at hrel
    cases hrel with
    | some hlays => exact ⟨doc, hget, hlays⟩

/-- A text is written into the document at a place. -/
def Admits (p : Project) (index : ℕ) (text : String) : Prop :=
  ∀ doc ∈ p.document? index, doc.indent.Admits text

theorem Admits.lays (h : p.Admits index text) (hlays : p.Lays p') : p'.Admits index text := by
  intro doc' hdoc'
  obtain ⟨doc, hdoc, hdlays⟩ := hlays.exists_document hdoc'
  exact hdlays.indent ▸ h doc hdoc

/-! ### Versions -/

/-- A property is written in the layout of the document that it is declared in. -/
theorem lays_withProperty {owner : ℕ} {value : String} (hname : p.BreaksAlike owner name)
    (hvalue : ∀ style : Indent, style.Admits value) :
    p.Lays (p.withProperty owner name value) := by
  unfold withProperty propertySite
  refine lays_edit fun doc e hdoc he hwell hroot => ?_
  cases hdeclared : VersionSlot.declaration? p owner name with
  | none =>
    rw [hdeclared] at hdoc
    obtain ⟨-, hindent, -⟩ := Document.facts_of_editor? he
    exact Editor.lays_setProperty hwell hroot (fun _ => hindent ▸ hname doc hdoc) (hvalue _)
  | some found =>
    obtain ⟨i, -, hfound⟩ := List.exists_of_findSome?_eq_some hdeclared
    obtain ⟨doc', e', hdoc', he', hindex, -, hproperty⟩ := declarationIn?_eq_some hfound
    rw [hdeclared, Option.map_some, Option.getD_some, hindex] at hdoc
    obtain rfl := Option.some.inj (hdoc'.symm.trans hdoc)
    obtain rfl := Option.some.inj (he'.symm.trans he)
    refine Editor.lays_setProperty hwell hroot (fun hnone => ?_) (hvalue _)
    cases hproperty.symm.trans hnone

theorem not_mem_propertyFor {artifactId : String} (h : '\n' ∉ artifactId.toList) :
    '\n' ∉ (VersionSlot.propertyFor artifactId).toList := by
  rw [VersionSlot.propertyFor, String.toList_append, List.mem_append, not_or]
  exact ⟨by decide, h⟩

/-- The documents of a project can be edited with their layouts kept: they are well-formed, all line
    breaks in the names that their versions refer to are their own, and the texts of the requested
    dependency are on lines. -/
structure Ready (p : Project) : Prop where
  wellFormed : ∀ doc ∈ p.documents, doc.edited.WellFormed
  refersOnly : ∀ doc ∈ p.documents, doc.edited.RefersOnly doc.indent.lineBreak
  dependency : ∀ d ∈ p.request.dependency, d.OnLines

/-- The property that is written for a version has no other line breaks than the document that the
    version stands in, be it the one that is referred to there or a new one. -/
theorem Ready.breaksAlike (h : p.Ready) (hd : d.OnLines) (index : ℕ) (c : Container) :
    p.BreaksAlike index (p.versionProperty index c d) := by
  intro doc hdoc
  unfold versionProperty VersionSlot.propertyToWrite
  cases hfilter : (VersionSlot.referenced? ((p.slotText? index c d.key).getD "")).filter
      (!VersionSlot.isBuiltin ·) with
  | none => exact LineBreak.only_of_not_mem (not_mem_propertyFor hd.artifactId)
  | some name =>
    obtain ⟨hname, -⟩ := Option.filter_eq_some_iff.mp hfilter
    cases htext : p.slotText? index c d.key with
    | none =>
      rw [htext] at hname
      cases hname
    | some text =>
      -- The text is that of a version element of the document.
      obtain ⟨doc', e, hdoc', he, htext'⟩ := lookup?_eq_some htext
      obtain rfl := Option.some.inj (hdoc.symm.trans hdoc')
      obtain ⟨slot, hslot, rfl⟩ := Option.map_eq_some_iff.mp htext'
      obtain ⟨entry, -, hversion⟩ := Option.bind_eq_some_iff.mp hslot
      have hmem : slot ∈ e.tree.childrenNamed entry e.ns "version" :=
        Editor.versionSlot?_eq_some.mp hversion ▸ List.mem_singleton_self slot
      obtain ⟨element, helement, hlocal⟩ :=
        Option.map_eq_some_iff.mp (Tree.mem_childrenNamed.mp hmem).2.1
      rw [htext, Option.getD_some, Editor.text] at hname
      rw [(Document.facts_of_editor? he).1] at helement hname
      exact h.refersOnly doc (mem_documents_of_document? hdoc) slot element helement hlocal name
        hname

/-- The text that is written for a version can be written into its document. -/
theorem Ready.admits (h : p.Ready) (hd : d.OnLines) {v : String} (hv : d.version = some v)
    (index : ℕ) (c : Container) : p.Admits index (p.versionText index c d v) := by
  intro doc hdoc
  unfold versionText
  split
  · exact VersionSlot.admits_reference (h.breaksAlike hd index c doc hdoc)
  · exact hd.admits_version _ hv

theorem not_mem_path (c : Container) : ∀ step ∈ c.path, '\n' ∉ step.toList := by
  cases c <;> decide

/-- Bringing in a dependency keeps the documents uniform. -/
theorem lays_brought (h : p.Ready) (hd : d.OnLines) : p.Lays (p.brought d) := by
  refine brought_induction .refl .trans (fun v hv _ => ?_) (fun v hv hprepared => ?_)
    fun q index c _ => ?_
  · exact lays_withProperty (h.breaksAlike hd _ _) fun style => hd.admits_version style hv
  · refine lays_edit fun doc e hdoc he hwell hroot => ?_
    have hadmits : ∀ text, some (p.versionText (p.site d).index (p.site d).container d v) =
        some text → e.indent.Admits text := by
      rintro _ ⟨rfl⟩
      rw [(Document.facts_of_editor? he).2.1]
      exact ((h.admits hd hv _ _).lays hprepared) doc hdoc
    rw [place_prepared h.wellFormed hdoc he, Editor.bring]
    split
    · next hentry =>
      exact Editor.lays_addVersion hwell (Editor.lt_of_findDependency? hwell hroot hentry)
        (hadmits _ rfl)
    · exact Editor.lays_addEntry hwell hroot (not_mem_path _) hd hadmits
  · refine lays_edit fun doc e hdoc he hwell hroot => ?_
    unfold Editor.enlist
    split
    · exact .refl hwell
    · exact Editor.lays_addEntry hwell hroot (not_mem_path c) hd (by simp)

/-! ## Requests -/

/-- A request that is carried out leaves every document uniform which was, in the same style, where
    no text of the dependency is blank or has a line break. -/
theorem uniform_of_modify {styles : List Indent}
    (heven : List.Forall₂ Document.Even p.documents styles)
    (hdependency : ∀ d ∈ p.request.dependency, d.OnLines) {handled : Bool}
    (h : Runs modify p handled p') :
    List.Forall₂ (fun doc style => doc.edited.Uniform style) p'.documents styles := by
  obtain ⟨p₁, p₂, hrequest, hcaptured, hedits, hafter⟩ := phases_of_modify h
  -- Before the edits, every document is indented in its own style, and afterwards it still is.
  have hstyled : List.Forall₂ Document.Styled p₁.documents styles :=
    forall₂_trans (fun _ _ _ hcapture heven => heven.capture hcapture) hcaptured.flip heven
  have hstyle : ∀ doc ∈ p₁.documents, ∃ style, doc.Styled style :=
    forall_mem_of_forall₂ (P := fun _ => True) hstyled.flip (fun style _ hdoc _ => ⟨style, hdoc⟩)
      fun _ _ => trivial
  have hready : p₁.Ready := by
    refine ⟨fun doc hdoc => ?_, fun doc hdoc => ?_, hrequest ▸ hdependency⟩
    · obtain ⟨style, hdoc⟩ := hstyle doc hdoc
      exact hdoc.wellFormed
    · obtain ⟨style, hdoc⟩ := hstyle doc hdoc
      exact hdoc.indent ▸ hdoc.refersOnly
  have hlays : p₁.Lays p₂ := by
    rcases hedits with rfl | ⟨d, hd, rfl⟩
    · exact .refl _
    · exact lays_brought hready (hdependency d hd)
  have huniform : List.Forall₂ (fun doc style => doc.edited.Uniform style) p₂.documents styles :=
    forall₂_trans (fun _ _ _ hdoc hstyled => hstyled.lays hdoc) hlays.documents.flip hstyled
  exact forall₂_trans (fun _ _ _ hsame huniform => hsame.edited ▸ huniform)
    hafter.documents.flip huniform

section Styles

/-- The characters of lines that are broken alike. -/
def lined (e : LineBreak) (lines : List String) : List Char :=
  ((lines.map (·.toList)).intersperse e.text.toList).flatten

/-- A target whose lines are indented by two spaces. -/
def spacedTarget : List Char :=
  lined .lf ["<project>", "  <parent>", "    <groupId>r</groupId>",
    "    <artifactId>r</artifactId>", "  </parent>", "</project>"]

/-- A parent with other line breaks, whose lines are indented by a tab. -/
def tabbedParent : List Char :=
  lined .crlf ["<project>", "\t<groupId>r</groupId>", "\t<artifactId>r</artifactId>",
    "\t<packaging>pom</packaging>", "</project>"]

/-- A project of such a target and its parent, and a request that writes properties. -/
def styled : Project :=
  ofChars { plainRequest "2" with useProperties := true } spacedTarget [tabbedParent]

theorem uniform_of_modify_styled :
    List.Forall₂ Document.Even styled.documents [⟨"  ", .lf⟩, ⟨"\t", .crlf⟩] ∧
    (∀ d ∈ styled.request.dependency, d.OnLines) ∧
    ∃ p', Runs modify styled true p' ∧
      List.Forall₂ (fun doc style => doc.edited.Uniform style) p'.documents
        [⟨"  ", .lf⟩, ⟨"\t", .crlf⟩] := by
  have hreadable : ∀ cs ∈ [spacedTarget, tabbedParent], Document.Readable cs := by decide +kernel
  have hspaced : (Document.ofChars spacedTarget).Even ⟨"  ", .lf⟩ :=
    (Document.regular_ofChars (hreadable _ (by simp)) ⟨⟨' ', 2⟩, by decide, by decide, by decide⟩
      (by decide +kernel) (by decide +kernel)).even_ofChars (by decide +kernel) (by decide +kernel)
  have htabbed : (Document.ofChars tabbedParent).Even ⟨"\t", .crlf⟩ :=
    (Document.regular_ofChars (hreadable _ (by simp)) ⟨⟨'\t', 1⟩, by decide, by decide, by decide⟩
      (by decide +kernel) (by decide +kernel)).even_ofChars (by decide +kernel) (by decide +kernel)
  have heven : List.Forall₂ Document.Even styled.documents [⟨"  ", .lf⟩, ⟨"\t", .crlf⟩] :=
    .cons hspaced (.cons htabbed .nil)
  have hdependency : ∀ d ∈ styled.request.dependency, d.OnLines := by decide +kernel
  obtain ⟨p', hruns, -⟩ : ∃ p', Runs modify styled true p' ∧
      p'.documents.map (fun _ => ()) = [(), ()] :=
    exists_of_seen? hreadable (by simp [plainRequest]) (by decide +kernel) (by decide +kernel)
      (by decide +kernel)
  exact ⟨heven, hdependency, p', hruns, uniform_of_modify heven hdependency hruns⟩

/-- A request that leaves the target with a node that strays from a style. -/
theorem exists_strays (request : Request) (target : List Char) (style : Indent)
    (path : List NodeId) (hread : Document.Readable target)
    (hdependency : request.dependency ≠ none)
    (hfault : Guard.hierarchyFault? (ofChars request target []) = none)
    (hlayout : (Document.ofChars target).captured.layout ≠ none)
    (h : (ofChars request target []).seen? (fun doc => decide (doc.edited.Strays style path)) =
      some (true, [true])) :
    ∃ p', Runs modify (ofChars request target []) true p' ∧
      ¬List.Forall₂ (fun doc style => doc.edited.Uniform style) p'.documents [style] := by
  obtain ⟨p', hruns, hseen⟩ := exists_of_seen? (by simpa using hread) hdependency hfault
    (by simpa using hlayout) h
  refine ⟨p', hruns, fun huniform => ?_⟩
  obtain ⟨doc, hdoc, hstrays⟩ := List.map_eq_singleton_iff.mp hseen
  rw [hdoc] at huniform
  cases huniform with
  | cons huniform _ => exact (of_decide_eq_true hstrays).not_uniform huniform

/-- A target with a child element, whose end tag closes as is said. -/
def taggedTarget (e : LineBreak) (close : String) : List Char :=
  lined e ["<project>", "  <b></b" ++ close ++ ">", "</project>"]

/-- A request for a dependency with a blank scope. -/
def blankRequest : Request :=
  { plainRequest "2" with
    dependency := some { Dependency.ofKey ⟨"g", "a"⟩ (some "2") with scope := " " } }

/-- A target with line breaks of two characters, which lists `g:a` at a version. -/
def brokenTarget (version : String) : List Char :=
  lined .crlf ["<project>", "  <dependencies>", "    <dependency>", "      <groupId>g</groupId>",
    "      <artifactId>a</artifactId>", "      <version>" ++ version ++ "</version>",
    "    </dependency>", "  </dependencies>", "</project>"]

/-- Line breaks inside of end tags, blank texts of the dependency, and line breaks in the name of a
    property each leave a document that is no longer uniform. -/
theorem not_uniform_of_modify :
    (∃ p p' : Project, ∃ style,
      List.Forall₂ Document.Regular p.documents [style] ∧
      (∀ d ∈ p.request.dependency, d.OnLines) ∧
      (∀ doc ∈ p.documents, doc.tree.RefersOnly style.lineBreak) ∧ Runs modify p true p' ∧
      ¬List.Forall₂ (fun doc style => doc.edited.Uniform style) p'.documents [style]) ∧
    (∃ p p' : Project, ∃ style, List.Forall₂ Document.Even p.documents [style] ∧
      (∀ d ∈ p.request.dependency, ∀ text ∈ d.texts, '\n' ∉ text.toList) ∧ Runs modify p true p' ∧
      ¬List.Forall₂ (fun doc style => doc.edited.Uniform style) p'.documents [style]) ∧
    ∃ p p' : Project, ∃ style,
      List.Forall₂ Document.Regular p.documents [style] ∧
      (∀ d ∈ p.request.dependency, d.OnLines) ∧
      (∀ doc ∈ p.documents, LineBreak.detect doc.text = style.lineBreak) ∧ Runs modify p true p' ∧
      ¬List.Forall₂ (fun doc style => doc.edited.Uniform style) p'.documents [style] := by
  refine ⟨?_, ?_, ?_⟩
  · have hregular : (Document.ofChars (taggedTarget .crlf "\n\n\n")).Regular ⟨"  ", .crlf⟩ :=
      Document.regular_ofChars (by decide +kernel) ⟨⟨' ', 2⟩, by decide, by decide, by decide⟩
        (by decide +kernel) (by decide +kernel)
    obtain ⟨p', hruns, hstrays⟩ := exists_strays (plainRequest "2")
      (taggedTarget .crlf "\n\n\n") ⟨"  ", .crlf⟩ [1] (by decide +kernel)
      (by simp [plainRequest]) (by decide +kernel) (by decide +kernel) (by decide +kernel)
    refine ⟨_, p', _, .cons hregular .nil, by decide +kernel, fun doc hdoc => ?_, hruns, hstrays⟩
    obtain rfl := List.mem_singleton.mp hdoc
    exact Tree.refersOnly_of_forall_lt (by decide +kernel)
  · have heven : (Document.ofChars (taggedTarget .lf "")).Even ⟨"  ", .lf⟩ :=
      (Document.regular_ofChars (by decide +kernel) ⟨⟨' ', 2⟩, by decide, by decide, by decide⟩
        (by decide +kernel) (by decide +kernel)).even_ofChars (by decide +kernel)
          (by decide +kernel)
    obtain ⟨p', hruns, hstrays⟩ := exists_strays blankRequest
      (taggedTarget .lf "") ⟨"  ", .lf⟩ [1, 5, 7, 20] (by decide +kernel)
      (by simp [blankRequest]) (by decide +kernel) (by decide +kernel) (by decide +kernel)
    exact ⟨_, p', _, .cons heven .nil, by decide +kernel, hruns, hstrays⟩
  · have hregular : (Document.ofChars (brokenTarget "$\x7ba&#10;b\x7d")).Regular ⟨"  ", .crlf⟩ :=
      Document.regular_ofChars (by decide +kernel) ⟨⟨' ', 2⟩, by decide, by decide, by decide⟩
        (by decide +kernel) (by decide +kernel)
    obtain ⟨p', hruns, hstrays⟩ := exists_strays
      { plainRequest "2" with useProperties := true } (brokenTarget "$\x7ba&#10;b\x7d")
      ⟨"  ", .crlf⟩ [1, 18, 20] (by decide +kernel) (by simp [plainRequest])
      (by decide +kernel) (by decide +kernel) (by decide +kernel)
    refine ⟨_, p', _, .cons hregular .nil, by decide +kernel, fun doc hdoc => ?_, hruns, hstrays⟩
    obtain rfl := List.mem_singleton.mp hdoc
    exact (Document.detect_ofChars _).trans (by decide +kernel)

end Styles

end Project

end MavenPom
