import MavenPom.Proofs.Markup.Replacement
import MavenPom.Proofs.PropertyUpgrade
import MavenPom.Proofs.Refusal

/-!
# Upgrades in place

A version that is written where an entry has one already changes the text of that one element. The
rest of its document stays as it is written, and other documents stay as they are.
-/

namespace MavenPom

open Markup MavenPom.Action

/-! ## Texts that show -/

namespace Markup.Tree

variable {t : Tree} {r x : NodeId} {text : String}

/-- An element that is given a text is the only one that has other elements in it. -/
theorem childElements_setText_of_ne (ht : t.WellFormed) (hx : x < t.size) {id : NodeId}
    (hne : id ≠ x) : (t.setText x text).childElements id = t.childElements id := by
  rw [childElements, children_setText text hx, if_neg (Ne.symm hne)]
  refine List.filter_congr fun c hc => isElement_congr ?_
  rw [content_setText, if_neg (Nat.ne_of_lt (ht.child_lt hc))]

/-- If an element below carries the same content once another text has been written, the trimmed
    text is the same. -/
theorem trim_text_eq_of_sameElement (ht : t.WellFormed) (hx : x < t.size) {ns : Option String}
    {path : List String} {height : ℕ} {id entry : NodeId}
    (h : sameElement t (t.setText x text) height id id = true)
    (hentry : entry ∈ t.select ns path id) (hchild : x ∈ t.childElements entry) :
    Text.trim (t.text x) = Text.trim text := by
  have hself : ∀ {height : ℕ} {id : NodeId}, sameElement t (t.setText x text) height id id = true →
      id = x → Text.trim (t.text x) = Text.trim text := by
    rintro height id h rfl
    cases height with
    | zero => cases h
    | succ height =>
      obtain ⟨-, -, htext, -⟩ := sameElement_spec h
      rw [htext, text_setText hx]
  have hstep : ∀ {height : ℕ} {id c : NodeId},
      sameElement t (t.setText x text) height id id = true → id ≠ x → c ∈ t.childElements id →
      ∃ height, sameElement t (t.setText x text) height c c = true := by
    intro height id c h hne hc
    cases height with
    | zero => cases h
    | succ height =>
      obtain ⟨-, -, -, hchildren⟩ := sameElement_spec h
      rw [childElements_setText_of_ne ht hx hne] at hchildren
      exact ⟨height, List.forall₂_same.mp hchildren c hc⟩
  induction path generalizing height id with
  | nil =>
    obtain rfl := List.mem_singleton.mp hentry
    by_cases heq : entry = x
    · exact hself h heq
    · obtain ⟨_, hsame⟩ := hstep h heq hchild
      exact hself hsame rfl
  | cons step path ih =>
    obtain ⟨c, hc, hentry⟩ := List.mem_flatMap.mp hentry
    by_cases heq : id = x
    · exact hself h heq
    · obtain ⟨_, hsame⟩ := hstep h heq (mem_childrenNamed.mp hc).1
      exact ih hsame hentry

/-- Giving an element of the root element another text is a change of the document's content. -/
theorem sameContent_setText (ht : t.Rooted r) (hx : t.Inner r x) {ns : Option String}
    {path : List String} {entry : NodeId} (hentry : entry ∈ t.select ns path r)
    (hchild : x ∈ t.childElements entry) (htext : Text.trim (t.text x) ≠ Text.trim text) :
    t.sameContent (t.setText x text) = false := by
  rw [Bool.eq_false_iff]
  intro hsame
  have hself : sameElement t (t.setText x text) t.size r r = true := by
    rwa [sameContent, ht.rootElement?, (grown_setText ht hx text).rooted.rootElement?] at hsame
  exact htext (trim_text_eq_of_sameElement ht.wellFormed (lt_of_isElement hx.isElement) hself
    hentry hchild)

end Markup.Tree

namespace Editor

variable {e : Editor} {c : Container} {key : ArtifactKey} {slot : NodeId} {text : String}

/-- The version element that an upgrade writes: that of the entry that is listed, or else that of
    the entry that is managed. -/
def upgradable? (e : Editor) (key : ArtifactKey) : Option NodeId :=
  (e.slot? .dependencies key).or (e.slot? .managed key)

theorem inner_slot? (h : e.tree.Rooted e.root) (hslot : e.slot? c key = some slot) :
    e.tree.Inner e.root slot := by
  obtain ⟨entry, hentry, hversion⟩ := Option.bind_eq_some_iff.mp hslot
  exact inner_versionSlot? h (inner_findDependency? h hentry) hversion

theorem inner_upgradable? (h : e.tree.Rooted e.root) (hslot : e.upgradable? key = some slot) :
    e.tree.Inner e.root slot := by
  rcases Option.or_eq_some_iff.mp hslot with hslot | ⟨-, hslot⟩ <;> exact inner_slot? h hslot

theorem sameContent_setText (h : e.tree.Rooted e.root) (hslot : e.upgradable? key = some slot)
    (htext : e.text slot ≠ Text.trim text) :
    e.tree.sameContent (e.tree.setText slot text) = false := by
  have hinner := inner_upgradable? h hslot
  obtain ⟨c, hslot⟩ : ∃ c, e.slot? c key = some slot := by
    rcases Option.or_eq_some_iff.mp hslot with hslot | ⟨-, hslot⟩
    · exact ⟨_, hslot⟩
    · exact ⟨_, hslot⟩
  obtain ⟨entry, hentry, hversion⟩ := Option.bind_eq_some_iff.mp hslot
  have hmem : slot ∈ e.tree.childrenNamed entry e.ns "version" :=
    versionSlot?_eq_some.mp hversion ▸ List.mem_singleton_self slot
  exact Tree.sameContent_setText h hinner (mem_entryIds_of_findDependency? hentry)
    (Tree.mem_childrenNamed.mp hmem).1 htext

end Editor

namespace Document

variable {d d' : Document}

/-- The editor of a document that has been read is about the tree as it was read. -/
theorem rooted_of_ofBytes {bytes : Bytes} {source : DocumentSource} {e : Editor}
    (hread : ofBytes bytes source = .ok d) (he : d.editor? = some e) :
    e.tree = d.tree ∧ e.tree.Rooted e.root := by
  obtain ⟨-, -, hedited, -⟩ := facts_of_ofBytes hread
  obtain ⟨r, hgrown⟩ := (tended_of_ofBytes hread).edited
  obtain ⟨e', he', htree, hroot⟩ := editor?_of_rooted hgrown.rooted
  obtain rfl := Option.some.inj (he.symm.trans he')
  exact ⟨htree.trans hedited, htree ▸ hroot ▸ hgrown.rooted⟩

theorem edited_edit {e : Editor} (he : d.editor? = some e) (f : Editor → Editor) :
    (d.edit f).edited = (f e).tree := by
  unfold Document.edit
  rw [he]

/-- The result of a document whose edited tree has other content is that tree in the layout of the
    document. -/
theorem Settled.exists_restoreText (h : d'.Settled) (hsame : SameReading d d') {bytes : Bytes}
    {source : DocumentSource} (hread : ofBytes bytes source = .ok d)
    (hchanges : d.tree.sameContent d'.edited = false) :
    ∃ layout restored, Layout.capture d.text d.charset = .ok layout ∧
      layout.restoreText d'.edited.render = .ok restored ∧
      d'.result = some (d.charset.encode restored) := by
  have hdirty : d'.dirty = true := by
    rw [h.dirty_eq, hasChanges, hsame.tree, hchanges]
    rfl
  obtain ⟨-, -, -, -, hlayout, -⟩ := facts_of_ofBytes hread
  obtain ⟨layout, restored, hcapture, hrestore, hresult⟩ := h.changed hdirty
  have hown := capture_of_fresh hlayout (hsame.capture_eq ▸ hcapture)
  exact ⟨layout, restored, hown, hrestore, by rw [hresult, Layout.charset_of_capture hown]⟩

end Document

namespace Project

variable {p p' : Project} {d : Dependency} {v : String} {e : Editor} {slot : NodeId}

/-- Without properties, a version that is not left in place is written as the text
    of its element. -/
theorem brought_eq_setText (hv : d.version = some v) (he : p.target.editor? = some e)
    (hslot : e.upgradable? d.key = some slot) (hprops : p.request.useProperties = false)
    (hkeeps : VersionSlot.keeps p (e.text slot) v = false) :
    p.brought d = p.edit 0 (·.setText slot v) := by
  have hlookup : ∀ c, Insertion.lookup? p 0 (·.slot? c d.key) = e.slot? c d.key := fun _ =>
    lookup?_eq rfl he
  obtain ⟨c, hc, hsite⟩ : ∃ c, e.slot? c d.key = some slot ∧ p.site d = ⟨0, c, false⟩ := by
    rcases Option.or_eq_some_iff.mp hslot with hlisted | ⟨hnone, hmanaged⟩
    · exact ⟨_, hlisted, by simp [site, slotText?_isSome, hlookup, hlisted]⟩
    · exact ⟨_, hmanaged, by simp [site, slotText?_isSome, hlookup, hnone, hmanaged]⟩
  have hleaves : p.leaves 0 c d v = false := by
    rw [leaves, slotText?, lookup?_eq rfl he, Editor.slotText?, hc, Option.map_some,
      Option.any_some]
    exact hkeeps
  have hprepared : p.prepared 0 c d v = p := by simp [prepared, hprops]
  have htext : p.versionText 0 c d v = v := by simp [versionText, hprops]
  have hplace : p.place 0 c d v = (·.setText slot v) := by
    unfold place
    rw [hlookup, hc]
  simp only [brought, withEntry, hv, hsite, withVersion, hleaves, hprepared, htext, hplace,
    Bool.false_eq_true, if_false]

section

variable (hread : ∀ doc ∈ p.documents, ∃ bytes source, Document.ofBytes bytes source = .ok doc)
  (hfault : Guard.hierarchyFault? p = none) (hprops : p.request.useProperties = false)
  (hd : p.request.dependency = some d) (he : p.target.editor? = some e)
  (hslot : e.upgradable? d.key = some slot) (htext : e.text slot ≠ v)
  (hkeeps : VersionSlot.keeps p (e.text slot) v = false)

include hread hfault hprops hd he hslot htext hkeeps

/-- A request for a dependency that has a version element is carried out: this element is given the
    version, and nothing else is edited. -/
theorem exists_modify_upgradable (hv : d.version = some v) :
    ∃ p', Runs Project.modify p true p' ∧ p'.target.edited = e.tree.setText slot v ∧
      List.Forall₂ Document.SameEdits p.ancestors p'.ancestors := by
  have htended : p.Tended := fun doc hdoc =>
    let ⟨_, _, hbytes⟩ := hread doc hdoc
    Document.tended_of_ofBytes hbytes
  have hmay : p.MayBring (p.site d).index (p.site d).container d := fun _ _ _ hnot =>
    absurd hnot (by simp [hprops])
  obtain ⟨p₁, p', hsame, hmodify, hafter⟩ := exists_modify_brought htended hd hfault hmay
  obtain ⟨htarget, hancestors⟩ := List.forall₂_cons.mp hsame.documents
  -- The target with its layout captured has the same editor, but for the indentation.
  obtain ⟨e₁, he₁, hsame₁⟩ : ∃ e₁, p₁.target.editor? = some e₁ ∧
      { e with indent := e₁.indent, dirty := e₁.dirty } = e₁ := by
    rw [SameEdits.editor? htarget, he]
    exact ⟨_, rfl, rfl⟩
  have hslot₁ : e₁.upgradable? d.key = some slot := hsame₁ ▸ hslot
  have htext₁ : e₁.text slot = e.text slot := by
    rw [← hsame₁]
    rfl
  have hne₁ : e₁.text slot ≠ v := fun h => htext (htext₁.symm.trans h)
  have hkeeps₁ : VersionSlot.keeps p₁ (e₁.text slot) v = false := by
    rw [VersionSlot.keeps, hsame.request, hsame.properties_eq, htext₁]
    exact hkeeps
  rw [brought_eq_setText hv he₁ hslot₁ (hsame.request ▸ hprops) hkeeps₁] at hafter
  obtain ⟨htarget', hancestors'⟩ := List.forall₂_cons.mp hafter.documents
  refine ⟨p', hmodify, ?_, forall₂_trans (fun _ _ _ hd hd' => hd.trans hd') hancestors hancestors'⟩
  have hedited : (p₁.target.edit (·.setText slot v)).edited = (e₁.setText slot v).tree :=
    Document.edited_edit he₁ _
  rw [htarget'.edited]
  refine hedited.trans ?_
  rw [Editor.setText, if_neg hne₁, ← hsame₁]

/-- The result of the target is its tree with the version element given the version, in the layout
    of the target. All other documents result in the bytes that they were read from. -/
theorem exists_restoreText_upgradable (hrequested : d.Requested v) :
    ∃ p', Runs Project.modify p true p' ∧
      (∃ layout restored, Layout.capture p.target.text p.target.charset = .ok layout ∧
        layout.restoreText (p.target.tree.setText slot v).render = .ok restored ∧
        p'.target.result = some (p.target.charset.encode restored)) ∧
      List.Forall₂ (fun doc doc' => doc'.result = some doc.bytes) p.ancestors p'.ancestors := by
  obtain ⟨p', hmodify, hwritten, hedits⟩ := exists_modify_upgradable hread hfault hprops hd he hslot
    htext hkeeps hrequested.version
  obtain ⟨p₁, hreading, hbackward⟩ := exists_backward_of_modify hmodify
  obtain ⟨⟨hsame, hsettled⟩, hothers⟩ := List.forall₂_cons.mp (hreading.settled hbackward)
  refine ⟨p', hmodify, ?_, ?_⟩
  · obtain ⟨bytes, source, hbytes⟩ := hread p.target (List.mem_cons_self ..)
    obtain ⟨htree, hrooted⟩ := Document.rooted_of_ofBytes hbytes he
    have hchanges := Editor.sameContent_setText hrooted hslot (hrequested.trimmed.2.1.symm ▸ htext)
    rw [← hwritten, htree] at hchanges
    rw [htree] at hwritten
    exact hwritten ▸ hsettled.exists_restoreText hsame hbytes hchanges
  · obtain ⟨hlength, hothers⟩ := List.forall₂_iff_zip.mp hothers
    refine List.forall₂_iff_zip.mpr ⟨hlength, fun {doc doc'} hmem => ?_⟩
    obtain ⟨hsame, hsettled⟩ := hothers hmem
    obtain ⟨bytes, source, hbytes⟩ :=
      hread doc (List.mem_cons_of_mem _ (List.of_mem_zip hmem).1)
    obtain ⟨-, -, hedited, hwell, -⟩ := Document.facts_of_ofBytes hbytes
    exact (hsettled.result_eq hsame hwell
      (((List.forall₂_iff_zip.mp hedits).2 hmem).edited.trans hedited)).2

/-- An upgrade in place changes the text of the target in the content of the version element, and in
    the white space in end tags of elements that have content. All other documents result in the
    bytes that they were read from. A byte order mark at the start of the target's text (one more
    than decoding takes away) is excluded: the offsets of markup leave it out. -/
theorem upgraded_in_place (hrequested : d.Requested v)
    (hmark : p.target.text.toList.head? ≠ some '\uFEFF') :
    ∃ p', Runs Project.modify p true p' ∧
      p'.target.result = some (p.target.charset.encode
        (Token.tightened (Token.replaced p.target.text slot (escape v)))) ∧
      List.Forall₂ (fun doc doc' => doc'.result = some doc.bytes) p.ancestors p'.ancestors := by
  obtain ⟨p', hmodify, ⟨layout, restored, hcapture, hrestore, hresult⟩, hothers⟩ :=
    exists_restoreText_upgradable hread hfault hprops hd he hslot htext hkeeps hrequested
  refine ⟨p', hmodify, ?_, hothers⟩
  obtain ⟨bytes, source, hbytes⟩ := hread p.target (List.mem_cons_self ..)
  obtain ⟨hparse, node, hnode⟩ := Document.parse_of_ofBytes hbytes
  obtain ⟨htree, hrooted⟩ := Document.rooted_of_ofBytes hbytes he
  obtain ⟨element, helement⟩ :=
    Option.isSome_iff_exists.mp (Editor.inner_upgradable? hrooted hslot).isElement
  rw [htree, Tree.element?_eq_some_iff] at helement
  obtain ⟨own, hown, hreplaced⟩ := Layout.restoreText_setText hparse hnode hmark helement
    hrequested.trimmed.2.2 p.target.charset
  obtain rfl : own = layout := Except.ok.inj (hown.symm.trans hcapture)
  rw [hresult, Except.ok.inj (hrestore.symm.trans hreplaced)]

end

section Scattered

open Spelling

/-- A target in unusual spellings, whose entry for `g:a` holds these characters for its version. -/
def scatteredTarget (version : List Char) : List Char :=
  "<project >".toList ++ parent ++ "<b ></b ><dependencies><dependency >".toList ++
    field "groupId" "g" ++ field "artifactId" "a" ++ version ++
    "</dependency></dependencies></project>\n".toList

/-- A project of such a target and its parent, and a request for version 2. -/
def scattered : Project :=
  ofChars (plainRequest "2") (scatteredTarget "<version\n/>".toList) [element "project" [named]]

example : Token.replaced (String.ofList (scatteredTarget "<version\n/>".toList)) 14 "2" =
    String.ofList (scatteredTarget "<version\n>2</version>".toList) := by
  rw [Token.replaced, Token.scan_ofList, String.toList_ofList]
  exact congrArg String.ofList (by decide +kernel)

theorem upgraded_in_place_scattered :
    (∀ doc ∈ scattered.documents, ∃ bytes source, Document.ofBytes bytes source = .ok doc) ∧
    Guard.hierarchyFault? scattered = none ∧ scattered.request.useProperties = false ∧
    scattered.request.dependency = some (Dependency.ofKey ⟨"g", "a"⟩ (some "2")) ∧
    (Dependency.ofKey ⟨"g", "a"⟩ (some "2")).Requested "2" ∧
    (∃ e, scattered.target.editor? = some e ∧ e.upgradable? ⟨"g", "a"⟩ = some 14 ∧
      e.text 14 ≠ "2" ∧ VersionSlot.keeps scattered (e.text 14) "2" = false) ∧
    scattered.target.text.toList.head? ≠ some '\uFEFF' ∧
    ∃ p', Runs Project.modify scattered true p' ∧
      p'.target.result = some (scattered.target.charset.encode
        (Token.tightened (Token.replaced scattered.target.text 14 (escape "2")))) ∧
      List.Forall₂ (fun doc doc' => doc'.result = some doc.bytes) scattered.ancestors
        p'.ancestors := by
  have hreadable : ∀ cs ∈ [scatteredTarget "<version\n/>".toList, element "project" [named]],
      Document.Readable cs := by
    decide +kernel
  have hread : ∀ doc ∈ scattered.documents,
      ∃ bytes source, Document.ofBytes bytes source = .ok doc := ofBytes_of_readable hreadable
  have hfault : Guard.hierarchyFault? scattered = none := by decide +kernel
  have hrequested : (Dependency.ofKey ⟨"g", "a"⟩ (some "2")).Requested "2" :=
    ⟨⟨"g:a:2", by decide +kernel⟩, rfl⟩
  have hlookup : (scattered.target.editor?.bind fun e =>
      (e.upgradable? ⟨"g", "a"⟩).map fun slot => (slot, e.text slot)) = some (14, "") := by
    decide +kernel
  obtain ⟨e, he, hpair⟩ := Option.bind_eq_some_iff.mp hlookup
  obtain ⟨_, hslot, hpair⟩ := Option.map_eq_some_iff.mp hpair
  obtain ⟨rfl, htext⟩ := Prod.mk.inj hpair
  have hne : e.text 14 ≠ "2" := by
    rw [htext]
    decide
  have hkeeps : VersionSlot.keeps scattered (e.text 14) "2" = false := rfl
  have hmark : scattered.target.text.toList.head? ≠ some '\uFEFF' := by
    rw [show scattered.target.text = String.ofList (scatteredTarget _) from rfl,
      String.toList_ofList]
    decide
  exact ⟨hread, hfault, rfl, rfl, hrequested, ⟨e, he, hslot, hne, hkeeps⟩, hmark,
    upgraded_in_place hread hfault rfl rfl he hslot hne hkeeps hrequested hmark⟩

end Scattered

section Marked

open Spelling

/-- A target that lists `g:a` at a version, after a byte order mark. -/
def markedTarget (v : String) : List Char := '\uFEFF' :: listedTarget v

/-- A project of such a target in UTF-8, with the mark that decoding takes away, and a request for
    version 2. -/
def marked : Project :=
  let bytes := Charset.Encoding.utf8.mark ++ Utf8.encode (markedTarget "1")
  ⟨Document.ofDecoded bytes ⟨.utf8, true⟩ (markedTarget "1"), [], plainRequest "2", false⟩

/-- The mark that decoding leaves moves the offsets of markup, and the upgrade breaks the start tag
    of the root element. -/
theorem not_upgraded_in_place_marked :
    (∀ doc ∈ marked.documents, ∃ bytes source, Document.ofBytes bytes source = .ok doc) ∧
    marked.target.text = String.ofList (markedTarget "1") ∧
    ∃ p', Runs Project.modify marked true p' ∧ p'.target.result ≠
      some (marked.target.charset.encode (String.ofList (markedTarget "2"))) := by
  have hread : ∀ doc ∈ marked.documents,
      ∃ bytes source, Document.ofBytes bytes source = .ok doc := by
    intro doc hdoc
    obtain rfl := List.mem_singleton.mp hdoc
    exact ⟨_, _, Document.ofBytes_mark _ (by decide +kernel) (by decide +kernel)
      (by decide +kernel)⟩
  have hlookup : (marked.target.editor?.bind fun e =>
      (e.upgradable? ⟨"g", "a"⟩).map fun slot => (slot, e.text slot)) = some (8, "1") := by
    decide +kernel
  obtain ⟨e, he, hpair⟩ := Option.bind_eq_some_iff.mp hlookup
  obtain ⟨_, hslot, hpair⟩ := Option.map_eq_some_iff.mp hpair
  obtain ⟨rfl, htext⟩ := Prod.mk.inj hpair
  have hne : e.text 8 ≠ "2" := by
    rw [htext]
    decide
  obtain ⟨p', hruns, ⟨layout, restored, hcapture, hrestore, hresult⟩, -⟩ :=
    exists_restoreText_upgradable hread rfl rfl rfl he hslot hne rfl
      ⟨⟨"g:a:2", by decide +kernel⟩, rfl⟩
  refine ⟨hread, rfl, p', hruns, ?_⟩
  -- The end of the start tag has been taken for a part of the tag's content.
  have hbroken : ((Layout.capture marked.target.text marked.target.charset).bind fun l =>
      l.restoreText (marked.target.tree.setText 8 "2").render) =
        .ok (String.ofList ('\uFEFF' :: "<proje".toList ++ (listedTarget "2").drop 9)) := by
    rw [Tree.render_eq]
    exact Layout.restoreText_of_restoreChars (by decide +kernel)
  have htext : restored =
      String.ofList ('\uFEFF' :: "<proje".toList ++ (listedTarget "2").drop 9) := by
    rw [hcapture] at hbroken
    exact Except.ok.inj (hrestore.symm.trans hbroken)
  rw [hresult, htext]
  intro h
  have hbytes := Option.some.inj h
  rw [Charset.encode, Charset.encode, String.toList_ofList, String.toList_ofList] at hbytes
  revert hbytes
  decide +kernel

end Marked

end Project

end MavenPom
