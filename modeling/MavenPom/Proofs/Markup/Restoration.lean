import MavenPom.Proofs.Markup.Amended

/-!
# Restoring amended documents

Putting the layout of a document back into its edited tree gives a text that reads as the edited
tree again, whatever the edits are.
-/

namespace MavenPom.Markup

open EmptyElement (attributesOf)

/-! ## Edits -/

/-- An edit of a tree. -/
inductive Amendment where
  | setText (id : NodeId) (text : String)
  | appendElement (parent : NodeId) (name : String) (style : Indent)
  | appendTextElement (parent : NodeId) (name text : String) (style : Indent)
  | insertElementBefore (parent before : NodeId) (name : String) (style : Indent)

namespace Amendment

def apply (t : Tree) : Amendment → Tree
  | .setText id text => t.setText id text
  | .appendElement parent name style => (t.appendElement parent name style).1
  | .appendTextElement parent name text style => (t.appendTextElement parent name text style).1
  | .insertElementBefore parent before name style =>
    (t.insertElementBefore parent before name style).1

/-- The edit is one of an element, and what it adds has a name and is indented by white space. -/
def Proper (t : Tree) : Amendment → Prop
  | .setText id _ => t.isElement id = true
  | .appendElement parent name style =>
    t.isElement parent = true ∧ IsName name ∧ style.IsBlank
  | .appendTextElement parent name _ style =>
    t.isElement parent = true ∧ IsName name ∧ style.IsBlank
  | .insertElementBefore parent _ name style =>
    t.isElement parent = true ∧ IsName name ∧ style.IsBlank

instance (t : Tree) : (edit : Amendment) → Decidable (edit.Proper t)
  | .setText id _ => inferInstanceAs (Decidable (t.isElement id = true))
  | .appendElement parent name style =>
    inferInstanceAs (Decidable (t.isElement parent = true ∧ IsName name ∧ style.IsBlank))
  | .appendTextElement parent name _ style =>
    inferInstanceAs (Decidable (t.isElement parent = true ∧ IsName name ∧ style.IsBlank))
  | .insertElementBefore parent _ name style =>
    inferInstanceAs (Decidable (t.isElement parent = true ∧ IsName name ∧ style.IsBlank))

/-- The tree after edits, one after another. -/
def applyAll (t : Tree) (edits : List Amendment) : Tree := edits.foldl apply t

/-- Each edit is proper for the tree that the edits before it leave. -/
def AllProper (t : Tree) : List Amendment → Prop
  | [] => True
  | edit :: edits => edit.Proper t ∧ AllProper (edit.apply t) edits

instance decidableAllProper (t : Tree) : (edits : List Amendment) → Decidable (AllProper t edits)
  | [] => .isTrue trivial
  | edit :: edits =>
    have := decidableAllProper (edit.apply t) edits
    inferInstanceAs (Decidable (edit.Proper t ∧ AllProper (edit.apply t) edits))

end Amendment

namespace Tree

variable {t t' : Tree}

theorem Amended.apply (h : Amended t t') {edit : Amendment} (hproper : edit.Proper t') :
    Amended t (edit.apply t') := by
  have helement : ∀ {id : NodeId}, t'.isElement id = true → ∃ e, t'.content id = .element e := by
    intro id hid
    obtain ⟨e, he⟩ := Option.isSome_iff_exists.mp hid
    exact ⟨e, element?_eq_some_iff.mp he⟩
  cases edit with
  | setText id text =>
    obtain ⟨e, he⟩ := helement hproper
    exact h.setText he text
  | appendElement parent name style =>
    obtain ⟨hparent, hname, hstyle⟩ := hproper
    obtain ⟨e, he⟩ := helement hparent
    obtain ⟨-, hinserted⟩ := inserted_appendElement name h.wellFormed (lt_size_of_element he) style
    exact h.inserted he hname hstyle hinserted (content_appendElement style)
  | appendTextElement parent name text style =>
    obtain ⟨hparent, hname, hstyle⟩ := hproper
    obtain ⟨e, he⟩ := helement hparent
    obtain ⟨hid, hinserted⟩ :=
      inserted_appendElement name h.wellFormed (lt_size_of_element he) style
    have happended := h.inserted he hname hstyle hinserted (content_appendElement style)
    have hnew := hinserted.content_new
    rw [← hid] at hnew
    exact happended.setText hnew text
  | insertElementBefore parent before name style =>
    obtain ⟨hparent, hname, hstyle⟩ := hproper
    obtain ⟨e, he⟩ := helement hparent
    obtain ⟨-, front, back, hinserted⟩ :=
      inserted_insertElementBefore name h.wellFormed (lt_size_of_element he) before style
    exact h.inserted he hname hstyle hinserted (content_insertElementBefore before style)

theorem Amended.applyAll (h : Amended t t') {edits : List Amendment}
    (hproper : Amendment.AllProper t' edits) : Amended t (Amendment.applyAll t' edits) := by
  induction edits generalizing t' with
  | nil => exact h
  | cons edit edits ih => exact ih (h.apply hproper.1) hproper.2

/-! ## Attributes in one spelling -/

/-- Elements whose attributes are told apart by nothing in their one spelling have the same ones. It
    fails only where a value holds a double quote. -/
def AttributesTold (t : Tree) : Prop :=
  ∀ a < t.size, ∀ b < t.size,
    (t.element? a).map (fun e => attributesOf ⟨e.name, e.attributeText⟩) =
        (t.element? b).map (fun e => attributesOf ⟨e.name, e.attributeText⟩) →
      (t.element? a).map (·.attributes) = (t.element? b).map (·.attributes)

instance (t : Tree) : Decidable t.AttributesTold :=
  @Nat.decidableBallLT _ _ fun _ _ => Nat.decidableBallLT _ _

theorem attributes_eq_nil {tag : Tag} {e : Element} (h : elementOf? tag = some e)
    (hspelling : attributesOf tag = "") : e.attributes = [] := by
  obtain ⟨attributes, hmap, rfl⟩ := Option.map_eq_some_iff.mp h
  cases hskip : skipSpaces tag.attributeText.toList with
  | nil =>
    rw [Attribute.readAll_of_nil hskip] at hmap
    cases hmap
    rfl
  | cons first rest =>
    rw [Attribute.readAll_of_cons hskip] at hmap
    rw [attributesOf, Attribute.readAll_of_cons hskip] at hspelling
    cases hreading : (Attribute.step [] first rest).reading with
    | none =>
      rw [hreading] at hmap
      cases hmap
    | some pair =>
      have hlength := congrArg (String.length) hspelling
      rw [hreading] at hlength
      simp at hlength

/-- An element of an amended tree has the same attributes as an element of the document that has
    them in the same spelling. -/
theorem Amended.agrees {w p : Writing} (h : Amended t t') (htold : t.AttributesTold)
    (ht : t.WellFormed) (hstand : t.StandFor w (t.children root))
    (hstand' : t'.StandFor p (t'.children root)) (hp : p.Rough) {f : EmptyElement.Frame}
    {position : ℕ} : p.Tags (Writing.Agrees (w.spots f position)) := by
  have hown : w.Tags fun tag => ∃ id e, id < t.size ∧ t.content id = .element e ∧
      elementOf? tag = some e :=
    hstand.tags ht (fun id e tag hid he htag => ⟨id, e, hid, he, htag⟩) fun c hc => ht.child_lt hc
  have hread : ∀ {tag : Tag} {e : Element}, elementOf? tag = some e →
      (⟨e.name, e.attributeText⟩ : Tag) = tag ∧ tag.attributes? = some e.attributes := by
    intro tag e htag
    obtain ⟨attributes, rfl⟩ := exists_attributes_of_elementOf? htag
    exact ⟨rfl, by rw [Tag.attributes?, htag]; rfl⟩
  refine Writing.Tags.and hp.tags
    (hstand'.tags h.wellFormed (fun id e tag hid he htag s hs heq => ?_)
    fun c hc => h.wellFormed.child_lt hc)
  obtain ⟨own, e', hlt, he', htag'⟩ := hown.of_mem_spots hs
  obtain ⟨rfl, hattributes⟩ := hread htag
  obtain ⟨hform, hattributes'⟩ := hread htag'
  rw [hattributes, hattributes']
  by_cases hold : id < t.size
  · rw [h.content id hold] at he
    have hsame := htold own hlt id hold
    rw [element?_eq_some_iff.mpr he, element?_eq_some_iff.mpr he', Option.map_some, Option.map_some,
      Option.map_some, Option.map_some, hform] at hsame
    exact hsame (congrArg some heq)
  · have hbare := h.bare id e (Nat.le_of_not_lt hold) he
    have hnone : attributesOf ⟨e.name, e.attributeText⟩ = "" := by
      rw [hbare, attributesOf]
      simp only [String.toList_empty]
      rw [Attribute.readAll_of_nil rfl]
      rfl
    rw [attributes_eq_nil htag hnone, attributes_eq_nil htag' (heq.trans hnone)]

theorem Amended.top_eq {w p : Writing} (h : Amended t t') (hstand : t.StandFor w (t.children root))
    (hstand' : t'.StandFor p (t'.children root)) (ht : t.WellFormed) : p.top = w.top := by
  rw [hstand'.top_eq, hstand.top_eq, h.children_root]
  exact List.map_congr_left fun c hc => by rw [h.content c (ht.child_lt hc)]

end Tree

/-! ## Restoring -/

namespace Layout

open Writing

/-- Restoring the layout of a document over its edited tree gives a text that is read as a tree with
    the content of the edited one. -/
theorem exists_restoreText_amended {text : String} {t t' : Tree} (h : Tree.parse text = .ok t)
    {node : Strict.Node} (hstrict : Strict.parse? text = some node)
    (hmark : text.toList.head? ≠ some '\uFEFF') (htold : t.AttributesTold)
    {edits : List Amendment} (hproper : Amendment.AllProper t edits)
    (ht' : Amendment.applyAll t edits = t') (charset : Charset) :
    ∃ layout restored t'', capture text charset = .ok layout ∧
      layout.restoreText t'.render = .ok restored ∧ Tree.parse restored = .ok t'' ∧
      t''.sameContent t' = true := by
  obtain ⟨w, hw, rfl, hdraft⟩ := Tree.exists_writing_of_parse h hstrict hmark
  rw [String.toList_ofList] at hmark
  obtain ⟨hwell, hdocument, hsize, hchildren, hrecords⟩ := Tree.records_of_foldlM hw.leaves hdraft
  have hamended : Tree.Amended t t' :=
    ht' ▸ (hrecords.amended hw hwell hdocument hsize).applyAll hproper
  have hstand := hrecords.standFor
  rw [← hchildren] at hstand
  obtain ⟨r, hroot⟩ := Option.isSome_iff_exists.mp (Tree.foldlM_of_parse h).2.2
  obtain ⟨token, htag⟩ := Tree.exists_firstTag? hstand hroot
  obtain ⟨layout, hcapture, hlayout⟩ := exists_captureChars hw htag hmark charset
  -- The edited tree as a writing, as it is written and as it is respelled.
  obtain ⟨p, hp, hstandp⟩ := Tree.exists_standFor hamended.wellFormed hamended.rough
    fun c hc =>
      ⟨hamended.wellFormed.lt_child hc, Nat.le_add_left .., hamended.wellFormed.child_lt hc⟩
  have htop : p.top = w.top := hamended.top_eq hstand hstandp hwell
  have happart : Apart p.top := htop ▸ hw.apart
  have hsparse : p.Sparse := by
    refine hstandp.sparse (Content.sparse_of_apart ?_) hamended.sparse
    rw [hstandp.top_eq] at happart
    rwa [List.map_map]
  have hagrees : p.collapse.joined.Tags (Agrees (w.spots ⟨"", []⟩ 0)) :=
    ((hamended.agrees htold hwell hstand hstandp hp).collapse fun _ => Agrees.trimmed).joined
  have hplaced : ∀ s ∈ w.spots ⟨"", []⟩ 0, s.Placed := fun s hs => placed_of_mem_spots hw hs
  have hm : p.collapse.joined.Legible := hp.collapse.legible_joined
  have hr := legible_respell hplaced hm hagrees ⟨"", []⟩
  have hmtop : p.collapse.joined.top = w.top := by
    rw [top_joined (top_collapse p ▸ happart), top_collapse, htop]
  have hrtop : (p.collapse.joined.respell (w.spots ⟨"", []⟩ 0) ⟨"", []⟩).top = w.top :=
    (top_respell ..).trans hmtop
  have hchildren' := hamended.children_root
  obtain ⟨first, hfirst, hsame⟩ := hstand.opensLike hw (hchildren' ▸ hstandp)
    (fun c hc => hamended.content c (hwell.child_lt hc))
    (fun c hc => hamended.nonempty c (hwell.child_lt hc)) (f := ⟨"", []⟩) htag
  obtain ⟨first', hfirst'⟩ := exists_firstTag?_congr hmtop.symm htag
  have hlead := head?_lead_ne htag hmark
  have hrestored := restoreChars_eq hlayout hw hm hr rfl hfirst' hfirst hsame (lead_congr hmtop)
    (lead_congr hrtop) (trail_congr hrtop) hlead
  have houtline :
      (p.collapse.joined.respell (w.spots ⟨"", []⟩ 0) ⟨"", []⟩).outline = p.outline := by
    rw [outline_respell hplaced hm hagrees, hsparse.collapse.seamless.outline_joined,
      outline_collapse hp.tags]
  have houtlines := hstandp.outlines
  obtain ⟨t'', hparse, hwell'', hdocument'', hstand''⟩ := Tree.exists_parse_chars hr
    (Tree.Outlines.tags (houtline ▸ houtlines)) hfirst
    (head?_chars_ne hfirst (lead_congr hrtop ▸ hlead))
  refine ⟨layout, _, t'', by rw [capture_ofList, hcapture], ?_, hparse, ?_⟩
  · have hpos : 0 < t'.size := by
      have := hamended.size_le
      omega
    rw [Tree.render_of_standFor hamended.wellFormed hamended.document hpos hstandp,
      restoreText_ofList, ← chars_joined p.collapse, hrestored]
    rfl
  · refine Tree.sameContent_of_outlines hwell'' hamended.wellFormed hdocument'' hamended.document
      ?_ houtlines
    exact houtline ▸ hstand''.outlines

end Layout

end MavenPom.Markup
