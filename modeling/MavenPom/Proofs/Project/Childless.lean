import MavenPom.Proofs.Project.Restoration
import Mathlib.Data.List.Forall2

/-!
# Childless elements

The elements that a walk over the tokens of a document finds to be empty are those without children
in its tree, in the same order. Each is found at the path that leads to it in the tree, and between
the offsets of the tokens that it was read from.
-/

namespace MavenPom.Markup

open EmptyElement (Frame attributesOf)

/-! ## Document order -/

namespace Tree

/-- An element and those below it, nested no deeper than `height`, in document order. -/
def elementsFrom (t : Tree) : ℕ → NodeId → List NodeId
  | 0, _ => []
  | height + 1, id => id :: (t.childElements id).flatMap (t.elementsFrom height)

/-- The elements of a document that have no children, in document order. -/
def childless (t : Tree) : List NodeId :=
  ((t.childElements root).flatMap (t.elementsFrom t.size)).filter fun id =>
    (t.children id).isEmpty

end Tree

namespace Writing

/-- The nodes of the elements without content in a writing whose first node is `n`. -/
def hollow : Writing → ℕ → List NodeId
  | .nil, _ => []
  | .leaf _ rest, n => rest.hollow (n + 1)
  | .empty _ rest, n => n :: rest.hollow (n + 1)
  | .pair _ inside _ rest, n =>
    (if inside.isNil then [n] else inside.hollow (n + 1)) ++ rest.hollow (n + inside.count + 1)

end Writing

namespace Tree

variable {t : Tree} {w : Writing} {n : ℕ}

theorem isElement_of_content {id : NodeId} {e : Element} (h : t.content id = .element e) :
    t.isElement id = true := by
  rw [isElement, element?_eq_some_iff.mpr h]
  rfl

theorem isElement_eq_false_of_adds {token : Token} (hleaf : token.isLeaf = true) {id : NodeId}
    (h : Adds token (t.content id)) : t.isElement id = false := by
  obtain ⟨-, hne, -⟩ := spelling_of_adds hleaf h
  cases he : t.element? id with
  | none => rw [isElement, he]; rfl
  | some e => exact absurd (element?_eq_some_iff.mp he) (hne e)

/-- The childless elements among the nodes of a writing are those without content in it. -/
theorem Records.filter_elementsFrom (ht : t.WellFormed) (h : t.Records w n) {height : ℕ}
    (hheight : ∀ id ∈ w.ids n, t.size ≤ id + height ∧ id < t.size) :
    (((w.ids n).filter t.isElement).flatMap (t.elementsFrom height)).filter
      (fun id => (t.children id).isEmpty) = w.hollow n := by
  induction w generalizing n height with
  | nil => rfl
  | leaf token rest ih =>
    obtain ⟨hleaf, hadds, hrest⟩ := h
    obtain ⟨-, hmore⟩ := List.forall_mem_cons.mp hheight
    rw [Writing.ids, List.filter_cons_of_neg (by simp [isElement_eq_false_of_adds hleaf hadds]),
      ih hrest hmore, Writing.hollow]
  | empty tag rest ih =>
    obtain ⟨⟨e, -, he⟩, hchildren, hrest⟩ := h
    obtain ⟨hid, hmore⟩ := List.forall_mem_cons.mp hheight
    obtain ⟨height, rfl⟩ : ∃ k, height = k + 1 := ⟨height - 1, by simp only [NodeId] at *; omega⟩
    rw [Writing.ids, List.filter_cons_of_pos (isElement_of_content he), List.flatMap_cons,
      List.filter_append, ih hrest hmore, Writing.hollow]
    simp [elementsFrom, childElements, hchildren]
  | pair tag inside gap rest ihinside ihrest =>
    obtain ⟨⟨e, -, he⟩, hchildren, hinside, hrest⟩ := h
    obtain ⟨hid, hmore⟩ := List.forall_mem_cons.mp hheight
    obtain ⟨height, rfl⟩ : ∃ k, height = k + 1 := ⟨height - 1, by simp only [NodeId] at *; omega⟩
    have hbelow : ∀ c ∈ inside.ids (n + 1), t.size ≤ c + height ∧ c < t.size := by
      intro c hc
      have hchild : c ∈ t.children n := hchildren ▸ hc
      have hlt := ht.lt_child hchild
      have hsize := ht.child_lt hchild
      simp only [NodeId] at *
      omega
    rw [Writing.ids, List.filter_cons_of_pos (isElement_of_content he), List.flatMap_cons,
      List.filter_append, ihrest hrest hmore, Writing.hollow, elementsFrom, childElements,
      hchildren, List.filter_cons, ihinside hinside hbelow, hchildren]
    cases inside with
    | nil => rfl
    | _ => rfl

end Tree

/-! ## Paths -/

namespace Tree

/-- The number of nodes that are elements of a name. -/
def countNamed (t : Tree) (ids : List NodeId) (name : String) : ℕ :=
  ids.countP fun x => (t.element? x).map (·.name) == some name

/-- The step `/name[n]` to an element from its parent, where `n` counts the earlier siblings of that
    name. -/
def stepTo (t : Tree) (id : NodeId) : String :=
  match t.element? id with
  | none => ""
  | some e =>
    let siblings := ((t.parent? id).map t.children).getD []
    "/" ++ e.name ++ "[" ++ toString (t.countNamed (siblings.takeWhile (· != id)) e.name) ++ "]"

/-- The steps that lead to a node from the document. -/
def pathTo (t : Tree) (id : NodeId) : String :=
  String.join ((id :: t.ancestors id).reverse.map t.stepTo)

section Paths

variable {t : Tree} {w : Writing} {p c : NodeId} {n : ℕ}

theorem pathTo_child (ht : t.WellFormed) (hc : c ∈ t.children p) :
    t.pathTo c = t.pathTo p ++ t.stepTo c := by
  rw [pathTo, ht.ancestors_child hc, List.reverse_cons, List.map_append, String.join_append]
  simp [pathTo, String.join]

theorem pathTo_root (ht : t.WellFormed) (hdocument : t.content root = .document) :
    t.pathTo root = "" := by
  have hancestors : t.ancestors root = [] := List.eq_nil_iff_forall_not_mem.mpr fun a ha =>
    Nat.not_lt_zero a (ht.lt_of_mem_ancestors ha)
  rw [pathTo, hancestors]
  simp [stepTo, element?, hdocument, String.join]

theorem stepTo_child (ht : t.WellFormed) {prior more : List NodeId}
    (hsplit : t.children p = prior ++ c :: more) {e : Element} (he : t.element? c = some e) :
    t.stepTo c = "/" ++ e.name ++ "[" ++ toString (t.countNamed prior e.name) ++ "]" := by
  have hparent : t.parent? c = some p := ht.parent_eq (hsplit ▸ by simp)
  have hbefore : ∀ x ∈ prior, (x != c) = true := by
    have hnodup := ht.nodup p
    rw [hsplit] at hnodup
    intro x hx
    refine bne_iff_ne.mpr ?_
    rintro rfl
    exact (List.nodup_append'.mp hnodup).2.2 hx (List.mem_cons_self ..)
  simp only [stepTo, he, hparent, Option.map_some, Option.getD_some, hsplit]
  rw [List.takeWhile_append_of_pos hbefore, List.takeWhile_cons_of_neg (by simp), List.append_nil]

/-- A frame of a walk among the children of a node: it has the path to the node, and has met the
    elements among the first of its children. -/
structure Meets (t : Tree) (p : NodeId) (prior : List NodeId) (f : Frame) : Prop where
  path : f.path = t.pathTo p
  count : ∀ name, f.names.count name = t.countNamed prior name

namespace Meets

variable {prior more : List NodeId} {f : Frame} {e : Element}

theorem childPath (h : t.Meets p prior f) (ht : t.WellFormed)
    (hsplit : t.children p = prior ++ c :: more) (he : t.element? c = some e) :
    f.childPath e.name = t.pathTo c := by
  have hc : c ∈ t.children p := hsplit ▸ by simp
  rw [pathTo_child ht hc, stepTo_child ht hsplit he, Frame.childPath, h.path, h.count]
  simp [String.append_assoc]

theorem leaf (h : t.Meets p prior f) (hc : t.isElement c = false) : t.Meets p (prior ++ [c]) f where
  path := h.path
  count name := by
    have hnone : t.element? c = none := by simpa [isElement] using hc
    rw [h.count, countNamed, countNamed, List.countP_append]
    simp [hnone]

theorem element (h : t.Meets p prior f) (he : t.element? c = some e) :
    t.Meets p (prior ++ [c]) (f.count e.name) where
  path := h.path
  count name := by
    rw [countNamed, List.countP_append, Frame.count, List.count_cons, h.count, countNamed]
    simp [he]

theorem enter (h : t.Meets p prior f) (ht : t.WellFormed)
    (hsplit : t.children p = prior ++ c :: more) (he : t.element? c = some e) :
    t.Meets c [] (f.enter e.name) where
  path := h.childPath ht hsplit he
  count _ := rfl

end Meets

/-- What is found and how it is written tell an element of the tree. -/
structure IsSpotOf (t : Tree) (s : Spot) (id : NodeId) : Prop where
  element : ∃ e, elementOf? s.form.tag = some e ∧ t.element? id = some e
  name : s.element.name = s.form.tag.name
  attributes : s.element.attributes = attributesOf s.form.tag
  path : s.element.path = t.pathTo id

/-- The elements without content in a writing are found as the elements of the tree that they are,
    at the paths that lead to them. -/
theorem Records.forall₂_spots (ht : t.WellFormed) (h : t.Records w n) {prior : List NodeId}
    (hchildren : t.children p = prior ++ w.ids n) {f : Frame} (hf : t.Meets p prior f)
    (position : ℕ) :
    List.Forall₂ (IsSpotOf t) (w.spots f position) (w.hollow n) := by
  induction w generalizing p n prior f position with
  | nil => exact .nil
  | leaf token rest ih =>
    obtain ⟨hleaf, hadds, hrest⟩ := h
    exact ih hrest (by simpa [Writing.ids] using hchildren)
      (hf.leaf (isElement_eq_false_of_adds hleaf hadds)) _
  | empty tag rest ih =>
    obtain ⟨⟨e, htag, he⟩, -, hrest⟩ := h
    have helement := element?_eq_some_iff.mpr he
    obtain ⟨attributes, rfl⟩ := exists_attributes_of_elementOf? htag
    rw [Writing.ids] at hchildren
    have hpath := hf.childPath ht hchildren helement
    refine .cons ⟨⟨_, htag, helement⟩, rfl, rfl, hpath⟩ ?_
    exact ih hrest (by simpa using hchildren) (hf.element helement) _
  | pair tag inside gap rest ihinside ihrest =>
    obtain ⟨⟨e, htag, he⟩, hinner, hinside, hrest⟩ := h
    have helement := element?_eq_some_iff.mpr he
    obtain ⟨attributes, rfl⟩ := exists_attributes_of_elementOf? htag
    rw [Writing.ids] at hchildren
    have hpath := hf.childPath ht hchildren helement
    refine List.rel_append ?_ (ihrest hrest (by simpa using hchildren) (hf.element helement) _)
    split
    · exact .cons ⟨⟨_, htag, helement⟩, rfl, rfl, hpath⟩ .nil
    · exact ihinside hinside hinner (hf.enter ht hchildren helement) _

end Paths

end Tree

/-! ## Places in the text -/

/-- The tokens of an element without content that begins at a byte offset. -/
def Form.lexemes (start : ℕ) : Form → List Lexeme
  | .closed tag => [⟨.emptyTag tag, start, start + Utf8.size (Token.emptyTag tag).spelling⟩]
  | .opened tag gap =>
    let middle := start + Utf8.size (Token.startTag tag).spelling
    [⟨.startTag tag, start, middle⟩,
      ⟨.endTag tag.name, middle, middle + Utf8.size (endTagChars tag.name gap)⟩]

theorem Form.size_chars_pos (form : Form) : 0 < Utf8.size form.chars := by
  obtain ⟨cs, hchars⟩ : ∃ cs, form.chars = '<' :: cs := by cases form <;> exact ⟨_, rfl⟩
  rw [hchars]
  exact Nat.lt_of_lt_of_le (Char.utf8Size_pos '<') (Nat.le_add_right ..)

namespace Tree

/-- The node comes right after those that the tokens in front of an element add. -/
def ComesAt (lexemes : List Lexeme) (form : Form) (start : ℕ) (id : NodeId) : Prop :=
  ∃ before after d, lexemes = before ++ form.lexemes start ++ after ∧
    before.foldlM Draft.take ⟨empty, []⟩ = .ok d ∧ d.tree.size = id

theorem Draft.foldlM_append {d d₁ d₂ : Draft} {front back : List Lexeme}
    (hfront : front.foldlM Draft.take d = .ok d₁) (hback : back.foldlM Draft.take d₁ = .ok d₂) :
    (front ++ back).foldlM Draft.take d = .ok d₂ := by
  rw [List.foldlM_append, hfront]
  exact hback

theorem Draft.foldlM_singleton {d d' : Draft} {l : Lexeme} (h : d.take l = .ok d') :
    [l].foldlM Draft.take d = .ok d' := by
  rw [List.foldlM_cons, h]
  rfl

theorem Draft.size_add (d : Draft) (c : Content) : (d.add c).tree.size = d.tree.size + 1 :=
  size_pushChild c

theorem comesAt {front after lexemes : List Lexeme} {form : Form} {start : ℕ} {d : Draft}
    (hlexemes : lexemes = front ++ (form.lexemes start ++ after))
    (hfront : front.foldlM Draft.take ⟨empty, []⟩ = .ok d) :
    ComesAt lexemes form start d.tree.size :=
  ⟨front, after, d, by rw [hlexemes, List.append_assoc], hfront, rfl⟩

/-- Each element without content in a writing comes where its node does. -/
theorem Draft.forall₂_comesAt {w : Writing} (hw : w.Leaves) {d d' : Draft} (hd : d.Sound)
    {front : List Lexeme} (hfront : front.foldlM Draft.take ⟨empty, []⟩ = .ok d) {position : ℕ}
    (h : (w.lexemes position).foldlM Draft.take d = .ok d') {back lexemes : List Lexeme}
    (hlexemes : lexemes = front ++ (w.lexemes position ++ back)) (f : Frame) :
    List.Forall₂ (fun s id => ComesAt lexemes s.form s.element.start id)
      (w.spots f position) (w.hollow d.tree.size) := by
  induction w generalizing d d' front position back f with
  | nil => exact .nil
  | leaf token rest ih =>
    obtain ⟨hleaf, hrest⟩ := hw
    obtain ⟨next, htake, h⟩ := exists_of_foldlM_cons h
    have hnext := foldlM_append hfront (foldlM_singleton htake)
    obtain ⟨c, -, rfl⟩ := exists_of_take_leaf hleaf htake
    rw [Writing.hollow, ← size_add]
    exact ih hrest (hd.add c) hnext h (hlexemes.trans (List.append_cons ..)) f
  | empty tag rest ih =>
    obtain ⟨next, htake, h⟩ := exists_of_foldlM_cons h
    have hnext := foldlM_append hfront (foldlM_singleton htake)
    obtain ⟨e, -, rfl⟩ := exists_of_take_emptyTag htake
    rw [Writing.hollow, ← size_add d (.element e)]
    exact .cons (comesAt hlexemes hfront)
      (ih hw (hd.add _) hnext h (hlexemes.trans (List.append_cons ..)) _)
  | pair tag inside gap rest ihinside ihrest =>
    obtain ⟨hinside, hrest⟩ := hw
    obtain ⟨inner, hinner, h⟩ := exists_of_foldlM_append h
    obtain ⟨entered, htake, hinner⟩ := exists_of_foldlM_cons hinner
    have hentered := foldlM_append hfront (foldlM_singleton htake)
    obtain ⟨e, -, rfl⟩ := exists_of_take_startTag htake
    obtain ⟨left, hleave, h⟩ := exists_of_foldlM_cons h
    have hleft := foldlM_append (foldlM_append hentered hinner) (foldlM_singleton hleave)
    have hreads := reads_of_foldlM hinside (hd.enter _) hinner
    have hsize : left.tree.size = d.tree.size + inside.count + 1 := by
      cases hleave
      rw [hreads.size, size_pushChild]
      omega
    simp only [Writing.lexemes, List.append_assoc, List.cons_append] at hlexemes
    have hwithin := hlexemes.trans (List.append_cons ..)
    have hbehind := hwithin
    rw [← List.append_assoc, List.append_cons] at hbehind
    rw [Writing.hollow, ← hsize]
    refine List.rel_append ?_ (ihrest hrest (hreads.sound.take hleave) hleft h hbehind _)
    split
    · next hnil =>
      obtain rfl := Writing.eq_nil_of_isNil hnil
      exact .cons (comesAt hlexemes hfront) .nil
    · have hspots := ihinside hinside (hd.enter _) hentered hinner hwithin (f.enter tag.name)
      rw [size_pushChild] at hspots
      exact hspots

end Tree

namespace Writing

variable {w : Writing} {f : Frame}

/-- Each of the elements stands in the text where it is found. -/
theorem exists_chars_of_mem_spots (front : List Char) {s : Spot}
    (hs : s ∈ w.spots f (Utf8.size front)) (back : List Char) :
    ∃ before after, front ++ (w.chars ++ back) = before ++ s.form.chars ++ after ∧
      Utf8.size before = s.element.start ∧
      s.element.stop = s.element.start + Utf8.size s.form.chars := by
  induction w generalizing f front back with
  | nil => cases hs
  | leaf token rest ih =>
    rw [spots, ← Utf8.size_append] at hs
    simpa [chars] using ih _ hs back
  | empty tag rest ih =>
    rcases List.mem_cons.mp hs with rfl | hs
    · exact ⟨front, rest.chars ++ back, by simp [chars, Form.chars], rfl, rfl⟩
    · rw [← Utf8.size_append] at hs
      simpa [chars] using ih _ hs back
  | pair tag inside gap rest ihinside ihrest =>
    rw [spots] at hs
    rcases List.mem_append.mp hs with hs | hs
    · split at hs
      · next hnil =>
        obtain rfl := eq_nil_of_isNil hnil
        obtain rfl := List.mem_singleton.mp hs
        exact ⟨front, rest.chars ++ back, by simp [chars, Form.chars], rfl,
          by simp [Form.chars, chars, Utf8.size_append, Nat.add_assoc]⟩
      · rw [← Utf8.size_append] at hs
        simpa [chars] using ihinside _ hs (endTagChars tag.name gap ++ (rest.chars ++ back))
    · rw [← Utf8.size_append, ← Utf8.size_append, ← Utf8.size_append] at hs
      simpa [chars] using ihrest _ hs back

/-- The elements are found within the writing. -/
theorem bounds_of_mem_spots {position : ℕ} {s : Spot} (hs : s ∈ w.spots f position) :
    position ≤ s.element.start ∧ s.element.stop ≤ position + Utf8.size w.chars := by
  induction w generalizing f position with
  | nil => cases hs
  | leaf token rest ih =>
    obtain ⟨hstart, hstop⟩ := ih hs
    simp only [chars, Utf8.size_append]
    omega
  | empty tag rest ih =>
    simp only [chars, Utf8.size_append]
    rcases List.mem_cons.mp hs with rfl | hs
    · simp only
      omega
    · obtain ⟨hstart, hstop⟩ := ih hs
      omega
  | pair tag inside gap rest ihinside ihrest =>
    simp only [chars, Utf8.size_append]
    rw [spots] at hs
    rcases List.mem_append.mp hs with hs | hs
    · split at hs
      · obtain rfl := List.mem_singleton.mp hs
        simp only
        omega
      · obtain ⟨hstart, hstop⟩ := ihinside hs
        omega
    · obtain ⟨hstart, hstop⟩ := ihrest hs
      omega

/-- Each of the elements ends before the next one begins. -/
theorem pairwise_spots (w : Writing) (f : Frame) (position : ℕ) :
    (w.spots f position).Pairwise fun s s' => s.element.stop ≤ s'.element.start := by
  induction w generalizing f position with
  | nil => exact .nil
  | leaf token rest ih => exact ih ..
  | empty tag rest ih =>
    exact .cons (fun s hs => (bounds_of_mem_spots hs).1) (ih ..)
  | pair tag inside gap rest ihinside ihrest =>
    refine List.pairwise_append.mpr ⟨?_, ihrest .., fun s hs s' hs' => ?_⟩
    · split
      · exact List.pairwise_singleton ..
      · exact ihinside ..
    · refine Nat.le_trans ?_ (bounds_of_mem_spots hs').1
      split at hs
      · obtain rfl := List.mem_singleton.mp hs
        exact Nat.le_refl _
      · have hstop := (bounds_of_mem_spots hs).2
        omega

end Writing

/-! ## Whole documents -/

/-- What is read of a text, which is all of it but a byte order mark at its head. -/
def Token.unmarked (cs : List Char) : List Char := (Text.strip? ['\uFEFF'] cs).getD cs

namespace EmptyElement

/-- What has been found in a text is a node of its tree, at the path that leads to it. Between its
    two offsets, which do not count a byte order mark, stands the markup that the node was read
    from: an empty tag, or a start tag and right behind it the end tag. -/
structure Describes (text : String) (t : Tree) (e : EmptyElement) (id : NodeId) : Prop where
  path : e.path = t.pathTo id
  start_lt_stop : e.start < e.stop
  stands : ∃ form : Form, (∃ element, Tree.elementOf? form.tag = some element ∧
      t.element? id = some element) ∧
    e.name = form.tag.name ∧ e.attributes = attributesOf form.tag ∧
    (∃ before after, Token.unmarked text.toList = before ++ form.chars ++ after ∧
      Utf8.size before = e.start ∧ e.stop = e.start + Utf8.size form.chars) ∧
    Tree.ComesAt (Token.scan text).lexemes form e.start id

/-- The empty elements of a document that both readers accept are the childless elements of its
    tree. They do not overlap, and no two are at one path. -/
theorem forall₂_describes {text : String} {t : Tree} (h : Tree.parse text = .ok t)
    {node : Strict.Node} (hstrict : Strict.parse? text = some node) :
    List.Forall₂ (Describes text t) (find text) t.childless ∧
      (find text).Pairwise (fun e e' => e.stop ≤ e'.start) ∧
      ((find text).map (·.path)).Nodup := by
  obtain ⟨cs, rfl⟩ : ∃ cs, text = String.ofList cs := ⟨text.toList, by simp⟩
  rw [Strict.parse?_ofList] at hstrict
  obtain ⟨w, hw, hchars, hdraft⟩ := Tree.exists_writing_of_parseChars h hstrict
  obtain ⟨hwell, hdocument, hsize, hchildren, hrecords⟩ :=
    Tree.records_of_foldlM hw.leaves hdraft
  have hscan : Token.scan (String.ofList cs) = ⟨w.lexemes 0, none⟩ := by
    rw [Token.scan_ofList, Token.scanChars_eq, hchars, Writing.scanFrom_self hw]
  have hfind : find (String.ofList cs) = (w.spots ⟨"", []⟩ 0).map (·.element) := by
    rw [find, hscan, ← List.append_nil (w.lexemes 0), Walk.start, Writing.among_lexemes hw, among,
      List.append_nil]
  have hchildless : t.childless = w.hollow 1 := by
    rw [Tree.childless, Tree.childElements, hchildren]
    refine hrecords.filter_elementsFrom hwell fun id hid => ?_
    have hchild : id ∈ t.children Tree.root := hchildren ▸ hid
    exact ⟨Nat.le_add_left .., hwell.child_lt hchild⟩
  have hfrom : Tree.Meets t Tree.root [] ⟨"", []⟩ :=
    ⟨(Tree.pathTo_root hwell hdocument).symm, fun _ => rfl⟩
  have hspots := hrecords.forall₂_spots hwell (by rw [hchildren]; rfl) hfrom 0
  have hlexemes : w.lexemes 0 = [] ++ (w.lexemes 0 ++ []) := by simp
  have hcome := Tree.Draft.forall₂_comesAt hw.leaves .start rfl hdraft hlexemes ⟨"", []⟩
  rw [hfind, hchildless]
  refine ⟨?_, ?_, ?_⟩
  · rw [List.forall₂_map_left_iff, List.forall₂_iff_zip]
    refine ⟨hspots.length_eq, fun {s id} hmem => ?_⟩
    obtain ⟨helement, hname, hattributes, hpath⟩ := (List.forall₂_iff_zip.mp hspots).2 hmem
    obtain ⟨before, after, htext, hbefore, hstop⟩ :=
      Writing.exists_chars_of_mem_spots [] (List.of_mem_zip hmem).1 []
    have hpos := s.form.size_chars_pos
    refine ⟨hpath, by omega, s.form, helement, hname, hattributes,
      ⟨before, after, ?_, hbefore, hstop⟩, ?_⟩
    · rw [Token.unmarked, String.toList_ofList, hchars, ← htext, List.nil_append, List.append_nil]
    · rw [hscan]
      exact (List.forall₂_iff_zip.mp hcome).2 hmem
  · exact List.pairwise_map.mpr (Writing.pairwise_spots ..)
  · rw [List.map_map]
    exact Writing.nodup_spots hw ..

end EmptyElement

end MavenPom.Markup

namespace MavenPom.Document

open Markup EmptyElement

variable {d : Document}

/-- The empty elements of the text of a document are the childless elements of its tree, in document
    order. Each is found at the path that leads to it, between the byte offsets of its markup. -/
theorem forall₂_describes_find {bytes : Bytes} {source : DocumentSource}
    (h : ofBytes bytes source = .ok d) :
    List.Forall₂ (Describes d.text d.tree) (find d.text) d.tree.childless ∧
      (find d.text).Pairwise (fun e e' => e.stop ≤ e'.start) ∧
      ((find d.text).map (·.path)).Nodup := by
  obtain ⟨hparse, node, hnode⟩ := parse_of_ofBytes h
  exact forall₂_describes hparse hnode

theorem forall₂_describes_find_spaced :
    ofBytes (Utf8.encode spaced) .memory = .ok (ofChars spaced) ∧
    List.Forall₂ (Describes (ofChars spaced).text (ofChars spaced).tree)
      (find (ofChars spaced).text) (ofChars spaced).tree.childless ∧
      (find (ofChars spaced).text).Pairwise (fun e e' => e.stop ≤ e'.start) ∧
      ((find (ofChars spaced).text).map (·.path)).Nodup := by
  have hread : ofBytes (Utf8.encode spaced) .memory = .ok (ofChars spaced) :=
    ofBytes_encode (by decide +kernel)
  exact ⟨hread, forall₂_describes_find hread⟩

/-- Behind a byte order mark that decoding leaves, the offsets of an element are not those of its
    markup in the text. -/
theorem textBetween_marked :
    ∃ d, ofBytes markedBytes .memory = .ok d ∧
      find d.text = [⟨"a", "/project[0]/a[0]", "", 9, 16⟩] ∧
      textBetween d.text 9 16 = "ct><a><" ∧ textBetween d.text 12 19 = "<a></a>" := by
  have hread : ofBytes markedBytes .memory = .ok (ofDecoded markedBytes ⟨.utf8, true⟩ marked) :=
    ofBytes_mark marked (by decide +kernel) (by decide +kernel) (by decide +kernel)
  have htext : (ofDecoded markedBytes ⟨.utf8, true⟩ marked).text = String.ofList marked := rfl
  refine ⟨_, hread, ?_, ?_, ?_⟩
  · rw [htext, find_ofList]
    decide +kernel
  · rw [htext, textBetween_ofList]
    decide +kernel
  · rw [htext, textBetween_ofList]
    decide +kernel

end MavenPom.Document
