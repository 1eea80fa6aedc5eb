import MavenPom.Markup.Tree.Basic
import MavenPom.Proofs.Markup.Nodes

/-!
# Outlines

What counts when documents are compared: the elements with their names, attributes and texts, and
which are in which. Trees that are read as writings of one outline carry the same content.
-/

namespace MavenPom.Markup

/-- A sequence of elements, each with its text and the elements in it. -/
inductive Outline where
  | nil
  | element (name : String) (attributes : Option (List (String × String))) (text : String)
      (inside rest : Outline)

/-- The characters that a token contributes to the text of the element around it. -/
def Token.ownText : Token → String
  | .text raw => Tree.ownText (.text raw)
  | .cdata content => content
  | _ => ""

/-- The attributes of a tag that can be read. -/
def Tag.attributes? (tag : Tag) : Option (List (String × String)) :=
  (Tree.elementOf? tag).map (·.attributes)

namespace Writing

/-- The text of an element that has the writing inside. -/
def text : Writing → String
  | .nil => ""
  | .leaf token rest => token.ownText ++ rest.text
  | .empty _ rest => rest.text
  | .pair _ _ _ rest => rest.text

def outline : Writing → Outline
  | .nil => .nil
  | .leaf _ rest => rest.outline
  | .empty tag rest => .element tag.name tag.attributes? "" .nil rest.outline
  | .pair tag inside _ rest =>
    .element tag.name tag.attributes? inside.text inside.outline rest.outline

end Writing

namespace Tree

/-- Elements of a tree have an outline. -/
def Outlines (t : Tree) : Outline → List NodeId → Prop
  | .nil, ids => ids = []
  | .element name attributes text inside rest, ids =>
    ∃ id more e, ids = id :: more ∧ t.content id = .element e ∧ e.name = name ∧
      some e.attributes = attributes ∧ t.text id = text ∧ t.Outlines inside (t.childElements id) ∧
      t.Outlines rest more

/-! ## The outline of a writing -/

section StandFor

variable {t : Tree} {w : Writing} {ids : List NodeId}

theorem ownText_of_adds {token : Token} (hleaf : token.isLeaf = true) {c : Content}
    (h : Adds token c) : ownText c = token.ownText := by
  cases token with
  | startTag tag => cases hleaf
  | emptyTag tag => cases hleaf
  | endTag name => cases hleaf
  | _ =>
    cases h
    rfl

theorem StandFor.join_ownText (h : t.StandFor w ids) :
    String.join (ids.map fun id => ownText (t.content id)) = w.text := by
  induction w generalizing ids with
  | nil =>
    obtain rfl : ids = [] := h
    rfl
  | leaf token rest ih =>
    obtain ⟨id, more, rfl, hleaf, hadds, hrest⟩ := h
    rw [List.map_cons, String.join_cons, ownText_of_adds hleaf hadds, ih hrest, Writing.text]
  | empty tag rest ih =>
    obtain ⟨id, more, e, rfl, -, hcontent, -, hrest⟩ := h
    rw [List.map_cons, String.join_cons, hcontent, ih hrest, Writing.text]
    exact String.empty_append
  | pair tag inside gap rest _ ih =>
    obtain ⟨id, more, e, rfl, -, hcontent, -, hrest⟩ := h
    rw [List.map_cons, String.join_cons, hcontent, ih hrest, Writing.text]
    exact String.empty_append

/-- The elements among nodes have the outline of the writing that the nodes stand for. -/
theorem StandFor.outlines (h : t.StandFor w ids) :
    t.Outlines w.outline (ids.filter t.isElement) := by
  have hkept : ∀ {id : NodeId} {e : Element} {more : List NodeId}, t.content id = .element e →
      (id :: more).filter t.isElement = id :: more.filter t.isElement := by
    intro id e more hcontent
    rw [List.filter_cons_of_pos (by simp [isElement, element?, hcontent])]
  induction w generalizing ids with
  | nil =>
    obtain rfl : ids = [] := h
    rfl
  | leaf token rest ih =>
    obtain ⟨id, more, rfl, hleaf, hadds, hrest⟩ := h
    obtain ⟨-, helement, -⟩ := spelling_of_adds hleaf hadds
    rw [List.filter_cons_of_neg (by simp [isElement, element?])]
    exact ih hrest
  | empty tag rest ih =>
    obtain ⟨id, more, e, rfl, htag, hcontent, hchildren, hrest⟩ := h
    obtain ⟨attributes, rfl⟩ := exists_attributes_of_elementOf? htag
    refine ⟨id, _, _, hkept hcontent, hcontent, rfl, by simp [Tag.attributes?, htag], ?_, ?_,
      ih hrest⟩
    · rw [Tree.text, hchildren]
      rfl
    · rw [childElements, hchildren]
      rfl
  | pair tag inside gap rest ihinside ihrest =>
    obtain ⟨id, more, e, rfl, htag, hcontent, hinside, hrest⟩ := h
    obtain ⟨attributes, rfl⟩ := exists_attributes_of_elementOf? htag
    exact ⟨id, _, _, hkept hcontent, hcontent, rfl, by simp [Tag.attributes?, htag],
      hinside.join_ownText, ihinside hinside, ihrest hrest⟩

end StandFor

/-! ## Comparing outlines -/

end Tree

/-- The same attributes in any order, where each key has the value on both sides that is read for
    it. -/
def SameAttributes (xs ys : List (String × String)) : Prop :=
  xs.Perm ys ∧ ∀ key, xs.lookup key = ys.lookup key

theorem rel_sameAttributes_refl (attributes : Option (List (String × String))) :
    Option.Rel SameAttributes attributes attributes := by
  cases attributes with
  | none => exact .none
  | some xs => exact .some ⟨.refl xs, fun _ => rfl⟩

theorem lookup_eq_some_iff {xs : List (String × String)} (h : (xs.map (·.1)).Nodup)
    {key value : String} : xs.lookup key = some value ↔ (key, value) ∈ xs := by
  refine ⟨fun hlookup => ?_, fun hmem => ?_⟩
  · obtain ⟨front, back, heq, -⟩ := List.lookup_eq_some_iff.mp hlookup
    rw [heq]
    simp
  · obtain ⟨front, back, rfl⟩ := List.append_of_mem hmem
    refine List.lookup_eq_some_iff.mpr ⟨front, back, rfl, fun pair hpair => ?_⟩
    rw [List.map_append, List.map_cons] at h
    have hnot := List.disjoint_of_nodup_append h (List.mem_map_of_mem hpair)
    exact bne_iff_ne.mpr fun heq => hnot (heq ▸ List.mem_cons_self ..)

theorem sameAttributes_of_perm {xs ys : List (String × String)} (hperm : xs.Perm ys)
    (hkeys : (xs.map (·.1)).Nodup) : SameAttributes xs ys := by
  refine ⟨hperm, fun key => Option.ext fun value => ?_⟩
  have hkeys' := (hperm.map (·.1)).nodup_iff.mp hkeys
  rw [lookup_eq_some_iff hkeys, lookup_eq_some_iff hkeys', hperm.mem_iff]

namespace Outline

/-- Outlines that agree in all that counts when documents are compared. -/
def Alike : Outline → Outline → Prop
  | .nil, .nil => True
  | .element name attributes text inside rest, .element name' attributes' text' inside' rest' =>
    name = name' ∧ Option.Rel SameAttributes attributes attributes' ∧
      Text.trim text = Text.trim text' ∧ inside.Alike inside' ∧ rest.Alike rest'
  | _, _ => False

theorem Alike.refl (o : Outline) : o.Alike o := by
  induction o with
  | nil => trivial
  | element name attributes text inside rest ihinside ihrest =>
    exact ⟨rfl, rel_sameAttributes_refl attributes, rfl, ihinside, ihrest⟩

variable {o o' o'' : Outline}

theorem Alike.symm (h : o.Alike o') : o'.Alike o := by
  induction o generalizing o' with
  | nil =>
    cases o' with
    | nil => trivial
    | element => exact h.elim
  | element name attributes text inside rest ihinside ihrest =>
    cases o' with
    | nil => exact h.elim
    | element =>
      obtain ⟨hname, hattributes, htext, hinside, hrest⟩ := h
      refine ⟨hname.symm, ?_, htext.symm, ihinside hinside, ihrest hrest⟩
      cases hattributes with
      | none => exact .none
      | some hsame => exact .some ⟨hsame.1.symm, fun key => (hsame.2 key).symm⟩

theorem Alike.trans (h : o.Alike o') (h' : o'.Alike o'') : o.Alike o'' := by
  induction o generalizing o' o'' with
  | nil =>
    cases o' with
    | nil => exact h'
    | element => exact h.elim
  | element name attributes text inside rest ihinside ihrest =>
    cases o' with
    | nil => exact h.elim
    | element =>
      cases o'' with
      | nil => exact h'.elim
      | element =>
        obtain ⟨hname, hattributes, htext, hinside, hrest⟩ := h
        obtain ⟨hname', hattributes', htext', hinside', hrest'⟩ := h'
        refine ⟨hname.trans hname', ?_, htext.trans htext', ihinside hinside hinside',
          ihrest hrest hrest'⟩
        cases hattributes with
        | none =>
          cases hattributes'
          exact .none
        | some hsame =>
          cases hattributes' with
          | some hsame' =>
            exact .some ⟨hsame.1.trans hsame'.1, fun key => (hsame.2 key).trans (hsame'.2 key)⟩

theorem Alike.eq_nil_iff (h : o.Alike o') : o = .nil ↔ o' = .nil := by
  cases o <;> cases o' <;> simp_all [Alike]

/-- One element holds all others. -/
def IsSingle : Outline → Prop
  | .element _ _ _ _ .nil => True
  | _ => False

theorem IsSingle.ne_nil (h : o.IsSingle) : o ≠ .nil := by
  rintro rfl
  exact h

theorem Alike.isSingle (h : o.Alike o') (hsingle : o.IsSingle) : o'.IsSingle := by
  match o, o', hsingle, h with
  | .element _ _ _ _ .nil, .element _ _ _ _ .nil, _, _ => trivial
  | .element _ _ _ _ .nil, .element _ _ _ _ (.element ..), _, h => exact h.2.2.2.2

/-- Outlines of as many elements with the same trimmed texts. -/
def SameTexts : Outline → Outline → Prop
  | .nil, .nil => True
  | .element _ _ text inside rest, .element _ _ text' inside' rest' =>
    Text.trim text = Text.trim text' ∧ inside.SameTexts inside' ∧ rest.SameTexts rest'
  | _, _ => False

theorem SameTexts.symm (h : o.SameTexts o') : o'.SameTexts o := by
  induction o generalizing o' with
  | nil =>
    cases o' with
    | nil => trivial
    | element => exact h.elim
  | element _ _ _ inside rest ihinside ihrest =>
    cases o' with
    | nil => exact h.elim
    | element => exact ⟨h.1.symm, ihinside h.2.1, ihrest h.2.2⟩

end Outline

namespace Tree

/-- The value of an attribute on the nearest node that has it, among a node and those above it. -/
def binding? (t : Tree) (id : NodeId) (key : String) : Option String :=
  (id :: t.ancestors id).findSome? fun a => (t.element? a).bind (·.attribute? key)

theorem binding?_child {t : Tree} (ht : t.WellFormed) {p c : NodeId} (hc : c ∈ t.children p)
    (key : String) : t.binding? c key =
      ((t.element? c).bind (·.attribute? key)).or (t.binding? p key) := by
  rw [binding?, ht.ancestors_child hc, List.findSome?_cons, binding?]
  cases (t.element? c).bind (·.attribute? key) <;> rfl

theorem namespace?_eq {t : Tree} {id : NodeId} {e : Element} (he : t.element? id = some e) :
    t.namespace? id = (t.binding? id (bindingKey e)).filter (!·.isEmpty) := by
  rw [namespace?, he]
  rfl

/-- The order that attributes are compared in. -/
def pairLe (a b : String × String) : Bool := if a.1 = b.1 then a.2 ≤ b.2 else a.1 ≤ b.1

theorem pairLe_iff {a b : String × String} :
    pairLe a b = true ↔ a.1 ≤ b.1 ∧ (a.1 = b.1 → a.2 ≤ b.2) := by
  unfold pairLe
  split
  · next heq => simp [heq]
  · next hne => simp [hne]

/-- Sorting forgets the order that attributes are written in. -/
theorem significantAttributes_eq {e e' : Element} (h : e.attributes.Perm e'.attributes) :
    significantAttributes e = significantAttributes e' := by
  have htrans (a b c : String × String) (hab : pairLe a b = true) (hbc : pairLe b c = true) :
      pairLe a c = true := by
    obtain ⟨hkeys, hvalues⟩ := pairLe_iff.mp hab
    obtain ⟨hkeys', hvalues'⟩ := pairLe_iff.mp hbc
    refine pairLe_iff.mpr ⟨String.le_trans hkeys hkeys', fun heq => ?_⟩
    have hsame : a.1 = b.1 := String.le_antisymm hkeys (heq ▸ hkeys')
    exact String.le_trans (hvalues hsame) (hvalues' (hsame ▸ heq))
  have htotal (a b : String × String) : (pairLe a b || pairLe b a) = true := by
    rw [Bool.or_eq_true, pairLe_iff, pairLe_iff]
    by_cases heq : a.1 = b.1
    · simpa [heq] using String.le_total a.2 b.2
    · simpa [heq, Ne.symm heq] using String.le_total a.1 b.1
  have hantisymm (a b : String × String) (hab : pairLe a b = true) (hba : pairLe b a = true) :
      a = b := by
    obtain ⟨hkeys, hvalues⟩ := pairLe_iff.mp hab
    obtain ⟨hkeys', hvalues'⟩ := pairLe_iff.mp hba
    have heq := String.le_antisymm hkeys hkeys'
    exact Prod.ext heq (String.le_antisymm (hvalues heq) (hvalues' heq.symm))
  refine List.Perm.eq_of_pairwise (fun a b _ _ => hantisymm a b)
    (List.pairwise_mergeSort htrans htotal _) (List.pairwise_mergeSort htrans htotal _) ?_
  exact (List.mergeSort_perm _ _).trans ((h.filter _).trans (List.mergeSort_perm _ _).symm)

/-- Elements of alike outlines carry the same content, if namespaces are bound alike around them. -/
theorem Outlines.all_sameElement {left right : Tree} (hleft : left.WellFormed)
    (hright : right.WellFormed) {o o' : Outline} (halike : o.Alike o') {ls rs : List NodeId}
    (hl : left.Outlines o ls) (hr : right.Outlines o' rs) {p q : NodeId}
    (hls : ∀ c ∈ ls, c ∈ left.children p) (hrs : ∀ c ∈ rs, c ∈ right.children q)
    (hbinding : ∀ key, left.binding? p key = right.binding? q key) {height : ℕ}
    (hheight : ∀ c ∈ ls, left.size ≤ c + height) :
    ls.length = rs.length ∧
      ((ls.zip rs).all fun pair => sameElement left right height pair.1 pair.2) = true := by
  induction o generalizing o' ls rs p q height with
  | nil =>
    obtain rfl := halike.eq_nil_iff.mp rfl
    obtain rfl : ls = [] := hl
    obtain rfl : rs = [] := hr
    exact ⟨rfl, rfl⟩
  | element name attributes text inside rest ihinside ihrest =>
    cases o' with
    | nil => exact halike.elim
    | element name' attributes' text' inside' rest' =>
    obtain ⟨rfl, hsame, htrim, hsameinside, hsamerest⟩ := halike
    obtain ⟨l, ls, e, rfl, he, hname, rfl, htext, hinside, hrest⟩ := hl
    obtain ⟨r, rs, e', rfl, he', hname', rfl, htext', hinside', hrest'⟩ := hr
    obtain ⟨hlmem, hls⟩ := List.forall_mem_cons.mp hls
    obtain ⟨hrmem, hrs⟩ := List.forall_mem_cons.mp hrs
    obtain ⟨hheightl, hheight⟩ := List.forall_mem_cons.mp hheight
    have hnames : e.name = e'.name := hname.trans hname'.symm
    obtain ⟨hperm, hlookup⟩ : SameAttributes e.attributes e'.attributes := by
      cases hsame
      assumption
    have hel := element?_eq_some_iff.mpr he
    have her := element?_eq_some_iff.mpr he'
    have hown : ∀ key, left.binding? l key = right.binding? r key := by
      intro key
      rw [binding?_child hleft hlmem, binding?_child hright hrmem, hel, her, hbinding]
      simp only [Option.bind_some, Element.attribute?, hlookup]
    have hlt := lt_size_of_element? hel
    obtain ⟨height, rfl⟩ : ∃ k, height = k + 1 := ⟨height - 1, by simp only [NodeId] at *; omega⟩
    have hbelow : ∀ c ∈ left.childElements l, left.size ≤ c + height := by
      intro c hc
      have hlt := hleft.lt_child (List.mem_of_mem_filter hc)
      simp only [NodeId] at *
      omega
    obtain ⟨hlength, hall⟩ := ihinside hsameinside hinside hinside' (p := l) (q := r)
      (fun c hc => List.mem_of_mem_filter hc) (fun c hc => List.mem_of_mem_filter hc) hown hbelow
    obtain ⟨hmore, hallmore⟩ := ihrest hsamerest hrest hrest' hls hrs hbinding hheight
    have hnamespace : left.namespace? l = right.namespace? r := by
      have hkey : bindingKey e = bindingKey e' := by
        rw [bindingKey, bindingKey, Element.nsPrefix, Element.nsPrefix, hnames]
      rw [namespace?_eq hel, namespace?_eq her, hown, hkey]
    have hlocal : e.localName = e'.localName := by
      rw [Element.localName, Element.localName, hnames]
    have hsignificant := significantAttributes_eq hperm
    have htexts : Text.trim (left.text l) = Text.trim (right.text r) := by rw [htext, htext', htrim]
    refine ⟨by rw [List.length_cons, List.length_cons, hmore], ?_⟩
    rw [List.zip_cons_cons, List.all_cons, hallmore, Bool.and_true, sameElement, hel, her]
    simp [hlocal, hnamespace, hsignificant, htexts, hlength, hall]

/-- Elements that carry the same content have the same texts, and so have those in them. -/
theorem Outlines.sameTexts {left right : Tree} {o o' : Outline} {ls rs : List NodeId}
    (hl : left.Outlines o ls) (hr : right.Outlines o' rs) (hlength : ls.length = rs.length)
    {height : ℕ}
    (hall : ((ls.zip rs).all fun pair => sameElement left right height pair.1 pair.2) = true) :
    o.SameTexts o' := by
  induction o generalizing o' ls rs height with
  | nil =>
    obtain rfl : ls = [] := hl
    rw [List.length_nil, eq_comm, List.length_eq_zero_iff] at hlength
    cases o' with
    | nil => trivial
    | element =>
      obtain ⟨_, _, _, rfl, -⟩ := hr
      cases hlength
  | element name attributes text inside rest ihinside ihrest =>
    obtain ⟨l, ls, e, rfl, he, -, -, rfl, hinside, hrest⟩ := hl
    cases o' with
    | nil =>
      obtain rfl : rs = [] := hr
      cases hlength
    | element name' attributes' text' inside' rest' =>
      obtain ⟨r, rs, e', rfl, he', -, -, rfl, hinside', hrest'⟩ := hr
      rw [List.zip_cons_cons, List.all_cons, Bool.and_eq_true] at hall
      obtain ⟨hfirst, hmore⟩ := hall
      have hsame := ihrest hrest hrest' (Nat.succ.inj hlength) hmore
      cases height with
      | zero => cases hfirst
      | succ height =>
        rw [sameElement, element?_eq_some_iff.mpr he, element?_eq_some_iff.mpr he'] at hfirst
        simp only [Bool.and_eq_true, beq_iff_eq] at hfirst
        obtain ⟨⟨⟨-, htexts⟩, hlength⟩, hchildren⟩ := hfirst
        exact ⟨htexts, ihinside hinside hinside' hlength hchildren, hsame⟩

/-- Documents of alike outlines carry the same content. -/
theorem sameContent_of_alike {left right : Tree} (hleft : left.WellFormed)
    (hright : right.WellFormed) (hdocument : left.content root = .document)
    (hdocument' : right.content root = .document) {o o' : Outline} (halike : o.Alike o')
    (hl : left.Outlines o (left.childElements root))
    (hr : right.Outlines o' (right.childElements root)) : left.sameContent right = true := by
  have hbinding : ∀ {t : Tree}, t.WellFormed → t.content root = .document →
      ∀ key, t.binding? root key = none := by
    intro t ht hroot key
    have hancestors : t.ancestors root = [] := by
      refine List.eq_nil_iff_forall_not_mem.mpr fun a ha => ?_
      exact absurd (ht.lt_of_mem_ancestors ha) (Nat.not_lt_zero a)
    simp [binding?, hancestors, element?, hroot]
  obtain ⟨hlength, hall⟩ := hl.all_sameElement hleft hright halike hr (p := root) (q := root)
    (fun c hc => List.mem_of_mem_filter hc) (fun c hc => List.mem_of_mem_filter hc)
    (fun key => by rw [hbinding hleft hdocument, hbinding hright hdocument'])
    fun c _ => Nat.le_add_left ..
  have hroot (t : Tree) : t.rootElement? = (t.childElements root).head? :=
    (List.head?_filter ..).symm
  unfold sameContent
  rw [hroot, hroot]
  cases hls : left.childElements root with
  | nil =>
    rw [hls] at hlength
    rw [List.length_eq_zero_iff.mp hlength.symm]
    rfl
  | cons l ls =>
    cases hrs : right.childElements root with
    | nil =>
      rw [hls, hrs] at hlength
      cases hlength
    | cons r rs =>
      rw [hls, hrs, List.zip_cons_cons, List.all_cons, Bool.and_eq_true] at hall
      exact hall.1

theorem Outlines.exists_of_isSingle {t : Tree} {o : Outline} {ids : List NodeId}
    (h : t.Outlines o ids) (hsingle : o.IsSingle) : ∃ id, ids = [id] := by
  match o, hsingle with
  | .element _ _ _ _ .nil, _ =>
    obtain ⟨id, more, _, rfl, -, -, -, -, -, hrest⟩ := h
    obtain rfl : more = [] := hrest
    exact ⟨id, rfl⟩

/-- Documents with one root element each have the same texts if they carry the same content. -/
theorem sameTexts_of_sameContent {left right : Tree} {o o' : Outline}
    (hl : left.Outlines o (left.childElements root))
    (hr : right.Outlines o' (right.childElements root)) (hsingle : o.IsSingle)
    (hsingle' : o'.IsSingle) (h : left.sameContent right = true) : o.SameTexts o' := by
  obtain ⟨l, hls⟩ := hl.exists_of_isSingle hsingle
  obtain ⟨r, hrs⟩ := hr.exists_of_isSingle hsingle'
  have hroot (t : Tree) : t.rootElement? = (t.childElements root).head? :=
    (List.head?_filter ..).symm
  rw [sameContent, hroot, hroot, hls, hrs] at h
  rw [hls] at hl
  rw [hrs] at hr
  have hall : (([l].zip [r]).all fun pair =>
      sameElement left right left.size pair.1 pair.2) = true := by
    rw [List.zip_cons_cons, List.zip_nil_left, List.all_cons, List.all_nil, Bool.and_true]
    exact h
  exact hl.sameTexts hr rfl hall

/-- Documents of one outline carry the same content. -/
theorem sameContent_of_outlines {left right : Tree} (hleft : left.WellFormed)
    (hright : right.WellFormed) (hdocument : left.content root = .document)
    (hdocument' : right.content root = .document) {o : Outline}
    (hl : left.Outlines o (left.childElements root))
    (hr : right.Outlines o (right.childElements root)) : left.sameContent right = true :=
  sameContent_of_alike hleft hright hdocument hdocument' (.refl o) hl hr

end Tree

end MavenPom.Markup
