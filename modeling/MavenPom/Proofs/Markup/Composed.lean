import MavenPom.Proofs.Markup.Alike

/-!
# Trees as writings

Every tree whose content can be written stands for a writing. Where its top is that of the document
that it was read from, the writing begins and ends like the document once it is respelled.
-/

namespace MavenPom.Markup

open EmptyElement (Frame attributesOf)

/-- The content is written as one token or between two tags that are read as that content. A text
    may be empty. -/
def Content.Rough : Content → Prop
  | .element e => Tag.Legible ⟨e.name, e.attributeText⟩ ∧
      Tree.elementOf? ⟨e.name, e.attributeText⟩ = some e
  | .text raw => '<' ∉ raw.toList
  | c => c.Legible

/-- The token of content without tags. -/
def Content.token? : Content → Option Token
  | .document => none
  | .element _ => none
  | .text raw => some (.text raw)
  | .cdata content => some (.cdata content)
  | .comment content => some (.comment content)
  | .declaration content => some (.declaration content)
  | .instruction content => some (.instruction content)
  | .doctype content => some (.doctype content)

/-- All texts before other content hold no references. -/
def Content.StartPlain : List Content → Prop
  | .text raw :: rest => Plain raw ∧ StartPlain rest
  | _ => True

/-- Of texts that follow one another, at most one holds references. -/
def Content.Sparse : List Content → Prop
  | [] => True
  | .text raw :: rest => (Plain raw ∨ StartPlain rest) ∧ Sparse rest
  | _ :: rest => Sparse rest

namespace Tree

variable {t t' : Tree} {w p : Writing} {ids : List NodeId}

theorem exists_leaf_of_rough {c : Content} (h : c.Rough) (helement : ∀ e, c ≠ .element e) :
    ∃ token : Token, token.isLeaf = true ∧ Adds token c ∧ token.Rough := by
  cases c with
  | document => exact h.elim
  | element e => exact absurd rfl (helement e)
  | text raw => exact ⟨.text raw, rfl, rfl, h⟩
  | cdata content => exact ⟨.cdata content, rfl, rfl, h⟩
  | comment content => exact ⟨.comment content, rfl, rfl, h⟩
  | declaration content => exact ⟨.declaration content, rfl, rfl, h⟩
  | instruction content => exact ⟨.instruction content, rfl, rfl, h⟩
  | doctype content => exact ⟨.doctype content, rfl, rfl, h⟩

/-- Nodes whose content can be written stand for a writing. -/
theorem exists_standFor (ht : t.WellFormed)
    (hrough : ∀ id : ℕ, 0 < id → id < t.size → (t.content id).Rough) {height : ℕ}
    (hids : ∀ id ∈ ids, 0 < id ∧ t.size ≤ id + height ∧ id < t.size) :
    ∃ w : Writing, w.Rough ∧ t.StandFor w ids := by
  induction height generalizing ids with
  | zero =>
    cases ids with
    | nil => exact ⟨.nil, trivial, rfl⟩
    | cons id ids =>
      obtain ⟨-, hle, hlt⟩ := hids id (List.mem_cons_self ..)
      exact absurd hle (Nat.not_le.mpr hlt)
  | succ height ih =>
    induction ids with
    | nil => exact ⟨.nil, trivial, rfl⟩
    | cons id ids ihids =>
      obtain ⟨⟨hpos, hle, hlt⟩, hids⟩ := List.forall_mem_cons.mp hids
      obtain ⟨rest, hrest, hstand⟩ := ihids hids
      by_cases helement : ∃ e, t.content id = .element e
      · obtain ⟨e, he⟩ := helement
        obtain ⟨htag, hread⟩ := he ▸ hrough id hpos hlt
        have hbelow : ∀ c ∈ t.children id, 0 < c ∧ t.size ≤ c + height ∧ c < t.size := by
          intro c hc
          have hchild := ht.lt_child hc
          have hsize := ht.child_lt hc
          simp only [NodeId] at *
          omega
        obtain ⟨inside, hinside, hstandinside⟩ := ih hbelow
        exact ⟨.pair ⟨e.name, e.attributeText⟩ inside [] rest, ⟨htag, hinside, by simp, hrest⟩, id,
          ids, e, rfl, hread, he, hstandinside, hstand⟩
      · obtain ⟨token, hleaf, hadds, htoken⟩ := exists_leaf_of_rough (hrough id hpos hlt)
          fun e he => helement ⟨e, he⟩
        exact ⟨.leaf token rest, ⟨hleaf, htoken, hrest⟩, id, ids, rfl, hleaf, hadds, hstand⟩

theorem StandFor.startsPlain (h : t.StandFor w ids)
    (hplain : Content.StartPlain (ids.map t.content)) : w.StartsPlain := by
  induction w generalizing ids with
  | leaf token rest ih =>
    obtain ⟨id, more, rfl, -, hadds, hrest⟩ := h
    cases token with
    | text raw =>
      rw [List.map_cons, show t.content id = .text raw from hadds] at hplain
      exact ⟨hplain.1, ih hrest hplain.2⟩
    | _ => trivial
  | _ => trivial

theorem StandFor.sparse (h : t.StandFor w ids) (hsparse : Content.Sparse (ids.map t.content))
    (hchildren : ∀ id e, t.content id = .element e →
      Content.Sparse ((t.children id).map t.content)) : w.Sparse := by
  induction w generalizing ids with
  | nil => trivial
  | leaf token rest ih =>
    obtain ⟨id, more, rfl, hleaf, hadds, hrest⟩ := h
    rw [List.map_cons] at hsparse
    cases token with
    | startTag tag => cases hleaf
    | emptyTag tag => cases hleaf
    | endTag name => cases hleaf
    | text raw =>
      rw [show t.content id = .text raw from hadds] at hsparse
      exact ⟨hsparse.1.imp_right hrest.startsPlain, ih hrest hsparse.2⟩
    | _ =>
      rw [hadds] at hsparse
      exact ih hrest hsparse
  | empty tag rest ih =>
    obtain ⟨id, more, e, rfl, -, hcontent, -, hrest⟩ := h
    rw [List.map_cons, hcontent] at hsparse
    exact ih hrest hsparse
  | pair tag inside gap rest ihinside ihrest =>
    obtain ⟨id, more, e, rfl, -, hcontent, hinside, hrest⟩ := h
    rw [List.map_cons, hcontent] at hsparse
    exact ⟨ihinside hinside (hchildren id e hcontent), ihrest hrest hsparse⟩

/-! ## The top of a document -/

theorem token?_of_adds {token : Token} (hleaf : token.isLeaf = true) {c : Content}
    (h : Adds token c) : c.token? = some token := by
  cases token with
  | startTag tag => cases hleaf
  | emptyTag tag => cases hleaf
  | endTag name => cases hleaf
  | _ =>
    cases h
    rfl

/-- What stands at the top of a writing is told by the content of the nodes, not by what is in
    them. -/
theorem StandFor.top_eq (h : t.StandFor w ids) :
    w.top = ids.map fun id => (t.content id).token? := by
  induction w generalizing ids with
  | nil =>
    obtain rfl : ids = [] := h
    rfl
  | leaf token rest ih =>
    obtain ⟨id, more, rfl, hleaf, hadds, hrest⟩ := h
    rw [Writing.top, List.map_cons, token?_of_adds hleaf hadds, ih hrest]
  | empty tag rest ih =>
    obtain ⟨id, more, e, rfl, -, he, -, hrest⟩ := h
    rw [Writing.top, List.map_cons, he, ih hrest]
    rfl
  | pair tag inside gap rest _ ih =>
    obtain ⟨id, more, e, rfl, -, he, -, hrest⟩ := h
    rw [Writing.top, List.map_cons, he, ih hrest]
    rfl

end Tree

/-! ## The root element's tag -/

/-- The tag that an element without content begins with. -/
def Form.token : Form → Token
  | .closed tag => .emptyTag tag
  | .opened tag _ => .startTag tag

namespace Writing

variable {w rest : Writing} {spots : List Spot} {f : Frame}

theorem firstTag?_before (form : Form) (rest : Writing) :
    (form.before rest).firstTag? = some form.token := by
  cases form <;> rfl

theorem firstTag?_respell_afterText (raw : String) (w : Writing) :
    ((w.afterText raw).respell spots f).firstTag? = (w.respell spots f).firstTag? := by
  unfold afterText
  split
  · rfl
  · split <;> rfl

theorem firstTag?_respell_joined_leaf (token : Token) (rest : Writing) :
    ((Writing.leaf token rest).joined.respell spots f).firstTag? =
      (rest.joined.respell spots f).firstTag? := by
  cases token with
  | text raw => exact firstTag?_respell_afterText raw rest.joined
  | _ => rfl

/-- The writing begins with a tag, which is `token` if it is an empty tag just if `token` is. -/
def OpensLike (token : Token) (w : Writing) : Prop :=
  ∃ first, w.firstTag? = some first ∧ (first.isEmptyTag = token.isEmptyTag → first = token)

theorem opensLike_respell_empty {tag : Tag} (htag : tag.Legible) {form : Form}
    (hform : formAt? spots (f.childPath tag.name) (attributesOf tag) = some form) :
    OpensLike form.token ((Writing.empty tag.trimmed rest).respell spots f) := by
  refine ⟨form.token, ?_, fun _ => rfl⟩
  have hname : tag.trimmed.name = tag.name := rfl
  rw [respell, hname, htag.attributesOf_trimmed, hform]
  exact firstTag?_before ..

theorem opensLike_respell_pair {tag : Tag} {inside : Writing} {gap : List Char} {form : Form}
    (hform : formAt? spots (f.childPath tag.name) (attributesOf tag) = some form)
    (hown : form.tag = tag) :
    OpensLike form.token ((Writing.pair tag inside gap rest).respell spots f) := by
  rw [respell]
  split
  · rw [hform]
    exact ⟨form.token, firstTag?_before .., fun _ => rfl⟩
  · refine ⟨.startTag tag, rfl, fun hempty => ?_⟩
    cases form with
    | closed own => cases hempty
    | opened own gap =>
      obtain rfl : own = tag := hown
      rfl

/-- An element with content has no spelling that is put back, so that it keeps its start tag. -/
theorem opensLike_respell_of_none {tag : Tag} {inside : Writing} {gap : List Char}
    (hform : formAt? spots (f.childPath tag.name) (attributesOf tag) = none) :
    OpensLike (.startTag tag) ((Writing.pair tag inside gap rest).respell spots f) := by
  rw [respell]
  split
  · rw [hform]
    exact ⟨.startTag tag, rfl, fun _ => rfl⟩
  · exact ⟨.startTag tag, rfl, fun _ => rfl⟩

/-- Nothing within an element is at the element's own path, nor is anything behind it. -/
theorem formAt?_eq_none {tag : Tag} {inside rest : Writing} {gap : List Char}
    (hw : (Writing.pair tag inside gap rest).Legible) (hnil : inside.isNil = false) {position : ℕ}
    (attributes : String) :
    formAt? ((Writing.pair tag inside gap rest).spots f position) (f.childPath tag.name)
      attributes = none := by
  obtain ⟨htag, hinside, -, hrest⟩ := hw
  rw [Option.eq_none_iff_forall_ne_some]
  intro form hform
  obtain ⟨s, hs, hpath, -⟩ := exists_of_formAt? hform
  rw [Writing.spots, if_neg (by simp [hnil])] at hs
  rcases List.mem_append.mp hs with hs | hs
  · obtain ⟨name, k, -, hleads⟩ := exists_leads hinside hs
    obtain ⟨more, hmore⟩ := hleads.eq
    have hlength := congrArg List.length hmore
    rw [hpath, EmptyElement.Frame.enter] at hlength
    simp only [List.length_append, List.length_cons] at hlength
    omega
  · exact ne_of_leads hrest (leads_childPath htag f) hs hpath.symm

end Writing

namespace Tree

variable {t t' : Tree} {w p : Writing} {ids : List NodeId}

/-- What an element's node stands for, as the tree writes it: an empty tag, or two tags if the node
    has children. -/
theorem StandFor.joined_element {id : NodeId} {more : List NodeId} (h : t.StandFor p (id :: more))
    {e : Element} (he : t.content id = .element e) :
    ∃ tag rest, elementOf? tag = some e ∧
      ((p.collapse.joined = .empty tag.trimmed rest ∧ t.children id = []) ∨
        ∃ inside, p.collapse.joined = .pair tag inside [] rest) := by
  cases p with
  | nil => cases h
  | leaf token rest =>
    obtain ⟨_, _, heq, hleaf, hadds, -⟩ := h
    cases heq
    exact absurd he ((spelling_of_adds hleaf hadds).2.1 e)
  | empty tag rest =>
    obtain ⟨_, _, e', heq, htag, he', hchildren, -⟩ := h
    cases heq
    cases he.symm.trans he'
    exact ⟨tag, rest.collapse.joined, htag, .inl ⟨rfl, hchildren⟩⟩
  | pair tag inside gap rest =>
    obtain ⟨_, _, e', heq, htag, he', hinside, -⟩ := h
    cases heq
    cases he.symm.trans he'
    refine ⟨tag, rest.collapse.joined, htag, ?_⟩
    rw [Writing.collapse]
    split
    · next hnil =>
      obtain rfl := Writing.eq_nil_of_isNil hnil
      exact .inl ⟨rfl, hinside⟩
    · exact .inr ⟨_, rfl⟩

/-- What nodes of an edited tree stand for begins with the tag of the document that the tree was
    read from, if its spellings are put back and the tag's kind is the same. -/
theorem StandFor.opensLike (hw : w.Legible) (h : t.StandFor w ids) (h' : t'.StandFor p ids)
    (hcontent : ∀ id ∈ ids, t'.content id = t.content id)
    (hne : ∀ id ∈ ids, t'.children id = [] → t.children id = []) {f : Frame} {position : ℕ}
    {token : Token} (hfirst : w.firstTag? = some token) :
    Writing.OpensLike token (p.collapse.joined.respell (w.spots f position) f) := by
  have htag : ∀ {tag tag' : Tag} {e : Element}, elementOf? tag = some e →
      elementOf? tag' = some e → tag' = tag := by
    intro tag tag' e htag htag'
    obtain ⟨attributes, rfl⟩ := exists_attributes_of_elementOf? htag
    obtain ⟨attributes', heq⟩ := exists_attributes_of_elementOf? htag'
    cases tag
    cases tag'
    cases heq
    rfl
  induction w generalizing p ids position with
  | nil => cases hfirst
  | leaf token' rest ih =>
    obtain ⟨id, more, rfl, hleaf, hadds, hrest⟩ := h
    obtain ⟨hid, hmore⟩ := List.forall_mem_cons.mp hcontent
    obtain ⟨-, hnemore⟩ := List.forall_mem_cons.mp hne
    obtain ⟨-, helement, -⟩ := spelling_of_adds hleaf hadds
    rw [← hid] at helement
    obtain ⟨own, rest', rfl, hrest'⟩ : ∃ own rest', p = .leaf own rest' ∧
        t'.StandFor rest' more := by
      cases p with
      | nil => cases h'
      | leaf own rest' =>
        obtain ⟨_, _, heq, -, -, hrest'⟩ := h'
        cases heq
        exact ⟨own, rest', rfl, hrest'⟩
      | empty tag rest' =>
        obtain ⟨_, _, e, heq, -, he, -⟩ := h'
        cases heq
        exact absurd he (helement e)
      | pair tag inside gap rest' =>
        obtain ⟨_, _, e, heq, -, he, -⟩ := h'
        cases heq
        exact absurd he (helement e)
    obtain ⟨first, htags, hsame⟩ := ih hw.2.2.2 hrest hrest' hmore hnemore hfirst
     
    exact ⟨first, (Writing.firstTag?_respell_joined_leaf own _).trans htags, hsame⟩
  | empty tag rest =>
    obtain ⟨id, more, e, rfl, he, hid, hchildren, -⟩ := h
    rw [← (List.forall_mem_cons.mp hcontent).1] at hid
    cases hfirst
    have hform := formAt?_of_mem (Writing.nodup_spots hw f position)
      (s := ⟨⟨tag.name, f.childPath tag.name, attributesOf tag, position, _⟩, .closed tag⟩)
      (List.mem_cons_self ..)
    obtain ⟨tag', rest', he', ⟨hp, -⟩ | ⟨inside', hp⟩⟩ := h'.joined_element hid
    · obtain rfl := htag he he'
      rw [hp]
      exact Writing.opensLike_respell_empty hw.1 hform
    · obtain rfl := htag he he'
      rw [hp]
      exact Writing.opensLike_respell_pair hform rfl
  | pair tag inside gap rest =>
    obtain ⟨id, more, e, rfl, he, hid, hinside, -⟩ := h
    rw [← (List.forall_mem_cons.mp hcontent).1] at hid
    cases hfirst
    obtain ⟨tag', rest', he', hp⟩ := h'.joined_element hid
    obtain rfl := htag he he'
    cases hnil : inside.isNil with
    | true =>
      obtain rfl := Writing.eq_nil_of_isNil hnil
      have hform := formAt?_of_mem (Writing.nodup_spots hw f position)
        (s := ⟨⟨tag'.name, f.childPath tag'.name, attributesOf tag', position, _⟩,
          .opened tag' gap⟩) (List.mem_cons_self ..)
      rcases hp with ⟨hp, -⟩ | ⟨inside', hp⟩
      · rw [hp]
        exact Writing.opensLike_respell_empty hw.1 hform
      · rw [hp]
        exact Writing.opensLike_respell_pair hform rfl
    | false =>
      rcases hp with ⟨-, hchildren⟩ | ⟨inside', hp⟩
      · rw [(List.forall_mem_cons.mp hne).1 hchildren] at hinside
        rw [hinside.eq_nil] at hnil
        cases hnil
      · rw [hp]
        exact Writing.opensLike_respell_of_none (Writing.formAt?_eq_none hw hnil _)

end Tree

end MavenPom.Markup
