import MavenPom.Proofs.Markup.Attribute
import MavenPom.Proofs.Markup.Recovery
import MavenPom.Proofs.Markup.Restore

/-!
# Nodes of a writing

Which nodes of a tree a writing is read as, and how a tree writes the nodes that a writing is read
as: elements without content as one tag, and no white space in end tags.
-/

namespace MavenPom.Markup

namespace Writing

/-- The writing as trees are written. -/
def collapse : Writing → Writing
  | .nil => .nil
  | .leaf token rest => .leaf token rest.collapse
  | .empty tag rest => .empty tag.trimmed rest.collapse
  | .pair tag inside _ rest =>
    if inside.isNil then .empty tag.trimmed rest.collapse
    else .pair tag inside.collapse [] rest.collapse

/-- The number of nodes that a writing is read as. -/
def count : Writing → Nat
  | .nil => 0
  | .leaf _ rest => rest.count + 1
  | .empty _ rest => rest.count + 1
  | .pair _ inside _ rest => inside.count + rest.count + 1

/-- The nodes at the top of a writing whose first node is `n`. -/
def ids : Writing → ℕ → List NodeId
  | .nil, _ => []
  | .leaf _ rest, n => n :: rest.ids (n + 1)
  | .empty _ rest, n => n :: rest.ids (n + 1)
  | .pair _ inside _ rest, n => n :: rest.ids (n + inside.count + 1)

end Writing

namespace Tree

/-- The nodes `ids` of a tree are what a writing is read as. -/
def StandFor (t : Tree) : Writing → List NodeId → Prop
  | .nil, ids => ids = []
  | .leaf token rest, ids =>
    ∃ id more, ids = id :: more ∧ token.isLeaf = true ∧ Adds token (t.content id) ∧
      t.StandFor rest more
  | .empty tag rest, ids =>
    ∃ id more e, ids = id :: more ∧ elementOf? tag = some e ∧ t.content id = .element e ∧
      t.children id = [] ∧ t.StandFor rest more
  | .pair tag inside _ rest, ids =>
    ∃ id more e, ids = id :: more ∧ elementOf? tag = some e ∧ t.content id = .element e ∧
      t.StandFor inside (t.children id) ∧ t.StandFor rest more

/-- The nodes of a tree from `n` on are those of a writing, in document order. -/
def Records (t : Tree) : Writing → ℕ → Prop
  | .nil, _ => True
  | .leaf token rest, n =>
    token.isLeaf = true ∧ Adds token (t.content n) ∧ t.Records rest (n + 1)
  | .empty tag rest, n =>
    (∃ e, elementOf? tag = some e ∧ t.content n = .element e) ∧ t.children n = [] ∧
      t.Records rest (n + 1)
  | .pair tag inside _ rest, n =>
    (∃ e, elementOf? tag = some e ∧ t.content n = .element e) ∧
      t.children n = inside.ids (n + 1) ∧ t.Records inside (n + 1) ∧
        t.Records rest (n + inside.count + 1)

namespace Records

variable {t t' : Tree} {w : Writing} {n : ℕ}

theorem congr (h : t.Records w n) (heq : ∀ x : ℕ, n ≤ x → x < n + w.count →
    t'.content x = t.content x ∧ t'.children x = t.children x) : t'.Records w n := by
  induction w generalizing n with
  | nil => trivial
  | leaf token rest ih =>
    obtain ⟨hleaf, hadds, hrest⟩ := h
    simp only [Writing.count] at heq
    obtain ⟨hcontent, -⟩ := heq n (Nat.le_refl _) (by omega)
    exact ⟨hleaf, hcontent ▸ hadds, ih hrest fun x hx hlt => heq x (by omega) (by omega)⟩
  | empty tag rest ih =>
    obtain ⟨helement, hchildren, hrest⟩ := h
    simp only [Writing.count] at heq
    obtain ⟨hcontent, hsame⟩ := heq n (Nat.le_refl _) (by omega)
    exact ⟨hcontent ▸ helement, hsame.trans hchildren,
      ih hrest fun x hx hlt => heq x (by omega) (by omega)⟩
  | pair tag inside gap rest ihinside ihrest =>
    obtain ⟨helement, hchildren, hinside, hrest⟩ := h
    simp only [Writing.count] at heq
    obtain ⟨hcontent, hsame⟩ := heq n (Nat.le_refl _) (by omega)
    exact ⟨hcontent ▸ helement, hsame.trans hchildren,
      ihinside hinside fun x hx hlt => heq x (by omega) (by omega),
      ihrest hrest fun x hx hlt => heq x (by omega) (by omega)⟩

theorem standFor (h : t.Records w n) : t.StandFor w (w.ids n) := by
  induction w generalizing n with
  | nil => rfl
  | leaf token rest ih =>
    obtain ⟨hleaf, hadds, hrest⟩ := h
    exact ⟨n, _, rfl, hleaf, hadds, ih hrest⟩
  | empty tag rest ih =>
    obtain ⟨⟨e, htag, he⟩, hchildren, hrest⟩ := h
    exact ⟨n, _, e, rfl, htag, he, hchildren, ih hrest⟩
  | pair tag inside gap rest ihinside ihrest =>
    obtain ⟨⟨e, htag, he⟩, hchildren, hinside, hrest⟩ := h
    exact ⟨n, _, e, rfl, htag, he, hchildren ▸ ihinside hinside, ihrest hrest⟩

end Records

/-! ## Reading the nodes of a writing -/

/-- `d'` is `d` with the nodes of a writing added at its innermost open node. -/
structure Draft.Reads (w : Writing) (d d' : Draft) : Prop where
  sound : d'.Sound
  opened : d'.opened = d.opened
  size : d'.tree.size = d.tree.size + w.count
  records : d'.tree.Records w d.tree.size
  content : ∀ x : ℕ, x < d.tree.size → d'.tree.content x = d.tree.content x
  children : ∀ x : ℕ, x < d.tree.size → d'.tree.children x =
    if d.current = x then d.tree.children x ++ w.ids d.tree.size else d.tree.children x

namespace Draft

theorem exists_of_take_leaf {d d' : Draft} {token : Token} {start stop : ℕ}
    (hleaf : token.isLeaf = true) (h : d.take ⟨token, start, stop⟩ = .ok d') :
    ∃ c, Adds token c ∧ d' = d.add c := by
  cases token with
  | startTag tag => cases hleaf
  | emptyTag tag => cases hleaf
  | endTag name => cases hleaf
  | _ =>
    cases h
    exact ⟨_, rfl, rfl⟩

/-- A node that stays without children comes before the nodes of the writing that follows. -/
theorem Reads.add {w w' : Writing} {d d' : Draft} {c : Content} (hd : d.Sound)
    (h : Reads w (d.add c) d') (hcount : w'.count = w.count + 1)
    (hids : ∀ n, w'.ids n = n :: w.ids (n + 1))
    (hrecords : d'.tree.content d.tree.size = c → d'.tree.children d.tree.size = [] →
      d'.tree.Records w (d.tree.size + 1) → d'.tree.Records w' d.tree.size) :
    Reads w' d d' := by
  have hsize : (d.add c).tree.size = d.tree.size + 1 := size_pushChild c
  have hcurrent : (d.add c).current = d.current := rfl
  have hlt := hd.current_lt
  have hpush : ∀ x, (d.add c).tree.children x =
      if d.current = x then d.tree.children x ++ [d.tree.size] else d.tree.children x :=
    fun x => children_pushChild c x hlt
  refine ⟨h.sound, h.opened, by rw [h.size, hsize, hcount]; omega, ?_, fun x hx => ?_,
    fun x hx => ?_⟩
  · refine hrecords ?_ ?_ (hsize ▸ h.records)
    · rw [h.content _ (by omega)]
      exact (content_pushChild c _).trans (if_pos rfl)
    · rw [h.children _ (by omega), hcurrent, if_neg (Nat.ne_of_lt hlt), hpush,
        if_neg (Nat.ne_of_lt hlt), children_eq_nil (Nat.le_refl _)]
  · rw [h.content x (by omega)]
    exact (content_pushChild c x).trans (if_neg (Nat.ne_of_lt hx))
  · rw [h.children x (by omega), hcurrent, hpush, hsize, hids]
    split <;> simp

/-- An element with what is inside it comes before the nodes of the writing that follows. -/
theorem Reads.pair {tag : Tag} {e : Element} {inside rest : Writing} {gap : List Char}
    {d d₁ d' : Draft} (hd : d.Sound) (htag : elementOf? tag = some e)
    (hinside : Reads inside ⟨d.tree.pushChild d.current (.element e), d.tree.size :: d.opened⟩ d₁)
    (hrest : Reads rest ⟨d₁.tree, d.opened⟩ d') : Reads (.pair tag inside gap rest) d d' := by
  have hlt := hd.current_lt
  have hsize : (d.tree.pushChild d.current (.element e)).size = d.tree.size + 1 := size_pushChild _
  have hpush : ∀ x, (d.tree.pushChild d.current (.element e)).children x =
      if d.current = x then d.tree.children x ++ [d.tree.size] else d.tree.children x :=
    fun x => children_pushChild _ x hlt
  have hsize₁ : d₁.tree.size = d.tree.size + 1 + inside.count := by rw [hinside.size, hsize]
  have hcontent₁ : ∀ x : ℕ, x < d.tree.size + 1 → d₁.tree.content x =
      (d.tree.pushChild d.current (.element e)).content x :=
    fun x hx => hinside.content x (by simpa [hsize] using hx)
  have hchildren₁ : ∀ x : ℕ, x < d.tree.size + 1 → d₁.tree.children x =
      if d.tree.size = x then inside.ids (d.tree.size + 1)
      else if d.current = x then d.tree.children x ++ [d.tree.size] else d.tree.children x := by
    intro x hx
    have h := hinside.children x (by simpa [hsize] using hx)
    rw [h, hpush]
    show (if d.tree.size = x then _ else _) = _
    split
    · next heq =>
      rw [if_neg (heq ▸ Nat.ne_of_lt hlt), children_eq_nil (Nat.le_of_eq heq), hsize,
        List.nil_append]
    · rfl
  have hcontent' : ∀ x : ℕ, x < d₁.tree.size → d'.tree.content x = d₁.tree.content x :=
    hrest.content
  have hchildren' : ∀ x : ℕ, x < d₁.tree.size → d'.tree.children x =
      if d.current = x then d₁.tree.children x ++ rest.ids d₁.tree.size else d₁.tree.children x :=
    hrest.children
  refine ⟨hrest.sound, hrest.opened, ?_, ⟨⟨e, htag, ?_⟩, ?_, ?_, ?_⟩, fun x hx => ?_,
    fun x hx => ?_⟩
  · rw [hrest.size, hsize₁, Writing.count]
    omega
  · rw [hcontent' _ (by omega), hcontent₁ _ (by omega)]
    exact (content_pushChild _ _).trans (if_pos rfl)
  · rw [hchildren' _ (by omega), if_neg (Nat.ne_of_lt hlt), hchildren₁ _ (by omega),
      if_pos rfl]
  · refine (hsize ▸ hinside.records).congr fun x hx hxlt => ⟨hcontent' x (by omega), ?_⟩
    rw [hchildren' x (by omega), if_neg]
    exact Nat.ne_of_lt (Nat.lt_of_lt_of_le hlt (Nat.le_of_succ_le hx))
  · have hnext : d.tree.size + inside.count + 1 = d₁.tree.size := by omega
    rw [hnext]
    exact hrest.records
  · rw [hcontent' x (by omega), hcontent₁ x (by omega)]
    exact (content_pushChild _ x).trans (if_neg (Nat.ne_of_lt hx))
  · rw [hchildren' x (by omega), hchildren₁ x (by omega), if_neg (Nat.ne_of_gt hx),
      Writing.ids, hsize₁]
    have hnext : d.tree.size + 1 + inside.count = d.tree.size + inside.count + 1 := by omega
    split <;> simp [hnext]

/-- Taking in the tokens of a writing adds its nodes. -/
theorem reads_of_foldlM {w : Writing} (hw : w.Leaves) {position : ℕ} {d d' : Draft}
    (hd : d.Sound) (h : (w.lexemes position).foldlM Draft.take d = .ok d') : Reads w d d' := by
  induction w generalizing position d d' with
  | nil =>
    cases h
    exact ⟨hd, rfl, rfl, trivial, fun _ _ => rfl, fun x _ => by simp [Writing.ids]⟩
  | leaf token rest ih =>
    obtain ⟨hleaf, hrest⟩ := hw
    obtain ⟨next, htake, h⟩ := exists_of_foldlM_cons h
    obtain ⟨c, hadds, rfl⟩ := exists_of_take_leaf hleaf htake
    exact (ih hrest (hd.add c) h).add hd rfl (fun _ => rfl)
      fun hcontent _ hrecords => ⟨hleaf, hcontent ▸ hadds, hrecords⟩
  | empty tag rest ih =>
    obtain ⟨next, htake, h⟩ := exists_of_foldlM_cons h
    obtain ⟨e, htag, rfl⟩ := exists_of_take_emptyTag htake
    exact (ih hw (hd.add _) h).add hd rfl (fun _ => rfl)
      fun hcontent hchildren hrecords => ⟨⟨e, htag, hcontent⟩, hchildren, hrecords⟩
  | pair tag inside gap rest ihinside ihrest =>
    obtain ⟨hinside, hrest⟩ := hw
    obtain ⟨next, hinner, h⟩ := exists_of_foldlM_append h
    obtain ⟨entered, htake, hinner⟩ := exists_of_foldlM_cons hinner
    obtain ⟨e, htag, rfl⟩ := exists_of_take_startTag htake
    obtain ⟨left, hleave, h⟩ := exists_of_foldlM_cons h
    have hreads := ihinside hinside (hd.enter _) hinner
    cases hleave
    have hopened : next.opened.tail = d.opened := by rw [hreads.opened]; rfl
    rw [hopened] at h
    have hsound := hreads.sound.leave
    rw [hopened] at hsound
    exact hreads.pair hd htag (ihrest hrest hsound h)

end Draft

/-- A tree is written as the writing that it is read from, up to the spelling of empty elements and
    white space in end tags. -/
theorem records_of_foldlM {w : Writing} (hw : w.Leaves) {t : Tree}
    (h : (w.lexemes 0).foldlM Draft.take ⟨empty, []⟩ = .ok ⟨t, []⟩) :
    t.WellFormed ∧ t.content root = .document ∧ t.size = w.count + 1 ∧
      t.children root = w.ids 1 ∧ t.Records w 1 := by
  have hreads := Draft.reads_of_foldlM hw Draft.Sound.start h
  have hone : (⟨empty, []⟩ : Draft).tree.size = 1 := rfl
  refine ⟨hreads.sound.wellFormed, ?_, ?_, ?_, ?_⟩
  · exact hreads.content root (by simp [hone, root])
  · rw [hreads.size, hone, Nat.add_comm]
  · exact hreads.children root (by simp [hone, root])
  · exact hreads.records

/-! ## Writing the nodes of a writing -/

theorem spelling_of_adds {token : Token} (hleaf : token.isLeaf = true) {c : Content}
    (h : Adds token c) : c ≠ .document ∧ (∀ e, c ≠ .element e) ∧
      token.spelling = (leafText c).toList := by
  cases token with
  | startTag tag => cases hleaf
  | emptyTag tag => cases hleaf
  | endTag name => cases hleaf
  | _ =>
    cases h
    exact ⟨by simp, by simp, rfl⟩

theorem StandFor.eq_nil {t : Tree} {w : Writing} (h : t.StandFor w []) : w = .nil := by
  cases w with
  | nil => rfl
  | leaf token rest =>
    obtain ⟨_, _, heq, -⟩ := h
    cases heq
  | empty tag rest =>
    obtain ⟨_, _, _, heq, -⟩ := h
    cases heq
  | pair tag inside gap rest =>
    obtain ⟨_, _, _, heq, -⟩ := h
    cases heq

/-- Nodes are written as the writing that they stand for, up to the spelling of empty elements and
    white space in end tags. -/
theorem StandFor.flatMap_renderChars {t : Tree} (ht : t.WellFormed) {w : Writing}
    {ids : List NodeId} (h : t.StandFor w ids) {height : ℕ}
    (hheight : ∀ id ∈ ids, t.size ≤ id + height ∧ id < t.size) :
    ids.flatMap (t.renderChars height) = w.collapse.chars := by
  induction w generalizing ids height with
  | nil =>
    obtain rfl : ids = [] := h
    rfl
  | leaf token rest ih =>
    obtain ⟨id, more, rfl, hleaf, hadds, hrest⟩ := h
    obtain ⟨hid, hmore⟩ := List.forall_mem_cons.mp hheight
    obtain ⟨height, rfl⟩ : ∃ k, height = k + 1 := ⟨height - 1, by simp only [NodeId] at *; omega⟩
    obtain ⟨hdocument, helement, hspelling⟩ := spelling_of_adds hleaf hadds
    rw [List.flatMap_cons, ih hrest hmore, Writing.collapse, Writing.chars, hspelling,
      renderChars_leaf height hdocument (by simp [isElement, element?])]
  | empty tag rest ih =>
    obtain ⟨id, more, e, rfl, htag, hcontent, hchildren, hrest⟩ := h
    obtain ⟨hid, hmore⟩ := List.forall_mem_cons.mp hheight
    obtain ⟨height, rfl⟩ : ∃ k, height = k + 1 := ⟨height - 1, by simp only [NodeId] at *; omega⟩
    obtain ⟨attributes, rfl⟩ := exists_attributes_of_elementOf? htag
    rw [List.flatMap_cons, ih hrest hmore, Writing.collapse, Writing.chars, renderChars, hcontent]
    simp [hchildren, Token.spelling, Tag.inside, Tag.trimmed]
  | pair tag inside gap rest ihinside ihrest =>
    obtain ⟨id, more, e, rfl, htag, hcontent, hinside, hrest⟩ := h
    obtain ⟨hid, hmore⟩ := List.forall_mem_cons.mp hheight
    obtain ⟨height, rfl⟩ : ∃ k, height = k + 1 := ⟨height - 1, by simp only [NodeId] at *; omega⟩
    obtain ⟨attributes, rfl⟩ := exists_attributes_of_elementOf? htag
    have hbelow : ∀ c ∈ t.children id, t.size ≤ c + height ∧ c < t.size := by
      intro c hc
      have hlt := ht.lt_child hc
      have hsize := ht.child_lt hc
      simp only [NodeId] at *
      omega
    rw [List.flatMap_cons, ihrest hrest hmore, Writing.collapse, renderChars, hcontent,
      ihinside hinside hbelow]
    cases inside with
    | nil =>
      have hnil : t.children id = [] := hinside
      simp [hnil, Writing.isNil, Writing.chars, Token.spelling, Tag.inside, Tag.trimmed]
    | _ =>
      have hne : t.children id ≠ [] := by
        intro hnil
        rw [hnil] at hinside
        cases hinside.eq_nil
      simp [hne, Writing.isNil, Writing.chars, Token.spelling, Tag.inside, endTagChars]

/-- A tree is written as the writing that the document stands for. -/
theorem render_of_standFor {t : Tree} (ht : t.WellFormed) (hdocument : t.content root = .document)
    (hsize : 0 < t.size) {w : Writing} (h : t.StandFor w (t.children root)) :
    t.render = String.ofList w.collapse.chars := by
  obtain ⟨height, hheight⟩ : ∃ k, t.size = k + 1 := ⟨t.size - 1, by omega⟩
  rw [render_eq, hheight, renderChars, hdocument]
  refine congrArg String.ofList (h.flatMap_renderChars ht fun id hid => ?_)
  have hpos : 0 < id := ht.lt_child hid
  have hlt := ht.child_lt hid
  simp only [NodeId] at *
  omega

end Tree

end MavenPom.Markup
