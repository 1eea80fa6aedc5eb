import MavenPom.Proofs.Markup.Edit

/-!
# What edits leave as it is

An edit within a node changes its children and what is below it. Every lookup that starts at another
node stays, unless it leads through the edited one. An edit under the children of one name leaves
everything that is reached by other names.
-/

namespace MavenPom.Markup.Tree

theorem findSome?_congr {α β : Type} {f g : α → Option β} {l : List α}
    (h : ∀ a ∈ l, f a = g a) : l.findSome? f = l.findSome? g := by
  induction l with
  | nil => rfl
  | cons a l ih =>
    rw [List.findSome?_cons, List.findSome?_cons, h a (List.mem_cons_self ..),
      ih fun b hb => h b (.tail _ hb)]

/-! ## Chains of ancestors -/

namespace WellFormed

variable {t t' : Tree}

/-- Of two nodes above a node, or the node itself, one is above the other. -/
theorem ancestors_total (h : t.WellFormed) {n a b : NodeId} (ha : a ∈ n :: t.ancestors n)
    (hb : b ∈ n :: t.ancestors n) : a = b ∨ a ∈ t.ancestors b ∨ b ∈ t.ancestors a := by
  induction n using Nat.strongRecOn with
  | ind n ih =>
    rcases List.mem_cons.mp ha with rfl | ha'
    · rcases List.mem_cons.mp hb with rfl | hb'
      · exact .inl rfl
      · exact .inr (.inr hb')
    · rcases List.mem_cons.mp hb with rfl | hb'
      · exact .inr (.inl ha')
      · rw [h.ancestors_eq] at ha' hb'
        cases hp : t.parent? n with
        | none => simp [hp] at ha'
        | some p =>
          rw [hp] at ha' hb'
          exact ih p (h.parent_lt hp) ha' hb'

/-- What is above a node above another one is above that one. -/
theorem mem_ancestors_trans (h : t.WellFormed) {a b x : NodeId} (hab : a ∈ t.ancestors b)
    (hbx : b ∈ t.ancestors x) : a ∈ t.ancestors x := by
  induction x using Nat.strongRecOn with
  | ind x ih =>
    rw [h.ancestors_eq] at hbx ⊢
    cases hp : t.parent? x with
    | none => simp [hp] at hbx
    | some p =>
      simp only [hp, Option.map_some, Option.getD_some, List.mem_cons] at hbx ⊢
      rcases hbx with rfl | hbx
      · exact .inr hab
      · exact .inr (ih p (h.parent_lt hp) hbx)

/-- Of the children of a node, at most one is on the way to another node. -/
theorem child_on_way_unique (h : t.WellFormed) {n x a b : NodeId} (ha : a ∈ t.children x)
    (hb : b ∈ t.children x) (ha' : a ∈ n :: t.ancestors n) (hb' : b ∈ n :: t.ancestors n) :
    a = b := by
  have hnot : ∀ {c d : NodeId}, c ∈ t.children x → d ∈ t.children x → c ∉ t.ancestors d := by
    intro c d hc hd hmem
    rw [h.ancestors_child hd] at hmem
    have hlt := h.lt_child hc
    rcases List.mem_cons.mp hmem with rfl | hmem
    · exact Nat.lt_irrefl _ hlt
    · exact Nat.lt_irrefl _ (Nat.lt_trans hlt (h.lt_of_mem_ancestors hmem))
  rcases h.ancestors_total ha' hb' with heq | hmem | hmem
  · exact heq
  · exact absurd hmem (hnot ha hb)
  · exact absurd hmem (hnot hb ha)

theorem ancestors_congr (h : t.WellFormed) (h' : t'.WellFormed) {x : NodeId}
    (hparent : ∀ a ∈ x :: t.ancestors x, t'.parent? a = t.parent? a) :
    t'.ancestors x = t.ancestors x := by
  induction x using Nat.strongRecOn with
  | ind x ih =>
    rw [h'.ancestors_eq, h.ancestors_eq, hparent x (List.mem_cons_self ..)]
    cases hp : t.parent? x with
    | none => rfl
    | some p =>
      have hchain : t.ancestors x = p :: t.ancestors p := by rw [h.ancestors_eq, hp]; rfl
      simp only [Option.map_some, Option.getD_some]
      rw [ih p (h.parent_lt hp) fun a ha => hparent a (by rw [hchain]; exact .tail _ ha)]

theorem namespace?_congr (h : t.WellFormed) (h' : t'.WellFormed) {x : NodeId}
    (hparent : ∀ a ∈ x :: t.ancestors x, t'.parent? a = t.parent? a)
    (hcontent : ∀ a ∈ x :: t.ancestors x, t'.content a = t.content a) :
    t'.namespace? x = t.namespace? x := by
  have helement : ∀ a ∈ x :: t.ancestors x, t'.element? a = t.element? a := fun a ha => by
    simp only [element?, hcontent a ha]
  rw [namespace?, namespace?, h.ancestors_congr h' hparent, helement x (List.mem_cons_self ..)]
  cases t.element? x with
  | none => rfl
  | some e =>
    simp only
    congr 1
    exact findSome?_congr fun a ha => by rw [helement a ha]

end WellFormed

/-! ## Lookups -/

theorem mem_childrenNamed {t : Tree} {n c : NodeId} {ns : Option String} {name : String} :
    c ∈ t.childrenNamed n ns name ↔
      c ∈ t.childElements n ∧ (t.element? c).map (·.localName) = some name ∧
        t.namespace? c = ns := by
  simp [childrenNamed]

theorem mem_children_of_named {t : Tree} {n c : NodeId} {ns : Option String} {name : String}
    (h : c ∈ t.childrenNamed n ns name) : c ∈ t.children n :=
  List.mem_of_mem_filter (mem_childrenNamed.mp h).1

theorem eq_of_mem_childrenNamed {t : Tree} {n c : NodeId} {ns : Option String}
    {name other : String} (h : c ∈ t.childrenNamed n ns name)
    (h' : c ∈ t.childrenNamed n ns other) : name = other :=
  Option.some.inj ((mem_childrenNamed.mp h).2.1.symm.trans (mem_childrenNamed.mp h').2.1)

theorem mem_select_cons {t : Tree} {ns : Option String} {step : String} {path : List String}
    {n a : NodeId} : a ∈ t.select ns (step :: path) n ↔
      ∃ c ∈ t.childrenNamed n ns step, a ∈ t.select ns path c := by
  simp [select]

namespace WellFormed

variable {t : Tree} {ns : Option String}

/-- What a path leads to is where it starts, or below. -/
theorem mem_ancestors_of_select (h : t.WellFormed) {path : List String} {n a : NodeId}
    (ha : a ∈ t.select ns path n) : n ∈ a :: t.ancestors a := by
  induction path generalizing n with
  | nil =>
    obtain rfl : a = n := by simpa [select] using ha
    exact List.mem_cons_self ..
  | cons step path ih =>
    obtain ⟨c, hc, ha⟩ := mem_select_cons.mp ha
    have hchild := mem_children_of_named hc
    rcases List.mem_cons.mp (ih ha) with rfl | hmem
    · rw [h.ancestors_child hchild]
      exact .tail _ (List.mem_cons_self ..)
    · exact .tail _ (h.mem_ancestors_of_child hchild hmem)

/-- What a path of some steps leads to is below where it starts. -/
theorem mem_ancestors_of_select_cons (h : t.WellFormed) {step : String} {path : List String}
    {n a : NodeId} (ha : a ∈ t.select ns (step :: path) n) : n ∈ t.ancestors a := by
  obtain ⟨c, hc, ha⟩ := mem_select_cons.mp ha
  have hchild := mem_children_of_named hc
  rcases List.mem_cons.mp (h.mem_ancestors_of_select ha) with rfl | hmem
  · rw [h.ancestors_child hchild]
    exact List.mem_cons_self ..
  · exact h.mem_ancestors_of_child hchild hmem

theorem lt_of_select (h : t.WellFormed) {path : List String} {n a : NodeId} (hn : n < t.size)
    (ha : a ∈ t.select ns path n) : a < t.size := by
  induction path generalizing n with
  | nil =>
    obtain rfl : a = n := by simpa [select] using ha
    exact hn
  | cons step path ih =>
    obtain ⟨c, hc, ha⟩ := mem_select_cons.mp ha
    exact ih (h.child_lt (mem_children_of_named hc)) ha

/-- A path that leads to a node and a path that leads to one below it begin alike. -/
theorem select_below (h : t.WellFormed) {path path' : List String} {n a b : NodeId}
    (ha : a ∈ t.select ns path n) (hb : b ∈ t.select ns path' n)
    (hab : a ∈ b :: t.ancestors b) : ∃ rest, path' = path ++ rest ∧ b ∈ t.select ns rest a := by
  induction path generalizing path' n with
  | nil =>
    obtain rfl : a = n := by simpa [select] using ha
    exact ⟨path', rfl, hb⟩
  | cons step path ih =>
    have hna := h.mem_ancestors_of_select_cons ha
    cases path' with
    | nil =>
      obtain rfl : b = n := by simpa [select] using hb
      have hlt := h.lt_of_mem_ancestors hna
      rcases List.mem_cons.mp hab with rfl | hab
      · exact absurd hlt (Nat.lt_irrefl _)
      · exact absurd (Nat.lt_trans hlt (h.lt_of_mem_ancestors hab)) (Nat.lt_irrefl _)
    | cons step' path' =>
      obtain ⟨c, hc, hca⟩ := mem_select_cons.mp ha
      obtain ⟨c', hc', hcb⟩ := mem_select_cons.mp hb
      have hway : c ∈ b :: t.ancestors b := by
        rcases List.mem_cons.mp (h.mem_ancestors_of_select hca) with rfl | hca
        · exact hab
        · rcases List.mem_cons.mp hab with rfl | hab
          · exact .tail _ hca
          · exact .tail _ (h.mem_ancestors_trans hca hab)
      obtain rfl := h.child_on_way_unique (mem_children_of_named hc) (mem_children_of_named hc')
        hway (h.mem_ancestors_of_select hcb)
      obtain rfl := eq_of_mem_childrenNamed hc hc'
      obtain ⟨rest, rfl, hrest⟩ := ih hca hcb
      exact ⟨rest, rfl, hrest⟩

end WellFormed

/-! ## What stays as it is -/

/-- In `t'`, what is at and below `n` is as it is in `t`. -/
structure SameBelow (t t' : Tree) (n : NodeId) : Prop where
  before : t.WellFormed
  after : t'.WellFormed
  lt : n < t.size
  size_le : t.size ≤ t'.size
  content : ∀ x < t.size, t'.content x = t.content x
  ancestors : ∀ x < t.size, n ∈ x :: t.ancestors x → t'.ancestors x = t.ancestors x
  children : ∀ x < t.size, n ∈ x :: t.ancestors x → t'.children x = t.children x

namespace SameBelow

variable {t t' t'' : Tree} {n : NodeId} {ns : Option String}

theorem child (h : SameBelow t t' n) {c : NodeId} (hc : c ∈ t.children n) : SameBelow t t' c := by
  have hway : ∀ x, c ∈ x :: t.ancestors x → n ∈ x :: t.ancestors x := by
    intro x hx
    rcases List.mem_cons.mp hx with rfl | hx
    · rw [h.before.ancestors_child hc]
      exact .tail _ (List.mem_cons_self ..)
    · exact .tail _ (h.before.mem_ancestors_of_child hc hx)
  exact ⟨h.before, h.after, h.before.child_lt hc, h.size_le, h.content,
    fun x hx hmem => h.ancestors x hx (hway x hmem),
    fun x hx hmem => h.children x hx (hway x hmem)⟩

theorem trans (h : SameBelow t t' n) (h' : SameBelow t' t'' n) : SameBelow t t'' n where
  before := h.before
  after := h'.after
  lt := h.lt
  size_le := Nat.le_trans h.size_le h'.size_le
  content x hx := by rw [h'.content x (Nat.lt_of_lt_of_le hx h.size_le), h.content x hx]
  ancestors x hx hmem := by
    have hsame := h.ancestors x hx hmem
    rw [h'.ancestors x (Nat.lt_of_lt_of_le hx h.size_le) (hsame ▸ hmem), hsame]
  children x hx hmem := by
    have hsame := h.ancestors x hx hmem
    rw [h'.children x (Nat.lt_of_lt_of_le hx h.size_le) (hsame ▸ hmem), h.children x hx hmem]

theorem element?_eq (h : SameBelow t t' n) : t'.element? n = t.element? n := by
  simp only [element?, h.content n h.lt]

theorem namespace?_eq (h : SameBelow t t' n) : t'.namespace? n = t.namespace? n := by
  have hself := List.mem_cons_self (a := n) (l := t.ancestors n)
  rw [namespace?, namespace?, h.ancestors n h.lt hself, h.element?_eq]
  cases t.element? n with
  | none => rfl
  | some e =>
    simp only
    congr 1
    refine findSome?_congr fun a ha => ?_
    have hlt : a < t.size := by
      rcases List.mem_cons.mp ha with rfl | ha
      · exact h.lt
      · exact Nat.lt_trans (h.before.lt_of_mem_ancestors ha) h.lt
    simp only [element?, h.content a hlt]

theorem children_eq (h : SameBelow t t' n) : t'.children n = t.children n :=
  h.children n h.lt (List.mem_cons_self ..)

theorem childElements_eq (h : SameBelow t t' n) : t'.childElements n = t.childElements n := by
  rw [childElements, h.children_eq]
  exact List.filter_congr fun c hc => isElement_congr (h.content c (h.before.child_lt hc))

theorem childrenNamed_eq (h : SameBelow t t' n) (name : String) :
    t'.childrenNamed n ns name = t.childrenNamed n ns name := by
  rw [childrenNamed, h.childElements_eq]
  refine List.filter_congr fun c hc => ?_
  have hchild := h.child (List.mem_of_mem_filter hc)
  rw [hchild.element?_eq, hchild.namespace?_eq]

theorem text_eq (h : SameBelow t t' n) : t'.text n = t.text n := by
  rw [text, text, h.children_eq]
  congr 1
  exact List.map_congr_left fun c hc => by rw [h.content c (h.before.child_lt hc)]

theorem select_eq (h : SameBelow t t' n) (path : List String) :
    t'.select ns path n = t.select ns path n := by
  induction path generalizing n with
  | nil => rfl
  | cons step path ih =>
    rw [select, select, h.childrenNamed_eq]
    exact List.flatMap_congr fun c hc => ih (h.child (mem_children_of_named hc))

/-- What is reached from a node that stays as it is does so too. -/
theorem of_select (h : SameBelow t t' n) {path : List String} {a : NodeId}
    (ha : a ∈ t.select ns path n) : SameBelow t t' a := by
  induction path generalizing n with
  | nil =>
    obtain rfl : a = n := by simpa [select] using ha
    exact h
  | cons step path ih =>
    obtain ⟨c, hc, ha⟩ := mem_select_cons.mp ha
    exact ih (h.child (mem_children_of_named hc)) ha

theorem childText?_eq (h : SameBelow t t' n) (name : String) :
    t'.childText? n ns name = t.childText? n ns name := by
  simp only [childText?, childNamed?, h.childrenNamed_eq]
  refine Option.bind_congr fun c hc => ?_
  rw [(h.child (mem_children_of_named (List.mem_of_mem_head? hc))).text_eq]

end SameBelow

theorem sameBelow_self {t : Tree} (ht : t.WellFormed) {n : NodeId} (hn : n < t.size) :
    SameBelow t t n :=
  ⟨ht, ht, hn, Nat.le_refl _, fun _ _ => rfl, fun _ _ _ => rfl, fun _ _ _ => rfl⟩

/-! ## Edits within a node -/

/-- `t'` is `t` with changes to the children of `n` and to what is below it. -/
structure Within (t t' : Tree) (n : NodeId) : Prop where
  before : t.WellFormed
  after : t'.WellFormed
  lt : n < t.size
  size_le : t.size ≤ t'.size
  content : ∀ x < t.size, t'.content x = t.content x
  parent? : ∀ x < t.size, n ∉ t.ancestors x → t'.parent? x = t.parent? x
  children : ∀ x < t.size, x ≠ n → n ∉ t.ancestors x → t'.children x = t.children x

theorem within_self {t : Tree} (ht : t.WellFormed) {n : NodeId} (hn : n < t.size) :
    Within t t n :=
  ⟨ht, ht, hn, Nat.le_refl _, fun _ _ => rfl, fun _ _ _ => rfl, fun _ _ _ _ => rfl⟩

theorem within_setText {t : Tree} (ht : t.WellFormed) {n : NodeId} (hn : n < t.size)
    (text : String) : Within t (t.setText n text) n where
  before := ht
  after := ht.setText text hn
  lt := hn
  size_le := by rw [size_setText]; exact Nat.le_succ _
  content x hx := by rw [content_setText, if_neg (Nat.ne_of_lt hx)]
  parent? x hx hnot := by
    have hchild : x ∉ t.children n := fun hchild =>
      hnot (by rw [ht.ancestors_child hchild]; exact List.mem_cons_self ..)
    rw [parent?_setText, if_neg (Nat.ne_of_gt hx), if_neg hchild]
  children x _ hne _ := by rw [children_setText text hn, if_neg (Ne.symm hne)]

theorem Inserted.within {t t' : Tree} {n : NodeId} {name : String} {front back : List NodeId}
    (h : Inserted t t' n name front back) (ht : t.WellFormed) (hn : n < t.size) :
    Within t t' n where
  before := ht
  after := h.wellFormed
  lt := hn
  size_le := Nat.le_of_lt h.size_lt
  content := h.content
  parent? x hx _ := h.parent? x hx
  children x hx hne _ := h.children x hx hne

/-- An insertion leaves everything that its place is not in. -/
theorem Inserted.sameBelow {t t' : Tree} {n : NodeId} {name : String} {front back : List NodeId}
    (h : Inserted t t' n name front back) (ht : t.WellFormed) {x : NodeId} (hx : x < t.size)
    (hnot : x ∉ n :: t.ancestors n) : SameBelow t t' x where
  before := ht
  after := h.wellFormed
  lt := hx
  size_le := Nat.le_of_lt h.size_lt
  content := h.content
  ancestors y hy _ := by
    refine ht.ancestors_congr h.wellFormed fun a ha => h.parent? a ?_
    rcases List.mem_cons.mp ha with rfl | ha
    · exact hy
    · exact Nat.lt_trans (ht.lt_of_mem_ancestors ha) hy
  children y hy hmem := h.children y hy fun heq => hnot (heq ▸ hmem)

namespace Within

variable {t t' t'' : Tree} {n : NodeId} {ns : Option String}

theorem ancestors_eq (h : Within t t' n) {x : NodeId} (hx : x < t.size)
    (hnot : n ∉ t.ancestors x) : t'.ancestors x = t.ancestors x := by
  refine h.before.ancestors_congr h.after fun a ha => ?_
  rcases List.mem_cons.mp ha with rfl | ha
  · exact h.parent? a hx hnot
  · exact h.parent? a (Nat.lt_trans (h.before.lt_of_mem_ancestors ha) hx) fun hmem =>
      hnot (h.before.mem_ancestors_trans hmem ha)

theorem trans (h : Within t t' n) (h' : Within t' t'' n) : Within t t'' n where
  before := h.before
  after := h'.after
  lt := h.lt
  size_le := Nat.le_trans h.size_le h'.size_le
  content x hx := by rw [h'.content x (Nat.lt_of_lt_of_le hx h.size_le), h.content x hx]
  parent? x hx hnot := by
    rw [h'.parent? x (Nat.lt_of_lt_of_le hx h.size_le) (by rwa [h.ancestors_eq hx hnot]),
      h.parent? x hx hnot]
  children x hx hne hnot := by
    rw [h'.children x (Nat.lt_of_lt_of_le hx h.size_le) hne (by rwa [h.ancestors_eq hx hnot]),
      h.children x hx hne hnot]

/-- An edit within a node is one within all nodes above it. -/
theorem above (h : Within t t' n) {m : NodeId} (hm : m ∈ t.ancestors n) : Within t t' m where
  before := h.before
  after := h.after
  lt := Nat.lt_trans (h.before.lt_of_mem_ancestors hm) h.lt
  size_le := h.size_le
  content := h.content
  parent? x hx hnot := h.parent? x hx fun hmem => hnot (h.before.mem_ancestors_trans hm hmem)
  children x hx hne hnot := by
    refine h.children x hx (fun heq => hnot (heq ▸ hm)) fun hmem => ?_
    exact hnot (h.before.mem_ancestors_trans hm hmem)

theorem element?_eq (h : Within t t' n) {x : NodeId} (hx : x < t.size) :
    t'.element? x = t.element? x := by
  simp only [element?, h.content x hx]

theorem namespace?_eq (h : Within t t' n) {x : NodeId} (hx : x < t.size)
    (hnot : n ∉ t.ancestors x) : t'.namespace? x = t.namespace? x := by
  have hlt : ∀ a ∈ x :: t.ancestors x, a < t.size := by
    intro a ha
    rcases List.mem_cons.mp ha with rfl | ha
    · exact hx
    · exact Nat.lt_trans (h.before.lt_of_mem_ancestors ha) hx
  refine h.before.namespace?_congr h.after (fun a ha => ?_) fun a ha => h.content a (hlt a ha)
  refine h.parent? a (hlt a ha) fun hmem => hnot ?_
  rcases List.mem_cons.mp ha with rfl | ha
  · exact hmem
  · exact h.before.mem_ancestors_trans hmem ha

theorem childElements_eq (h : Within t t' n) {x : NodeId} (hx : x < t.size) (hne : x ≠ n)
    (hnot : n ∉ t.ancestors x) : t'.childElements x = t.childElements x := by
  rw [childElements, h.children x hx hne hnot]
  exact List.filter_congr fun c hc => isElement_congr (h.content c (h.before.child_lt hc))

/-- Lookups from a node that is neither the edited one nor below it find what they found. -/
theorem childrenNamed_eq (h : Within t t' n) {x : NodeId} (hx : x < t.size) (hne : x ≠ n)
    (hnot : n ∉ t.ancestors x) (name : String) :
    t'.childrenNamed x ns name = t.childrenNamed x ns name := by
  rw [childrenNamed, h.childElements_eq hx hne hnot]
  refine List.filter_congr fun c hc => ?_
  have hchild : c ∈ t.children x := List.mem_of_mem_filter hc
  have hlt := h.before.child_lt hchild
  have hbelow : n ∉ t.ancestors c := by
    rw [h.before.ancestors_child hchild]
    simp [hnot, Ne.symm hne]
  rw [h.element?_eq hlt, h.namespace?_eq hlt hbelow]

theorem text_eq (h : Within t t' n) {x : NodeId} (hx : x < t.size) (hne : x ≠ n)
    (hnot : n ∉ t.ancestors x) : t'.text x = t.text x := by
  rw [text, text, h.children x hx hne hnot]
  congr 1
  exact List.map_congr_left fun c hc => by rw [h.content c (h.before.child_lt hc)]

/-- What is neither above nor below the edited node stays as it is. -/
theorem sameBelow (h : Within t t' n) {x : NodeId} (hx : x < t.size)
    (habove : x ∉ n :: t.ancestors n) (hbelow : n ∉ t.ancestors x) : SameBelow t t' x := by
  have hnot : ∀ y, x ∈ y :: t.ancestors y → n ∉ t.ancestors y := by
    intro y hy hmem
    rcases h.before.ancestors_total hy (.tail _ hmem) with rfl | hmem | hmem
    · exact habove (List.mem_cons_self ..)
    · exact habove (.tail _ hmem)
    · exact hbelow hmem
  refine ⟨h.before, h.after, hx, h.size_le, h.content,
    fun y hy hmem => h.ancestors_eq hy (hnot y hmem),
    fun y hy hmem => h.children y hy (fun heq => habove (heq ▸ hmem)) (hnot y hmem)⟩

/-- A path to the edited node leads where it led. -/
theorem select_eq (h : Within t t' n) {path : List String} {m : NodeId} (hm : m < t.size)
    (hn : n ∈ t.select ns path m) : t'.select ns path m = t.select ns path m := by
  induction path generalizing m with
  | nil => rfl
  | cons step path ih =>
    have habove := h.before.mem_ancestors_of_select_cons hn
    have hne : m ≠ n := Nat.ne_of_lt (h.before.lt_of_mem_ancestors habove)
    have hnot : n ∉ t.ancestors m := fun hmem =>
      Nat.lt_asymm (h.before.lt_of_mem_ancestors habove) (h.before.lt_of_mem_ancestors hmem)
    rw [select, select, h.childrenNamed_eq hm hne hnot]
    refine List.flatMap_congr fun c hc => ?_
    have hchild := mem_children_of_named hc
    have hlt := h.before.child_lt hchild
    by_cases hway : c ∈ n :: t.ancestors n
    · obtain ⟨c', hc', hn⟩ := mem_select_cons.mp hn
      obtain rfl := h.before.child_on_way_unique hchild (mem_children_of_named hc') hway
        (h.before.mem_ancestors_of_select hn)
      exact ih hlt hn
    · refine (h.sameBelow hlt hway ?_).select_eq path
      rw [h.before.ancestors_child hchild]
      simp [hnot, Ne.symm hne]

/-- What else a path to the edited node leads to stays as it is. -/
theorem sameBelow_of_select (h : Within t t' n) {path : List String} {m x : NodeId}
    (hm : m < t.size) (hn : n ∈ t.select ns path m) (hx : x ∈ t.select ns path m) (hne : x ≠ n) :
    SameBelow t t' x := by
  have hapart : ∀ {a b : NodeId}, a ∈ t.select ns path m → b ∈ t.select ns path m →
      a ∈ b :: t.ancestors b → b = a := by
    intro a b ha hb hab
    obtain ⟨rest, hpath, hrest⟩ := h.before.select_below ha hb hab
    obtain rfl : rest = [] := by simpa using hpath
    simpa [select] using hrest
  refine h.sameBelow (h.before.lt_of_select hm hx) (fun hmem => hne (hapart hx hn hmem).symm) ?_
  exact fun hmem => hne (hapart hn hx (.tail _ hmem))

end Within

/-! ## Edits under the children of a name -/

/-- `t'` is `t` with changes to the children of `n` with a name, and to what is below them. -/
structure ChangedUnder (t t' : Tree) (ns : Option String) (n : NodeId) (name : String) : Prop where
  within : Within t t' n
  childrenNamed_eq : ∀ other, other ≠ name →
    t'.childrenNamed n ns other = t.childrenNamed n ns other
  sameBelow : ∀ other, other ≠ name → ∀ c ∈ t.childrenNamed n ns other, SameBelow t t' c

theorem changedUnder_self {t : Tree} (ht : t.WellFormed) {ns : Option String} {n : NodeId}
    (hn : n < t.size) (name : String) : ChangedUnder t t ns n name where
  within := within_self ht hn
  childrenNamed_eq _ _ := rfl
  sameBelow _ _ _ hc := sameBelow_self ht (ht.child_lt (mem_children_of_named hc))

/-- An edit within what a path leads to is one under the children of its first name. -/
theorem Within.changedUnder {t t' : Tree} {ns : Option String} {n m : NodeId} {step : String}
    {path : List String} (h : Within t t' m) (hn : n < t.size)
    (hm : m ∈ t.select ns (step :: path) n) : ChangedUnder t t' ns n step := by
  have habove := h.before.mem_ancestors_of_select_cons hm
  have hne : n ≠ m := Nat.ne_of_lt (h.before.lt_of_mem_ancestors habove)
  have hnot : m ∉ t.ancestors n := fun hmem =>
    Nat.lt_asymm (h.before.lt_of_mem_ancestors habove) (h.before.lt_of_mem_ancestors hmem)
  refine ⟨h.above habove, fun other _ => h.childrenNamed_eq hn hne hnot other, ?_⟩
  intro other hother c hc
  have hchild := mem_children_of_named hc
  refine h.sameBelow (h.before.child_lt hchild) (fun hway => ?_) ?_
  · obtain ⟨c', hc', hm⟩ := mem_select_cons.mp hm
    obtain rfl := h.before.child_on_way_unique hchild (mem_children_of_named hc') hway
      (h.before.mem_ancestors_of_select hm)
    exact hother (eq_of_mem_childrenNamed hc hc')
  · rw [h.before.ancestors_child hchild]
    simp [hnot, Ne.symm hne]

namespace ChangedUnder

variable {t t' : Tree} {ns : Option String} {n : NodeId} {name : String}

/-- A path that begins with another name leads where it led. -/
theorem select_eq (h : ChangedUnder t t' ns n name) {step : String} (hstep : step ≠ name)
    (path : List String) : t'.select ns (step :: path) n = t.select ns (step :: path) n := by
  rw [select, select, h.childrenNamed_eq step hstep]
  exact List.flatMap_congr fun c hc => (h.sameBelow step hstep c hc).select_eq path

theorem of_select (h : ChangedUnder t t' ns n name) {step : String} (hstep : step ≠ name)
    {path : List String} {a : NodeId} (ha : a ∈ t.select ns (step :: path) n) :
    SameBelow t t' a := by
  obtain ⟨c, hc, ha⟩ := mem_select_cons.mp ha
  exact (h.sameBelow step hstep c hc).of_select ha

theorem childText?_eq (h : ChangedUnder t t' ns n name) (other : String) (hother : other ≠ name) :
    t'.childText? n ns other = t.childText? n ns other := by
  simp only [childText?, childNamed?, h.childrenNamed_eq other hother]
  refine Option.bind_congr fun c hc => ?_
  rw [(h.sameBelow other hother c (List.mem_of_mem_head? hc)).text_eq]

end ChangedUnder

end MavenPom.Markup.Tree
