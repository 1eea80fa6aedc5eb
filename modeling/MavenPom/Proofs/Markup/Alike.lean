import MavenPom.Proofs.Markup.Tags

/-!
# Respelled writings

A respelled writing is as legible as before and has the same outline, if elements without content
take their spellings from elements with the same attributes. Markup outside of elements stays as it
is.
-/

namespace MavenPom.Markup

open EmptyElement (Frame attributesOf)

/-! ## Markup outside of elements -/

namespace Writing

/-- The markup at the top of a writing, where `none` stands for an element. -/
def top : Writing → List (Option Token)
  | .nil => []
  | .leaf token rest => some token :: rest.top
  | .empty _ rest => none :: rest.top
  | .pair _ _ _ rest => none :: rest.top

/-- What stands before the first element. -/
def leadOf : List (Option Token) → List Char
  | some token :: rest => token.spelling ++ leadOf rest
  | _ => []

/-- The text that comes last. -/
def trailOf : List (Option Token) → List Char
  | [] => []
  | [some token] => if token.isText then token.spelling else []
  | _ :: rest => trailOf rest

/-- No text is empty, and none follows another one. -/
def Apart : List (Option Token) → Prop
  | [] => True
  | some token :: rest =>
    (token.isText = true → token.Legible ∧ ∀ next, rest.head? = some (some next) →
      next.isText = false) ∧ Apart rest
  | none :: rest => Apart rest

variable {w w' : Writing}

theorem lead_eq_leadOf (w : Writing) : w.lead = leadOf w.top := by
  induction w with
  | leaf token rest ih => rw [lead, ih, top, leadOf]
  | _ => rfl

theorem isEmpty_top (w : Writing) : w.top.isEmpty = w.isNil := by
  cases w <;> rfl

theorem trail_eq_trailOf (w : Writing) : w.trail = trailOf w.top := by
  induction w with
  | nil => rfl
  | leaf token rest ih =>
    have hnil := isEmpty_top rest
    rw [trail, top, ih, ← hnil]
    cases rest.top <;> rfl
  | empty tag rest ih =>
    rw [trail, top, ih]
    cases rest.top <;> rfl
  | pair tag inside gap rest _ ih =>
    rw [trail, top, ih]
    cases rest.top <;> rfl

theorem lead_congr (h : w.top = w'.top) : w.lead = w'.lead := by
  rw [lead_eq_leadOf, lead_eq_leadOf, h]

theorem trail_congr (h : w.top = w'.top) : w.trail = w'.trail := by
  rw [trail_eq_trailOf, trail_eq_trailOf, h]

theorem startsText_eq_false (h : ∀ next, w.top.head? = some (some next) → next.isText = false) :
    w.startsText = false := by
  cases w with
  | leaf token rest => exact h token rfl
  | _ => rfl

theorem Legible.apart (hw : w.Legible) : Apart w.top := by
  induction w with
  | nil => trivial
  | leaf token rest ih =>
    obtain ⟨-, htoken, htext, hrest⟩ := hw
    refine ⟨fun h => ⟨htoken, fun next hnext => ?_⟩, ih hrest⟩
    have hstarts := htext h
    cases rest with
    | leaf first rest =>
      cases hnext
      exact hstarts
    | _ => cases hnext
  | empty tag rest ih => exact ih hw.2
  | pair tag inside gap rest _ ih => exact ih hw.2.2.2

theorem top_collapse (w : Writing) : w.collapse.top = w.top := by
  induction w with
  | nil => rfl
  | leaf token rest ih => rw [collapse, top, ih, top]
  | empty tag rest ih => rw [collapse, top, ih, top]
  | pair tag inside gap rest _ ih =>
    rw [collapse]
    split <;> rw [top, ih, top]

theorem startsText_joined (h : w.startsText = false) : w.joined.startsText = false := by
  cases w with
  | leaf token rest =>
    rw [joined_leaf h]
    exact h
  | _ => rfl

/-- Texts that stand apart are not joined. -/
theorem top_joined (h : Apart w.top) : w.joined.top = w.top := by
  induction w with
  | nil => rfl
  | leaf token rest ih =>
    obtain ⟨htext, hrest⟩ := h
    cases token with
    | text raw =>
      obtain ⟨⟨hne, -⟩, hnext⟩ := htext rfl
      have hstarts := startsText_joined (startsText_eq_false hnext)
      have hraw : raw ≠ "" := by
        rintro rfl
        exact hne rfl
      rw [joined, top, ← ih hrest]
      unfold afterText
      split
      · next heq =>
        rw [heq] at hstarts
        cases hstarts
      · rw [if_neg hraw, top]
    | _ => rw [joined_leaf rfl, top, ih hrest, top]
  | empty tag rest ih => rw [joined, top, ih h, top]
  | pair tag inside gap rest _ ih => rw [joined, top, ih h, top]

theorem top_before (form : Form) (rest : Writing) : (form.before rest).top = none :: rest.top := by
  cases form <;> rfl

theorem top_respell (spots : List Spot) (f : Frame) (w : Writing) :
    (w.respell spots f).top = w.top := by
  induction w generalizing f with
  | nil => rfl
  | leaf token rest ih => rw [respell, top, ih, top]
  | empty tag rest ih => rw [respell, top_before, ih, top]
  | pair tag inside gap rest _ ih =>
    rw [respell]
    split
    · rw [top_before, ih, top]
    · rw [top, ih, top]

theorem exists_firstTag?_congr (h : w.top = w'.top) {token : Token}
    (hw : w.firstTag? = some token) :
    ∃ token', w'.firstTag? = some token' := by
  have hsome : ∀ w : Writing, w.firstTag?.isSome = w.top.any Option.isNone := by
    intro w
    induction w with
    | leaf token rest ih => exact ih
    | _ => rfl
  refine Option.isSome_iff_exists.mp ?_
  rw [hsome, ← h, ← hsome, hw]
  rfl

theorem startsText_congr (h : w.top = w'.top) : w.startsText = w'.startsText := by
  have hstarts : ∀ w : Writing, w.startsText = w.top.head?.any (·.any Token.isText) := by
    intro w
    cases w <;> rfl
  rw [hstarts, hstarts, h]

end Writing

/-! ## Spellings that are put back -/

namespace Form

def Legible : Form → Prop
  | .closed tag => tag.Legible
  | .opened tag gap => tag.Legible ∧ ∀ c ∈ gap, isSpace c = true

variable {form : Form} {rest : Writing}

theorem legible_before (h : form.Legible) (hrest : rest.Legible) : (form.before rest).Legible := by
  cases form with
  | closed tag => exact ⟨h, hrest⟩
  | opened tag gap => exact ⟨h.1, trivial, h.2, hrest⟩

theorem text_before (form : Form) (rest : Writing) : (form.before rest).text = rest.text := by
  cases form <;> rfl

theorem outline_before (form : Form) (rest : Writing) : (form.before rest).outline =
    .element form.tag.name form.tag.attributes? "" .nil rest.outline := by
  cases form <;> rfl

end Form

/-- An element without content as it is found in a legible writing. -/
structure Spot.Placed (s : Spot) : Prop where
  legible : s.form.Legible
  name_chars : ∀ c ∈ s.form.tag.name.toList, Strict.isNameChar c = true
  attributes : s.element.attributes = attributesOf s.form.tag
  path : ∃ f : Frame, s.element.path = f.childPath s.form.tag.name

namespace Writing

variable {w : Writing} {spots : List Spot} {f : Frame} {position : ℕ}

theorem placed_of_mem_spots (hw : w.Legible) {s : Spot} (hs : s ∈ w.spots f position) :
    s.Placed := by
  induction w generalizing f position with
  | nil => cases hs
  | leaf token rest ih => exact ih hw.2.2.2 hs
  | empty tag rest ih =>
    rcases List.mem_cons.mp hs with rfl | hs
    · exact ⟨hw.1, hw.1.name_chars, rfl, f, rfl⟩
    · exact ih hw.2 hs
  | pair tag inside gap rest ihinside ihrest =>
    obtain ⟨htag, hinside, hgap, hrest⟩ := hw
    rw [Writing.spots] at hs
    rcases List.mem_append.mp hs with hs | hs
    · split at hs
      · obtain rfl := List.mem_singleton.mp hs
        exact ⟨⟨htag, hgap⟩, htag.name_chars, rfl, f, rfl⟩
      · exact ihinside hinside hs
    · exact ihrest hrest hs

theorem Tags.of_mem_spots {p : Tag → Prop} (h : w.Tags p) {s : Spot} (hs : s ∈ w.spots f position) :
    p s.form.tag := by
  induction w generalizing f position with
  | nil => cases hs
  | leaf token rest ih => exact ih h hs
  | empty tag rest ih =>
    rcases List.mem_cons.mp hs with rfl | hs
    · exact h.1
    · exact ih h.2 hs
  | pair tag inside gap rest ihinside ihrest =>
    rw [Writing.spots] at hs
    rcases List.mem_append.mp hs with hs | hs
    · split at hs
      · obtain rfl := List.mem_singleton.mp hs
        exact h.1
      · exact ihinside h.2.1 hs
    · exact ihrest h.2.2 hs

/-- What stands behind the last occurrence of a character. -/
theorem append_cons_inj {c : Char} {front front' back back' : List Char} (hback : c ∉ back)
    (hback' : c ∉ back') (h : front ++ c :: back = front' ++ c :: back') : back = back' := by
  have hne : ∀ {cs : List Char}, c ∉ cs → ∀ d ∈ cs.reverse, (d != c) = true := by
    intro cs hcs d hd
    refine bne_iff_ne.mpr ?_
    rintro rfl
    exact hcs (List.mem_reverse.mp hd)
  have hreverse := congrArg (List.takeWhile (· != c) ∘ List.reverse) h
  simp only [Function.comp_apply, List.reverse_append, List.reverse_cons, List.append_assoc,
    List.singleton_append] at hreverse
  rw [takeWhile_append_cons (hne hback) (by simp), takeWhile_append_cons (hne hback') (by simp)]
    at hreverse
  exact List.reverse_injective hreverse

theorem slash_not_mem_step {name : String}
    (hname : ∀ c ∈ name.toList, Strict.isNameChar c = true) (k : ℕ) : '/' ∉ step name k := by
  have hchars := Strict.not_mem_of_isNameChar (c := '/') (by decide) hname
  have hdigits := not_mem_toString (c := '/') (by decide) k
  simp only [step, List.mem_append, List.mem_cons, List.not_mem_nil, or_false, not_or]
  exact ⟨hchars, by decide, hdigits, by decide⟩

/-- A path tells the name of the element that it leads to. -/
theorem name_eq_of_childPath {f g : Frame} {name name' : String}
    (hname : ∀ c ∈ name.toList, Strict.isNameChar c = true)
    (hname' : ∀ c ∈ name'.toList, Strict.isNameChar c = true)
    (h : f.childPath name = g.childPath name') : name = name' := by
  have hchars := congrArg String.toList h
  rw [toList_childPath, toList_childPath] at hchars
  have hsteps := append_cons_inj (slash_not_mem_step hname _) (slash_not_mem_step hname' _) hchars
  rw [← List.append_nil (step name _), ← List.append_nil (step name' _)] at hsteps
  exact (step_append_inj hname hname' hsteps).1

/-- The elements found have the same attributes as an element, where these are spelled alike. -/
def Agrees (spots : List Spot) (tag : Tag) : Prop :=
  tag.Legible ∧ ∀ s ∈ spots, attributesOf s.form.tag = attributesOf tag →
    s.form.tag.attributes? = tag.attributes?

theorem Agrees.trimmed {tag : Tag} (h : Agrees spots tag) : Agrees spots tag.trimmed := by
  refine ⟨h.1.trimmed, fun s hs heq => ?_⟩
  rw [h.1.attributesOf_trimmed] at heq
  rw [h.1.attributes?_trimmed, h.2 s hs heq]

/-- What an element without content is written as when it is respelled. -/
theorem agrees_getD (hspots : ∀ s ∈ spots, s.Placed) (own : Form) (hown : own.Legible)
    (h : Agrees spots own.tag) (f : Frame) {form : Form}
    (hform : (formAt? spots (f.childPath own.tag.name) (attributesOf own.tag)).getD own = form) :
    form.Legible ∧ form.tag.name = own.tag.name ∧ form.tag.attributes? = own.tag.attributes? := by
  cases hfound : formAt? spots (f.childPath own.tag.name) (attributesOf own.tag) with
  | none =>
    rw [hfound, Option.getD_none] at hform
    subst hform
    exact ⟨hown, rfl, rfl⟩
  | some found =>
    rw [hfound, Option.getD_some] at hform
    subst hform
    obtain ⟨s, hs, hpath, hattributes, rfl⟩ := exists_of_formAt? hfound
    have hplaced := hspots s hs
    obtain ⟨g, hg⟩ := hplaced.path
    exact ⟨hplaced.legible,
      name_eq_of_childPath hplaced.name_chars h.1.name_chars (hg.symm.trans hpath),
      h.2 s hs (hplaced.attributes.symm.trans hattributes)⟩

theorem legible_respell (hspots : ∀ s ∈ spots, s.Placed) (hw : w.Legible)
    (h : w.Tags (Agrees spots)) (f : Frame) : (w.respell spots f).Legible := by
  induction w generalizing f with
  | nil => trivial
  | leaf token rest ih =>
    obtain ⟨hleaf, htoken, htext, hrest⟩ := hw
    exact ⟨hleaf, htoken, fun h => (startsText_congr (top_respell ..)).trans (htext h),
      ih hrest h f⟩
  | empty tag rest ih =>
    obtain ⟨hform, -⟩ := agrees_getD hspots (.closed tag) hw.1 h.1 f rfl
    exact Form.legible_before hform (ih hw.2 h.2 _)
  | pair tag inside gap rest ihinside ihrest =>
    obtain ⟨htag, hinside, hgap, hrest⟩ := hw
    rw [respell]
    split
    · obtain ⟨hform, -⟩ := agrees_getD hspots (.opened tag gap) ⟨htag, hgap⟩ h.1 f rfl
      exact Form.legible_before hform (ihrest hrest h.2.2 _)
    · exact ⟨htag, ihinside hinside h.2.1 _, hgap, ihrest hrest h.2.2 _⟩

theorem text_respell (spots : List Spot) (f : Frame) (w : Writing) :
    (w.respell spots f).text = w.text := by
  induction w generalizing f with
  | nil => rfl
  | leaf token rest ih => rw [respell, text, ih, text]
  | empty tag rest ih => rw [respell, Form.text_before, ih, text]
  | pair tag inside gap rest _ ih =>
    rw [respell]
    split
    · rw [Form.text_before, ih, text]
    · rw [text, ih, text]

/-- Respelling does not change what counts. -/
theorem outline_respell (hspots : ∀ s ∈ spots, s.Placed) (hw : w.Legible)
    (h : w.Tags (Agrees spots)) (f : Frame) : (w.respell spots f).outline = w.outline := by
  induction w generalizing f with
  | nil => rfl
  | leaf token rest ih => exact ih hw.2.2.2 h f
  | empty tag rest ih =>
    obtain ⟨-, hname, hattributes⟩ := agrees_getD hspots (.closed tag) hw.1 h.1 f rfl
    rw [respell, Form.outline_before, ih hw.2 h.2]
    exact congrArg₂ (Outline.element · · "" .nil rest.outline) hname hattributes
  | pair tag inside gap rest ihinside ihrest =>
    obtain ⟨htag, hinside, hgap, hrest⟩ := hw
    rw [respell]
    split
    · next hnil =>
      obtain rfl := eq_nil_of_isNil hnil
      obtain ⟨-, hname, hattributes⟩ :=
        agrees_getD hspots (.opened tag gap) ⟨htag, hgap⟩ h.1 f rfl
      rw [Form.outline_before, ihrest hrest h.2.2]
      exact congrArg₂ (Outline.element · · "" .nil rest.outline) hname hattributes
    · rw [outline, outline, text_respell, ihinside hinside h.2.1, ihrest hrest h.2.2]

end Writing

end MavenPom.Markup
