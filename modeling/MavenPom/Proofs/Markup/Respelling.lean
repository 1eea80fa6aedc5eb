import MavenPom.Proofs.Markup.Spots

/-!
# Respelling a writing

Putting a layout back into a writing gives each element without content the spelling that was
captured at its path, if the attributes are the same, and leaves all else alone.
-/

namespace MavenPom.Markup

open EmptyElement (Frame attributesOf)

/-- How the element at a path with those attributes was written, among captured ones. -/
def formAt? (spots : List Spot) (path attributes : String) : Option Form :=
  (spots.reverse.find? fun s => s.element.path == path).bind fun s =>
    if s.element.attributes = attributes then some s.form else none

theorem formAt?_of_mem {spots : List Spot} (hspots : (spots.map (·.element.path)).Nodup) {s : Spot}
    (hs : s ∈ spots) : formAt? spots s.element.path s.element.attributes = some s.form := by
  have hsome : (spots.reverse.find? fun s' => s'.element.path == s.element.path).isSome := by
    rw [List.find?_isSome]
    exact ⟨s, List.mem_reverse.mpr hs, by simp⟩
  obtain ⟨s', hs'⟩ := Option.isSome_iff_exists.mp hsome
  have hmem := List.mem_reverse.mp (List.mem_of_find?_eq_some hs')
  have hpath : s'.element.path = s.element.path := by simpa using List.find?_some hs'
  obtain rfl := List.inj_on_of_nodup_map hspots hmem hs hpath
  rw [formAt?, hs', Option.bind_some, if_pos rfl]

theorem exists_of_formAt? {spots : List Spot} {path attributes : String} {form : Form}
    (h : formAt? spots path attributes = some form) :
    ∃ s ∈ spots, s.element.path = path ∧ s.element.attributes = attributes ∧ s.form = form := by
  obtain ⟨s, hs, hsome⟩ := Option.bind_eq_some_iff.mp h
  split at hsome
  · next hattributes =>
    exact ⟨s, List.mem_reverse.mp (List.mem_of_find?_eq_some hs), by simpa using List.find?_some hs,
      hattributes, Option.some.inj hsome⟩
  · cases hsome

/-- The layout has captured the elements without content of a writing. -/
def Layout.Captures (l : Layout) (spots : List Spot) : Prop :=
  l.empties = spots.map fun s => (s.element, String.ofList s.form.chars)

theorem Layout.Captures.spelling? {l : Layout} {spots : List Spot} (h : l.Captures spots)
    (e : EmptyElement) : l.spelling? e =
      (formAt? spots e.path e.attributes).map fun form => String.ofList form.chars := by
  rw [Layout.spelling?, h, ← List.map_reverse, List.find?_map, formAt?]
  show (Option.map _ (spots.reverse.find? fun s => s.element.path == e.path)).bind _ = _
  cases spots.reverse.find? fun s => s.element.path == e.path with
  | none => rfl
  | some s =>
    simp only [Option.map_some, Option.bind_some]
    split <;> rfl

namespace Writing

/-- The writing with the elements without content as they were written. -/
def respell (spots : List Spot) (f : Frame) : Writing → Writing
  | .nil => .nil
  | .leaf token rest => .leaf token (rest.respell spots f)
  | .empty tag rest =>
    ((formAt? spots (f.childPath tag.name) (attributesOf tag)).getD (.closed tag)).before
      (rest.respell spots (f.count tag.name))
  | .pair tag inside gap rest =>
    if inside.isNil then
      ((formAt? spots (f.childPath tag.name) (attributesOf tag)).getD (.opened tag gap)).before
        (rest.respell spots (f.count tag.name))
    else
      .pair tag (inside.respell spots (f.enter tag.name)) gap
        (rest.respell spots (f.count tag.name))

/-- Respelling `w`, which stands behind `front` and `mid` in a text, where what is in front of `mid`
    has been written out, writes out `done`. It leaves `mid'` to be written, which then is behind
    `front'`. -/
structure Respelled (l : Layout) (spots : List Spot) (f : Frame) (w : Writing)
    (front mid back front' mid' done : List Char) : Prop where
  text : front ++ mid ++ w.chars = front' ++ mid'
  result : mid ++ (w.respell spots f).chars = done ++ mid'
  respellChars : ∀ es, l.respellChars (front ++ mid ++ w.chars ++ back) (Utf8.size front)
    ((w.spots f (Utf8.size (front ++ mid))).map (·.element) ++ es) =
      done ++ l.respellChars (front ++ mid ++ w.chars ++ back) (Utf8.size front') es

/-- An element without content is respelled, or is left to be written with what follows. -/
theorem respellChars_single {l : Layout} {spots : List Spot} (hl : l.Captures spots)
    (front mid back : List Char) (name path attributes : String) (own : Form)
    (es : List EmptyElement) :
    l.respellChars (front ++ mid ++ own.chars ++ back) (Utf8.size front)
      (⟨name, path, attributes, Utf8.size (front ++ mid),
        Utf8.size (front ++ mid) + Utf8.size own.chars⟩ :: es) =
      match formAt? spots path attributes with
      | some form => mid ++ form.chars ++
          l.respellChars (front ++ mid ++ own.chars ++ back)
            (Utf8.size (front ++ mid ++ own.chars)) es
      | none => l.respellChars (front ++ mid ++ own.chars ++ back) (Utf8.size front) es := by
  rw [Layout.respellChars, hl.spelling?]
  cases formAt? spots path attributes with
  | none => rfl
  | some form =>
    simp only [Option.map_some, String.toList_ofList]
    have hmid : Utf8.take (Utf8.size (front ++ mid) - Utf8.size front)
        (Utf8.drop (Utf8.size front) (front ++ mid ++ own.chars ++ back)) = mid := by
      have hcut := Utf8.take_drop_size front mid (own.chars ++ back)
      rw [← Utf8.size_append] at hcut
      simpa only [List.append_assoc] using hcut
    rw [hmid, Utf8.size_append (front ++ mid)]

theorem Respelled.single {l : Layout} {spots : List Spot} (hl : l.Captures spots) {f g : Frame}
    {rest : Writing} {front mid back : List Char} (name : String) {path attributes : String}
    {own : Form}
    (hrest : ∀ front mid, ∃ front' mid' done, Respelled l spots g rest front mid back front' mid'
      done) {w : Writing} (hchars : w.chars = own.chars ++ rest.chars)
    (hrespell : w.respell spots f =
      ((formAt? spots path attributes).getD own).before (rest.respell spots g))
    (hspots : w.spots f (Utf8.size (front ++ mid)) =
      ⟨⟨name, path, attributes, Utf8.size (front ++ mid),
        Utf8.size (front ++ mid) + Utf8.size own.chars⟩, own⟩ ::
        rest.spots g (Utf8.size (front ++ mid) + Utf8.size own.chars)) :
    ∃ front' mid' done, Respelled l spots f w front mid back front' mid' done := by
  cases hform : formAt? spots path attributes with
  | none =>
    obtain ⟨front', mid', done, htext, hresult, hmore⟩ := hrest front (mid ++ own.chars)
    refine ⟨front', mid', done, ?_, ?_, fun es => ?_⟩
    · rw [hchars, ← htext]
      simp
    · rw [hrespell, hform, Option.getD_none, Form.chars_before, ← hresult]
      simp
    · have hnext := respellChars_single hl front mid (rest.chars ++ back) name path attributes own
        ((rest.spots g (Utf8.size (front ++ mid) + Utf8.size own.chars)).map (·.element) ++ es)
      have hmore := hmore es
      rw [hform] at hnext
      rw [hspots, hchars]
      simp only [List.map_cons, List.cons_append, List.append_assoc, Utf8.size_append,
        Nat.add_assoc] at hnext hmore ⊢
      rw [hnext, hmore]
  | some form =>
    obtain ⟨front', mid', done, htext, hresult, hmore⟩ := hrest (front ++ mid ++ own.chars) []
    refine ⟨front', mid', mid ++ form.chars ++ done, ?_, ?_, fun es => ?_⟩
    · rw [hchars, ← htext]
      simp
    · rw [hrespell, hform, Option.getD_some, Form.chars_before, List.append_assoc, ← hresult]
      simp
    · have hnext := respellChars_single hl front mid (rest.chars ++ back) name path attributes own
        ((rest.spots g (Utf8.size (front ++ mid) + Utf8.size own.chars)).map (·.element) ++ es)
      have hmore := hmore es
      rw [hform] at hnext
      rw [hspots, hchars]
      simp only [List.map_cons, List.cons_append, List.append_assoc, Utf8.size_append,
        Nat.add_assoc, List.append_nil] at hnext hmore ⊢
      rw [hnext, hmore]

theorem exists_respelled {l : Layout} {spots : List Spot} (hl : l.Captures spots) (w : Writing)
    (f : Frame) (front mid back : List Char) :
    ∃ front' mid' done, Respelled l spots f w front mid back front' mid' done := by
  induction w generalizing f front mid back with
  | nil => exact ⟨front, mid, [], by simp [chars], by simp [respell, chars], fun es => rfl⟩
  | leaf token rest ih =>
    obtain ⟨front', mid', done, htext, hresult, hmore⟩ := ih f front (mid ++ token.spelling) back
    refine ⟨front', mid', done, ?_, ?_, fun es => ?_⟩
    · rw [chars, ← htext]
      simp
    · rw [respell, chars, ← hresult]
      simp
    · have hmore := hmore es
      rw [chars, Writing.spots]
      simp only [List.append_assoc, Utf8.size_append, Nat.add_assoc] at hmore ⊢
      exact hmore
  | empty tag rest ih =>
    exact Respelled.single hl tag.name (fun front mid => ih _ front mid back) rfl rfl rfl
  | pair tag inside gap rest ihinside ihrest =>
    cases hnil : inside.isNil with
    | true =>
      obtain rfl := eq_nil_of_isNil hnil
      refine Respelled.single hl tag.name
        (fun front mid => ihrest _ front mid back) ?_ rfl ?_
      · simp [chars, Form.chars]
      · simp [Writing.spots, isNil, chars, Form.chars, Utf8.size_append, Nat.add_assoc]
    | false =>
      obtain ⟨front₁, mid₁, done₁, htext₁, hresult₁, hmore₁⟩ := ihinside (f.enter tag.name) front
        (mid ++ (Token.startTag tag).spelling) (endTagChars tag.name gap ++ (rest.chars ++ back))
      obtain ⟨front', mid', done, htext, hresult, hmore⟩ := ihrest (f.count tag.name) front₁
        (mid₁ ++ endTagChars tag.name gap) back
      refine ⟨front', mid', done₁ ++ done, ?_, ?_, fun es => ?_⟩
      · rw [← htext, ← List.append_assoc front₁, ← htext₁, chars]
        simp
      · rw [respell, if_neg (by simp [hnil]), chars, List.append_assoc done₁, ← hresult,
          ← List.append_assoc done₁, ← List.append_assoc done₁, ← hresult₁]
        simp
      · have hfirst := hmore₁ ((rest.spots (f.count tag.name)
          (Utf8.size (front₁ ++ (mid₁ ++ endTagChars tag.name gap)))).map (·.element) ++ es)
        have hsecond := hmore es
        have hsize : Utf8.size (front₁ ++ (mid₁ ++ endTagChars tag.name gap)) =
            Utf8.size (front ++ mid) + Utf8.size (Token.startTag tag).spelling +
              Utf8.size inside.chars + Utf8.size (endTagChars tag.name gap) := by
          rw [← List.append_assoc, ← htext₁]
          simp only [Utf8.size_append, Nat.add_assoc]
        have htext' : front₁ ++ (mid₁ ++ endTagChars tag.name gap) ++ rest.chars ++ back =
            front ++ mid ++ (Writing.pair tag inside gap rest).chars ++ back := by
          rw [← List.append_assoc front₁, ← htext₁, chars]
          simp
        have htext'' : front ++ (mid ++ (Token.startTag tag).spelling) ++ inside.chars ++
            (endTagChars tag.name gap ++ (rest.chars ++ back)) =
              front ++ mid ++ (Writing.pair tag inside gap rest).chars ++ back := by
          rw [chars]
          simp
        rw [htext', hsize] at hsecond
        rw [htext'', hsize, hsecond, ← List.append_assoc front, Utf8.size_append (front ++ mid)]
          at hfirst
        rw [Writing.spots, if_neg (by simp [hnil])]
        simpa only [List.map_append, List.append_assoc] using hfirst

/-- Respelling the elements without content in a writing is respelling the writing. -/
theorem respellChars_eq {l : Layout} {spots : List Spot} (hl : l.Captures spots) (w : Writing)
    (f : Frame) : l.respellChars w.chars 0 ((w.spots f 0).map (·.element)) =
      (w.respell spots f).chars := by
  obtain ⟨front', mid', done, htext, hresult, hmore⟩ := exists_respelled hl w f [] [] []
  have hall := hmore []
  simp only [List.nil_append, List.append_nil, Utf8.size_nil] at htext hresult hall
  rw [hall, Layout.respellChars, htext, Utf8.drop_size, hresult]

end Writing

end MavenPom.Markup
