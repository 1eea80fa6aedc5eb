import MavenPom.Proofs.Markup.Alike

/-!
# Round trip

Reading a document, writing its tree and putting the captured layout back gives the document again,
but for white space in the end tags of elements that have content.
-/

namespace MavenPom.Markup

open EmptyElement (Frame attributesOf)

namespace Token

/-- The characters of tokens, where an end tag is written without white space, unless `opened` says
    that a start tag comes right before it. -/
def tightenFrom (cs : List Char) (opened : Bool) : List Lexeme → List Char
  | [] => []
  | l :: rest =>
    let own := Utf8.take (l.stop - l.start) (Utf8.drop l.start cs)
    match l.token, opened with
    | .endTag name, false => "</".toList ++ name.toList ++ ">".toList ++ tightenFrom cs false rest
    | .startTag _, _ => own ++ tightenFrom cs true rest
    | _, _ => own ++ tightenFrom cs false rest

/-- The text without the white space between the name and the `>` in the end tags of elements that
    have content. All other characters are kept. -/
def tightened (text : String) : String :=
  String.ofList (tightenFrom text.toList false (scan text).lexemes)

section TightenFrom

variable {front own back : List Char} (opened : Bool) (tag : Tag) (name : String)
  (more : List Lexeme)

theorem tightenFrom_leaf {token : Token} (hleaf : token.isLeaf = true) :
    tightenFrom (front ++ (own ++ back)) opened
        (⟨token, Utf8.size front, Utf8.size front + Utf8.size own⟩ :: more) =
      own ++ tightenFrom (front ++ (own ++ back)) false more := by
  cases token with
  | startTag tag => cases hleaf
  | endTag name => cases hleaf
  | _ => cases opened <;> simp only [tightenFrom, Utf8.take_drop_size]

theorem tightenFrom_emptyTag :
    tightenFrom (front ++ (own ++ back)) opened
        (⟨.emptyTag tag, Utf8.size front, Utf8.size front + Utf8.size own⟩ :: more) =
      own ++ tightenFrom (front ++ (own ++ back)) false more := by
  cases opened <;> simp only [tightenFrom, Utf8.take_drop_size]

theorem tightenFrom_startTag (front own back : List Char) :
    tightenFrom (front ++ (own ++ back)) opened
        (⟨.startTag tag, Utf8.size front, Utf8.size front + Utf8.size own⟩ :: more) =
      own ++ tightenFrom (front ++ (own ++ back)) true more := by
  cases opened <;> simp only [tightenFrom, Utf8.take_drop_size]

theorem tightenFrom_endTag (front own back : List Char) :
    tightenFrom (front ++ (own ++ back)) opened
        (⟨.endTag name, Utf8.size front, Utf8.size front + Utf8.size own⟩ :: more) =
      (if opened then own else "</".toList ++ name.toList ++ ">".toList) ++
        tightenFrom (front ++ (own ++ back)) false more := by
  cases opened <;>
    simp only [tightenFrom, Utf8.take_drop_size, if_true, Bool.false_eq_true, if_false]

end TightenFrom

end Token

namespace Writing

/-- The writing without white space in the end tags of elements that have content. -/
def tidy : Writing → Writing
  | .nil => .nil
  | .leaf token rest => .leaf token rest.tidy
  | .empty tag rest => .empty tag rest.tidy
  | .pair tag inside gap rest =>
    if inside.isNil then .pair tag .nil gap rest.tidy else .pair tag inside.tidy [] rest.tidy

variable {w : Writing}

theorem isNil_collapse : w.collapse.isNil = w.isNil := by
  cases w with
  | pair tag inside gap rest =>
    rw [collapse]
    split <;> rfl
  | _ => rfl

theorem top_tidy (w : Writing) : w.tidy.top = w.top := by
  induction w with
  | nil => rfl
  | leaf token rest ih => rw [tidy, top, ih, top]
  | empty tag rest ih => rw [tidy, top, ih, top]
  | pair tag inside gap rest _ ih =>
    rw [tidy]
    split <;> rw [top, ih, top]

theorem legible_tidy (hw : w.Legible) : w.tidy.Legible := by
  induction w with
  | nil => trivial
  | leaf token rest ih =>
    obtain ⟨hleaf, htoken, htext, hrest⟩ := hw
    exact ⟨hleaf, htoken, fun h => (startsText_congr (top_tidy rest)).trans (htext h), ih hrest⟩
  | empty tag rest ih => exact ⟨hw.1, ih hw.2⟩
  | pair tag inside gap rest ihinside ihrest =>
    obtain ⟨htag, hinside, hgap, hrest⟩ := hw
    rw [tidy]
    split
    · exact ⟨htag, trivial, hgap, ihrest hrest⟩
    · exact ⟨htag, ihinside hinside, by simp, ihrest hrest⟩

theorem legible_collapse (hw : w.Legible) : w.collapse.Legible := by
  induction w with
  | nil => trivial
  | leaf token rest ih =>
    obtain ⟨hleaf, htoken, htext, hrest⟩ := hw
    exact ⟨hleaf, htoken, fun h => (startsText_congr (top_collapse rest)).trans (htext h), ih hrest⟩
  | empty tag rest ih => exact ⟨hw.1.trimmed, ih hw.2⟩
  | pair tag inside gap rest ihinside ihrest =>
    obtain ⟨htag, hinside, hgap, hrest⟩ := hw
    rw [collapse]
    split
    · exact ⟨htag.trimmed, ihrest hrest⟩
    · exact ⟨htag, ihinside hinside, by simp, ihrest hrest⟩

theorem firstTag?_tidy : w.tidy.firstTag? = w.firstTag? := by
  induction w with
  | nil => rfl
  | leaf token rest ih => exact ih
  | empty tag rest => rfl
  | pair tag inside gap rest =>
    rw [tidy]
    split <;> rfl

/-- Respelling gives each element without content its spelling back. -/
theorem respell_collapse {spots : List Spot} (hw : w.Legible) {f : Frame} {position : ℕ}
    (hspots : ∀ s ∈ w.spots f position,
      formAt? spots s.element.path s.element.attributes = some s.form) :
    w.collapse.respell spots f = w.tidy := by
  induction w generalizing f position with
  | nil => rfl
  | leaf token rest ih => rw [collapse, respell, ih hw.2.2.2 hspots, tidy]
  | empty tag rest ih =>
    obtain ⟨htag, hrest⟩ := hw
    obtain ⟨hfirst, hspots⟩ := List.forall_mem_cons.mp hspots
    have hform : formAt? spots (f.childPath tag.name) (attributesOf tag.trimmed) =
        some (.closed tag) := by
      rw [htag.attributesOf_trimmed]
      exact hfirst
    have hname : tag.trimmed.name = tag.name := rfl
    rw [collapse, respell, hname, hform, ih hrest hspots]
    rfl
  | pair tag inside gap rest ihinside ihrest =>
    obtain ⟨htag, hinside, -, hrest⟩ := hw
    rw [Writing.spots] at hspots
    obtain ⟨hown, hspots⟩ := List.forall_mem_append.mp hspots
    rw [collapse, tidy]
    cases hnil : inside.isNil with
    | true =>
      rw [if_pos hnil] at hown
      have hform : formAt? spots (f.childPath tag.name) (attributesOf tag.trimmed) =
          some (.opened tag gap) := by
        rw [htag.attributesOf_trimmed]
        exact hown _ (List.mem_singleton_self _)
      have hname : tag.trimmed.name = tag.name := rfl
      rw [if_pos rfl, if_pos rfl, respell, hname, hform, ihrest hrest hspots]
      rfl
    | false =>
      rw [if_neg (by simp [hnil])] at hown
      rw [if_neg (by simp), if_neg (by simp), respell, if_neg (by simp [isNil_collapse, hnil]),
        ihinside hinside hown, ihrest hrest hspots]

/-- A writing without white space in end tags is the characters of its tokens without it. -/
theorem tightenFrom_lexemes (hw : w.Legible) {cs front back : List Char}
    (hcs : cs = front ++ (w.chars ++ back)) (opened : Bool) (more : List Lexeme) :
    Token.tightenFrom cs opened (w.lexemes (Utf8.size front) ++ more) =
      w.tidy.chars ++ Token.tightenFrom cs (opened && w.isNil) more := by
  induction w generalizing front back opened more with
  | nil => simp [lexemes, tidy, chars, isNil]
  | leaf token rest ih =>
    obtain ⟨hleaf, -, -, hrest⟩ := hw
    rw [chars, List.append_assoc] at hcs
    have hnext := ih hrest
      (by rw [hcs, List.append_assoc]) false more
    rw [Utf8.size_append] at hnext
    rw [hcs] at hnext ⊢
    rw [lexemes, List.cons_append, Token.tightenFrom_leaf _ _ hleaf, hnext, tidy, chars]
    simp [isNil]
  | empty tag rest ih =>
    rw [chars, List.append_assoc] at hcs
    have hnext := ih hw.2
      (by rw [hcs, List.append_assoc]) false more
    rw [Utf8.size_append] at hnext
    rw [hcs] at hnext ⊢
    rw [lexemes, List.cons_append, Token.tightenFrom_emptyTag, hnext, tidy, chars]
    simp [isNil]
  | pair tag inside gap rest ihinside ihrest =>
    obtain ⟨-, hinside, -, hrest⟩ := hw
    rw [chars, List.append_assoc, List.append_assoc, List.append_assoc] at hcs
    have hopen := fun more => Token.tightenFrom_startTag opened tag more front
      (Token.startTag tag).spelling
      (inside.chars ++ (endTagChars tag.name gap ++ (rest.chars ++ back)))
    have hinner := ihinside hinside
      (by rw [hcs, List.append_assoc]) true
    have hclose := fun more => Token.tightenFrom_endTag inside.isNil tag.name more
      (front ++ (Token.startTag tag).spelling ++ inside.chars) (endTagChars tag.name gap)
      (rest.chars ++ back)
    have hbehind : cs = front ++ (Token.startTag tag).spelling ++ inside.chars ++
        endTagChars tag.name gap ++ (rest.chars ++ back) := by
      rw [hcs]
      simp
    have hnext := ihrest hrest hbehind false more
    simp only [Utf8.size_append, List.append_assoc, ← Nat.add_assoc, ← hcs]
      at hopen hinner hclose hnext
    rw [lexemes, List.append_assoc, List.cons_append, hopen, hinner, List.cons_append,
      Bool.true_and, hclose, hnext, Bool.false_and]
    cases hnil : inside.isNil with
    | true =>
      obtain rfl := eq_nil_of_isNil hnil
      simp [tidy, chars, isNil]
    | false =>
      have htidy : (pair tag inside gap rest).tidy = pair tag inside.tidy [] rest.tidy := by
        simp [tidy, hnil]
      rw [htidy]
      simp [chars, isNil, endTagChars]

/-- The text of a writing without the white space in the end tags of elements that have content. -/
theorem tightened_ofList (hw : w.Legible) (hmark : w.chars.head? ≠ some '\uFEFF') :
    Token.tightened (String.ofList w.chars) = String.ofList w.tidy.chars := by
  have hcs : w.chars = [] ++ (w.chars ++ []) := by simp
  have htighten := tightenFrom_lexemes hw hcs false []
  rw [Token.tightened, Token.scan_ofList, Token.scanChars_of_head?_ne hmark, scanFrom_self hw,
    String.toList_ofList]
  simpa [Token.tightenFrom] using congrArg String.ofList htighten

end Writing

/-- Putting a layout back into a writing as trees are written gives the writing without white space
    in end tags, if its elements without content have the spellings that were captured at their
    paths. -/
theorem Layout.restoreChars_collapse {l : Layout} {w p : Writing} {token first : Token}
    (hl : l.Of w token) (hw : w.Legible) (hp : p.Legible) (htop : p.top = w.top)
    (hfirst : p.firstTag? = some first)
    (hsame : first.isEmptyTag = token.isEmptyTag → first = token)
    (hspots : ∀ s ∈ p.spots ⟨"", []⟩ 0,
      formAt? (w.spots ⟨"", []⟩ 0) s.element.path s.element.attributes = some s.form)
    (hlead : w.lead.head? ≠ some '\uFEFF') :
    l.restoreChars p.collapse.chars = .ok p.tidy.chars := by
  obtain ⟨first', hfirst'⟩ := Writing.exists_firstTag?_congr (Writing.top_collapse p).symm hfirst
  have hcollapse := (Writing.top_collapse p).trans htop
  have htidy := (Writing.top_tidy p).trans htop
  exact restoreChars_eq hl hw (Writing.legible_collapse hp) (Writing.legible_tidy hp)
    (Writing.respell_collapse hp hspots) hfirst' (Writing.firstTag?_tidy.trans hfirst) hsame
    (Writing.lead_congr hcollapse) (Writing.lead_congr htidy) (Writing.trail_congr htidy) hlead

/-- Restoring the captured layout of a document over its tree gives the document back, without the
    white space in the end tags of elements that have content. -/
theorem Layout.restoreText_render {text : String} {t : Tree} (h : Tree.parse text = .ok t)
    {node : Strict.Node} (hstrict : Strict.parse? text = some node)
    (hmark : text.toList.head? ≠ some '\uFEFF') (charset : Charset) :
    ∃ layout, capture text charset = .ok layout ∧
      layout.restoreText t.render = .ok (Token.tightened text) := by
  obtain ⟨w, hw, rfl, hdraft⟩ := Tree.exists_writing_of_parse h hstrict hmark
  rw [String.toList_ofList] at hmark
  obtain ⟨hwell, hdocument, hsize, hchildren, hrecords⟩ := Tree.records_of_foldlM hw.leaves hdraft
  have hstand := hrecords.standFor
  rw [← hchildren] at hstand
  obtain ⟨r, hroot⟩ := Option.isSome_iff_exists.mp (Tree.foldlM_of_parse h).2.2
  obtain ⟨token, htag⟩ := Tree.exists_firstTag? hstand hroot
  obtain ⟨layout, hcapture, hlayout⟩ := exists_captureChars hw htag hmark charset
  refine ⟨layout, by rw [capture_ofList, hcapture], ?_⟩
  have hspots : ∀ s ∈ w.spots ⟨"", []⟩ 0, formAt? (w.spots ⟨"", []⟩ 0) s.element.path
      s.element.attributes = some s.form :=
    fun s hs => formAt?_of_mem (Writing.nodup_spots hw _ _) hs
  rw [Tree.render_of_standFor hwell hdocument (by omega) hstand, restoreText_ofList,
    restoreChars_collapse hlayout hw hw rfl htag (fun _ => rfl) hspots
      (Writing.head?_lead_ne htag hmark), Writing.tightened_ofList hw hmark]
  rfl

end MavenPom.Markup
