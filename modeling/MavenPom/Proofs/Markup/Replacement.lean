import MavenPom.Proofs.Markup.Amended
import MavenPom.Proofs.Markup.RoundTrip

/-!
# Replaced content

Giving an element a text changes nothing in a document but what stands between the element's tags,
and white space in end tags.
-/

namespace MavenPom.Markup

open EmptyElement (Frame)

/-! ## Replacing content in a text -/

namespace Token

/-- Where the end tag begins that closes an element, among the tokens that follow its start tag,
    with `depth` elements open inside it. -/
def closing? : ℕ → List Lexeme → Option ℕ
  | _, [] => none
  | depth, l :: rest =>
    match l.token with
    | .startTag _ => closing? (depth + 1) rest
    | .endTag _ =>
      match depth with
      | 0 => some l.start
      | depth + 1 => closing? depth rest
    | _ => closing? depth rest

/-- The characters with `content` between the tags of the element whose number is `node`, where the
    tokens that are not end tags are numbered from `n` on. An empty tag is opened. -/
def replacedFrom (cs content : List Char) (node : ℕ) : ℕ → List Lexeme → List Char
  | _, [] => cs
  | n, l :: rest =>
    match l.token with
    | .endTag _ => replacedFrom cs content node n rest
    | .startTag _ =>
      if n = node then
        match closing? 0 rest with
        | some start => Utf8.take l.stop cs ++ content ++ Utf8.drop start cs
        | none => cs
      else replacedFrom cs content node (n + 1) rest
    | .emptyTag tag =>
      if n = node then
        Utf8.take l.start cs ++ (Token.startTag tag).spelling ++ content ++
          endTagChars tag.name [] ++ Utf8.drop l.stop cs
      else replacedFrom cs content node (n + 1) rest
    | _ => replacedFrom cs content node (n + 1) rest

/-- The text with other content in the element that is read as a node. Nodes are numbered as their
    tokens follow one another. -/
def replaced (text : String) (node : ℕ) (content : String) : String :=
  String.ofList (replacedFrom text.toList content.toList node 1 (scan text).lexemes)

section

variable {cs content : List Char} {node : ℕ} {n depth : ℕ} {l : Lexeme}

theorem closing?_leaf (hleaf : l.token.isLeaf = true) (rest : List Lexeme) :
    closing? depth (l :: rest) = closing? depth rest := by
  obtain ⟨token, start, stop⟩ := l
  cases token with
  | startTag tag => cases hleaf
  | endTag name => cases hleaf
  | _ => rfl

theorem replacedFrom_leaf (hleaf : l.token.isLeaf = true) (rest : List Lexeme) :
    replacedFrom cs content node n (l :: rest) = replacedFrom cs content node (n + 1) rest := by
  obtain ⟨token, start, stop⟩ := l
  cases token with
  | startTag tag => cases hleaf
  | endTag name => cases hleaf
  | emptyTag tag => cases hleaf
  | _ => rfl

theorem replacedFrom_emptyTag (content : List Char) (node n : ℕ) (tag : Tag)
    {front own back : List Char} (hcs : cs = front ++ (own ++ back)) (more : List Lexeme) :
    replacedFrom cs content node n
        (⟨.emptyTag tag, Utf8.size front, Utf8.size front + Utf8.size own⟩ :: more) =
      if n = node then front ++ (Token.startTag tag).spelling ++ content ++
        endTagChars tag.name [] ++ back
      else replacedFrom cs content node (n + 1) more := by
  have hstart : Utf8.take (Utf8.size front) cs = front := by rw [hcs, Utf8.take_size]
  have hstop : Utf8.drop (Utf8.size front + Utf8.size own) cs = back := by
    rw [hcs, ← Utf8.size_append, ← List.append_assoc, Utf8.drop_size]
  simp only [replacedFrom, hstart, hstop]

theorem replacedFrom_startTag (content : List Char) (node n : ℕ) (tag : Tag)
    {front own inside back : List Char} {more : List Lexeme}
    (hcs : cs = front ++ (own ++ (inside ++ back)))
    (hclosing : closing? 0 more = some (Utf8.size front + Utf8.size own + Utf8.size inside)) :
    replacedFrom cs content node n
        (⟨.startTag tag, Utf8.size front, Utf8.size front + Utf8.size own⟩ :: more) =
      if n = node then front ++ own ++ content ++ back
      else replacedFrom cs content node (n + 1) more := by
  have hopened : Utf8.take (Utf8.size front + Utf8.size own) cs = front ++ own := by
    rw [hcs, ← Utf8.size_append, ← List.append_assoc, Utf8.take_size]
  have hclosed : Utf8.drop (Utf8.size front + Utf8.size own + Utf8.size inside) cs = back := by
    rw [hcs, ← Utf8.size_append, ← Utf8.size_append, ← List.append_assoc, ← List.append_assoc,
      Utf8.drop_size]
  simp only [replacedFrom, hclosing, hopened, hclosed]

/-- Behind the element nothing is looked for any more. -/
theorem replacedFrom_of_lt (h : node < n) (ls : List Lexeme) :
    replacedFrom cs content node n ls = cs := by
  induction ls generalizing n with
  | nil => rfl
  | cons l rest ih =>
    have hnext := ih (Nat.lt_succ_of_lt h)
    cases htoken : l.token with
    | endTag name =>
      rw [replacedFrom, htoken]
      exact ih h
    | startTag tag =>
      rw [replacedFrom, htoken]
      exact (if_neg (Nat.ne_of_gt h)).trans hnext
    | emptyTag tag =>
      rw [replacedFrom, htoken]
      exact (if_neg (Nat.ne_of_gt h)).trans hnext
    | _ =>
      rw [replacedFrom, htoken]
      exact hnext

end

end Token

/-! ## Replacing content in a writing -/

namespace Writing

/-- The writing with a text for the content of the element whose number is `node`, if the writing's
    nodes are numbered from `n` on. -/
def replace (raw : String) (node : ℕ) : Writing → ℕ → Writing
  | .nil, _ => .nil
  | .leaf token rest, n => .leaf token (rest.replace raw node (n + 1))
  | .empty tag rest, n =>
    if n = node then .pair tag (.leaf (.text raw) .nil) [] (rest.replace raw node (n + 1))
    else .empty tag (rest.replace raw node (n + 1))
  | .pair tag inside gap rest, n =>
    .pair tag (if n = node then .leaf (.text raw) .nil else inside.replace raw node (n + 1)) gap
      (rest.replace raw node (n + inside.count + 1))

variable {w : Writing} {raw : String} {node : ℕ} {n : ℕ}

theorem replace_eq_self (h : node < n ∨ n + w.count ≤ node) : w.replace raw node n = w := by
  induction w generalizing n with
  | nil => rfl
  | leaf token rest ih =>
    rw [replace, ih]
    simp only [count] at *
    omega
  | empty tag rest ih =>
    simp only [count] at *
    rw [replace, if_neg (by omega), ih (by omega)]
  | pair tag inside gap rest ihinside ihrest =>
    simp only [count] at *
    rw [replace, if_neg (by omega), ihinside (by omega), ihrest (by omega)]

theorem closing?_lexemes (hw : w.Legible) (depth position : ℕ) (more : List Lexeme) :
    Token.closing? depth (w.lexemes position ++ more) = Token.closing? depth more := by
  induction w generalizing depth position more with
  | nil => rfl
  | leaf token rest ih =>
    rw [lexemes, List.cons_append, Token.closing?_leaf hw.1, ih hw.2.2.2]
  | empty tag rest ih => exact ih hw.2 ..
  | pair tag inside gap rest ihinside ihrest =>
    obtain ⟨-, hinside, -, hrest⟩ := hw
    rw [lexemes, List.append_assoc]
    exact (ihinside hinside ..).trans (ihrest hrest ..)

/-- Replacing the content in the characters of a writing is replacing it in the writing. -/
theorem replacedFrom_lexemes (hw : w.Legible) {cs front back : List Char}
    (hcs : cs = front ++ (w.chars ++ back)) (more : List Lexeme) :
    Token.replacedFrom cs raw.toList node n (w.lexemes (Utf8.size front) ++ more) =
      if node < n + w.count then front ++ ((w.replace raw node n).chars ++ back)
      else Token.replacedFrom cs raw.toList node (n + w.count) more := by
  have hcontent : (Writing.leaf (.text raw) .nil).chars = raw.toList := List.append_nil _
  induction w generalizing front back n more with
  | nil =>
    split
    · next hlt => exact (Token.replacedFrom_of_lt hlt more).trans hcs
    · rfl
  | leaf token rest ih =>
    obtain ⟨hleaf, -, -, hrest⟩ := hw
    rw [chars, List.append_assoc] at hcs
    have hnext := ih hrest (n := n + 1)
      (by rw [hcs, List.append_assoc]) more
    rw [Utf8.size_append, Nat.add_right_comm] at hnext
    rw [lexemes, List.cons_append, Token.replacedFrom_leaf hleaf, hnext, replace, chars]
    simp [count, Nat.add_assoc]
  | empty tag rest ih =>
    rw [chars, List.append_assoc] at hcs
    have hown := Token.replacedFrom_emptyTag raw.toList node n tag hcs
      (rest.lexemes (Utf8.size front + Utf8.size (Token.emptyTag tag).spelling) ++ more)
    have hnext := ih hw.2 (n := n + 1)
      (by rw [hcs, List.append_assoc]) more
    rw [Utf8.size_append, Nat.add_right_comm] at hnext
    rw [lexemes, List.cons_append, hown, replace, count]
    split
    · next heq =>
      rw [if_pos (by omega), replace_eq_self (.inl (by omega)), chars, hcontent]
      simp
    · rw [hnext, chars]
      simp [Nat.add_assoc]
  | pair tag inside gap rest ihinside ihrest =>
    obtain ⟨-, hinside, -, hrest⟩ := hw
    rw [chars, List.append_assoc, List.append_assoc, List.append_assoc] at hcs
    have hinner := ihinside hinside (n := n + 1)
      (by rw [hcs, List.append_assoc])
    have hbehind : cs = front ++ (Token.startTag tag).spelling ++ inside.chars ++
        endTagChars tag.name gap ++ (rest.chars ++ back) := by
      rw [hcs]
      simp
    have hnext := ihrest hrest (n := n + inside.count + 1) hbehind more
    have hall : n + inside.count + 1 + rest.count = n + (inside.count + rest.count + 1) := by omega
    simp only [Utf8.size_append, hall] at hinner hnext
    have hown := fun stop tail => Token.replacedFrom_startTag raw.toList node n tag
      hcs (closing?_lexemes hinside 0
        (Utf8.size front + Utf8.size (Token.startTag tag).spelling)
        (⟨.endTag tag.name, Utf8.size front + Utf8.size (Token.startTag tag).spelling +
          Utf8.size inside.chars, stop⟩ :: tail))
    have hpast : n + 1 + inside.count = n + inside.count + 1 := Nat.add_right_comm ..
    rw [lexemes, List.append_assoc, List.cons_append, List.cons_append, hown, replace, count]
    split
    · next heq =>
      have hlt : node < n + inside.count + 1 := by omega
      rw [if_pos (by omega), replace_eq_self (.inl hlt), chars, hcontent]
      simp
    · rw [hinner, hpast]
      split
      · next hlt =>
        rw [if_pos (by omega), replace_eq_self (w := rest) (.inl hlt), chars]
        simp
      · next hle =>
        rw [Token.replacedFrom, hnext, replace_eq_self (w := inside) (.inr (by omega)), chars]
        simp

theorem top_replace (raw : String) (node : ℕ) (w : Writing) (n : ℕ) :
    (w.replace raw node n).top = w.top := by
  induction w generalizing n with
  | nil => rfl
  | leaf token rest ih => rw [replace, top, ih, top]
  | empty tag rest ih =>
    rw [replace]
    split <;> exact congrArg (none :: ·) (ih (n + 1))
  | pair tag inside gap rest _ ih => rw [replace, top, ih, top]

theorem isNil_replace : (w.replace raw node n).isNil = w.isNil := by
  rw [← isEmpty_top, top_replace, isEmpty_top]

theorem legible_replace (hw : w.Legible) (hraw : (Token.text raw).Legible) :
    (w.replace raw node n).Legible := by
  have hcontent : (Writing.leaf (.text raw) .nil).Legible := ⟨rfl, hraw, fun _ => rfl, trivial⟩
  induction w generalizing n with
  | nil => trivial
  | leaf token rest ih =>
    obtain ⟨hleaf, htoken, htext, hrest⟩ := hw
    exact ⟨hleaf, htoken, fun h => (startsText_congr (top_replace ..)).trans (htext h), ih hrest⟩
  | empty tag rest ih =>
    rw [replace]
    split
    · exact ⟨hw.1, hcontent, by simp, ih hw.2⟩
    · exact ⟨hw.1, ih hw.2⟩
  | pair tag inside gap rest ihinside ihrest =>
    obtain ⟨htag, hinside, hgap, hrest⟩ := hw
    refine ⟨htag, ?_, hgap, ihrest hrest⟩
    split
    · exact hcontent
    · exact ihinside hinside

/-- An element's tag stays the first one, or it is opened. -/
theorem opensLike_replace {token : Token} (h : w.firstTag? = some token) (raw : String)
    (node n : ℕ) :
    OpensLike token (w.replace raw node n) := by
  induction w generalizing n with
  | nil => cases h
  | leaf token' rest ih => exact ih h (n + 1)
  | empty tag rest =>
    cases h
    rw [replace]
    split
    · exact ⟨.startTag tag, rfl, fun hempty => by cases hempty⟩
    · exact ⟨.emptyTag tag, rfl, fun _ => rfl⟩
  | pair tag inside gap rest =>
    cases h
    exact ⟨.startTag tag, rfl, fun _ => rfl⟩

/-- What is without content afterwards was so before, in the same spelling. -/
theorem exists_of_mem_spots_replace {f : Frame} {position : ℕ} {s : Spot}
    (h : s ∈ (w.replace raw node n).spots f position) (position' : ℕ) :
    ∃ s' ∈ w.spots f position', s'.element.path = s.element.path ∧
      s'.element.attributes = s.element.attributes ∧ s'.form = s.form := by
  induction w generalizing f n position position' with
  | nil => cases h
  | leaf token rest ih => exact ih h _
  | empty tag rest ih =>
    have hrest : ∀ {position : ℕ},
        s ∈ (rest.replace raw node (n + 1)).spots (f.count tag.name) position →
          ∃ s' ∈ (Writing.empty tag rest).spots f position', s'.element.path = s.element.path ∧
            s'.element.attributes = s.element.attributes ∧ s'.form = s.form := fun hs =>
      let ⟨s', hs', hsame⟩ := ih hs _
      ⟨s', List.mem_cons_of_mem _ hs', hsame⟩
    rw [replace] at h
    split at h
    · exact hrest h
    · rcases List.mem_cons.mp h with rfl | h
      · exact ⟨_, List.mem_cons_self .., rfl, rfl, rfl⟩
      · exact hrest h
  | pair tag inside gap rest ihinside ihrest =>
    rw [replace, Writing.spots] at h
    rw [Writing.spots]
    rcases List.mem_append.mp h with h | h
    · by_cases heq : n = node
      · rw [if_pos heq] at h
        cases h
      · rw [if_neg heq, isNil_replace] at h
        split at h
        · next hnil =>
          obtain rfl := List.mem_singleton.mp h
          rw [if_pos hnil]
          exact ⟨_, List.mem_append_left _ (List.mem_singleton_self _), rfl, rfl, rfl⟩
        · next hnil =>
          obtain ⟨s', hs', hsame⟩ := ihinside h
            (position' + Utf8.size (Token.startTag tag).spelling)
          exact ⟨s', List.mem_append_left _ (by rwa [if_neg hnil]), hsame⟩
    · obtain ⟨s', hs', hsame⟩ := ihrest h _
      exact ⟨s', List.mem_append_right _ hs', hsame⟩

theorem formAt?_of_mem_replace (hw : w.Legible) {f : Frame} {position : ℕ} {s : Spot}
    (h : s ∈ (w.replace raw node n).spots f position) :
    formAt? (w.spots f position) s.element.path s.element.attributes = some s.form := by
  obtain ⟨s', hs', hpath, hattributes, hform⟩ := exists_of_mem_spots_replace h position
  rw [← hpath, ← hattributes, ← hform]
  exact formAt?_of_mem (nodup_spots hw _ _) hs'

theorem replaced_ofList (hw : w.Legible) (hmark : w.chars.head? ≠ some '\uFEFF')
    (hnode : node ≤ w.count) : Token.replaced (String.ofList w.chars) node raw =
      String.ofList (w.replace raw node 1).chars := by
  have hcs : w.chars = [] ++ (w.chars ++ []) := by simp
  have hreplace :
      Token.replacedFrom w.chars raw.toList node 1 (w.lexemes (Utf8.size []) ++ []) = _ :=
    replacedFrom_lexemes hw hcs []
  rw [if_pos (by omega), List.append_nil] at hreplace
  rw [Token.replaced, Token.scan_ofList, Token.scanChars_of_head?_ne hmark, scanFrom_self hw,
    String.toList_ofList]
  simpa using congrArg String.ofList hreplace

end Writing

/-! ## Giving an element a text -/

namespace Tree

variable {t : Tree} {w : Writing} {n : ℕ} {node : NodeId}

/-- An element that is given a text stands for the writing with that text for its content. -/
theorem Records.standFor_setText (h : t.Records w n) (hnode : node < t.size) (value : String)
    (hsize : n + w.count ≤ t.size) :
    (t.setText node value).StandFor (w.replace (escape value) node n) (w.ids n) := by
  have hcontent : ∀ x : ℕ, x < t.size → (t.setText node value).content x = t.content x :=
    fun x hx => (content_setText _ x).trans (if_neg (Nat.ne_of_lt hx))
  have hchildren := children_setText value hnode
  have hnew : (t.setText node value).StandFor (.leaf (.text (escape value)) .nil) [t.size] :=
    ⟨t.size, [], rfl, rfl, (content_setText _ t.size).trans (if_pos rfl), rfl⟩
  induction w generalizing n with
  | nil => rfl
  | leaf token rest ih =>
    obtain ⟨hleaf, hadds, hrest⟩ := h
    simp only [Writing.count] at hsize
    exact ⟨n, _, rfl, hleaf, (hcontent n (by omega)).symm ▸ hadds, ih hrest (by omega)⟩
  | empty tag rest ih =>
    obtain ⟨⟨e, htag, he⟩, hnil, hrest⟩ := h
    simp only [Writing.count] at hsize
    have hown := (hcontent n (by omega)).trans he
    have hrest := ih hrest (by omega)
    rw [Writing.replace]
    split
    · next heq =>
      refine ⟨n, _, e, rfl, htag, hown, ?_, hrest⟩
      rw [hchildren, if_pos heq.symm]
      exact hnew
    · next hne =>
      exact ⟨n, _, e, rfl, htag, hown, by rw [hchildren, if_neg (Ne.symm hne), hnil], hrest⟩
  | pair tag inside gap rest ihinside ihrest =>
    obtain ⟨⟨e, htag, he⟩, hids, hinside, hrest⟩ := h
    simp only [Writing.count] at hsize
    refine ⟨n, _, e, rfl, htag, (hcontent n (by omega)).trans he, ?_, ihrest hrest (by omega)⟩
    rw [hchildren]
    split
    · next heq =>
      rw [if_pos heq.symm]
      exact hnew
    · next hne =>
      rw [if_neg (Ne.symm hne), hids]
      exact ihinside hinside (by omega)

end Tree

theorem legible_escape {value : String} (h : value ≠ "") : (Token.text (escape value)).Legible := by
  refine ⟨fun hnil => h ?_, lt_not_mem_escape value⟩
  have hempty : escape value = escape "" := String.toList_injective hnil
  have hsame := unescape_escape value
  rw [hempty, unescape_escape] at hsame
  exact (Option.some.inj hsame).symm

theorem Layout.charset_of_capture {text : String} {charset : Charset} {layout : Layout}
    (h : capture text charset = .ok layout) : layout.charset = charset := by
  unfold capture at h
  cases hspan : rootTagSpan text with
  | error fault =>
    rw [hspan] at h
    cases h
  | ok span =>
    rw [hspan] at h
    cases h
    rfl

/-- After one of its elements has been given a text, restoring the captured layout of a document
    gives the document with that text between the element's tags, without the white space in the end
    tags of elements that have content. -/
theorem Layout.restoreText_setText {text : String} {t : Tree} (h : Tree.parse text = .ok t)
    {root : Strict.Node} (hstrict : Strict.parse? text = some root)
    (hmark : text.toList.head? ≠ some '\uFEFF') {node : NodeId} {e : Element}
    (he : t.content node = .element e) {value : String} (hvalue : value ≠ "") (charset : Charset) :
    ∃ layout, capture text charset = .ok layout ∧
      layout.restoreText (t.setText node value).render =
        .ok (Token.tightened (Token.replaced text node (escape value))) := by
  obtain ⟨w, hw, rfl, hdraft⟩ := Tree.exists_writing_of_parse h hstrict hmark
  rw [String.toList_ofList] at hmark
  obtain ⟨hwell, hdocument, hsize, hchildren, hrecords⟩ := Tree.records_of_foldlM hw.leaves hdraft
  have hnode := Tree.lt_size_of_element he
  have hne : node ≠ Tree.root := by
    rintro rfl
    rw [hdocument] at he
    cases he
  have hpos : 0 < t.size := by omega
  have hpos' : 0 < (t.setText node value).size := by
    rw [Tree.size_setText]
    omega
  have hdocument' : (t.setText node value).content Tree.root = .document :=
    ((Tree.content_setText value Tree.root).trans (if_neg (Nat.ne_of_lt hpos))).trans hdocument
  have hstand := hrecords.standFor_setText hnode value (by omega)
  rw [← hchildren, ← (Tree.children_setText value hnode Tree.root).trans (if_neg hne)] at hstand
  obtain ⟨r, hroot⟩ := Option.isSome_iff_exists.mp (Tree.foldlM_of_parse h).2.2
  obtain ⟨token, htag⟩ := Tree.exists_firstTag? (hchildren ▸ hrecords.standFor) hroot
  obtain ⟨layout, hcapture, hlayout⟩ := exists_captureChars hw htag hmark charset
  -- The edited tree as a writing, and what it is respelled as.
  have hreplaced : (w.replace (escape value) node 1).Legible :=
    Writing.legible_replace hw (legible_escape hvalue)
  have htop := Writing.top_replace (escape value) node w 1
  obtain ⟨first, hfirst, hsame⟩ := Writing.opensLike_replace htag (escape value) node 1
  have hlead := Writing.head?_lead_ne htag hmark
  have hmark' := Writing.head?_chars_ne hfirst (Writing.lead_congr htop ▸ hlead)
  refine ⟨layout, by rw [capture_ofList, hcapture], ?_⟩
  rw [Tree.render_of_standFor (hwell.setText value hnode) hdocument' hpos' hstand,
    restoreText_ofList, restoreChars_collapse hlayout hw hreplaced htop hfirst hsame
      (fun s hs => Writing.formAt?_of_mem_replace hw hs) hlead,
    Writing.replaced_ofList hw hmark (by simp only [NodeId] at *; omega),
    Writing.tightened_ofList hreplaced hmark']
  rfl

end MavenPom.Markup
