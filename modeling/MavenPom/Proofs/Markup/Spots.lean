import MavenPom.Proofs.Markup.Passage
import MavenPom.Proofs.Markup.Writing

/-!
# Empty elements of a writing

The elements without content in a writing, each with its spelling, are those that are found among
its tokens, and their paths tell them apart.
-/

namespace MavenPom.Markup

open EmptyElement (Frame Walk attributesOf among)

/-- How an element without content is written. -/
inductive Form where
  | closed (tag : Tag)
  | opened (tag : Tag) (gap : List Char)

namespace Form

def tag : Form → Tag
  | .closed tag => tag
  | .opened tag _ => tag

/-- An element without content before a writing. -/
def before : Form → Writing → Writing
  | .closed tag, rest => .empty tag rest
  | .opened tag gap, rest => .pair tag .nil gap rest

def chars : Form → List Char
  | .closed tag => (Token.emptyTag tag).spelling
  | .opened tag gap => (Token.startTag tag).spelling ++ endTagChars tag.name gap

theorem chars_before (form : Form) (rest : Writing) :
    (form.before rest).chars = form.chars ++ rest.chars := by
  cases form <;> simp [before, chars, Writing.chars]

end Form

/-- An element without content, and how it is written. -/
structure Spot where
  element : EmptyElement
  form : Form

/-- The frame after a child of that name has been met. -/
def EmptyElement.Frame.count (f : Frame) (name : String) : Frame :=
  { f with names := name :: f.names }

/-- The frame inside the next child of that name. -/
def EmptyElement.Frame.enter (f : Frame) (name : String) : Frame := ⟨f.childPath name, []⟩

namespace Writing

/-- The elements without content in a writing that begins at `position` in a frame. -/
def spots (f : Frame) (position : ℕ) : Writing → List Spot
  | .nil => []
  | .leaf token rest => rest.spots f (position + Utf8.size token.spelling)
  | .empty tag rest =>
    let stop := position + Utf8.size (Token.emptyTag tag).spelling
    ⟨⟨tag.name, f.childPath tag.name, attributesOf tag, position, stop⟩, .closed tag⟩ ::
      rest.spots (f.count tag.name) stop
  | .pair tag inside gap rest =>
    let opened := position + Utf8.size (Token.startTag tag).spelling
    let stop := opened + Utf8.size inside.chars + Utf8.size (endTagChars tag.name gap)
    (if inside.isNil then
      [⟨⟨tag.name, f.childPath tag.name, attributesOf tag, position, stop⟩, .opened tag gap⟩]
    else inside.spots (f.enter tag.name) opened) ++ rest.spots (f.count tag.name) stop

/-- The frame behind a writing. -/
def frameAfter (f : Frame) : Writing → Frame
  | .nil => f
  | .leaf _ rest => rest.frameAfter f
  | .empty tag rest => rest.frameAfter (f.count tag.name)
  | .pair tag _ _ rest => rest.frameAfter (f.count tag.name)

/-! ## Finding the elements -/

theorem head?_lexemes {w : Writing} (hw : w.Legible) (hnil : w.isNil = false) (position : ℕ)
    (tail : List Lexeme) :
    ∀ l ∈ (w.lexemes position ++ tail).head?, ∀ name, l.token ≠ .endTag name := by
  intro l hl name hend
  cases w with
  | nil => cases hnil
  | leaf token rest =>
    obtain rfl := Option.some.inj hl
    obtain rfl : token = .endTag name := hend
    cases hw.1
  | empty tag rest =>
    obtain rfl := Option.some.inj hl
    cases hend
  | pair tag inside gap rest =>
    obtain rfl := Option.some.inj hl
    cases hend

/-- The elements without content in a writing are those found among its tokens. -/
theorem among_lexemes {w : Writing} (hw : w.Legible) (f : Frame) (outer : List Frame)
    (position : ℕ) (tail : List Lexeme) :
    among ⟨f, outer⟩ none (w.lexemes position ++ tail) =
      (w.spots f position).map (·.element) ++ among ⟨w.frameAfter f, outer⟩ none tail := by
  induction w generalizing f outer position tail with
  | nil => rfl
  | leaf token rest ih =>
    obtain ⟨hleaf, -, -, hrest⟩ := hw
    rw [lexemes, spots, frameAfter, ← ih hrest f outer _ tail]
    exact EmptyElement.among_leaves [_] (by simpa using hleaf)
  | empty tag rest ih =>
    rw [lexemes, List.cons_append, among]
    dsimp only
    rw [spots, List.map_cons, List.cons_append, frameAfter, ← ih hw.2]
    rfl
  | pair tag inside gap rest ihinside ihrest =>
    obtain ⟨-, hinside, -, hrest⟩ := hw
    rw [lexemes, List.append_assoc, List.cons_append, among]
    dsimp only
    rw [spots, frameAfter, List.map_append, List.append_assoc, ← ihrest hrest]
    cases hnil : inside.isNil with
    | true =>
      obtain rfl := eq_nil_of_isNil hnil
      simp only [lexemes, List.nil_append, List.cons_append, among, if_true]
      rfl
    | false =>
      rw [EmptyElement.among_of_head_ne_endTag
        (head?_lexemes hinside hnil _ _), if_neg (by simp)]
      have hinner := ihinside hinside (f.enter tag.name) (f.count tag.name :: outer)
      refine (hinner _ _).trans ?_
      rw [List.cons_append, among]
      rfl

theorem findChars_eq {w : Writing} (hw : w.Legible) (hmark : w.chars.head? ≠ some '\uFEFF') :
    EmptyElement.findChars w.chars = (w.spots ⟨"", []⟩ 0).map (·.element) := by
  rw [EmptyElement.findChars, Token.scanChars_of_head?_ne hmark, scanFrom_self hw,
    ← List.append_nil (w.lexemes 0), Walk.start, among_lexemes hw, among, List.append_nil]

/-- Each of the elements stands in the text where it is found. -/
theorem take_drop_of_mem_spots {w : Writing} {f : Frame} (front : List Char) {s : Spot}
    (hs : s ∈ w.spots f (Utf8.size front)) (back : List Char) :
    Utf8.take (s.element.stop - s.element.start)
      (Utf8.drop s.element.start (front ++ (w.chars ++ back))) = s.form.chars := by
  induction w generalizing f front back with
  | nil => cases hs
  | leaf token rest ih =>
    rw [spots, ← Utf8.size_append] at hs
    simpa [chars] using ih _ hs back
  | empty tag rest ih =>
    rcases List.mem_cons.mp hs with rfl | hs
    · rw [chars, List.append_assoc]
      exact Utf8.take_drop_size ..
    · rw [← Utf8.size_append] at hs
      simpa [chars] using ih _ hs back
  | pair tag inside gap rest ihinside ihrest =>
    rw [spots] at hs
    rcases List.mem_append.mp hs with hs | hs
    · split at hs
      · next hnil =>
        obtain rfl := eq_nil_of_isNil hnil
        obtain rfl := List.mem_singleton.mp hs
        have hcut := Utf8.take_drop_size front (Form.opened tag gap).chars (rest.chars ++ back)
        simpa [chars, Form.chars, Utf8.size_append, Nat.add_assoc] using hcut
      · rw [← Utf8.size_append] at hs
        simpa [chars] using ihinside _ hs (endTagChars tag.name gap ++ (rest.chars ++ back))
    · rw [← Utf8.size_append, ← Utf8.size_append, ← Utf8.size_append] at hs
      simpa [chars] using ihrest _ hs back

/-! ## Paths -/

/-- The step of a path to the child of a name that has `k` earlier siblings of that name. -/
def step (name : String) (k : ℕ) : List Char := name.toList ++ '[' :: ((toString k).toList ++ [']'])

theorem toList_childPath (f : Frame) (name : String) :
    (f.childPath name).toList = f.path.toList ++ '/' :: step name (f.names.count name) := by
  simp [Frame.childPath, step]

theorem not_mem_toString {c : Char} (hc : c.isDigit = false) (k : ℕ) : c ∉ (toString k).toList := by
  intro hmem
  rw [Nat.toString_eq_ofList_toDigits, String.toList_ofList] at hmem
  rw [Nat.isDigit_of_mem_toDigits (by decide) (by decide) hmem] at hc
  cases hc

theorem takeWhile_append_cons {p : Char → Bool} {cs : List Char} (hcs : ∀ c ∈ cs, p c = true)
    {d : Char} (hd : p d = false) (more : List Char) : (cs ++ d :: more).takeWhile p = cs := by
  rw [List.takeWhile_append_of_pos hcs, List.takeWhile_cons_of_neg (by simp [hd]), List.append_nil]

/-- A name's step of a path tells the name and the number, whatever follows it. -/
theorem step_append_inj {name name' : String} {k k' : ℕ} {more more' : List Char}
    (hname : ∀ c ∈ name.toList, Strict.isNameChar c = true)
    (hname' : ∀ c ∈ name'.toList, Strict.isNameChar c = true)
    (h : step name k ++ more = step name' k' ++ more') :
    name = name' ∧ k = k' ∧ more = more' := by
  have hopen : ∀ {n : String}, (∀ c ∈ n.toList, Strict.isNameChar c = true) →
      ∀ c ∈ n.toList, (c != '[') = true := by
    intro n hn c hc
    refine bne_iff_ne.mpr ?_
    rintro rfl
    exact Strict.not_mem_of_isNameChar (by decide) hn hc
  have hclose : ∀ (n : ℕ), ∀ c ∈ (toString n).toList, (c != ']') = true := by
    intro n c hc
    refine bne_iff_ne.mpr ?_
    rintro rfl
    exact not_mem_toString (by decide) n hc
  have hform : ∀ n j m, step n j ++ m = n.toList ++ '[' :: ((toString j).toList ++ ']' :: m) := by
    intro n j m
    simp [step]
  rw [hform, hform] at h
  have hnames := congrArg (List.takeWhile (· != '[')) h
  rw [takeWhile_append_cons (hopen hname) (by decide),
    takeWhile_append_cons (hopen hname') (by decide)] at hnames
  obtain rfl := String.toList_injective hnames
  have hrest := (List.cons.inj (List.append_cancel_left h)).2
  have hnumbers := congrArg (List.takeWhile (· != ']')) hrest
  rw [takeWhile_append_cons (hclose k) (by decide),
    takeWhile_append_cons (hclose k') (by decide)] at hnumbers
  have hk : k = k' := by
    simp only [Nat.toString_eq_ofList_toDigits, String.toList_ofList] at hnumbers
    have hvalues := congrArg (Nat.ofDigitChars 10 · 0) hnumbers
    simpa only [Nat.ofDigitChars_ten_toDigits] using hvalues
  subst hk
  exact ⟨rfl, rfl, (List.cons.inj (List.append_cancel_left hrest)).2⟩

/-- The path leads to the child of a frame that has a name and `k` earlier siblings of that name, or
    to something in it. -/
structure Leads (f : Frame) (name : String) (k : ℕ) (path : String) : Prop where
  name_chars : ∀ c ∈ name.toList, Strict.isNameChar c = true
  eq : ∃ more, path.toList = f.path.toList ++ '/' :: (step name k ++ more)

theorem Leads.unique {f : Frame} {name name' : String} {k k' : ℕ} {path : String}
    (h : Leads f name k path) (h' : Leads f name' k' path) : name = name' ∧ k = k' := by
  obtain ⟨more, hmore⟩ := h.eq
  obtain ⟨more', hmore'⟩ := h'.eq
  have hrest := (List.cons.inj (List.append_cancel_left (hmore.symm.trans hmore'))).2
  obtain ⟨hname, hk, -⟩ := step_append_inj h.name_chars h'.name_chars hrest
  exact ⟨hname, hk⟩

theorem leads_childPath {tag : Tag} (htag : tag.Legible) (f : Frame) :
    Leads f tag.name (f.names.count tag.name) (f.childPath tag.name) :=
  ⟨htag.name_chars, [], by rw [toList_childPath, List.append_nil]⟩

theorem Leads.of_enter {tag : Tag} (htag : tag.Legible) {f : Frame} {name : String} {k : ℕ}
    {path : String} (h : Leads (f.enter tag.name) name k path) :
    Leads f tag.name (f.names.count tag.name) path := by
  obtain ⟨more, hmore⟩ := h.eq
  refine ⟨htag.name_chars, '/' :: (step name k ++ more), ?_⟩
  rw [hmore, EmptyElement.Frame.enter, toList_childPath]
  simp

theorem exists_leads {w : Writing} (hw : w.Legible) {f : Frame} {position : ℕ} {s : Spot}
    (hs : s ∈ w.spots f position) :
    ∃ name k, f.names.count name ≤ k ∧ Leads f name k s.element.path := by
  induction w generalizing f position with
  | nil => cases hs
  | leaf token rest ih => exact ih hw.2.2.2 hs
  | empty tag rest ih =>
    rcases List.mem_cons.mp hs with rfl | hs
    · exact ⟨tag.name, _, Nat.le_refl _, leads_childPath hw.1 f⟩
    · obtain ⟨name, k, hk, hleads⟩ := ih hw.2 hs
      exact ⟨name, k, Nat.le_trans List.count_le_count_cons hk, hleads.1, hleads.2⟩
  | pair tag inside gap rest ihinside ihrest =>
    obtain ⟨htag, hinside, -, hrest⟩ := hw
    rw [spots] at hs
    rcases List.mem_append.mp hs with hs | hs
    · refine ⟨tag.name, _, Nat.le_refl _, ?_⟩
      split at hs
      · obtain rfl := List.mem_singleton.mp hs
        exact leads_childPath htag f
      · obtain ⟨name, k, -, hleads⟩ := ihinside hinside hs
        exact hleads.of_enter htag
    · obtain ⟨name, k, hk, hleads⟩ := ihrest hrest hs
      exact ⟨name, k, Nat.le_trans List.count_le_count_cons hk, hleads.1, hleads.2⟩

/-- What comes behind a child is at another path than the child and what is in it. -/
theorem ne_of_leads {tag : Tag} {rest : Writing} (hrest : rest.Legible) {f : Frame} {path : String}
    (h : Leads f tag.name (f.names.count tag.name) path) {position : ℕ} {s : Spot}
    (hs : s ∈ rest.spots (f.count tag.name) position) : path ≠ s.element.path := by
  rintro rfl
  obtain ⟨name, k, hk, hleads⟩ := exists_leads hrest hs
  obtain ⟨rfl, rfl⟩ := h.unique ⟨hleads.1, hleads.2⟩
  have hcount : (f.count tag.name).names.count tag.name = f.names.count tag.name + 1 :=
    List.count_cons_self
  omega

/-- No two elements without content are at one path. -/
theorem nodup_spots {w : Writing} (hw : w.Legible) (f : Frame) (position : ℕ) :
    ((w.spots f position).map (·.element.path)).Nodup := by
  induction w generalizing f position with
  | nil => exact List.nodup_nil
  | leaf token rest ih => exact ih hw.2.2.2 ..
  | empty tag rest ih =>
    refine List.nodup_cons.mpr ⟨fun hmem => ?_, ih hw.2 ..⟩
    obtain ⟨s, hs, heq⟩ := List.mem_map.mp hmem
    exact ne_of_leads hw.2 (leads_childPath hw.1 f) hs heq.symm
  | pair tag inside gap rest ihinside ihrest =>
    obtain ⟨htag, hinside, -, hrest⟩ := hw
    rw [spots, List.map_append]
    refine List.nodup_append'.mpr ⟨?_, ihrest hrest .., ?_⟩
    · split
      · exact List.nodup_singleton _
      · exact ihinside hinside ..
    · intro path hpath hmem
      obtain ⟨s, hs, rfl⟩ := List.mem_map.mp hpath
      obtain ⟨s', hs', heq⟩ := List.mem_map.mp hmem
      refine ne_of_leads hrest ?_ hs' heq.symm
      split at hs
      · obtain rfl := List.mem_singleton.mp hs
        exact leads_childPath htag f
      · obtain ⟨name, k, -, hleads⟩ := exists_leads hinside hs
        exact hleads.of_enter htag

end Writing

end MavenPom.Markup
