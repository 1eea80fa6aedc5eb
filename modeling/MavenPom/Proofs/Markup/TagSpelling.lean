import MavenPom.Proofs.Markup.Outline
import MavenPom.Proofs.Text.Trim

/-!
# How tags are spelled

A tag as the name and the attributes that it spells one by one: it is legible, and it is read as
those attributes, whatever the white space, the quotes and the references in them.
-/

namespace MavenPom.Markup

/-- An attribute as it stands in a tag: white space, the key, an equals sign between white space,
    and the value between quotes. -/
structure SpelledAttribute where
  gap : List Char
  key : List Char
  left : List Char
  right : List Char
  quote : Char
  value : List Char

namespace SpelledAttribute

def chars (a : SpelledAttribute) : List Char :=
  a.gap ++ (a.key ++ (a.left ++ '=' :: (a.right ++ a.quote :: (a.value ++ [a.quote]))))

/-- The key, and what the value means. -/
def pair (a : SpelledAttribute) : String × String :=
  (String.ofList a.key, (unescape (String.ofList a.value)).getD "")

structure WellFormed (a : SpelledAttribute) : Prop where
  gap_ne : a.gap ≠ []
  gap_spaces : ∀ c ∈ a.gap, isSpace c = true
  key_ne : a.key ≠ []
  key_chars : ∀ c ∈ a.key, Strict.isNameChar c = true
  left_spaces : ∀ c ∈ a.left, isSpace c = true
  right_spaces : ∀ c ∈ a.right, isSpace c = true
  quotes : a.quote = '"' ∨ a.quote = '\''
  closed : a.quote ∉ a.value
  resolves : (unescape (String.ofList a.value)).isSome = true

instance (a : SpelledAttribute) : Decidable a.WellFormed :=
  decidable_of_iff (a.gap ≠ [] ∧ a.gap.all isSpace = true ∧ a.key ≠ [] ∧
      a.key.all Strict.isNameChar = true ∧ a.left.all isSpace = true ∧ a.right.all isSpace = true ∧
      (a.quote = '"' ∨ a.quote = '\'') ∧ a.quote ∉ a.value ∧
      (unescape (String.ofList a.value)).isSome = true)
    (by
      simp only [List.all_eq_true]
      exact ⟨fun ⟨hgap, hgaps, hkey, hkeys, hleft, hright, hquotes, hclosed, hresolves⟩ =>
          ⟨hgap, hgaps, hkey, hkeys, hleft, hright, hquotes, hclosed, hresolves⟩,
        fun ⟨hgap, hgaps, hkey, hkeys, hleft, hright, hquotes, hclosed, hresolves⟩ =>
          ⟨hgap, hgaps, hkey, hkeys, hleft, hright, hquotes, hclosed, hresolves⟩⟩)

end SpelledAttribute

/-! ## Reading attributes -/

theorem isSpace_eq_false_of_isNameChar {c : Char} (h : Strict.isNameChar c = true) :
    isSpace c = false := by
  cases hspace : isSpace c with
  | false => rfl
  | true =>
    rw [Strict.isNameChar_eq_false_of_isSpace hspace] at h
    cases h

theorem isKeyChar_of_isNameChar {c : Char} (h : Strict.isNameChar c = true) :
    isKeyChar c = true := by
  have hne : c ≠ '=' := by
    rintro rfl
    exact absurd h (by decide)
  simp [isKeyChar, hne, isSpace_eq_false_of_isNameChar h]

theorem skipSpaces_append_cons {spaces : List Char} (h : ∀ c ∈ spaces, isSpace c = true) {c : Char}
    (hc : isSpace c = false) (rest : List Char) : skipSpaces (spaces ++ c :: rest) = c :: rest := by
  rw [skipSpaces, List.dropWhile_append_of_pos h, List.dropWhile_cons_of_neg (by simp [hc])]

namespace SpelledAttribute

variable {a : SpelledAttribute}

theorem WellFormed.isSpace_quote (h : a.WellFormed) : isSpace a.quote = false := by
  rcases h.quotes with heq | heq <;> rw [heq] <;> decide

theorem chars_append (a : SpelledAttribute) (rest : List Char) : a.chars ++ rest =
    a.gap ++ (a.key ++
      (a.left ++ '=' :: (a.right ++ a.quote :: (a.value ++ a.quote :: rest)))) := by
  simp [chars]

theorem getLast?_chars (a : SpelledAttribute) : a.chars.getLast? = some a.quote := by
  have hchars : a.chars =
      a.gap ++ (a.key ++ (a.left ++ '=' :: (a.right ++ a.quote :: a.value))) ++ [a.quote] := by
    simp [chars]
  rw [hchars, List.getLast?_concat]

/-- What follows a key is no part of it. -/
theorem WellFormed.not_isKeyChar_behind (h : a.WellFormed) (rest : List Char) (c : Char)
    (hc : (a.left ++ '=' :: rest).head? = some c) : isKeyChar c = false := by
  cases hleft : a.left with
  | nil =>
    rw [hleft] at hc
    obtain rfl := Option.some.inj hc
    decide
  | cons d more =>
    rw [hleft] at hc
    obtain rfl := Option.some.inj hc
    simp [isKeyChar, h.left_spaces d (hleft ▸ List.mem_cons_self ..)]

theorem WellFormed.readValue (h : a.WellFormed) (rest : List Char) :
    Attribute.readValue a.key (a.right ++ a.quote :: (a.value ++ a.quote :: rest)) =
      ⟨some (a.key, a.value), some a.key, rest⟩ := by
  rw [Attribute.readValue, skipSpaces_append_cons h.right_spaces h.isSpace_quote]
  simp only [if_pos h.quotes, Text.cut?_singleton_append h.closed]

theorem WellFormed.step (h : a.WellFormed) {k : Char} {ks : List Char} (hkey : a.key = k :: ks)
    (rest : List Char) : Attribute.step [] k
      (ks ++ (a.left ++ '=' :: (a.right ++ a.quote :: (a.value ++ a.quote :: rest)))) =
        ⟨some (a.key, a.value), some a.key, rest⟩ := by
  have hks : ∀ c ∈ ks, isKeyChar c = true := fun c hc =>
    isKeyChar_of_isNameChar (h.key_chars c (hkey ▸ List.mem_cons_of_mem _ hc))
  have hbehind := h.not_isKeyChar_behind (a.right ++ a.quote :: (a.value ++ a.quote :: rest))
  have htake := List.takeWhile_append_dropWhile (p := isKeyChar)
    (l := a.left ++ '=' :: (a.right ++ a.quote :: (a.value ++ a.quote :: rest)))
  rw [Text.dropWhile_eq_self hbehind, List.append_left_eq_self] at htake
  rw [Attribute.step, List.takeWhile_append_of_pos hks, htake, List.append_nil,
    List.dropWhile_append_of_pos hks, Text.dropWhile_eq_self hbehind,
    skipSpaces_append_cons h.left_spaces (by decide)]
  simp only [← hkey, List.contains_nil, Bool.false_eq_true, if_false, h.readValue]

theorem WellFormed.readAll (h : a.WellFormed) (rest : List Char) :
    Attribute.readAll false [] (a.chars ++ rest) =
      some (a.key, a.value) :: Attribute.readAll false [] rest := by
  obtain ⟨k, ks, hkey⟩ := List.exists_cons_of_ne_nil h.key_ne
  have hk := h.key_chars k (hkey ▸ List.mem_cons_self ..)
  have hskip : skipSpaces (a.chars ++ rest) =
      k :: (ks ++ (a.left ++ '=' :: (a.right ++ a.quote :: (a.value ++ a.quote :: rest)))) := by
    rw [chars_append, hkey]
    exact skipSpaces_append_cons h.gap_spaces (isSpace_eq_false_of_isNameChar hk) _
  rw [Attribute.readAll_of_cons hskip, h.step hkey]
  rfl

/-- A tag is read as the attributes that it spells. -/
theorem readAll_flatMap {as : List SpelledAttribute} (h : ∀ a ∈ as, a.WellFormed)
    {spaces : List Char} (hspaces : ∀ c ∈ spaces, isSpace c = true) :
    Attribute.readAll false [] (as.flatMap chars ++ spaces) =
      as.map fun a => some (a.key, a.value) := by
  induction as with
  | nil => exact Attribute.readAll_of_nil (List.dropWhile_eq_nil_iff.mpr hspaces)
  | cons a as ih =>
    obtain ⟨ha, has⟩ := List.forall_mem_cons.mp h
    rw [List.flatMap_cons, List.append_assoc, ha.readAll, ih has, List.map_cons]

theorem mapM_readings {as : List SpelledAttribute}
    {f : Attribute.Reading → Option (String × String)}
    (h : ∀ a ∈ as, f (some (a.key, a.value)) = some a.pair) :
    (as.map fun a => some (a.key, a.value)).mapM f = some (as.map (·.pair)) := by
  induction as with
  | nil => rfl
  | cons a as ih =>
    obtain ⟨ha, has⟩ := List.forall_mem_cons.mp h
    rw [List.map_cons, List.mapM_cons, ha, ih has]
    rfl

end SpelledAttribute

/-! ## The end of a tag -/

namespace Token

/-- The characters are passed over as a whole when the end of a tag is looked for. -/
def Passes (cs : List Char) : Prop :=
  ∀ rest, tagContent? none (cs ++ rest) = (tagContent? none rest).map (cs ++ ·)

theorem Passes.append {cs cs' : List Char} (h : Passes cs) (h' : Passes cs') :
    Passes (cs ++ cs') := by
  intro rest
  rw [List.append_assoc, h, h', Option.map_map]
  congr 1
  funext content
  exact (List.append_assoc ..).symm

theorem passes_of_not_mem {cs : List Char} (h : ∀ c ∈ cs, c ≠ '>' ∧ c ≠ '"' ∧ c ≠ '\'') :
    Passes cs := by
  intro rest
  induction cs with
  | nil => simp
  | cons c cs ih =>
    obtain ⟨⟨hclose, hdouble, hsingle⟩, hcs⟩ := List.forall_mem_cons.mp h
    rw [List.cons_append, tagContent?, if_neg hclose, if_neg (by simp [hdouble, hsingle]), ih hcs,
      Option.map_map]
    rfl

theorem tagContent?_quoted {quote : Char} {value : List Char} (h : quote ∉ value)
    (rest : List Char) : tagContent? (some quote) (value ++ quote :: rest) =
      (tagContent? none rest).map (value ++ quote :: ·) := by
  induction value with
  | nil => rw [List.nil_append, tagContent?, if_pos rfl]; rfl
  | cons c value ih =>
    obtain ⟨hne, hvalue⟩ := not_or.mp fun hmem => h (List.mem_cons.mpr hmem)
    rw [List.cons_append, tagContent?, if_neg (Ne.symm hne), ih hvalue, Option.map_map]
    rfl

theorem passes_quoted {quote : Char} (hquote : quote = '"' ∨ quote = '\'') {value : List Char}
    (h : quote ∉ value) : Passes (quote :: (value ++ [quote])) := by
  intro rest
  have hclose : quote ≠ '>' := by
    rcases hquote with rfl | rfl <;> decide
  rw [List.cons_append, List.append_assoc, List.singleton_append, tagContent?, if_neg hclose,
    if_pos hquote, tagContent?_quoted h, Option.map_map]
  congr 1
  funext content
  simp

end Token

theorem SpelledAttribute.WellFormed.passes {a : SpelledAttribute} (h : a.WellFormed) :
    Token.Passes a.chars := by
  have hplain {cs : List Char} (hcs : ∀ c ∈ cs, isSpace c = true ∨ Strict.isNameChar c = true) :
      Token.Passes cs := by
    refine Token.passes_of_not_mem fun c hc => ?_
    refine ⟨?_, ?_, ?_⟩ <;> rintro rfl <;> rcases hcs _ hc with h | h <;> revert h <;> decide
  have hequals : Token.Passes ['='] := Token.passes_of_not_mem (by simp)
  have hquoted := Token.passes_quoted h.quotes h.closed
  have hchars : a.chars =
      a.gap ++ (a.key ++
        (a.left ++ (['='] ++ (a.right ++ (a.quote :: (a.value ++ [a.quote])))))) := by
    simp [chars]
  rw [hchars]
  exact (hplain fun c hc => .inl (h.gap_spaces c hc)).append <|
    (hplain fun c hc => .inr (h.key_chars c hc)).append <|
    (hplain fun c hc => .inl (h.left_spaces c hc)).append <|
    hequals.append <| (hplain fun c hc => .inl (h.right_spaces c hc)).append hquoted

/-! ## Tags -/

/-- The tag has a name and the attributes as they are spelled, and white space behind them. -/
structure Tag.Spells (tag : Tag) (as : List SpelledAttribute) : Prop where
  name_head : ∃ c cs, tag.name.toList = c :: cs ∧ Strict.isNameStart c = true
  name_chars : ∀ c ∈ tag.name.toList, Strict.isNameChar c = true
  attributes : ∀ a ∈ as, a.WellFormed
  text : ∃ spaces, (∀ c ∈ spaces, isSpace c = true) ∧
    tag.attributeText.toList = as.flatMap (·.chars) ++ spaces

/-- The tag with a name and attributes, and no white space at its end. -/
def Tag.ofSpelled (name : String) (as : List SpelledAttribute) : Tag :=
  ⟨name, String.ofList (as.flatMap (·.chars))⟩

theorem Tag.spells_ofSpelled {name : String} {as : List SpelledAttribute}
    (hhead : name.toList.head?.any Strict.isNameStart = true)
    (hname : name.toList.all Strict.isNameChar = true) (has : ∀ a ∈ as, a.WellFormed) :
    (ofSpelled name as).Spells as := by
  refine ⟨?_, List.all_eq_true.mp hname, has, [], by simp, by simp [ofSpelled]⟩
  obtain ⟨c, hc, hstart⟩ := Option.any_eq_true _ _ |>.mp hhead
  obtain ⟨cs, hcs⟩ := List.head?_eq_some_iff.mp hc
  exact ⟨c, cs, hcs, hstart⟩

namespace Tag.Spells

variable {tag : Tag} {as : List SpelledAttribute}

theorem endsQuoted (h : tag.Spells as) : EndsQuoted tag.attributeText.toList := by
  obtain ⟨spaces, hspaces, htext⟩ := h.text
  refine ⟨_, spaces, htext, hspaces, fun c hc => ?_⟩
  rcases List.eq_nil_or_concat as with rfl | ⟨front, a, rfl⟩
  · cases hc
  · rw [List.concat_eq_append, List.flatMap_append, List.getLast?_append, List.flatMap_singleton,
      a.getLast?_chars, Option.some_or] at hc
    exact Option.some.inj hc ▸ (h.attributes a (by simp)).quotes

theorem isSpace_head (h : tag.Spells as) :
    ∀ c ∈ tag.attributeText.toList.head?, isSpace c = true := by
  obtain ⟨spaces, hspaces, htext⟩ := h.text
  intro c hc
  rw [htext] at hc
  cases as with
  | nil => exact hspaces c (List.mem_of_head? hc)
  | cons a more =>
    have ha := h.attributes a (List.mem_cons_self ..)
    obtain ⟨d, gap, hgap⟩ := List.exists_cons_of_ne_nil ha.gap_ne
    rw [List.flatMap_cons, SpelledAttribute.chars, hgap] at hc
    obtain rfl := Option.some.inj hc
    exact ha.gap_spaces d (hgap ▸ List.mem_cons_self ..)

theorem passes_inside (h : tag.Spells as) : Token.Passes tag.inside := by
  obtain ⟨spaces, hspaces, htext⟩ := h.text
  have hname : Token.Passes tag.name.toList := Token.passes_of_not_mem fun c hc => by
    refine ⟨?_, ?_, ?_⟩ <;> rintro rfl <;> have := h.name_chars _ hc <;> revert this <;> decide
  have hend : Token.Passes spaces := Token.passes_of_not_mem fun c hc => by
    refine ⟨?_, ?_, ?_⟩ <;> rintro rfl <;> have := hspaces _ hc <;> revert this <;> decide
  have hattributes : Token.Passes (as.flatMap (·.chars)) := by
    have hall := h.attributes
    clear htext h
    induction as with
    | nil => exact Token.passes_of_not_mem (by simp)
    | cons a as ih =>
      obtain ⟨ha, has⟩ := List.forall_mem_cons.mp hall
      exact ha.passes.append (ih has)
  rw [Tag.inside, htext]
  exact hname.append (hattributes.append hend)

theorem legible (h : tag.Spells as) : tag.Legible := by
  obtain ⟨c, cs, hname, hc⟩ := h.name_head
  refine ⟨⟨c, cs, hname, ?_⟩, h.name_chars, h.isSpace_head, h.endsQuoted, fun rest => ?_, ?_⟩
  · refine ⟨?_, ?_, ?_⟩ <;> rintro rfl <;> revert hc <;> decide
  · rw [h.passes_inside, Token.tagContent?, if_pos rfl]
    simp
  · rw [Tag.inside, List.getLast?_append]
    intro hlast
    rcases Option.or_eq_some_iff.mp hlast with hlast | ⟨-, hlast⟩
    · exact h.endsQuoted.getLast?_ne hlast
    · exact absurd (h.name_chars _ (List.mem_of_getLast? hlast)) (by decide)

/-- A tag has the attributes that it spells. -/
theorem attributes?_eq (h : tag.Spells as) : tag.attributes? = some (as.map (·.pair)) := by
  obtain ⟨spaces, hspaces, htext⟩ := h.text
  have hread (a : SpelledAttribute) (ha : a ∈ as) :
      (unescape (String.ofList a.value)).map (fun v => (String.ofList a.key, v)) = some a.pair := by
    obtain ⟨read, hread⟩ := Option.isSome_iff_exists.mp (h.attributes a ha).resolves
    simp [SpelledAttribute.pair, hread]
  rw [Tag.attributes?, Tree.elementOf?, htext,
    SpelledAttribute.readAll_flatMap h.attributes hspaces, SpelledAttribute.mapM_readings hread]
  rfl

end Tag.Spells

/-- The tag spells a name and attributes, and no key twice. -/
def Tag.WellFormed (tag : Tag) : Prop := ∃ as, tag.Spells as ∧ (as.map (·.pair.1)).Nodup

theorem Tag.WellFormed.legible {tag : Tag} (h : tag.WellFormed) : tag.Legible := by
  obtain ⟨as, has, -⟩ := h
  exact has.legible

theorem Tag.WellFormed.isSome_attributes? {tag : Tag} (h : tag.WellFormed) :
    tag.attributes?.isSome = true := by
  obtain ⟨as, has, -⟩ := h
  rw [has.attributes?_eq]
  rfl

/-- `tag'` is `tag` with its attributes in any order, each spelled in any way that
    means the same. -/
def Tag.Respells (tag tag' : Tag) : Prop :=
  tag'.name = tag.name ∧ ∃ as bs, tag.Spells as ∧ tag'.Spells bs ∧
    (as.map (·.pair)).Perm (bs.map (·.pair)) ∧ (as.map (·.pair.1)).Nodup

theorem Tag.Respells.wellFormed_iff {tag tag' : Tag} (h : tag.Respells tag') :
    tag.WellFormed ↔ tag'.WellFormed := by
  obtain ⟨-, as, bs, has, hbs, hperm, hkeys⟩ := h
  have hperm' : (as.map (·.pair.1)).Perm (bs.map (·.pair.1)) := by
    have hkeys := hperm.map (·.1)
    rwa [List.map_map, List.map_map] at hkeys
  exact ⟨fun _ => ⟨bs, hbs, hperm'.nodup_iff.mp hkeys⟩, fun _ => ⟨as, has, hkeys⟩⟩

theorem Tag.Respells.sameAttributes {tag tag' : Tag} (h : tag.Respells tag') :
    Option.Rel SameAttributes tag.attributes? tag'.attributes? := by
  obtain ⟨-, as, bs, has, hbs, hperm, hkeys⟩ := h
  rw [has.attributes?_eq, hbs.attributes?_eq]
  exact .some (sameAttributes_of_perm hperm (by rwa [List.map_map]))

end MavenPom.Markup
