import MavenPom.Markup.Strict.Token
import MavenPom.Proofs.Text.Trim

/-!
# Line breaks in text

The strict reader tells line breaks anew, and the lenient one leaves them as they are. A text that
has no carriage return in it is the same to both, once it is trimmed.
-/

namespace MavenPom

namespace Markup.Strict

/-- The characters `read` are `written` with carriage returns, and line feeds behind them, as line
    feeds, wherever that has been done. -/
inductive Retold : (written read : List Char) → Prop where
  | nil : Retold [] []
  | same (c : Char) {written read : List Char} : Retold written read →
      Retold (c :: written) (c :: read)
  | carriage {written read : List Char} : Retold written read →
      Retold ('\r' :: written) ('\n' :: read)
  | both {written read : List Char} : Retold written read →
      Retold ('\r' :: '\n' :: written) ('\n' :: read)

namespace Retold

variable {written read written' read' : List Char}

theorem append (h : Retold written read) (h' : Retold written' read') :
    Retold (written ++ written') (read ++ read') := by
  induction h with
  | nil => exact h'
  | same c _ ih => exact ih.same c
  | carriage _ ih => exact ih.carriage
  | both _ ih => exact ih.both

/-- Characters without a carriage return stay, and what follows them is told anew. -/
theorem exists_of_append {front : List Char} (hfront : '\r' ∉ front)
    (h : Retold (front ++ written) read) : ∃ rest, read = front ++ rest ∧ Retold written rest := by
  induction front generalizing read with
  | nil => exact ⟨read, rfl, h⟩
  | cons c front ih =>
    obtain ⟨hc, hfront⟩ := not_or.mp fun h => hfront (List.mem_cons.mpr h)
    rw [List.cons_append] at h
    generalize front ++ written = behind at h ih
    cases h with
    | same _ h =>
      obtain ⟨rest, rfl, hrest⟩ := ih hfront h
      exact ⟨rest, rfl, hrest⟩
    | carriage h => exact absurd rfl hc
    | both h => exact absurd rfl hc

theorem forall_isBlank (h : Retold written read) (hblank : ∀ c ∈ written, Text.isBlank c = true) :
    ∀ c ∈ read, Text.isBlank c = true := by
  induction h with
  | nil => exact hblank
  | same c _ ih =>
    obtain ⟨hc, hrest⟩ := List.forall_mem_cons.mp hblank
    exact List.forall_mem_cons.mpr ⟨hc, ih hrest⟩
  | carriage _ ih =>
    exact List.forall_mem_cons.mpr ⟨by decide, ih (List.forall_mem_cons.mp hblank).2⟩
  | both _ ih =>
    obtain ⟨-, hrest⟩ := List.forall_mem_cons.mp hblank
    exact List.forall_mem_cons.mpr ⟨by decide, ih (List.forall_mem_cons.mp hrest).2⟩

theorem dropWhile_isBlank (h : Retold written read) :
    Retold (written.dropWhile Text.isBlank) (read.dropWhile Text.isBlank) := by
  induction h with
  | nil => exact .nil
  | same c h ih =>
    by_cases hc : Text.isBlank c = true
    · rwa [List.dropWhile_cons_of_pos hc, List.dropWhile_cons_of_pos hc]
    · rw [List.dropWhile_cons_of_neg hc, List.dropWhile_cons_of_neg hc]
      exact h.same c
  | carriage _ ih =>
    rwa [List.dropWhile_cons_of_pos (by decide), List.dropWhile_cons_of_pos (by decide)]
  | both _ ih =>
    rwa [List.dropWhile_cons_of_pos (by decide), List.dropWhile_cons_of_pos (by decide),
      List.dropWhile_cons_of_pos (by decide)]

/-- Once it is trimmed, a text without a carriage return in it stays as it is. -/
theorem trimChars_eq (h : Retold written read) (hcarriage : '\r' ∉ Text.trimChars written) :
    Text.trimChars read = Text.trimChars written := by
  obtain ⟨tail, hblank, htail⟩ :=
    Text.exists_of_dropEndWhile Text.isBlank (written.dropWhile Text.isBlank)
  have hdropped := h.dropWhile_isBlank
  rw [htail] at hdropped
  obtain ⟨rest, hread, hrest⟩ := hdropped.exists_of_append hcarriage
  rw [Text.trimChars, hread, Text.dropEndWhile_append _ (hrest.forall_isBlank hblank)]
  exact Text.dropEndWhile_eq_self fun c hc => Text.getLast?_dropEndWhile hc

end Retold

/-! ## Reading lines -/

/-- What has been read, last first, goes on with a carriage return that waits for the next
    character, or with nothing that waits. -/
def Waits (waiting read : List Char) : Prop :=
  waiting = [] ∧ read.head? ≠ some '\r' ∨ waiting = ['\r']

theorem Waits.reverse_eq {waiting read : List Char} (h : Waits waiting read) :
    waiting.reverse = waiting := by
  rcases h with ⟨rfl, -⟩ | rfl <;> rfl

theorem take_of_head?_ne {read : Lines} (h : read.head? ≠ some '\r') (c : Char) (isLast : Bool) :
    read.take c isLast = if c = '\r' ∧ isLast = true then '\n' :: read else c :: read := by
  rw [Lines.take]
  · split
    next heq =>
      obtain ⟨rfl, rfl⟩ := List.cons.inj heq
      simp
    next hne => rw [if_neg fun hor => hne read (by rw [hor.1])]
  · rintro rest rfl
    exact h rfl

theorem take_return (read : Lines) (c : Char) (isLast : Bool) :
    Lines.take ('\r' :: read) c isLast =
      if c = '\n' then '\n' :: read else Lines.take ('\n' :: read) c isLast := by
  by_cases hc : c = '\n'
  · subst hc
    rfl
  · rw [if_neg hc, Lines.take, Lines.take]
    · simp only [if_neg hc]
    · intro rest h
      cases h

/-- Reading the characters tells their line breaks anew, whatever has been read before. -/
def Retells (cs : List (Char × Bool)) : Prop :=
  ∀ {waiting read : List Char}, Waits waiting read → ∀ flag,
    ∃ more, normalizeLines (waiting ++ read) flag cs = more.reverse ++ read ∧
      Retold (waiting ++ cs.map (·.1)) more

namespace Retells

variable {cs : List (Char × Bool)} {waiting read : List Char}

/-- A character that stands as it is waits for the next one only if it is a carriage return. -/
theorem push (h : Retells cs) (hwaits : Waits waiting read) (c : Char) (flag : Bool) :
    ∃ more, normalizeLines (c :: (waiting ++ read)) flag cs = more.reverse ++ read ∧
      Retold (waiting ++ c :: cs.map (·.1)) more := by
  have hsame : ∀ {more : List Char}, Retold (c :: cs.map (·.1)) more →
      Retold (waiting ++ c :: cs.map (·.1)) (waiting ++ more) := by
    intro more hmore
    rcases hwaits with ⟨rfl, -⟩ | rfl
    · exact hmore
    · exact hmore.same _
  by_cases hc : c = '\r'
  · obtain ⟨more, heq, hmore⟩ := h (.inr rfl : Waits ['\r'] (waiting ++ read)) flag
    rw [hc]
    refine ⟨waiting ++ more, ?_, hc ▸ hsame (hc ▸ hmore)⟩
    rw [List.reverse_append, hwaits.reverse_eq, List.append_assoc]
    exact heq
  · obtain ⟨more, heq, hmore⟩ :=
      h (.inl ⟨rfl, by simpa using hc⟩ : Waits [] (c :: (waiting ++ read))) flag
    refine ⟨waiting ++ c :: more, ?_, hsame (hmore.same c)⟩
    rw [List.nil_append] at heq
    simp [heq, hwaits.reverse_eq]

/-- A character that is taken where none waits becomes a line feed if it is the last carriage
    return. -/
theorem take (h : Retells cs) {read : Lines} (hread : read.head? ≠ some '\r') (c : Char) :
    ∃ more, normalizeLines (read.take c cs.isEmpty) false cs = more.reverse ++ read ∧
      Retold (c :: cs.map (·.1)) more := by
  rw [take_of_head?_ne hread]
  split
  · next hlast =>
    obtain ⟨rfl, hempty⟩ := hlast
    obtain rfl := List.isEmpty_iff.mp hempty
    exact ⟨['\n'], rfl, Retold.nil.carriage⟩
  · exact h.push (.inl ⟨rfl, hread⟩ : Waits [] read) c false

end Retells

theorem retells (cs : List (Char × Bool)) : Retells cs := by
  induction cs with
  | nil =>
    intro waiting read hwaits flag
    refine ⟨waiting, by rw [normalizeLines, hwaits.reverse_eq], ?_⟩
    rcases hwaits with ⟨rfl, -⟩ | rfl
    · exact .nil
    · exact .same _ .nil
  | cons pair cs ih =>
    obtain ⟨c, referenced⟩ := pair
    intro waiting read hwaits flag
    -- A referenced character and the one after it stand as they are.
    cases referenced with
    | true => exact ih.push hwaits c true
    | false =>
      cases flag with
      | true => exact ih.push hwaits c false
      | false =>
        rw [normalizeLines]
        rcases hwaits with ⟨rfl, hread⟩ | rfl
        · exact ih.take hread c
        · rw [List.singleton_append, take_return]
          split
          · next hc =>
            subst hc
            obtain ⟨more, heq, hmore⟩ := ih (.inl ⟨rfl, by simp⟩ : Waits [] ('\n' :: read)) false
            refine ⟨'\n' :: more, ?_, hmore.both⟩
            rw [List.nil_append] at heq
            simp [heq]
          · have hhead : List.head? ('\n' :: read) ≠ some '\r' := by simp
            obtain ⟨more, heq, hmore⟩ := ih.take hhead c
            exact ⟨'\n' :: more, by simp [heq], hmore.carriage⟩

/-- A text that is read on its own tells its line breaks anew. -/
theorem retold_of_normalizeLines (cs : List (Char × Bool)) :
    Retold (cs.map (·.1)) (normalizeLines [] false cs).reverse := by
  obtain ⟨more, heq, hmore⟩ := retells cs (.inl ⟨rfl, by simp⟩ : Waits [] []) false
  rw [List.append_nil, List.append_nil] at heq
  rw [heq, List.reverse_reverse]
  exact hmore

/-! ## Texts and sections -/

/-- Where both readers know a reference, they take it for the same character. -/
theorem referent?_eq {name : List Char} {c c' : Char} (h : referent? name = some c)
    (h' : Markup.referent? name = some c') : c = c' := by
  unfold referent? at h
  unfold Markup.referent? at h'
  split at h
  · next hnumber =>
    rw [if_pos hnumber] at h'
    obtain ⟨n, hn, h⟩ := Option.bind_eq_some_iff.mp h
    obtain ⟨n', hn', h'⟩ := Option.bind_eq_some_iff.mp h'
    obtain rfl : n = n' := Option.some.inj (hn.symm.trans hn')
    split at h'
    · next hvalid =>
      simp only [if_pos hvalid.2] at h
      split at h
      · exact (Option.some.inj h).symm.trans (Option.some.inj h')
      · cases h
    · cases h'
  · next hentity =>
    rw [if_neg hentity] at h'
    exact Option.some.inj (h.symm.trans h')

theorem expand_eq {cs : List Char} {read read' : List (Char × Bool)}
    (h : expand referent? cs = some read) (h' : expand Markup.referent? cs = some read') :
    read = read' := by
  induction cs using expand.induct referent? generalizing read read' with
  | case1 =>
    rw [expand] at h h'
    exact Option.some.inj (h.symm.trans h')
  | case2 cs c tail hend hc ih =>
    rw [expand, if_pos rfl, hc, hend] at h
    rw [expand, if_pos rfl, hend] at h'
    cases hc' : Markup.referent? (cs.takeWhile isReferenceChar) with
    | none =>
      rw [hc'] at h'
      cases h'
    | some c' =>
      rw [hc'] at h'
      obtain ⟨more, hmore, rfl⟩ := Option.map_eq_some_iff.mp h
      obtain ⟨more', hmore', rfl⟩ := Option.map_eq_some_iff.mp h'
      rw [hend] at ih
      rw [ih hmore hmore', referent?_eq hc hc']
  | case3 cs hnone =>
    rw [expand, if_pos rfl] at h
    split at h
    · next c tail hc hend => exact (hnone c tail hc hend).elim
    · cases h
  | case4 c cs hc ih =>
    rw [expand, if_neg hc] at h h'
    obtain ⟨more, hmore, rfl⟩ := Option.map_eq_some_iff.mp h
    obtain ⟨more', hmore', rfl⟩ := Option.map_eq_some_iff.mp h'
    rw [ih hmore hmore']

/-- What characters between markup stand for, line breaks apart. -/
theorem retold_of_textOf? {raw content text : String} (h : textOf? raw.toList = some content)
    (hread : unescape raw = some text) : Retold text.toList content.toList := by
  unfold textOf? at h
  split at h
  · cases h
  · obtain ⟨read, hstrict, rfl⟩ := Option.map_eq_some_iff.mp h
    obtain ⟨read', hlenient, rfl⟩ := Option.map_eq_some_iff.mp hread
    obtain rfl := expand_eq hstrict hlenient
    rw [String.toList_ofList, String.toList_ofList]
    exact retold_of_normalizeLines read

theorem retold_of_cdataOf? {content text : String} (h : cdataOf? content.toList = some text) :
    Retold content.toList text.toList := by
  unfold cdataOf? at h
  split at h
  · cases h
  · obtain rfl := Option.some.inj h
    rw [String.toList_ofList]
    have hretold := retold_of_normalizeLines (content.toList.map fun c => (c, false))
    rwa [List.map_map, show ((·.1) ∘ fun c : Char => (c, false)) = id from rfl, List.map_id]
      at hretold

end Markup.Strict

end MavenPom
