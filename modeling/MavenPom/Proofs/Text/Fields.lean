import MavenPom.Proofs.Text.Trim
import MavenPom.Text.Cut

/-!
# Parts, lines and words

Splitting a text at a character: what the parts have, and how the parts of two texts make those of
both together. A text that lines have been put together to, each with its end, is read line by line
again. What stands before the first blank of a text is its first word.
-/

namespace MavenPom.Text

/-! ## Parts between marks -/

theorem fields_append (c : Char) (front back : String) :
    fields c (front ++ String.singleton c ++ back) = fields c front ++ fields c back := by
  simp [fields, List.splitOn_append_cons_self]

theorem fields_eq_singleton {c : Char} {s : String} (h : c ∉ s.toList) : fields c s = [s] := by
  simp [fields, List.splitOn_eq_singleton h]

theorem not_mem_of_mem_fields {c : Char} {s part : String} (h : part ∈ fields c s) :
    c ∉ part.toList := by
  obtain ⟨cs, hcs, rfl⟩ := List.mem_map.mp h
  simpa using not_mem_of_mem_splitOn hcs

/-- A part of a text on both sides of a letter is a part of one side, or has the letter between the
    end of a part and the start of the first part after it. -/
theorem splitOn_append_cons {c d : Char} (hne : d ≠ c) (front back : List Char) :
    ∃ parts last first rest, front.splitOn c = parts ++ [last] ∧ back.splitOn c = first :: rest ∧
      (front ++ d :: back).splitOn c = parts ++ (last ++ d :: first) :: rest := by
  obtain ⟨first, rest, hback⟩ := List.exists_cons_of_ne_nil (List.splitOn_ne_nil c back)
  induction front with
  | nil =>
    refine ⟨[], [], first, rest, by simp, hback, ?_⟩
    rw [List.nil_append, List.splitOn_cons_eq_if_modifyHead, if_neg (by simpa using hne), hback]
    simp
  | cons x front ih =>
    obtain ⟨parts, last, first', rest', hfront, hback', hwhole⟩ := ih
    obtain ⟨rfl, rfl⟩ := List.cons.inj (hback.symm.trans hback')
    by_cases hx : x = c
    · refine ⟨[] :: parts, last, first, rest, ?_, hback, ?_⟩
      · simp [List.splitOn_cons_eq_if_modifyHead, hx, hfront]
      · simp [List.splitOn_cons_eq_if_modifyHead, hx, hwhole]
    · rw [List.cons_append, List.splitOn_cons_eq_if_modifyHead,
        List.splitOn_cons_eq_if_modifyHead, if_neg (by simpa using hx),
        if_neg (by simpa using hx), hfront, hwhole]
      cases parts with
      | nil => exact ⟨[], x :: last, first, rest, rfl, hback, rfl⟩
      | cons part parts => exact ⟨(x :: part) :: parts, last, first, rest, rfl, hback, rfl⟩

/-- A character of parts with marks between them is a mark or in a part. -/
theorem eq_or_mem_of_mem_intercalate {c d : Char} {parts : List (List Char)}
    (h : d ∈ [c].intercalate parts) : d = c ∨ ∃ part ∈ parts, d ∈ part := by
  induction parts with
  | nil => simp at h
  | cons part parts ih =>
    cases parts with
    | nil => exact .inr ⟨part, List.mem_singleton_self _, by simpa using h⟩
    | cons next parts =>
      rw [List.intercalate_cons_cons, List.mem_append, List.mem_append, List.mem_singleton] at h
      rcases h with (h | h) | h
      · exact .inr ⟨part, List.mem_cons_self, h⟩
      · exact .inl h
      · exact (ih h).imp_right fun ⟨p, hp, hd⟩ => ⟨p, List.mem_cons_of_mem _ hp, hd⟩
/-- What ends in another letter than the mark has a last part that is not empty. -/
theorem exists_fields_concat {c d : Char} (hne : d ≠ c) {s : String} {front : List Char}
    (h : s.toList = front ++ [d]) : ∃ parts name, fields c s = parts ++ [name] ∧ name ≠ "" := by
  obtain ⟨parts, last, first, rest, -, hback, hwhole⟩ := splitOn_append_cons hne front []
  obtain ⟨rfl, rfl⟩ : first = [] ∧ rest = [] := by simpa using hback.symm
  refine ⟨parts.map String.ofList, String.ofList (last ++ [d]), ?_, ?_⟩
  · rw [fields, h, hwhole, List.map_append]
    rfl
  · intro hempty
    have htoList := congrArg String.toList hempty
    simp at htoList

theorem mem_splitOn_append_cons {c d : Char} (hne : d ≠ c) {front back part : List Char}
    (h : part ∈ (front ++ d :: back).splitOn c) :
    part ∈ front.splitOn c ∨ part ∈ back.splitOn c ∨
      ∃ last first, first ∈ back.splitOn c ∧ part = last ++ d :: first := by
  obtain ⟨parts, last, first, rest, hfront, hback, hwhole⟩ := splitOn_append_cons hne front back
  rw [hwhole, List.mem_append, List.mem_cons] at h
  rw [hfront, hback]
  rcases h with h | rfl | h
  · exact .inl (List.mem_append_left _ h)
  · exact .inr (.inr ⟨last, first, List.mem_cons_self .., rfl⟩)
  · exact .inr (.inl (List.mem_cons_of_mem _ h))

theorem mem_of_mem_splitOn {c d : Char} {cs part : List Char} (h : part ∈ cs.splitOn c)
    (hd : d ∈ part) : d ∈ cs := by
  induction cs generalizing part with
  | nil =>
    obtain rfl : part = [] := by simpa using h
    cases hd
  | cons e cs ih =>
    rw [List.splitOn_cons_eq_if_modifyHead] at h
    split at h
    · rcases List.mem_cons.mp h with rfl | h
      · cases hd
      · exact .tail _ (ih h hd)
    · obtain ⟨first, rest, hsplit⟩ := List.exists_cons_of_ne_nil (List.splitOn_ne_nil c cs)
      rw [hsplit, List.modifyHead_cons] at h
      rw [hsplit] at ih
      rcases List.mem_cons.mp h with rfl | h
      · rcases List.mem_cons.mp hd with rfl | hd
        · exact .head _
        · exact .tail _ (ih (.head _) hd)
      · exact .tail _ (ih (.tail _ h) hd)

/-! ## Lines -/

/-- What a line may end with. -/
inductive LineEnd where
  | feed
  | returnFeed
  deriving DecidableEq, Repr

def LineEnd.chars : LineEnd → List Char
  | feed => ['\n']
  | returnFeed => ['\r', '\n']

/-- Lines put together, each with its end. -/
def joinLines (e : LineEnd) (ls : List (List Char)) : List Char := ls.flatMap (· ++ e.chars)

theorem dropReturn_append (line : List Char) : dropReturn (line ++ ['\r']) = line := by
  simp [dropReturn]

theorem dropReturn_eq (line : List Char) :
    dropReturn line = line ∨ line = dropReturn line ++ ['\r'] := by
  unfold dropReturn
  split
  · next hlast =>
    obtain ⟨front, rfl⟩ := List.getLast?_eq_some_iff.mp hlast
    exact .inr (by rw [List.dropLast_concat])
  · exact .inl rfl

/-- A line is read up to its end. -/
theorem lines_cons {line : List Char} (h : '\n' ∉ line) (rest : List Char) :
    lines (String.ofList (line ++ '\n' :: rest)) =
      dropReturn line :: lines (String.ofList rest) := by
  obtain ⟨part, parts, hparts⟩ := List.exists_cons_of_ne_nil (List.splitOn_ne_nil '\n' rest)
  rw [lines, lines, String.toList_ofList, String.toList_ofList,
    List.splitOn_append_cons_self_of_not_mem h, hparts]
  rfl

/-- Lines that have been put together are read one by one, but for a carriage return that one ended
with itself. -/
theorem map_lines_joinLines {α : Type} {f : List Char → α}
    (hf : ∀ line, f (line ++ ['\r']) = f line) (e : LineEnd) {ls : List (List Char)}
    (hls : ∀ line ∈ ls, '\n' ∉ line) (rest : List Char) :
    (lines (String.ofList (joinLines e ls ++ rest))).map f =
      ls.map f ++ (lines (String.ofList rest)).map f := by
  have hdrop : ∀ line, f (dropReturn line) = f line := by
    intro line
    rcases dropReturn_eq line with heq | heq
    · rw [heq]
    · rw [← hf (dropReturn line), ← heq]
  induction ls with
  | nil => rfl
  | cons line ls ih =>
    obtain ⟨hline, hls⟩ := List.forall_mem_cons.mp hls
    have hfirst : ∃ line', '\n' ∉ line' ∧ f (dropReturn line') = f line ∧
        joinLines e (line :: ls) ++ rest = line' ++ '\n' :: (joinLines e ls ++ rest) := by
      cases e with
      | feed => exact ⟨line, hline, hdrop line, by simp [joinLines, LineEnd.chars]⟩
      | returnFeed =>
        refine ⟨line ++ ['\r'], by simp [hline], ?_, by simp [joinLines, LineEnd.chars]⟩
        rw [dropReturn_append]
    obtain ⟨line', hline', heq, htext⟩ := hfirst
    rw [htext, lines_cons hline', List.map_cons, List.map_cons, heq, ih hls, List.cons_append]

/-! ## Words and marks -/

/-- A word is read up to the blank behind it. -/
theorem head?_words {word rest : List Char} (hne : word ≠ [])
    (hword : ∀ c ∈ word, isBlank c = false) (hrest : ∀ c ∈ rest.head?, isBlank c = true) :
    (words (String.ofList (word ++ rest))).head? = some (String.ofList word) := by
  rw [words, String.toList_ofList]
  cases rest with
  | nil => simp [List.splitOnP_eq_singleton hword, hne]
  | cons c rest =>
    rw [List.splitOnP_append_cons_of_forall_mem hword c (hrest c rfl)]
    simp [hne]

/-- A text in which a character does not occur has no mark that is written with it. -/
theorem contains_eq_false {mark : String} {c : Char} {cs : List Char} (hmark : c ∈ mark.toList)
    (hcs : c ∉ cs) : contains mark cs = false := by
  rw [contains, Option.isSome_eq_false_iff, Option.isNone_iff_eq_none]
  refine Option.eq_none_iff_forall_ne_some.mpr fun (before, after) hcut => hcs ?_
  rw [eq_of_cut? hcut]
  simp [hmark]

theorem contains_append (mark : String) (front back : List Char) :
    contains mark (front ++ (mark.toList ++ back)) = true := by
  have hstrip : strip? mark.toList (mark.toList ++ back) = some back := strip?_eq_some_iff.mpr rfl
  rw [contains]
  induction front with
  | nil =>
    rw [List.nil_append]
    generalize hcs : mark.toList ++ back = cs at hstrip
    cases cs with
    | nil =>
      obtain ⟨hmark, -⟩ := List.append_eq_nil_iff.mp hcs
      simp [cut?, hmark, strip?]
    | cons c cs => simp [cut?, hstrip]
  | cons c front ih =>
    rw [List.cons_append, cut?]
    split
    · rfl
    · rwa [Option.isSome_map]

/-- What follows a front does not decide whether the text begins with it, where it ends in another
character. -/
theorem strip?_append_singleton {front : List Char} {c : Char} (h : front.getLast? ≠ some c)
    (cs : List Char) : strip? front (cs ++ [c]) = (strip? front cs).map (· ++ [c]) := by
  induction front generalizing cs with
  | nil => rfl
  | cons d front ih =>
    cases cs with
    | nil =>
      cases front with
      | nil =>
        have hne : d ≠ c := by simpa using h
        simp [strip?, hne]
      | cons => simp [strip?]
    | cons e cs =>
      have htail : front.getLast? ≠ some c := by
        cases front with
        | nil => simp
        | cons => simpa using h
      rw [List.cons_append, strip?, strip?, ih htail]
      split <;> rfl

theorem dropEndWhile_append_singleton {p : Char → Bool} {c : Char} (h : p c = true)
    (cs : List Char) : dropEndWhile p (cs ++ [c]) = dropEndWhile p cs := by
  simp [dropEndWhile, h]

end MavenPom.Text
