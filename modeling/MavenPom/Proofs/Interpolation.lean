import MavenPom.Edit.VersionSlot
import MavenPom.Interpolation
import Mathlib.Data.List.Basic
import Mathlib.Data.List.TakeWhile

/-!
# Laws of interpolation

Texts are made of their pieces. Without references they stay as they are, and a reference to a
property without references in its value is replaced by that value.
-/

namespace MavenPom

namespace Interpolation

variable {props : Properties} {text : String} {cs name rest : List Char}

theorem reference?_eq_some (h : reference? cs = some (name, rest)) :
    cs = '\x7b' :: name ++ '\x7d' :: rest ∧ name ≠ [] ∧ '\x7d' ∉ name := by
  unfold reference? at h
  split at h
  · next cs =>
    simp only at h
    split at h
    · next c after hdrop =>
      split at h
      · cases h
      · next hempty =>
        obtain ⟨rfl, rfl⟩ := Prod.mk.inj (Option.some.inj h)
        have hc : c = '\x7d' := by
          have hhead := List.head?_dropWhile_not (· != '\x7d') cs
          rw [hdrop] at hhead
          simpa using hhead
        subst hc
        refine ⟨?_, by simpa using hempty, fun hmem => ?_⟩
        · rw [List.cons_append, ← hdrop, List.takeWhile_append_dropWhile]
        · have hne := List.mem_takeWhile_imp hmem
          simp at hne
    · cases h
  · cases h

theorem reference?_append (hname : name ≠ []) (hbrace : '\x7d' ∉ name) (rest : List Char) :
    reference? ('\x7b' :: name ++ '\x7d' :: rest) = some (name, rest) := by
  have hall : ∀ c ∈ name, (c != '\x7d') = true := fun c hc => by
    simp only [bne_iff_ne]
    exact fun heq => hbrace (heq ▸ hc)
  have htake : (name ++ '\x7d' :: rest).takeWhile (· != '\x7d') = name := by
    rw [List.takeWhile_append_of_pos hall]
    simp
  have hdrop : (name ++ '\x7d' :: rest).dropWhile (· != '\x7d') = '\x7d' :: rest := by
    rw [List.dropWhile_append_of_pos hall]
    simp
  simp only [reference?, List.cons_append, htake, hdrop]
  simp [hname]

theorem pieces_reference (h : reference? cs = some (name, rest)) :
    pieces ('$' :: cs) = .reference name :: pieces rest := by
  rw [pieces, if_pos rfl]
  split
  · next name' rest' h' =>
    obtain ⟨rfl, rfl⟩ := Prod.mk.inj (Option.some.inj (h.symm.trans h'))
    rfl
  · next h' => cases h.symm.trans h'

theorem pieces_dollar (h : reference? cs = none) :
    pieces ('$' :: cs) = .plain '$' :: pieces cs := by
  rw [pieces, if_pos rfl]
  split
  · next h' => cases h.symm.trans h'
  · rfl

theorem pieces_cons {c : Char} (h : c ≠ '$') (cs : List Char) :
    pieces (c :: cs) = .plain c :: pieces cs := by
  rw [pieces, if_neg h]

/-- A text is spelled by its pieces. -/
theorem flatMap_spelling_pieces (cs : List Char) : (pieces cs).flatMap Piece.spelling = cs := by
  induction cs using pieces.induct with
  | case1 => simp [pieces]
  | case2 cs name rest h ih =>
    rw [pieces_reference h, List.flatMap_cons, ih, (reference?_eq_some h).1]
    simp [Piece.spelling]
  | case3 cs h ih =>
    rw [pieces_dollar h, List.flatMap_cons, ih]
    rfl
  | case4 c cs hc ih =>
    rw [pieces_cons hc, List.flatMap_cons, ih]
    rfl

/-! ## Texts without references -/

theorem expandOnce_of_not_hasReference (h : hasReference text = false) :
    expandOnce props text = text := by
  have hplain : ∀ piece ∈ pieces text.toList, piece.value props = piece.spelling := by
    intro piece hpiece
    cases piece with
    | plain c => rfl
    | reference name => exact absurd h (by simpa [hasReference] using ⟨_, hpiece, rfl⟩)
  rw [expandOnce, List.flatMap_congr hplain, flatMap_spelling_pieces, String.ofList_toList]

theorem expandUpTo_of_not_hasReference (h : hasReference text = false) (rounds : Nat) :
    expandUpTo props rounds text = text := by
  cases rounds with
  | zero => rfl
  | succ rounds => simp [expandUpTo, expandOnce_of_not_hasReference h]

/-- Where nothing opens a reference, there is none. -/
theorem hasReference_of_not_opensReference (h : Pom.opensReference text = false) :
    hasReference text = false := by
  have hopens : ∀ cs name, .reference name ∈ pieces cs →
      (Text.cut? "$\x7b".toList cs).isSome = true := by
    intro cs name hmem
    induction cs using pieces.induct with
    | case1 => simp [pieces] at hmem
    | case2 cs name' rest href ih =>
      rw [(reference?_eq_some href).1]
      simp [Text.cut?, Text.strip?]
    | case3 cs href ih =>
      rw [pieces_dollar href] at hmem
      rw [Text.cut?]
      split
      · rfl
      · rw [Option.isSome_map]
        exact ih (by simpa using hmem)
    | case4 c cs hc ih =>
      rw [pieces_cons hc] at hmem
      rw [Text.cut?]
      split
      · rfl
      · rw [Option.isSome_map]
        exact ih (by simpa using hmem)
  refine Bool.eq_false_iff.mpr fun hhas => ?_
  obtain ⟨piece, hmem, hpiece⟩ := List.any_eq_true.mp hhas
  cases piece with
  | plain c => cases hpiece
  | reference name =>
    rw [Pom.opensReference, hopens _ name hmem] at h
    cases h

/-- A text is read alike by tables with the same values. -/
theorem interpolate_eq {props' : Properties} (h : ∀ name, props'.get? name = props.get? name) :
    interpolate props' = interpolate props := by
  have honce : expandOnce props' = expandOnce props := by
    funext text
    rw [expandOnce, expandOnce]
    refine congrArg _ (List.flatMap_congr fun piece _ => ?_)
    cases piece with
    | plain c => rfl
    | reference name => rw [Piece.value, Piece.value, h]
  have hrounds : ∀ rounds, expandUpTo props' rounds = expandUpTo props rounds := by
    intro rounds
    induction rounds with
    | zero => rfl
    | succ rounds ih =>
      funext text
      rw [expandUpTo, expandUpTo, honce, ih]
  exact hrounds maxDepth

/-! ## Texts that do not refer to a property -/

/-- The text refers to a property. -/
def Mentions (text name : String) : Prop := .reference name.toList ∈ pieces text.toList

/-- A dollar sign stands in the text only where a reference begins. -/
def IsNeat (text : String) : Prop := .plain '$' ∉ pieces text.toList

instance (text name : String) : Decidable (Mentions text name) :=
  inferInstanceAs (Decidable (_ ∈ _))

instance (text : String) : Decidable (IsNeat text) := inferInstanceAs (Decidable (¬_ ∈ _))

/-- A text that is put behind a neat one makes no new references. -/
theorem pieces_append {front : List Char} (h : .plain '$' ∉ pieces front) (back : List Char) :
    pieces (front ++ back) = pieces front ++ pieces back := by
  induction front using pieces.induct with
  | case1 => simp [pieces]
  | case2 cs name rest href ih =>
    rw [pieces_reference href] at h ⊢
    obtain ⟨rfl, hname, hbrace⟩ := reference?_eq_some href
    have hmore : reference? ('\x7b' :: name ++ '\x7d' :: rest ++ back) =
        some (name, rest ++ back) := by
      rw [List.append_assoc]
      exact reference?_append hname hbrace (rest ++ back)
    rw [List.cons_append, pieces_reference hmore, ih fun hmem => h (List.mem_cons_of_mem _ hmem),
      List.cons_append]
  | case3 cs href ih =>
    rw [pieces_dollar href] at h
    exact absurd (List.mem_cons_self ..) h
  | case4 c cs hc ih =>
    rw [pieces_cons hc] at h ⊢
    rw [List.cons_append, pieces_cons hc, ih fun hmem => h (List.mem_cons_of_mem _ hmem),
      List.cons_append]

/-- Neat texts in a row are made of the pieces of each. -/
theorem pieces_flatMap {f : Piece → List Char} {ps : List Piece}
    (h : ∀ p ∈ ps, .plain '$' ∉ pieces (f p)) :
    pieces (ps.flatMap f) = ps.flatMap fun p => pieces (f p) := by
  induction ps with
  | nil => simp [pieces]
  | cons p ps ih =>
    obtain ⟨hp, hps⟩ := List.forall_mem_cons.mp h
    rw [List.flatMap_cons, List.flatMap_cons, pieces_append hp, ih hps]

theorem pieces_spelling {name : List Char} (hname : name ≠ []) (hbrace : '\x7d' ∉ name) :
    pieces (Piece.reference name).spelling = [.reference name] := by
  have hspelling : (Piece.reference name).spelling = '$' :: ('\x7b' :: name ++ '\x7d' :: []) := rfl
  rw [hspelling, pieces_reference (reference?_append hname hbrace [])]
  simp [pieces]

theorem reference_of_mem_pieces {name : List Char} (h : .reference name ∈ pieces cs) :
    name ≠ [] ∧ '\x7d' ∉ name := by
  induction cs using pieces.induct with
  | case1 => simp [pieces] at h
  | case2 cs name' rest href ih =>
    rw [pieces_reference href] at h
    rcases List.mem_cons.mp h with heq | h
    · cases heq
      exact (reference?_eq_some href).2
    · exact ih h
  | case3 cs href ih =>
    rw [pieces_dollar href] at h
    exact ih (by simpa using h)
  | case4 c cs hc ih =>
    rw [pieces_cons hc] at h
    exact ih (by simpa using h)

/-- What a property is not needed for: its text is neat and does not refer to it. -/
def Avoids (text name : String) : Prop := IsNeat text ∧ ¬Mentions text name

instance (text name : String) : Decidable (Avoids text name) :=
  inferInstanceAs (Decidable (_ ∧ _))

section Congruence

variable {props' : Properties}

/-- The values of all properties but one avoid that one, and both tables have them alike. -/
structure AgreeBut (name : String) (props props' : Properties) : Prop where
  get? : ∀ other, other ≠ name → props'.get? other = props.get? other
  avoids : ∀ other, other ≠ name → ∀ value, props.get? other = some value → Avoids value name

variable {name : String} (hagree : AgreeBut name props props')

include hagree

theorem value_congr {piece : Piece} (h : piece ≠ .reference name.toList) :
    piece.value props' = piece.value props := by
  cases piece with
  | plain c => rfl
  | reference other =>
    have hne : String.ofList other ≠ name := fun heq => h (by rw [← heq, String.toList_ofList])
    rw [Piece.value, Piece.value, hagree.get? _ hne]

theorem avoids_value {piece : Piece} (hmem : piece ∈ pieces text.toList) (h : Avoids text name) :
    .plain '$' ∉ pieces (piece.value props) ∧
      .reference name.toList ∉ pieces (piece.value props) := by
  cases piece with
  | plain c =>
    have hc : c ≠ '$' := fun heq => h.1 (heq ▸ hmem)
    rw [Piece.value, pieces_cons hc]
    simpa [pieces] using hc.symm
  | reference other =>
    have hne : String.ofList other ≠ name := fun heq => h.2 (by
      rw [Mentions, ← heq, String.toList_ofList]
      exact hmem)
    rw [Piece.value]
    split
    · next value hvalue => exact hagree.avoids _ hne value hvalue
    · obtain ⟨hnil, hbrace⟩ := reference_of_mem_pieces hmem
      rw [pieces_spelling hnil hbrace]
      refine ⟨by simp, fun hname => hne ?_⟩
      rw [← Piece.reference.inj (List.mem_singleton.mp hname), String.ofList_toList]

/-- Replacing the references of a text that avoids a property leaves one that does. -/
theorem avoids_expandOnce (h : Avoids text name) :
    expandOnce props' text = expandOnce props text ∧ Avoids (expandOnce props text) name := by
  have hexpand : pieces (expandOnce props text).toList =
      (pieces text.toList).flatMap fun piece => pieces (piece.value props) := by
    rw [expandOnce, String.toList_ofList]
    exact pieces_flatMap fun piece hmem => (avoids_value hagree hmem h).1
  refine ⟨?_, fun hmem => ?_, fun hmem => ?_⟩
  · rw [expandOnce, expandOnce, List.flatMap_congr fun piece hmem => value_congr hagree
      fun heq => h.2 (by rw [Mentions, ← heq]; exact hmem)]
  · rw [hexpand] at hmem
    obtain ⟨piece, hpiece, hmem⟩ := List.mem_flatMap.mp hmem
    exact (avoids_value hagree hpiece h).1 hmem
  · rw [Mentions, hexpand] at hmem
    obtain ⟨piece, hpiece, hmem⟩ := List.mem_flatMap.mp hmem
    exact (avoids_value hagree hpiece h).2 hmem

/-- A text that avoids a property does not depend on its value. -/
theorem interpolate_congr (h : Avoids text name) :
    interpolate props' text = interpolate props text := by
  have hrounds : ∀ (rounds : Nat) (text : String), Avoids text name →
      expandUpTo props' rounds text = expandUpTo props rounds text := by
    intro rounds
    induction rounds with
    | zero => exact fun _ _ => rfl
    | succ rounds ih =>
      intro text h
      obtain ⟨hsame, hnext⟩ := avoids_expandOnce hagree h
      rw [expandUpTo, expandUpTo, hsame, ih _ hnext]
  exact hrounds maxDepth text h

end Congruence

end Interpolation

open Interpolation VersionSlot

variable {props : Properties} {name value text : String}

theorem interpolate_of_not_hasReference (h : hasReference text = false) :
    interpolate props text = text :=
  expandUpTo_of_not_hasReference h _

/-- A name that a reference can be made of. -/
def IsReferable (name : String) : Prop := name ≠ "" ∧ '\x7d' ∉ name.toList

/-- A reference to a property is replaced by its value. -/
theorem interpolate_reference (hname : IsReferable name) (hvalue : props.get? name = some value)
    (h : hasReference value = false) : interpolate props (reference name) = value := by
  have hlist : (reference name).toList = '$' :: ('\x7b' :: name.toList ++ ['\x7d']) := by
    simp [reference, String.toList_append]
  have hpieces : pieces (reference name).toList = [.reference name.toList] := by
    rw [hlist, pieces_reference (reference?_append (by simpa using hname.1) hname.2 [])]
    simp [pieces]
  have honce : expandOnce props (reference name) = value := by
    rw [expandOnce, hpieces, List.flatMap_singleton, Piece.value, String.ofList_toList, hvalue]
    exact String.ofList_toList
  rw [interpolate, maxDepth, expandUpTo, honce]
  split
  · next heq => exact heq.symm
  · exact expandUpTo_of_not_hasReference h _

end MavenPom
