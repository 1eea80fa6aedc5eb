import MavenPom.Proofs.Interpolation
import MavenPom.Proofs.Table
import Mathlib.Data.List.Perm.Subperm
import Mathlib.Logic.Function.Iterate
import Mathlib.Logic.Relation

/-!
# References that are followed to their end

A reference stands for the value of its property, in which all references are expanded in turn.
Interpolation works in rounds over the whole text instead. It expands the references that can be
followed to their end in the number of its rounds, and leaves those that nothing can be put in place
of as they are written.
-/

namespace MavenPom.Interpolation

variable {props : Properties} {text : String} {piece : Piece}

/-! ## Rounds -/

/-- A piece of a neat text. -/
def Piece.IsNeat : Piece → Prop
  | .plain c => c ≠ '$'
  | .reference name => name ≠ [] ∧ '\x7d' ∉ name

theorem isNeat_of_mem_pieces (htext : IsNeat text) (h : piece ∈ pieces text.toList) :
    piece.IsNeat := by
  cases piece with
  | plain c =>
    rintro rfl
    exact htext h
  | reference name => exact reference_of_mem_pieces h

theorem plain_not_mem {ps : List Piece} (h : ∀ p ∈ ps, p.IsNeat) : .plain '$' ∉ ps :=
  fun hmem => h _ hmem rfl

/-- A neat piece that is written is read as it was. -/
theorem Piece.IsNeat.pieces_spelling (h : piece.IsNeat) : pieces piece.spelling = [piece] := by
  cases piece with
  | plain c =>
    rw [spelling, pieces_cons h]
    simp [pieces]
  | reference name => exact Interpolation.pieces_spelling h.1 h.2

/-- All values of a table are neat. -/
def NeatValues (props : Properties) : Prop := ∀ pair ∈ props.entries, IsNeat pair.2

instance (props : Properties) : Decidable (NeatValues props) :=
  inferInstanceAs (Decidable (∀ pair ∈ props.entries, IsNeat pair.2))

/-- What one round puts in the place of a piece. -/
def Piece.next (props : Properties) (piece : Piece) : List Piece := pieces (piece.value props)

theorem Piece.next_of_value_eq (h : piece.IsNeat) (hvalue : piece.value props = piece.spelling) :
    piece.next props = [piece] := by
  rw [next, hvalue, h.pieces_spelling]

theorem Piece.IsNeat.of_mem_next (hprops : NeatValues props) (h : piece.IsNeat) {q : Piece}
    (hq : q ∈ piece.next props) : q.IsNeat := by
  cases piece with
  | plain c =>
    rw [next_of_value_eq h rfl, List.mem_singleton] at hq
    exact hq ▸ h
  | reference name =>
    cases hget : props.get? (String.ofList name) with
    | none =>
      rw [next_of_value_eq h (by rw [value, hget]), List.mem_singleton] at hq
      exact hq ▸ h
    | some v =>
      rw [next, value, hget] at hq
      exact isNeat_of_mem_pieces (hprops _ (Table.mem_entries_of_get? hget)) hq

theorem pieces_expandOnce (hprops : NeatValues props) (htext : IsNeat text) :
    pieces (expandOnce props text).toList = (pieces text.toList).flatMap (Piece.next props) := by
  rw [expandOnce, String.toList_ofList]
  refine pieces_flatMap fun p hp => plain_not_mem fun q hq => ?_
  exact (isNeat_of_mem_pieces htext hp).of_mem_next hprops hq

theorem isNeat_expandOnce (hprops : NeatValues props) (htext : IsNeat text) :
    IsNeat (expandOnce props text) := by
  rw [IsNeat, pieces_expandOnce hprops htext]
  refine plain_not_mem fun q hq => ?_
  obtain ⟨p, hp, hq⟩ := List.mem_flatMap.mp hq
  exact (isNeat_of_mem_pieces htext hp).of_mem_next hprops hq

/-- Rounds that change nothing may be left out. -/
theorem expandUpTo_eq_iterate (props : Properties) (rounds : Nat) (text : String) :
    expandUpTo props rounds text = Nat.iterate (expandOnce props) rounds text := by
  induction rounds generalizing text with
  | zero => rfl
  | succ rounds ih =>
    rw [expandUpTo, Function.iterate_succ_apply]
    split
    · next hsame => rw [hsame, Function.iterate_fixed hsame]
    · exact ih _

/-- What so many rounds put in the place of a piece. -/
def followed (props : Properties) : Nat → Piece → List Piece
  | 0, piece => [piece]
  | rounds + 1, piece => (piece.next props).flatMap (followed props rounds)

/-- Rounds work on each piece of a text apart from the others. -/
theorem pieces_iterate_expandOnce (hprops : NeatValues props) (rounds : Nat)
    (htext : IsNeat text) :
    pieces (Nat.iterate (expandOnce props) rounds text).toList =
      (pieces text.toList).flatMap (followed props rounds) := by
  induction rounds generalizing text with
  | zero =>
    rw [Function.iterate_zero_apply]
    exact (List.flatMap_singleton' _).symm
  | succ rounds ih =>
    rw [Function.iterate_succ_apply, ih (isNeat_expandOnce hprops htext),
      pieces_expandOnce hprops htext, List.flatMap_assoc]
    rfl

theorem pieces_interpolate (hprops : NeatValues props) (htext : IsNeat text) :
    pieces (interpolate props text).toList =
      (pieces text.toList).flatMap (followed props maxDepth) := by
  rw [interpolate, expandUpTo_eq_iterate, pieces_iterate_expandOnce hprops maxDepth htext]

/-! ## Expansion -/

/-- A piece that nothing can be put in place of: a character, or a reference to a name that has no
property, or one whose value is this reference. -/
def IsSettled (props : Properties) : Piece → Prop
  | .plain _ => True
  | .reference name =>
    ∀ value ∈ props.get? (String.ofList name), value.toList = (Piece.reference name).spelling

/-- What a piece stands for. A reference stands for what the value of its property stands for. -/
inductive Expands (props : Properties) : Piece → List Piece → Prop
  | settled {piece : Piece} (h : IsSettled props piece) : Expands props piece [piece]
  | value {name : List Char} {value : String} {f : Piece → List Piece}
    (hvalue : props.get? (String.ofList name) = some value)
    (h : ∀ q ∈ pieces value.toList, Expands props q (f q)) :
    Expands props (.reference name) ((pieces value.toList).flatMap f)

/-- A piece leads through so many properties at most, each named in the value of the one before. -/
def EndsWithin (props : Properties) : Nat → Piece → Prop
  | 0, piece => IsSettled props piece
  | depth + 1, piece => IsSettled props piece ∨ ∀ q ∈ piece.next props, EndsWithin props depth q

instance decidableIsSettled (props : Properties) : ∀ piece, Decidable (IsSettled props piece)
  | .plain _ => inferInstanceAs (Decidable True)
  | .reference _ => inferInstanceAs (Decidable (∀ value ∈ props.get? _, _))

instance decidableEndsWithin (props : Properties) :
    ∀ depth piece, Decidable (EndsWithin props depth piece)
  | 0, piece => decidableIsSettled props piece
  | depth + 1, piece =>
    have := decidableEndsWithin props depth
    inferInstanceAs (Decidable (IsSettled props piece ∨ ∀ q ∈ piece.next props, _))

theorem isSettled_of_get?_eq_none {name : List Char} (h : props.get? (String.ofList name) = none) :
    IsSettled props (.reference name) := by
  intro value hvalue
  rw [h] at hvalue
  cases hvalue

theorem Piece.next_reference {name : List Char} {v : String}
    (h : props.get? (String.ofList name) = some v) :
    (Piece.reference name).next props = pieces v.toList := by
  rw [next, value, h]

theorem isSettled_plain (c : Char) : IsSettled props (.plain c) := trivial

theorem IsSettled.value_eq (h : IsSettled props piece) : piece.value props = piece.spelling := by
  cases piece with
  | plain c => rfl
  | reference name =>
    cases hget : props.get? (String.ofList name) with
    | none => rw [Piece.value, hget]
    | some v =>
      rw [Piece.value, hget]
      exact h v hget

theorem IsSettled.followed_eq (h : IsSettled props piece) (hneat : piece.IsNeat) (rounds : Nat) :
    followed props rounds piece = [piece] := by
  induction rounds with
  | zero => rfl
  | succ rounds ih =>
    rw [followed, Piece.next_of_value_eq hneat h.value_eq, List.flatMap_singleton, ih]

theorem IsSettled.endsWithin (h : IsSettled props piece) (depth : Nat) :
    EndsWithin props depth piece := by
  cases depth with
  | zero => exact h
  | succ depth => exact .inl h

/-- Nothing can be put in place of what a piece stands for. -/
theorem Expands.isSettled {ps : List Piece} (h : Expands props piece ps) :
    ∀ q ∈ ps, IsSettled props q := by
  induction h with
  | settled h =>
    intro q hq
    exact List.mem_singleton.mp hq ▸ h
  | value hvalue h ih =>
    intro r hr
    obtain ⟨q, hq, hr⟩ := List.mem_flatMap.mp hr
    exact ih q hq r hr

/-- As many rounds as a piece leads through properties make it what it stands for. -/
theorem EndsWithin.expands (hprops : NeatValues props) {depth : Nat}
    (h : EndsWithin props depth piece) (hneat : piece.IsNeat) :
    Expands props piece (followed props depth piece) := by
  have hsettled : ∀ {piece : Piece}, IsSettled props piece → piece.IsNeat → ∀ depth,
      Expands props piece (followed props depth piece) := fun h hneat depth => by
    rw [h.followed_eq hneat]
    exact .settled h
  induction depth generalizing piece with
  | zero => exact hsettled h hneat 0
  | succ depth ih =>
    rcases h with h | h
    · exact hsettled h hneat _
    · cases piece with
      | plain c => exact hsettled (isSettled_plain c) hneat _
      | reference name =>
        cases hget : props.get? (String.ofList name) with
        | none => exact hsettled (isSettled_of_get?_eq_none hget) hneat _
        | some v =>
          have hnext := Piece.next_reference hget
          rw [followed, hnext]
          refine .value hget fun q hq => ?_
          rw [← hnext] at hq
          exact ih (h q hq) (hneat.of_mem_next hprops hq)

/-- Where nothing can be put in place of any piece, interpolation changes nothing. -/
theorem interpolate_of_isSettled (h : ∀ p ∈ pieces text.toList, IsSettled props p) :
    interpolate props text = text := by
  have honce : expandOnce props text = text := by
    rw [expandOnce, List.flatMap_congr fun p hp => (h p hp).value_eq, flatMap_spelling_pieces,
      String.ofList_toList]
  rw [interpolate, expandUpTo_eq_iterate, Function.iterate_fixed honce]

/-! ## Cycles -/

/-- The value of a property refers to another one. -/
def Refers (props : Properties) (name other : String) : Prop :=
  ∃ value ∈ props.get? name, Mentions value other

/-- From a name, references lead to one that they lead back to. -/
def LeadsToCycle (props : Properties) (name : String) : Prop :=
  ∃ other, Relation.ReflTransGen (Refers props) name other ∧
    Relation.TransGen (Refers props) other other

theorem LeadsToCycle.of_refers {name other : String} (h : Refers props name other)
    (hother : LeadsToCycle props other) : LeadsToCycle props name := by
  obtain ⟨last, hreach, hcycle⟩ := hother
  exact ⟨last, .head h hreach, hcycle⟩

theorem not_leadsToCycle_of_not_hasReference {name value : String}
    (hvalue : props.get? name = some value) (h : hasReference value = false) :
    ¬LeadsToCycle props name := by
  have hrefers : ∀ other, ¬Refers props name other := by
    rintro other ⟨v, hv, hmem⟩
    rw [hvalue, Option.mem_some_iff] at hv
    subst hv
    exact absurd h (by simpa [hasReference] using ⟨_, hmem, rfl⟩)
  rintro ⟨other, hreach, hcycle⟩
  rcases hreach.cases_head with rfl | ⟨next, hnext, -⟩
  · obtain ⟨next, hnext, -⟩ := Relation.TransGen.head'_iff.mp hcycle
    exact hrefers next hnext
  · exact hrefers next hnext

/-- A name from which references lead to no cycle passes through each property once at most. So
there are as many left to pass through as have not been seen on the way to it. -/
theorem endsWithin_of_seen {name : String} {seen : List String} {depth : Nat}
    (hnodup : seen.Nodup) (hseen : ∀ s ∈ seen, s ∈ props.entries.map (·.1) ∧
      Relation.TransGen (Refers props) s name)
    (hlength : props.entries.length ≤ depth + seen.length) (h : ¬LeadsToCycle props name) :
    EndsWithin props depth (.reference name.toList) := by
  have hbound : ∀ {name : String} {seen : List String}, seen.Nodup →
      (∀ s ∈ seen, s ∈ props.entries.map (·.1) ∧ Relation.TransGen (Refers props) s name) →
      ¬LeadsToCycle props name → ∀ value, props.get? name = some value →
      (name :: seen).Nodup ∧ seen.length < props.entries.length := by
    intro name seen hnodup hseen h value hvalue
    have hnew : (name :: seen).Nodup :=
      List.nodup_cons.mpr ⟨fun hmem => h ⟨name, .refl, (hseen name hmem).2⟩, hnodup⟩
    have hsub : name :: seen ⊆ props.entries.map (·.1) :=
      List.cons_subset.mpr ⟨Table.mem_keys_of_get? hvalue, fun s hs => (hseen s hs).1⟩
    have hle := (hnew.subperm hsub).length_le
    rw [List.length_cons, List.length_map] at hle
    exact ⟨hnew, hle⟩
  induction depth generalizing name seen with
  | zero =>
    cases hget : props.get? name with
    | none => exact isSettled_of_get?_eq_none (by rwa [String.ofList_toList])
    | some value =>
      obtain ⟨-, hlt⟩ := hbound hnodup hseen h value hget
      omega
  | succ depth ih =>
    cases hget : props.get? name with
    | none => exact .inl (isSettled_of_get?_eq_none (by rwa [String.ofList_toList]))
    | some value =>
      obtain ⟨hnew, hlt⟩ := hbound hnodup hseen h value hget
      refine .inr fun q hq => ?_
      rw [Piece.next_reference (by rwa [String.ofList_toList])] at hq
      cases q with
      | plain c => exact (isSettled_plain c).endsWithin depth
      | reference other =>
        have hrefers : Refers props name (String.ofList other) := by
          refine ⟨value, hget, ?_⟩
          rwa [Mentions, String.toList_ofList]
        rw [← String.toList_ofList (l := other)]
        refine ih hnew (fun s hs => ?_) ?_ fun hcycle => h (.of_refers hrefers hcycle)
        · rcases List.mem_cons.mp hs with rfl | hs
          · exact ⟨Table.mem_keys_of_get? hget, .single hrefers⟩
          · exact ⟨(hseen s hs).1, (hseen s hs).2.tail hrefers⟩
        · rw [List.length_cons]
          omega

/-! ## What interpolation makes of a text -/

/-- Where dollar signs stand only before references, in a text as in the values of the properties,
    interpolation works on each piece of the text by itself. It leaves a reference that nothing can
    be put in place of as it is written. It makes a piece that leads through sixteen properties at
    most what this piece stands for. A text of such pieces does not change any more after that. In a
    table of no more properties, a name leads through sixteen at most unless it leads to a cycle. -/
theorem interpolate_expands (hprops : NeatValues props) (htext : IsNeat text) :
    (∃ f : Piece → List Piece,
      pieces (interpolate props text).toList = (pieces text.toList).flatMap f ∧
      (∀ p ∈ pieces text.toList, IsSettled props p → f p = [p]) ∧
      ∀ p ∈ pieces text.toList, EndsWithin props maxDepth p →
        Expands props p (f p) ∧ ∀ q ∈ f p, IsSettled props q) ∧
    ((∀ p ∈ pieces text.toList, EndsWithin props maxDepth p) →
      (∀ q ∈ pieces (interpolate props text).toList, IsSettled props q) ∧
      interpolate props (interpolate props text) = interpolate props text) ∧
    (props.entries.length ≤ maxDepth → ∀ name, ¬LeadsToCycle props name →
      EndsWithin props maxDepth (.reference name.toList)) := by
  have hpieces := pieces_interpolate hprops htext
  have hneat : ∀ p ∈ pieces text.toList, p.IsNeat := fun p => isNeat_of_mem_pieces htext
  have hexpands : ∀ p ∈ pieces text.toList, EndsWithin props maxDepth p →
      Expands props p (followed props maxDepth p) := fun p hp h => h.expands hprops (hneat p hp)
  refine ⟨⟨_, hpieces, fun p hp h => h.followed_eq (hneat p hp) maxDepth, fun p hp h => ?_⟩,
    fun hall => ?_, fun hlength name => ?_⟩
  · exact ⟨hexpands p hp h, (hexpands p hp h).isSettled⟩
  · have hsettled : ∀ q ∈ pieces (interpolate props text).toList, IsSettled props q := by
      intro q hq
      rw [hpieces] at hq
      obtain ⟨p, hp, hq⟩ := List.mem_flatMap.mp hq
      exact (hexpands p hp (hall p hp)).isSettled q hq
    exact ⟨hsettled, interpolate_of_isSettled hsettled⟩
  · exact endsWithin_of_seen List.nodup_nil (fun _ hs => nomatch hs) (by simpa using hlength)

/-- Two properties one behind the other, and a name that stands for itself. -/
def followable : Properties :=
  .ofList [("a", "v" ++ VersionSlot.reference "b"), ("b", "1.0"),
    ("loop", VersionSlot.reference "loop")]

/-- A text with a known name, an unknown one and one that stands for itself. -/
def followableText : String :=
  VersionSlot.reference "a" ++ VersionSlot.reference "none" ++ VersionSlot.reference "loop"

theorem interpolate_followable :
    NeatValues followable ∧ IsNeat followableText ∧
      interpolate followable (interpolate followable followableText) =
        interpolate followable followableText :=
  ⟨by decide +kernel, by decide +kernel, ((interpolate_expands (by decide +kernel)
    (by decide +kernel)).2.1 (by decide +kernel)).2⟩

/-- Seventeen properties one behind the other, and one whose value refers to it. -/
def unfollowable : Properties :=
  .ofList (("abcdefghijklmnop".toList.zip "bcdefghijklmnopq".toList).map (fun (c, d) =>
    (c.toString, VersionSlot.reference d.toString)) ++
      [("q", "x"), ("loop", "x" ++ VersionSlot.reference "loop")])

def unfollowableText : String := VersionSlot.reference "a" ++ VersionSlot.reference "loop"

/-- A reference to a property that leads to no cycle is left over where too many properties stand
before it. One to a property that refers to itself is not left as it is written, and interpolating
again makes something else. -/
theorem interpolate_unfollowable :
    NeatValues unfollowable ∧ IsNeat unfollowableText ∧
      (unfollowable.get? "q" = some "x" ∧ ¬LeadsToCycle unfollowable "q" ∧
        Mentions (interpolate unfollowable unfollowableText) "q") ∧
      (Refers unfollowable "loop" "loop" ∧ interpolate unfollowable (VersionSlot.reference "loop") ≠
        VersionSlot.reference "loop") ∧
      interpolate unfollowable (interpolate unfollowable unfollowableText) ≠
        interpolate unfollowable unfollowableText := by
  have hq : unfollowable.get? "q" = some "x" := by decide +kernel
  refine ⟨by decide +kernel, by decide +kernel, ⟨hq, ?_, by decide +kernel⟩,
    ⟨?_, by decide +kernel⟩,
    by decide +kernel⟩
  · exact not_leadsToCycle_of_not_hasReference hq (by decide +kernel)
  · exact ⟨"x" ++ VersionSlot.reference "loop", by decide +kernel, by decide +kernel⟩

end MavenPom.Interpolation
