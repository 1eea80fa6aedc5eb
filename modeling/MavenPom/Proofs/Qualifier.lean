import MavenPom.Proofs.Version
import Mathlib.Data.Prod.Lex

/-!
# The order of qualifiers

Of versions with the same numbers, the qualifiers decide as Maven orders them: alpha, beta,
milestone, rc, snapshot and then the release, each of these but the last perhaps with a number. How
they are spelled does not matter.
-/

namespace MavenPom.Version

/-- A run of separators. -/
def IsGap (cs : List Char) : Prop := ∀ c ∈ cs, isSeparator c = true

instance (cs : List Char) : Decidable (IsGap cs) :=
  decidable_of_iff (cs.all isSeparator = true) List.all_eq_true

/-- What follows a label is a number or none, perhaps after separators. -/
inductive Counts : List Char → Option Nat → Prop
  | missing {gap : List Char} (hgap : IsGap gap) : Counts gap none
  | number {gap digits : List Char} {n : Nat} (hgap : IsGap gap)
    (h : Text.word64? digits = some n) :
    Counts (gap ++ digits) (some n)

/-- A qualifier that spells a stage with its number, or the release. Labels are written in any
    letter case. -/
inductive Spells : List Char → Option Prerelease → Prop
  | release {gap marker : List Char} (hgap : IsGap gap)
    (h : String.ofList (marker.map Char.toLower) ∈ ["", "ga", "final", "release"]) :
    Spells (gap ++ marker) none
  | stage {gap label count : List Char} {stage : Stage} {number : Option Nat} (hgap : IsGap gap)
    (h : (String.ofList (label.map Char.toLower), stage) ∈ Stage.spellings)
    (hcount : Counts count number) :
    Spells (gap ++ (label ++ count)) (some ⟨stage, number⟩)

theorem isSeparator_iff {c : Char} : isSeparator c = true ↔ c = '-' ∨ c = '.' ∨ c = '_' := by
  simp [isSeparator, or_assoc]

theorem isLower_iff {c : Char} : c.isLower = true ↔ 97 ≤ c.toNat ∧ c.toNat ≤ 122 := by
  have hlower : c.isLower = (decide (97 ≤ c.val) && decide (c.val ≤ 122)) := rfl
  rw [hlower, Bool.and_eq_true, decide_eq_true_eq, decide_eq_true_eq, UInt32.le_iff_toNat_le,
    UInt32.le_iff_toNat_le]
  exact Iff.rfl

theorem toLower_eq_self {c : Char} (h : c.toNat < 65 ∨ 90 < c.toNat) : c.toLower = c := by
  have hupper : ¬(65 ≤ c.val ∧ c.val ≤ 90) := by
    rw [UInt32.le_iff_toNat_le, UInt32.le_iff_toNat_le]
    rintro ⟨hle, hle'⟩
    change 65 ≤ c.toNat at hle
    change c.toNat ≤ 90 at hle'
    omega
  exact dif_neg hupper

/-- A letter, in a qualifier. -/
def IsLetter (c : Char) : Prop := c.toLower.isLower = true

theorem IsLetter.toNat {c : Char} (h : IsLetter c) :
    (64 < c.toNat ∧ c.toNat < 91) ∨ (96 < c.toNat ∧ c.toNat < 123) := by
  by_cases hupper : 65 ≤ c.toNat ∧ c.toNat ≤ 90
  · omega
  · rw [IsLetter, toLower_eq_self (by omega), isLower_iff] at h
    omega

theorem toNat_of_isSeparator {c : Char} (h : isSeparator c = true) :
    c.toNat = 45 ∨ c.toNat = 46 ∨ c.toNat = 95 := by
  rcases isSeparator_iff.mp h with rfl | rfl | rfl <;> decide

theorem IsLetter.isNumeric {c : Char} (h : IsLetter c) : isNumeric c = false := by
  refine Bool.eq_false_iff.mpr fun hnumeric => ?_
  have hletter := h.toNat
  rcases isNumeric_iff.mp hnumeric with hdigit | rfl
  · have := toNat_of_isDigit hdigit
    omega
  · revert hletter
    decide

theorem IsLetter.isSeparator {c : Char} (h : IsLetter c) : isSeparator c = false := by
  refine Bool.eq_false_iff.mpr fun hsep => ?_
  have hletter := h.toNat
  have hmark := toNat_of_isSeparator hsep
  omega

/-! ### Reading the numbers -/

theorem Counts.mem {count : List Char} {number : Option Nat} (h : Counts count number) :
    ∀ c ∈ count, isSeparator c = true ∨ c.isDigit = true := by
  intro c hc
  cases h with
  | missing hgap => exact .inl (hgap c hc)
  | number hgap hdigits =>
    rcases List.mem_append.mp hc with hc | hc
    · exact .inl (hgap c hc)
    · exact .inr ((Text.word64?_eq_some_iff.mp hdigits).isDigit c hc)

theorem Counts.toNat {count : List Char} {number : Option Nat} (h : Counts count number) {c : Char}
    (hc : c ∈ count) : 32 < c.toNat ∧ (c.toNat < 65 ∨ c.toNat = 95) := by
  rcases h.mem c hc with hsep | hdigit
  · have := toNat_of_isSeparator hsep
    omega
  · have := toNat_of_isDigit hdigit
    omega

theorem Counts.map_toLower {count : List Char} {number : Option Nat} (h : Counts count number) :
    count.map Char.toLower = count := by
  refine (List.map_congr_left fun c hc => ?_).trans (List.map_id count)
  have := h.toNat hc
  exact toLower_eq_self (by omega)

/-- The stage with the number that stands in what follows its label. -/
def counted? (stage : Stage) (count : List Char) : Option Prerelease :=
  let rest := count.dropWhile isSeparator
  if rest.isEmpty then some ⟨stage, none⟩
  else (Text.signedWord64? rest).map fun n => ⟨stage, some n⟩

theorem prerelease?_eq (qualifier : List Char) :
    prerelease? qualifier = Stage.spellings.findSome? fun pair =>
      (Text.strip? pair.1.toList qualifier).bind (counted? pair.2) := by
  rw [prerelease?]
  congr 1
  funext ⟨spelling, stage⟩
  simp only
  cases Text.strip? spelling.toList qualifier <;> rfl

theorem Counts.counted?_eq {count : List Char} {number : Option Nat} (h : Counts count number)
    (stage : Stage) : counted? stage count = some ⟨stage, number⟩ := by
  cases h with
  | missing hgap =>
    have hrest : count.dropWhile isSeparator = [] := List.dropWhile_eq_nil_iff.mpr hgap
    rw [counted?, hrest]
    rfl
  | @number gap digits n hgap hdigits =>
    obtain ⟨hne, hall, -, -⟩ := Text.word64?_eq_some_iff.mp hdigits
    obtain ⟨c, cs, rfl⟩ := List.exists_cons_of_ne_nil hne
    have hc := toNat_of_isDigit (hall c List.mem_cons_self)
    have hsep : isSeparator c = false := by
      refine Bool.eq_false_iff.mpr fun hsep => ?_
      have := toNat_of_isSeparator hsep
      omega
    have hrest : (gap ++ c :: cs).dropWhile isSeparator = c :: cs := by
      rw [List.dropWhile_append_of_pos hgap, List.dropWhile_cons_of_neg (by simp [hsep])]
    have hsigned : Text.signedWord64? (c :: cs) = some n := by
      rw [Text.signedWord64?]
      · exact hdigits
      · rintro rest heq
        obtain rfl := (List.cons.inj heq).1
        exact absurd hc.1 (by decide)
    rw [counted?, hrest]
    simp [hsigned]

/-- A word of letters begins a label with its count only where it begins the label. -/
theorem prefix_of_prefix_append {word label count : List Char} {number : Option Nat}
    (hword : ∀ c ∈ word, IsLetter c) (hcount : Counts count number)
    (h : word <+: label ++ count) : word <+: label := by
  rcases List.prefix_or_prefix_of_prefix h (List.prefix_append label count) with h' | ⟨rest, rfl⟩
  · exact h'
  · have hrest := (List.prefix_append_right_inj label).mp h
    cases rest with
    | nil => simp
    | cons c rest =>
      have hletter := (hword c (by simp)).toNat
      have := hcount.toNat (hrest.subset List.mem_cons_self)
      omega

/-- Longer spellings stand before those that they begin with. -/
theorem pairwise_spellings :
    Stage.spellings.Pairwise fun a b => ¬a.1.toList <+: b.1.toList := by
  decide +kernel

theorem isLower_of_mem_spellings {pair : String × Stage} (h : pair ∈ Stage.spellings) :
    ∀ c ∈ pair.1.toList, c.isLower = true := by
  have hall : ∀ pair ∈ Stage.spellings, pair.1.toList.all Char.isLower = true := by
    decide +kernel
  exact List.all_eq_true.mp (hall pair h)

theorem isLetter_of_isLower {c : Char} (h : c.isLower = true) : IsLetter c := by
  have hrange := isLower_iff.mp h
  rwa [IsLetter, toLower_eq_self (by omega)]

theorem Counts.prerelease?_eq {spelling : String} {stage : Stage} {count : List Char}
    {number : Option Nat} (hcount : Counts count number)
    (h : (spelling, stage) ∈ Stage.spellings) :
    prerelease? (spelling.toList ++ count) = some ⟨stage, number⟩ := by
  obtain ⟨before, after, hspellings⟩ := List.append_of_mem h
  have hbefore : ∀ pair ∈ before,
      (Text.strip? pair.1.toList (spelling.toList ++ count)).bind (counted? pair.2) = none := by
    intro pair hpair
    cases hstrip : Text.strip? pair.1.toList (spelling.toList ++ count) with
    | none => rfl
    | some rest =>
      have hmem : pair ∈ Stage.spellings := hspellings ▸ List.mem_append_left _ hpair
      have hprefix := prefix_of_prefix_append
        (fun c hc => isLetter_of_isLower (isLower_of_mem_spellings hmem c hc)) hcount
        ⟨rest, (Text.strip?_eq_some_iff.mp hstrip).symm⟩
      have hpairwise := pairwise_spellings
      rw [hspellings, List.pairwise_append] at hpairwise
      exact absurd hprefix (hpairwise.2.2 pair hpair _ List.mem_cons_self)
  have hstrip : Text.strip? spelling.toList (spelling.toList ++ count) = some count :=
    Text.strip?_eq_some_iff.mpr rfl
  rw [Version.prerelease?_eq, hspellings, List.findSome?_append,
    List.findSome?_eq_none_iff.mpr hbefore, Option.none_or, List.findSome?_cons, hstrip,
    Option.bind_some, hcount.counted?_eq]

/-- What spells a stage is not a mark of a release. -/
theorem Counts.classify_eq {spelling : String} {stage : Stage} {count : List Char}
    {number : Option Nat} (hcount : Counts count number)
    (h : (spelling, stage) ∈ Stage.spellings) :
    classify (spelling.toList ++ count) = .prerelease ⟨stage, number⟩ := by
  have hmarker : ∀ marker ∈ ["", "ga", "final", "release"], ∀ pair ∈ Stage.spellings,
      ¬pair.1.toList <+: marker.toList := by
    decide +kernel
  rw [classify, if_neg, hcount.prerelease?_eq h]
  intro hmem
  refine hmarker _ (List.elem_iff.mp hmem) _ h ?_
  rw [String.toList_ofList]
  exact List.prefix_append ..

/-- A qualifier is a gap and a word, which says what it spells. -/
theorem Spells.eq {q : List Char} {p : Option Prerelease} (h : Spells q p) :
    ∃ gap word, q = gap ++ word ∧ IsGap gap ∧ (∀ c, word.head? = some c → IsLetter c) ∧
      (∀ c ∈ word, Text.isBlank c = false) ∧
      (classify (word.map Char.toLower)).prerelease? = p ∧
      (classify (word.map Char.toLower)).identifiers = [] := by
  have hletter : ∀ {word lower : List Char}, word.map Char.toLower = lower →
      (∀ c ∈ lower, c.isLower = true) → ∀ c ∈ word, IsLetter c := by
    rintro word _ rfl hlower c hc
    exact hlower _ (List.mem_map_of_mem hc)
  have hblank : ∀ {c : Char}, IsLetter c → Text.isBlank c = false := fun h =>
    not_isBlank_of_graphic (by have := h.toNat; omega)
  cases h with
  | @release gap marker hgap hmarker =>
    have hlower : ∀ m ∈ ["", "ga", "final", "release"], m.toList.all Char.isLower = true := by
      decide +kernel
    have hall := hletter (String.toList_ofList (l := marker.map Char.toLower)).symm
      (List.all_eq_true.mp (hlower _ hmarker))
    have hclassify : classify (marker.map Char.toLower) = .release := by
      rw [classify, if_pos (List.elem_iff.mpr hmarker)]
    refine ⟨gap, marker, rfl, hgap, fun c hc => hall c (List.mem_of_mem_head? hc),
      fun c hc => hblank (hall c hc), ?_⟩
    rw [hclassify]
    exact ⟨rfl, rfl⟩
  | @stage gap label count stage number hgap hlabel hcount =>
    have hall := hletter (String.toList_ofList (l := label.map Char.toLower)).symm
      (isLower_of_mem_spellings hlabel)
    have hempty : ∀ pair ∈ Stage.spellings, pair.1 ≠ "" := by decide +kernel
    have hclassify :
        classify ((label ++ count).map Char.toLower) = .prerelease ⟨stage, number⟩ := by
      rw [List.map_append, hcount.map_toLower, ← hcount.classify_eq hlabel, String.toList_ofList]
    refine ⟨gap, label ++ count, rfl, hgap, fun c hc => ?_, fun c hc => ?_, ?_⟩
    · cases label with
      | nil => exact absurd rfl (hempty _ hlabel)
      | cons d label =>
        obtain rfl : d = c := Option.some.inj hc
        exact hall d List.mem_cons_self
    · rcases List.mem_append.mp hc with hc | hc
      · exact hblank (hall c hc)
      · exact not_isBlank_of_graphic (by have := hcount.toNat hc; omega)
    · rw [hclassify]
      exact ⟨rfl, rfl⟩

end MavenPom.Version
