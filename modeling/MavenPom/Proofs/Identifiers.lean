import MavenPom.Proofs.Text.Fields
import MavenPom.Version

/-!
# Identifiers of versions

Whatever text follows the numbers of a version, what is written for its qualifier and as build data
consists of identifiers. So only the numbers decide whether a text is a version.
-/

namespace MavenPom.Version

/-! ## Texts of identifiers -/

theorem isIdentifier_iff {cs : List Char} :
    isIdentifier cs = true ↔ cs ≠ [] ∧ ∀ c ∈ cs, c.isAlphanum = true ∨ c = '-' := by
  simp [isIdentifier]

theorem isIdentifier_of_isPrereleaseIdentifier {cs : List Char}
    (h : isPrereleaseIdentifier cs = true) : isIdentifier cs = true :=
  (Bool.and_eq_true_iff.mp h).1

/-- Where identifiers have been put together with dots, they are found again. -/
theorem splitOn_intercalate_of_isIdentifier {ids : List String} (hne : ids ≠ [])
    (h : ∀ id ∈ ids, isIdentifier id.toList = true) :
    (".".intercalate ids).toList.splitOn '.' = ids.map String.toList := by
  rw [String.toList_intercalate]
  refine List.splitOn_intercalate '.' ?_ (by simpa using hne)
  rintro cs hcs hdot
  obtain ⟨id, hid, rfl⟩ := List.mem_map.mp hcs
  rcases (isIdentifier_iff.mp (h id hid)).2 '.' hdot with hdot | hdot <;> revert hdot <;> decide

theorem isIdentifierList_intercalate {p : List Char → Bool} {ids : List String}
    (hp : ∀ cs, p cs = true → isIdentifier cs = true) (h : ∀ id ∈ ids, p id.toList = true) :
    isIdentifierList p (".".intercalate ids) = true := by
  by_cases hnil : ids = []
  · subst hnil
    rfl
  · have hids : ∀ id ∈ ids, isIdentifier id.toList = true := fun id hid => hp _ (h id hid)
    have hall : (ids.map String.toList).all p = true := by simpa [List.all_map] using h
    rw [isIdentifierList, splitOn_intercalate_of_isIdentifier hnil hids, hall, Bool.or_true]

theorem splitIdentifiers_intercalate {ids : List String}
    (h : ∀ id ∈ ids, isIdentifier id.toList = true) :
    splitIdentifiers (".".intercalate ids) = ids := by
  by_cases hnil : ids = []
  · subst hnil
    rfl
  · have hsplit := splitOn_intercalate_of_isIdentifier hnil h
    have hne : ¬(".".intercalate ids).isEmpty = true := by
      intro hempty
      rw [String.isEmpty_iff.mp hempty] at hsplit
      obtain ⟨id, hid, hempty⟩ : ∃ id ∈ ids, id.toList = [] :=
        List.mem_map.mp (hsplit ▸ List.mem_singleton_self [])
      exact (isIdentifier_iff.mp (h id hid)).1 hempty
    rw [splitIdentifiers, if_neg hne, Text.fields, hsplit, List.map_map]
    simp [Function.comp_def]

/-! ## Numbers as identifiers -/

/-- A number that is not zero does not begin with the digit zero. -/
theorem head?_toDigits_ne {n : Nat} (hn : 0 < n) : (Nat.toDigits 10 n).head? ≠ some '0' := by
  induction n using Nat.strongRecOn with
  | ind n ih =>
    by_cases hlt : n < 10
    · have hdigit : ∀ m < 10, 0 < m → m.digitChar ≠ '0' := by decide
      rw [Nat.toDigits_of_lt_base hlt, List.head?_cons]
      exact fun h => hdigit n hlt hn (Option.some.inj h)
    · rw [Nat.toDigits_of_base_le (by decide) (Nat.le_of_not_lt hlt), List.head?_append,
        Option.or_of_isSome (List.isSome_head?.mpr Nat.toDigits_ne_nil)]
      exact ih (n / 10) (by omega) (by omega)

theorem isPrereleaseIdentifier_toString (n : Nat) :
    isPrereleaseIdentifier (toString n).toList = true := by
  have hdigits : (toString n).toList = Nat.toDigits 10 n := by
    rw [Nat.toString_eq_ofList_toDigits, String.toList_ofList]
  have hidentifier : isIdentifier (Nat.toDigits 10 n) = true := by
    refine isIdentifier_iff.mpr ⟨Nat.toDigits_ne_nil, fun c hc => .inl ?_⟩
    rw [Char.isAlphanum, Nat.isDigit_of_mem_toDigits (by decide) (by decide) hc, Bool.or_true]
  rw [hdigits, isPrereleaseIdentifier, hidentifier, Bool.true_and, Bool.not_eq_true',
    Bool.eq_false_iff]
  intro hpadded
  obtain ⟨⟨-, hhead⟩, hlength⟩ : (_ ∧ (Nat.toDigits 10 n).head? = some '0') ∧
      (Nat.toDigits 10 n).length ≠ 1 := by simpa using hpadded
  rcases Nat.eq_zero_or_pos n with rfl | hn
  · exact hlength rfl
  · exact head?_toDigits_ne hn hhead

/-! ## What is written for a qualifier -/

theorem isPrereleaseIdentifier_label (stage : Stage) :
    isPrereleaseIdentifier stage.label.toList = true := by
  cases stage <;> decide +kernel

theorem text_eq_intercalate (p : Prerelease) :
    p.text = ".".intercalate (p.stage.label :: p.number.toList.map toString) := by
  rw [Prerelease.text]
  cases p.number with
  | none => simp
  | some n => simp [String.intercalate_cons_cons]

theorem isPrereleaseIdentifier_of_mem_text {p : Prerelease} :
    ∀ id ∈ p.stage.label :: p.number.toList.map toString,
      isPrereleaseIdentifier id.toList = true := by
  intro id hid
  rcases List.mem_cons.mp hid with rfl | hid
  · exact isPrereleaseIdentifier_label p.stage
  · obtain ⟨n, -, rfl⟩ := List.mem_map.mp hid
    exact isPrereleaseIdentifier_toString n

/-- What is written in front of the release consists of identifiers there. -/
theorem isIdentifierList_prereleaseText (q : Qualifier) :
    isIdentifierList isPrereleaseIdentifier q.prereleaseText = true := by
  rw [Qualifier.prereleaseText]
  cases q.prerelease? with
  | none => rfl
  | some p =>
    rw [Option.map_some, Option.getD_some, text_eq_intercalate]
    exact isIdentifierList_intercalate (fun cs => isIdentifier_of_isPrereleaseIdentifier)
      isPrereleaseIdentifier_of_mem_text

/-- A stage is written as its label, followed by its number if it has one. -/
theorem splitIdentifiers_text (p : Prerelease) :
    splitIdentifiers p.text = p.stage.label :: p.number.toList.map toString := by
  rw [text_eq_intercalate, splitIdentifiers_intercalate fun id hid =>
    isIdentifier_of_isPrereleaseIdentifier (isPrereleaseIdentifier_of_mem_text id hid)]

/-! ## What is written as build data -/

theorem isIdentifier_of_mem_identifiers {cs : List Char} {id : String} (h : id ∈ identifiers cs) :
    isIdentifier id.toList = true := by
  obtain ⟨part, hpart, rfl⟩ := List.mem_map.mp h
  obtain ⟨hpart, hne⟩ := List.mem_filter.mp hpart
  rw [String.toList_ofList]
  refine isIdentifier_iff.mpr ⟨by simpa using hne, fun c hc => ?_⟩
  have hdot : c ≠ '.' := by
    rintro rfl
    exact Text.not_mem_of_mem_splitOn hpart hc
  obtain ⟨d, -, rfl⟩ := List.mem_map.mp (Text.mem_of_mem_splitOn hpart hc)
  split at hdot
  · next hkept =>
    rw [if_pos hkept]
    exact .inl ((Bool.or_eq_true_iff.mp hkept).resolve_right fun heq => hdot (beq_iff_eq.mp heq))
  · next hkept => exact .inr (if_neg hkept)

/-- A qualifier that begins with anything but a dot has identifiers. -/
theorem identifiers_cons_ne_nil {c : Char} (hc : c ≠ '.') (cs : List Char) :
    identifiers (c :: cs) ≠ [] := by
  obtain ⟨d, hd, hne⟩ : ∃ d, d = (if c.isAlphanum || c == '.' then c else '-') ∧ d ≠ '.' := by
    refine ⟨_, rfl, ?_⟩
    split
    · exact hc
    · decide
  obtain ⟨part, rest, hsplit⟩ := List.exists_cons_of_ne_nil (List.splitOn_ne_nil '.'
    (cs.map fun c => if c.isAlphanum || c == '.' then c else '-'))
  rw [identifiers, List.map_cons, ← hd, List.splitOn_cons_eq_if_modifyHead,
    if_neg (by simpa using hne), hsplit]
  simp

theorem eq_dot_of_toLower {c : Char} (h : c.toLower = '.') : c = '.' := by
  unfold Char.toLower at h
  split at h
  · next hupper =>
    obtain ⟨hle, hle'⟩ := hupper
    have hval := congrArg (·.val.toNat) h
    simp only [UInt32.toNat_add] at hval
    rw [ge_iff_le, UInt32.le_iff_toNat_le] at hle
    rw [UInt32.le_iff_toNat_le] at hle'
    have hA : 'A'.val.toNat = 65 := rfl
    have hZ : 'Z'.val.toNat = 90 := rfl
    have hdiff : ('a'.val - 'A'.val).toNat = 32 := rfl
    have hdot : '.'.val.toNat = 46 := rfl
    omega
  · exact h

theorem eq_identifiers_of_classify {cs : List Char} {ids : List String}
    (h : classify cs = .other ids) : cs ≠ [] ∧ ids = identifiers cs := by
  rw [classify] at h
  split at h
  · cases h
  · next hmarker =>
    refine ⟨fun hnil => hmarker (by rw [hnil]; rfl), ?_⟩
    split at h
    · cases h
    · exact (Qualifier.other.inj h).symm

def Qualifier.identifiers : Qualifier → List String
  | .other identifiers => identifiers
  | _ => []

theorem isIdentifier_of_mem_read {rest : List Char} {id : String}
    (h : id ∈ (Qualifier.read rest).identifiers) : isIdentifier id.toList = true := by
  cases hread : Qualifier.read rest with
  | other ids =>
    rw [hread] at h
    rw [Qualifier.identifiers, (eq_identifiers_of_classify hread).2] at h
    exact isIdentifier_of_mem_identifiers h
  | _ =>
    rw [hread] at h
    cases h

/-- A qualifier that is read has lost its separators, so something is left to be an identifier. -/
theorem ne_nil_of_read_eq_other {rest : List Char} {ids : List String}
    (h : Qualifier.read rest = .other ids) : ids ≠ [] := by
  obtain ⟨hne, rfl⟩ := eq_identifiers_of_classify h
  cases hword : rest.dropWhile isSeparator with
  | nil =>
    rw [hword] at hne
    exact absurd rfl hne
  | cons c word =>
    rw [List.map_cons]
    refine identifiers_cons_ne_nil (fun hlower => ?_) _
    have hseparator : isSeparator c = false :=
      Text.head?_dropWhile_not rest (by rw [hword, List.head?_cons])
    rw [eq_dot_of_toLower hlower] at hseparator
    revert hseparator
    decide

theorem buildText_read (extra : List Nat) (rest : List Char) :
    (Qualifier.read rest).buildText extra =
      ".".intercalate (extra.map toString ++ (Qualifier.read rest).identifiers) := by
  rw [Qualifier.buildText]
  cases hread : Qualifier.read rest with
  | other ids =>
    have hids := ne_nil_of_read_eq_other hread
    rw [Qualifier.otherText?, Qualifier.identifiers, Option.toList_some]
    by_cases hextra : extra.map toString = []
    · rw [hextra, List.nil_append, List.nil_append, String.intercalate_singleton]
    · rw [String.intercalate_append_of_ne_nil hextra (List.cons_ne_nil _ _),
        String.intercalate_append_of_ne_nil hextra hids, String.intercalate_singleton]
  | _ => rfl

/-- Numbers and a qualifier are written as identifiers. -/
theorem isIdentifier_of_mem_build {extra : List Nat} {rest : List Char} {id : String}
    (h : id ∈ extra.map toString ++ (Qualifier.read rest).identifiers) :
    isIdentifier id.toList = true := by
  rcases List.mem_append.mp h with h | h
  · obtain ⟨n, -, rfl⟩ := List.mem_map.mp h
    exact isIdentifier_of_isPrereleaseIdentifier (isPrereleaseIdentifier_toString n)
  · exact isIdentifier_of_mem_read h

theorem isIdentifierList_buildText (extra : List Nat) (rest : List Char) :
    isIdentifierList isIdentifier ((Qualifier.read rest).buildText extra) = true := by
  rw [buildText_read]
  exact isIdentifierList_intercalate (fun _ => id) fun _ => isIdentifier_of_mem_build

/-! ## Versions of numbers and a qualifier -/

/-- The version with these numbers and this qualifier. -/
def assemble (numbers : List Nat) (q : Qualifier) : Version :=
  ⟨numbers.getD 0 0, numbers.getD 1 0, numbers.getD 2 0, q.prerelease?,
    (numbers.drop 3).map toString ++ q.identifiers⟩

/-- No qualifier makes a version fail. -/
theorem assemble?_read (numbers : List Nat) (rest : List Char) :
    assemble? numbers (.read rest) = some (assemble numbers (.read rest)) := by
  rw [assemble?, isIdentifierList_prereleaseText, isIdentifierList_buildText, buildText_read,
    splitIdentifiers_intercalate fun _ => isIdentifier_of_mem_build]
  rfl

end MavenPom.Version
