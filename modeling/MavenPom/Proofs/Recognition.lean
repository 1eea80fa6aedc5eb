import MavenPom.Proofs.Identifiers

/-!
# Texts that are versions

A text is a version exactly when numbers lead it, with dots between them. Whatever remains behind
them, there are identifiers to be written for it, and the version has the first three numbers.
-/

namespace MavenPom

/-! ## Numbers in text -/

namespace Text

theorem digit?_ten (c : Char) :
    digit? 10 c = if c.isDigit then some (c.toNat - '0'.toNat) else none := by
  have hval : ∀ d : Char, d ≤ c ↔ d.toNat ≤ c.toNat := fun d => by
    rw [Char.le_def, UInt32.le_iff_toNat_le]
    rfl
  rw [digit?]
  cases hdigit : c.isDigit with
  | true =>
    have hle : c.toNat ≤ 57 := by
      simp only [Char.isDigit, Bool.and_eq_true, decide_eq_true_eq] at hdigit
      exact UInt32.le_iff_toNat_le.mp hdigit.2
    have hlt : c.toNat - '0'.toNat < 10 := by
      have : '0'.toNat = 48 := rfl
      omega
    simp only [if_true, if_pos hlt]
  | false =>
    have ha : 'a'.toNat = 97 := rfl
    have hA : 'A'.toNat = 65 := rfl
    simp only [Bool.false_eq_true, if_false]
    refine if_neg fun hlt => ?_
    split at hlt
    · omega
    · split at hlt
      · omega
      · exact absurd hlt (by omega)

theorem foldlM_digit?_eq_some_iff {cs : List Char} {start n : Nat} :
    cs.foldlM (fun n c => (digit? 10 c).map (n * 10 + ·)) start = some n ↔
      (∀ c ∈ cs, c.isDigit = true) ∧ Nat.ofDigitChars 10 cs start = n := by
  induction cs generalizing start with
  | nil => simp [Nat.ofDigitChars]
  | cons c cs ih =>
    rw [List.foldlM_cons, digit?_ten, Nat.ofDigitChars_cons]
    cases hc : c.isDigit with
    | true => simp [ih, hc, Nat.mul_comm 10 start]
    | false => simp [hc]

/-- A number is written by digits alone, and is their value. -/
theorem number?_eq_some_iff {cs : List Char} {n : Nat} :
    number? 10 cs = some n ↔
      cs ≠ [] ∧ (∀ c ∈ cs, c.isDigit = true) ∧ Nat.ofDigitChars 10 cs 0 = n := by
  rw [number?, ← foldlM_digit?_eq_some_iff]
  cases cs with
  | nil => simp
  | cons c cs => simp

/-- The digits of a number below 2^64. -/
structure IsNumeral (digits : List Char) (n : Nat) : Prop where
  ne_nil : digits ≠ []
  isDigit : ∀ c ∈ digits, c.isDigit = true
  value_eq : Nat.ofDigitChars 10 digits 0 = n
  lt : n < UInt64.size

theorem word64?_eq_some_iff {cs : List Char} {n : Nat} : word64? cs = some n ↔ IsNumeral cs n := by
  rw [word64?, Option.filter_eq_some_iff, number?_eq_some_iff, decide_eq_true_eq]
  constructor
  · rintro ⟨⟨hne, hdigits, hvalue⟩, hlt⟩
    exact ⟨hne, hdigits, hvalue, hlt⟩
  · rintro ⟨hne, hdigits, hvalue, hlt⟩
    exact ⟨⟨hne, hdigits, hvalue⟩, hlt⟩

end Text

namespace Version

open Text (IsNumeral)

/-! ## The parts of a version -/

/-- The characters of a version, without the mark before it. -/
def characters (text : String) : List Char := unmarked (Text.trimChars text.toList)

/-- The numbers that lead a version. -/
def numbers? (text : String) : Option (List Nat) :=
  ((Text.dropEndWhile (· == '.') ((characters text).takeWhile isNumeric)).splitOn '.').mapM
    Text.word64?

/-- What follows the numbers of a version. -/
def qualifier (text : String) : Qualifier :=
  classify ((((characters text).dropWhile isNumeric).dropWhile isSeparator).map Char.toLower)

theorem parse?_eq (text : String) :
    parse? text = (numbers? text).map (assemble · (qualifier text)) := by
  rw [Option.map_eq_bind]
  exact congrArg (Option.bind (numbers? text)) (funext fun numbers => assemble?_read numbers _)

/-- Numbers with dots between them. -/
inductive Dotted : List Char → List Nat → Prop
  | last {digits : List Char} {n : Nat} (hn : IsNumeral digits n) : Dotted digits [n]
  | cons {digits cs : List Char} {n : Nat} {numbers : List Nat} (hn : IsNumeral digits n)
    (h : Dotted cs numbers) : Dotted (digits ++ '.' :: cs) (n :: numbers)

/-- A text that these numbers lead, and what remains behind them. Blanks around the text, one `v` in
front of the numbers and dots behind them do not count. -/
inductive Leads (numbers : List Nat) (rest : List Char) : List Char → Prop
  | intro {before mark core dots after : List Char}
    (hbefore : ∀ c ∈ before, Text.isBlank c = true) (hmark : mark ∈ [[], ['v'], ['V']])
    (hcore : Dotted core numbers) (hdots : ∀ c ∈ dots, c = '.')
    (hhead : ∀ c, rest.head? = some c → c.isDigit = false ∧ c ≠ '.')
    (hlast : ∀ c, rest.getLast? = some c → Text.isBlank c = false)
    (hafter : ∀ c ∈ after, Text.isBlank c = true) :
    Leads numbers rest (before ++ (mark ++ (core ++ (dots ++ rest))) ++ after)

variable {text : String} {numbers : List Nat} {core dots rest : List Char}

/-! ## Characters of numbers -/

theorem not_isBlank_of_graphic {c : Char} (h : 32 < c.toNat ∧ c.toNat < 127) :
    Text.isBlank c = false := by
  refine Bool.eq_false_iff.mpr fun hblank => ?_
  simp only [Text.isBlank, Bool.or_eq_true, Bool.and_eq_true, decide_eq_true_eq, beq_iff_eq]
    at hblank
  omega

theorem toNat_of_isDigit {c : Char} (h : c.isDigit = true) : 47 < c.toNat ∧ c.toNat < 58 := by
  simp only [Char.isDigit, Bool.and_eq_true, decide_eq_true_eq, ge_iff_le,
    UInt32.le_iff_toNat_le] at h
  exact ⟨h.1, Nat.lt_succ_of_le h.2⟩

theorem isNumeric_iff {c : Char} : isNumeric c = true ↔ c.isDigit = true ∨ c = '.' := by
  simp [isNumeric]

theorem not_isNumeric_iff {c : Char} : isNumeric c = false ↔ c.isDigit = false ∧ c ≠ '.' := by
  simp [isNumeric]

theorem not_isBlank_of_isNumeric {c : Char} (h : isNumeric c = true) : Text.isBlank c = false := by
  refine not_isBlank_of_graphic ?_
  rcases isNumeric_iff.mp h with hdigit | rfl
  · have := toNat_of_isDigit hdigit
    omega
  · decide

theorem Dotted.isNumeric (h : Dotted core numbers) : ∀ c ∈ core, isNumeric c = true := by
  induction h with
  | last hn => exact fun c hc => isNumeric_iff.mpr (.inl (hn.isDigit c hc))
  | cons hn _ ih =>
    intro c hc
    rw [List.mem_append, List.mem_cons] at hc
    rcases hc with hc | rfl | hc
    · exact isNumeric_iff.mpr (.inl (hn.isDigit c hc))
    · rfl
    · exact ih c hc

theorem Dotted.ne_nil (h : Dotted core numbers) : core ≠ [] := by
  cases h with
  | last hn => exact hn.ne_nil
  | cons => simp

/-- Numbers end with a digit. -/
theorem Dotted.getLast?_ne (h : Dotted core numbers) :
    ∀ c, core.getLast? = some c → c ≠ '.' := by
  induction h with
  | last hn =>
    rintro c hc rfl
    exact absurd (hn.isDigit '.' (List.mem_of_getLast? hc)) (by decide)
  | @cons digits cs n numbers hn h ih =>
    intro c hc
    refine ih c ?_
    obtain ⟨d, cs, rfl⟩ := List.exists_cons_of_ne_nil h.ne_nil
    simpa using hc

/-! ## Numbers between dots -/

theorem splitOn_of_isNumeral {digits : List Char} {n : Nat} (h : IsNumeral digits n) :
    digits.splitOn '.' = [digits] :=
  List.splitOn_eq_singleton fun hdot => absurd (h.isDigit '.' hdot) (by decide)

theorem Dotted.mapM_splitOn (h : Dotted core numbers) :
    (core.splitOn '.').mapM Text.word64? = some numbers := by
  induction h with
  | last hn => simp [splitOn_of_isNumeral hn, Text.word64?_eq_some_iff.mpr hn]
  | cons hn _ ih =>
    simp [List.splitOn_append_cons_self, splitOn_of_isNumeral hn,
      Text.word64?_eq_some_iff.mpr hn, ih]

theorem dotted_intercalate {parts : List (List Char)} (hne : parts ≠ [])
    (h : parts.mapM Text.word64? = some numbers) : Dotted (['.'].intercalate parts) numbers := by
  induction parts generalizing numbers with
  | nil => exact absurd rfl hne
  | cons digits parts ih =>
    simp only [List.mapM_cons, Option.bind_eq_bind, Option.bind_eq_some_iff, Option.pure_def,
      Option.some.injEq] at h
    obtain ⟨n, hn, ns, hns, rfl⟩ := h
    have hn := Text.word64?_eq_some_iff.mp hn
    cases parts with
    | nil =>
      obtain rfl : ns = [] := by simpa using hns.symm
      rw [List.intercalate_singleton]
      exact .last hn
    | cons next parts =>
      rw [List.intercalate_cons_cons, List.append_assoc]
      exact .cons hn (ih (List.cons_ne_nil _ _) hns)

/-- Numbers are what stands between the dots. -/
theorem mapM_splitOn_eq_some_iff :
    (core.splitOn '.').mapM Text.word64? = some numbers ↔ Dotted core numbers := by
  refine ⟨fun h => ?_, Dotted.mapM_splitOn⟩
  rw [← @List.intercalate_splitOn _ core _ _ '.']
  exact dotted_intercalate (List.splitOn_ne_nil _ _) h

/-- Dots behind the numbers belong neither to them nor to what remains. -/
theorem split_dots (hcore : Dotted core numbers) (hdots : ∀ c ∈ dots, c = '.')
    (hrest : ∀ c, rest.head? = some c → isNumeric c = false) :
    Text.dropEndWhile (· == '.') ((core ++ (dots ++ rest)).takeWhile isNumeric) = core ∧
      (core ++ (dots ++ rest)).dropWhile isNumeric = rest := by
  have hnumeric : ∀ c ∈ dots, isNumeric c = true := fun c hc =>
    isNumeric_iff.mpr (.inr (hdots c hc))
  have hnone : rest.takeWhile isNumeric = [] := by
    cases rest with
    | nil => rfl
    | cons c rest => rw [List.takeWhile_cons_of_neg (by simp [hrest c rfl])]
  rw [List.takeWhile_append_of_pos hcore.isNumeric, List.takeWhile_append_of_pos hnumeric, hnone,
    List.dropWhile_append_of_pos hcore.isNumeric, List.dropWhile_append_of_pos hnumeric,
    Text.dropWhile_eq_self hrest, List.append_nil]
  refine ⟨?_, rfl⟩
  rw [Text.dropEndWhile_append _ fun c hc => beq_iff_eq.mpr (hdots c hc)]
  exact Text.dropEndWhile_eq_self fun c hc => beq_eq_false_iff_ne.mpr (hcore.getLast?_ne c hc)

theorem exists_append_trimChars (cs : List Char) :
    ∃ before after, (∀ c ∈ before, Text.isBlank c = true) ∧ (∀ c ∈ after, Text.isBlank c = true) ∧
      cs = before ++ Text.trimChars cs ++ after := by
  obtain ⟨after, hafter, heq⟩ :=
    Text.exists_of_dropEndWhile Text.isBlank (cs.dropWhile Text.isBlank)
  refine ⟨cs.takeWhile Text.isBlank, after, fun c hc => List.mem_takeWhile_imp hc, hafter, ?_⟩
  rw [Text.trimChars, List.append_assoc, ← heq, List.takeWhile_append_dropWhile]

theorem exists_append_unmarked (cs : List Char) :
    ∃ mark ∈ [[], ['v'], ['V']], cs = mark ++ unmarked cs := by
  cases cs with
  | nil => exact ⟨[], by simp, rfl⟩
  | cons c cs =>
    rw [unmarked]
    split
    · next hmark => exact ⟨[c], by simpa using hmark, rfl⟩
    · exact ⟨[], by simp, rfl⟩

theorem exists_append_dots (cs : List Char) :
    ∃ dots, (∀ c ∈ dots, c = '.') ∧
      cs = Text.dropEndWhile (· == '.') (cs.takeWhile isNumeric) ++
        (dots ++ cs.dropWhile isNumeric) := by
  obtain ⟨dots, hdots, heq⟩ := Text.exists_of_dropEndWhile (· == '.') (cs.takeWhile isNumeric)
  refine ⟨dots, fun c hc => beq_iff_eq.mp (hdots c hc), ?_⟩
  rw [← List.append_assoc, ← heq, List.takeWhile_append_dropWhile]

/-- Numbers that are read from a text lead it. -/
theorem leads_of_numbers? (h : numbers? text = some numbers) :
    Leads numbers ((characters text).dropWhile isNumeric) text.toList := by
  obtain ⟨before, after, hbefore, hafter, htext⟩ := exists_append_trimChars text.toList
  obtain ⟨mark, hmark, htrim⟩ := exists_append_unmarked (Text.trimChars text.toList)
  obtain ⟨dots, hdots, hcharacters⟩ := exists_append_dots (characters text)
  have hwhole : Text.trimChars text.toList =
      mark ++ (Text.dropEndWhile (· == '.') ((characters text).takeWhile isNumeric) ++
        (dots ++ (characters text).dropWhile isNumeric)) := by
    rw [← hcharacters]
    exact htrim
  have hlast : ∀ c, ((characters text).dropWhile isNumeric).getLast? = some c →
      Text.isBlank c = false := by
    intro c hc
    have hend : (Text.trimChars text.toList).getLast? = some c := by
      rw [hwhole]
      simp [List.getLast?_append, hc]
    exact Text.getLast?_dropEndWhile hend
  rw [htext, hwhole]
  exact .intro hbefore hmark (mapM_splitOn_eq_some_iff.mp h) hdots
    (fun c hc => not_isNumeric_iff.mp (Text.head?_dropWhile_not _ hc)) hlast hafter

/-! ## Reading what leads a text -/

/-- Of a text that begins and ends with other characters, only the blanks around it are trimmed. -/
theorem trimChars_surrounded {before front rest after : List Char} (hne : front ≠ [])
    (hbefore : ∀ c ∈ before, Text.isBlank c = true) (hafter : ∀ c ∈ after, Text.isBlank c = true)
    (hfront : ∀ c ∈ front, Text.isBlank c = false)
    (hlast : ∀ c, rest.getLast? = some c → Text.isBlank c = false) :
    Text.trimChars (before ++ (front ++ rest) ++ after) = front ++ rest := by
  have hhead : ∀ c, (front ++ rest).head? = some c → Text.isBlank c = false := by
    intro c hc
    rw [List.head?_append, Option.or_of_isSome (List.isSome_head?.mpr hne)] at hc
    exact hfront c (List.mem_of_mem_head? hc)
  have hend : ∀ c, (front ++ rest).getLast? = some c → Text.isBlank c = false := by
    intro c hc
    rw [List.getLast?_append, Option.or_eq_some_iff] at hc
    rcases hc with hc | ⟨-, hc⟩
    · exact hlast c hc
    · exact hfront c (List.mem_of_mem_getLast? hc)
  rw [Text.trimChars_append_blank _ hafter, Text.trimChars, List.dropWhile_append_of_pos hbefore,
    Text.dropWhile_eq_self hhead, Text.dropEndWhile_eq_self hend]

theorem not_isBlank_of_mem_mark {mark : List Char} {c : Char} (hmark : mark ∈ [[], ['v'], ['V']])
    (hc : c ∈ mark) : Text.isBlank c = false := by
  simp only [List.mem_cons, List.not_mem_nil, or_false] at hmark
  rcases hmark with rfl | rfl | rfl
  · cases hc
  · rw [List.mem_singleton.mp hc]
    rfl
  · rw [List.mem_singleton.mp hc]
    rfl

theorem unmarked_append {mark : List Char} (hmark : mark ∈ [[], ['v'], ['V']])
    (hcore : Dotted core numbers) (rest : List Char) :
    unmarked (mark ++ (core ++ rest)) = core ++ rest := by
  obtain ⟨c, cs, rfl⟩ := List.exists_cons_of_ne_nil hcore.ne_nil
  have hc : ¬(c = 'v' ∨ c = 'V') := by
    have hnumeric := hcore.isNumeric c List.mem_cons_self
    rintro (rfl | rfl) <;> revert hnumeric <;> decide
  simp only [List.mem_cons, List.not_mem_nil, or_false] at hmark
  rcases hmark with rfl | rfl | rfl
  · exact if_neg hc
  · rfl
  · rfl

/-- The numbers that lead a text are read from it, and the rest remains. -/
theorem Leads.read (h : Leads numbers rest text.toList) :
    numbers? text = some numbers ∧ (characters text).dropWhile isNumeric = rest := by
  generalize hcs : text.toList = cs at h
  cases h with
  | @intro before mark core dots after hbefore hmark hcore hdots hhead hlast hafter =>
    have hne : mark ++ core ++ dots ≠ [] := by simp [hcore.ne_nil]
    have hfront : ∀ c ∈ mark ++ core ++ dots, Text.isBlank c = false := by
      intro c hc
      rw [List.mem_append, List.mem_append] at hc
      rcases hc with (hc | hc) | hc
      · exact not_isBlank_of_mem_mark hmark hc
      · exact not_isBlank_of_isNumeric (hcore.isNumeric c hc)
      · rw [hdots c hc]
        rfl
    have htrim : Text.trimChars text.toList = mark ++ (core ++ (dots ++ rest)) := by
      have hwhole := trimChars_surrounded hne hbefore hafter hfront hlast
      simpa [hcs] using hwhole
    have hcharacters : characters text = core ++ (dots ++ rest) := by
      rw [characters, htrim, unmarked_append hmark hcore]
    obtain ⟨hnumeric, hremains⟩ := split_dots hcore hdots
      fun c hc => not_isNumeric_iff.mpr (hhead c hc)
    rw [numbers?, hcharacters, hnumeric, hcore.mapM_splitOn]
    exact ⟨rfl, hremains⟩

/-! ## Versions -/

theorem parse?_of_leads (h : Leads numbers rest text.toList) :
    parse? text = some (assemble numbers (.read rest)) := by
  obtain ⟨hnumbers, hrest⟩ := h.read
  rw [parse?_eq, hnumbers, ← hrest]
  rfl

theorem isSome_parse?_iff :
    (parse? text).isSome = true ↔ ∃ numbers rest, Leads numbers rest text.toList := by
  rw [parse?_eq, Option.isSome_map, Option.isSome_iff_exists]
  constructor
  · rintro ⟨numbers, h⟩
    exact ⟨numbers, _, leads_of_numbers? h⟩
  · rintro ⟨numbers, rest, h⟩
    exact ⟨numbers, h.read.1⟩

/-- A text is a version exactly when numbers lead it. It has the first three of them, and whatever
remains behind them, what is written for it in front of the release and as build data consists of
identifiers. -/
theorem parse?_iff_leads (text : String) :
    ((parse? text).isSome = true ↔ ∃ numbers rest, Leads numbers rest text.toList) ∧
      ∀ numbers rest, Leads numbers rest text.toList →
        isIdentifierList isPrereleaseIdentifier (Qualifier.read rest).prereleaseText = true ∧
        isIdentifierList isIdentifier ((Qualifier.read rest).buildText (numbers.drop 3)) = true ∧
        ∃ version, parse? text = some version ∧
          version.major = numbers.getD 0 0 ∧ version.minor = numbers.getD 1 0 ∧
          version.patch = numbers.getD 2 0 ∧
          (version.prerelease.map Prerelease.text).getD "" =
            (Qualifier.read rest).prereleaseText ∧
          ".".intercalate version.build = (Qualifier.read rest).buildText (numbers.drop 3) := by
  refine ⟨isSome_parse?_iff, fun numbers rest h => ?_⟩
  exact ⟨isIdentifierList_prereleaseText _, isIdentifierList_buildText _ rest, _, parse?_of_leads h,
    rfl, rfl, rfl, rfl, (buildText_read _ rest).symm⟩

theorem parse?_iff_leads_accented :
    Leads [1, 2, 3, 0] ['-', 'É', '.', '.', 'B', '+', '1'] " V01.2.3.0..-É..B+1\n".toList ∧
      isIdentifierList isIdentifier "0.-.b-1" = true ∧
      ∃ version, parse? " V01.2.3.0..-É..B+1\n" = some version ∧ version.major = 1 ∧
        version.minor = 2 ∧ version.patch = 3 ∧ ".".intercalate version.build = "0.-.b-1" := by
  have htext : " V01.2.3.0..-É..B+1\n".toList = [' '] ++ (['V'] ++ ("01.2.3.0".toList ++
      (['.', '.'] ++ ['-', 'É', '.', '.', 'B', '+', '1']))) ++ ['\n'] := by
    decide +kernel
  have hleads : Leads [1, 2, 3, 0] ['-', 'É', '.', '.', 'B', '+', '1']
      " V01.2.3.0..-É..B+1\n".toList := by
    rw [htext]
    exact .intro (by simp [Text.isBlank]) (by simp)
      (mapM_splitOn_eq_some_iff.mp (by decide +kernel)) (by simp) (by simp)
      (by simp [Text.isBlank]) (by simp [Text.isBlank])
  have hwritten : (Qualifier.read ['-', 'É', '.', '.', 'B', '+', '1']).buildText [0] =
      "0.-.b-1" := by
    decide +kernel
  obtain ⟨-, hlist, version, hparse, hmajor, hminor, hpatch, -, hbuild⟩ :=
    (parse?_iff_leads " V01.2.3.0..-É..B+1\n").2 _ _ hleads
  rw [← hwritten]
  exact ⟨hleads, hlist, version, hparse, hmajor, hminor, hpatch, hbuild⟩

end Version

end MavenPom
