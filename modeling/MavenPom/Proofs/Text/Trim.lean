import MavenPom.Dependency
import MavenPom.Text.Blank
import Mathlib.Data.List.TakeWhile

/-!
# Trimmed text

Trimming leaves text without blanks at its ends, and so changes nothing the second time. The parts
of a coordinate are such texts.
-/

namespace MavenPom.Text

theorem head?_dropWhile_not {p : Char → Bool} (cs : List Char) {c : Char}
    (h : (cs.dropWhile p).head? = some c) : p c = false := by
  induction cs with
  | nil => simp at h
  | cons d cs ih =>
    rw [List.dropWhile_cons] at h
    split at h
    · exact ih h
    · next hd =>
      obtain rfl := Option.some.inj h
      simpa using hd

theorem dropWhile_eq_self {p : Char → Bool} {cs : List Char}
    (h : ∀ c, cs.head? = some c → p c = false) : cs.dropWhile p = cs := by
  cases cs with
  | nil => rfl
  | cons c cs => simp [h c rfl]

theorem dropEndWhile_eq_self {p : Char → Bool} {cs : List Char}
    (h : ∀ c, cs.getLast? = some c → p c = false) : dropEndWhile p cs = cs := by
  rw [dropEndWhile, dropWhile_eq_self, List.reverse_reverse]
  intro c hc
  exact h c (by simpa using hc)

theorem getLast?_dropEndWhile {p : Char → Bool} {cs : List Char} {c : Char}
    (h : (dropEndWhile p cs).getLast? = some c) : p c = false := by
  rw [dropEndWhile, List.getLast?_reverse] at h
  exact head?_dropWhile_not _ h

theorem dropEndWhile_eq_take {p : Char → Bool} (cs : List Char) :
    ∃ back, cs = dropEndWhile p cs ++ back := by
  refine ⟨(cs.reverse.takeWhile p).reverse, ?_⟩
  rw [dropEndWhile, ← List.reverse_append, List.takeWhile_append_dropWhile, List.reverse_reverse]

theorem head?_trimChars {cs : List Char} {c : Char} (h : (trimChars cs).head? = some c) :
    isBlank c = false := by
  obtain ⟨back, hback⟩ := dropEndWhile_eq_take (p := isBlank) (cs.dropWhile isBlank)
  refine head?_dropWhile_not cs (p := isBlank) ?_
  rw [hback, List.head?_append]
  rw [trimChars] at h
  rw [h]
  rfl

/-- Trimming what is trimmed changes nothing. -/
theorem trimChars_trimChars (cs : List Char) : trimChars (trimChars cs) = trimChars cs := by
  have hhead : (trimChars cs).dropWhile isBlank = trimChars cs :=
    dropWhile_eq_self fun c hc => head?_trimChars hc
  change dropEndWhile isBlank ((trimChars cs).dropWhile isBlank) = trimChars cs
  rw [hhead]
  exact dropEndWhile_eq_self fun c hc => getLast?_dropEndWhile hc

theorem dropEndWhile_append {p : Char → Bool} (cs : List Char) {tail : List Char}
    (htail : ∀ c ∈ tail, p c = true) : dropEndWhile p (cs ++ tail) = dropEndWhile p cs := by
  rw [dropEndWhile, List.reverse_append,
    List.dropWhile_append_of_pos fun c hc => htail c (List.mem_reverse.mp hc)]
  rfl

theorem exists_of_dropEndWhile (p : Char → Bool) (cs : List Char) :
    ∃ tail, (∀ c ∈ tail, p c = true) ∧ cs = dropEndWhile p cs ++ tail := by
  refine ⟨(cs.reverse.takeWhile p).reverse, fun c hc => ?_, ?_⟩
  · exact List.mem_takeWhile_imp (List.mem_reverse.mp hc)
  · rw [dropEndWhile, ← List.reverse_append, List.takeWhile_append_dropWhile, List.reverse_reverse]

/-- Blanks behind a text do not count. -/
theorem trimChars_append_blank (cs : List Char) {tail : List Char}
    (htail : ∀ c ∈ tail, isBlank c = true) : trimChars (cs ++ tail) = trimChars cs := by
  rw [trimChars, List.dropWhile_append]
  split
  · next hempty =>
    rw [List.isEmpty_iff] at hempty
    rw [trimChars, hempty, List.dropWhile_eq_nil_iff.mpr htail]
  · exact dropEndWhile_append _ htail

theorem isAllBlank_append (s t : String) :
    isAllBlank (s ++ t) = (isAllBlank s && isAllBlank t) := by
  rw [isAllBlank, String.toList_append, List.all_append]
  rfl

theorem trim_append_blank (s : String) {tail : String} (h : isAllBlank tail = true) :
    trim (s ++ tail) = trim s := by
  rw [trim, String.toList_append, trimChars_append_blank _ (List.all_eq_true.mp h)]
  rfl

theorem trim_blank_append {front : String} (h : isAllBlank front = true) (s : String) :
    trim (front ++ s) = trim s := by
  rw [trim, String.toList_append, trimChars,
    List.dropWhile_append_of_pos (List.all_eq_true.mp h)]
  rfl

/-- A text is blank when nothing is left of it once it is trimmed. -/
theorem isAllBlank_iff_trim {s : String} : isAllBlank s = true ↔ trim s = "" := by
  constructor
  · intro h
    rw [← String.empty_append (s := s), trim_append_blank _ h]
    rfl
  · intro h
    have hnil : dropEndWhile isBlank (s.toList.dropWhile isBlank) = [] := by
      have := congrArg String.toList h
      rwa [trim, String.toList_ofList] at this
    rw [dropEndWhile, List.reverse_eq_nil_iff, List.dropWhile_eq_nil_iff] at hnil
    rw [isAllBlank, List.all_eq_true]
    intro c hc
    by_cases hmem : c ∈ s.toList.dropWhile isBlank
    · exact hnil c (List.mem_reverse.mpr hmem)
    · rw [← List.takeWhile_append_dropWhile (p := isBlank) (l := s.toList), List.mem_append] at hc
      exact List.mem_takeWhile_imp (hc.resolve_right hmem)

/-- Blank text counts only between two texts that are not blank. -/
theorem trim_insert_blank {before raw after : String} (hraw : isAllBlank raw = true)
    (h : isAllBlank before = true ∨ isAllBlank after = true) :
    trim (before ++ (raw ++ after)) = trim (before ++ after) := by
  rcases h with h | h
  · rw [trim_blank_append h, trim_blank_append hraw, trim_blank_append h]
  · have hboth : isAllBlank (raw ++ after) = true := by rw [isAllBlank_append, hraw, h]; rfl
    rw [trim_append_blank _ hboth, trim_append_blank _ h]

theorem dropWhile_ne_nil {s : String} (h : isAllBlank s = false) :
    s.toList.dropWhile isBlank ≠ [] := by
  intro hnil
  rw [isAllBlank, List.all_eq_true.mpr (List.dropWhile_eq_nil_iff.mp hnil)] at h
  cases h

/-- Between two texts that are not blank, all of a text stays. -/
theorem trimChars_append_append {front back : String} (hfront : isAllBlank front = false)
    (hback : isAllBlank back = false) (middle : List Char) :
    trimChars (front.toList ++ (middle ++ back.toList)) =
      front.toList.dropWhile isBlank ++ (middle ++ dropEndWhile isBlank back.toList) := by
  have hreverse : back.toList.reverse.dropWhile isBlank ≠ [] := by
    intro hnil
    rw [List.dropWhile_eq_nil_iff] at hnil
    refine dropWhile_ne_nil hback (List.dropWhile_eq_nil_iff.mpr fun c hc => ?_)
    exact hnil c (List.mem_reverse.mpr hc)
  rw [trimChars, List.dropWhile_append, if_neg (by simp [dropWhile_ne_nil hfront]), dropEndWhile,
    List.reverse_append, List.reverse_append, List.append_assoc, List.dropWhile_append,
    if_neg (by simp [hreverse]), dropEndWhile]
  simp

/-- Blank text between two texts that are not blank does count. -/
theorem trim_insert_blank_ne {before raw after : String} (hraw : raw ≠ "")
    (hbefore : isAllBlank before = false) (hafter : isAllBlank after = false) :
    trim (before ++ (raw ++ after)) ≠ trim (before ++ after) := by
  intro heq
  have hchars := congrArg String.toList heq
  have hwithout := trimChars_append_append hbefore hafter []
  rw [List.nil_append, List.nil_append] at hwithout
  rw [trim, trim, String.toList_ofList, String.toList_ofList, String.toList_append,
    String.toList_append, String.toList_append, trimChars_append_append hbefore hafter, hwithout,
    List.append_cancel_left_eq, List.append_left_eq_self] at hchars
  exact hraw (String.toList_injective hchars)

@[simp] theorem trim_trim (s : String) : trim (trim s) = trim s := by
  simp [trim, trimChars_trimChars]

@[simp] theorem trim?_trim (s : String) : trim? (trim s) = trim? s := by
  simp [trim?]

theorem mem_of_mem_trimChars {c : Char} {cs : List Char} (h : c ∈ trimChars cs) : c ∈ cs := by
  rw [trimChars, dropEndWhile, List.mem_reverse] at h
  have h' := (List.dropWhile_sublist isBlank).subset h
  exact (List.dropWhile_sublist isBlank).subset (List.mem_reverse.mp h')

/-- No part of a text that is split at a character has it. -/
theorem not_mem_of_mem_splitOn {c : Char} {cs part : List Char} (h : part ∈ cs.splitOn c) :
    c ∉ part := by
  induction cs generalizing part with
  | nil =>
    obtain rfl : part = [] := by simpa using h
    simp
  | cons d cs ih =>
    rw [List.splitOn_cons_eq_if_modifyHead] at h
    split at h
    · rcases List.mem_cons.mp h with rfl | h
      · simp
      · exact ih h
    · next hd =>
      obtain ⟨first, rest, hsplit⟩ := List.exists_cons_of_ne_nil (List.splitOn_ne_nil c cs)
      rw [hsplit, List.modifyHead_cons] at h
      rcases List.mem_cons.mp h with rfl | h
      · have hne : c ≠ d := fun heq => hd (by simp [heq])
        simp [hne, ih (hsplit ▸ List.mem_cons_self ..)]
      · exact ih (hsplit ▸ .tail _ h)

/-- A text without blanks at its ends that is not empty. -/
def IsTrimmed (s : String) : Prop := trim s = s ∧ s ≠ ""

theorem IsTrimmed.trim?_eq {s : String} (h : IsTrimmed s) : trim? s = some s := by
  simp [trim?, h.1, h.2]

theorem isTrimmed_of_trim? {s r : String} (h : trim? s = some r) : IsTrimmed r := by
  simp only [trim?] at h
  split at h
  · cases h
  · next hne =>
    obtain rfl := Option.some.inj h
    exact ⟨trim_trim s, by simpa using hne⟩

end MavenPom.Text

namespace MavenPom.Dependency

open Text (IsTrimmed)

/-- What a coordinate's segments give: all texts that are there at all are trimmed, and the names
    have no colon. -/
structure Proper (d : Dependency) : Prop where
  groupId : IsTrimmed d.groupId
  artifactId : IsTrimmed d.artifactId
  version : ∀ v, d.version = some v → IsTrimmed v
  classifier : ∀ c, d.classifier = some c → IsTrimmed c
  packaging : IsTrimmed d.packaging
  scope : IsTrimmed d.scope
  artifactId_colon : ':' ∉ d.artifactId.toList

theorem isTrimmed_of_nonEmpty? {segment r : String} (htrim : Text.trim segment = segment)
    (h : nonEmpty? segment = some r) : IsTrimmed r := by
  unfold nonEmpty? at h
  split at h
  · cases h
  · next hne =>
    obtain rfl := Option.some.inj h
    exact ⟨htrim, by simpa using hne⟩

private theorem isTrimmed_getD {segment : Option String} {fallback : String}
    (htrim : ∀ s, segment = some s → Text.trim s = s) (hfallback : IsTrimmed fallback) :
    IsTrimmed ((segment.bind nonEmpty?).getD fallback) := by
  cases h : segment.bind nonEmpty? with
  | none => exact hfallback
  | some s =>
    obtain ⟨first, hfirst, hs⟩ := Option.bind_eq_some_iff.mp h
    exact isTrimmed_of_nonEmpty? (htrim first hfirst) hs

private theorem proper_of_ofSegments {segments : List String}
    (hsegments : ∀ s ∈ segments, Text.trim s = s) (hcolon : ∀ s ∈ segments, ':' ∉ s.toList)
    {d : Dependency} (h : ofSegments segments = .ok d) : d.Proper := by
  have hcompile : IsTrimmed "compile" := ⟨by decide, by decide⟩
  have hjar : IsTrimmed "jar" := ⟨by decide, by decide⟩
  have hpackaging : ∀ s, Text.trim s = s → IsTrimmed (packagingOf s) := fun s hs =>
    @isTrimmed_getD (some s) _ (by simpa using hs) hjar
  unfold ofSegments at h
  split at h
  · next groupId artifactId version more =>
    split at h
    · cases h
    split at h
    · cases h
    next hnames =>
    simp only [List.mem_cons, forall_eq_or_imp] at hsegments hcolon
    obtain ⟨hgroup, hartifact, hversion, hmore⟩ := hsegments
    have hgroup' : IsTrimmed groupId := ⟨hgroup, fun he => hnames (.inl (by simp [he]))⟩
    have hartifact' : IsTrimmed artifactId := ⟨hartifact, fun he => hnames (.inr (by simp [he]))⟩
    simp only [ofKey] at h
    split at h
    · cases h
      exact ⟨hgroup', hartifact', fun v hv => isTrimmed_of_nonEmpty? hversion hv, by simp, hjar,
        hcompile, hcolon.2.1⟩
    · next last _ =>
      cases h
      exact ⟨hgroup', hartifact', fun v hv => isTrimmed_of_nonEmpty? (hmore last (by simp)) hv,
        by simp, hpackaging version hversion, hcompile, hcolon.2.1⟩
    · next classifier last scope _ =>
      cases h
      exact ⟨hgroup', hartifact', fun v hv => isTrimmed_of_nonEmpty? (hmore last (by simp)) hv,
        fun c hc => isTrimmed_of_nonEmpty? (hmore classifier (by simp)) hc,
        hpackaging version hversion,
        isTrimmed_getD (fun s hs => hmore s (.tail _ (.tail _ (List.mem_of_mem_head? hs))))
        hcompile,
        hcolon.2.1⟩
  · cases h

/-- What a coordinate's text gives is proper. -/
theorem proper_of_parse {text : String} {d : Dependency} (h : parse text = .ok d) : d.Proper := by
  unfold parse at h
  split at h
  · next hsegments =>
    cases h
    refine proper_of_ofSegments (fun s hs => ?_) (fun s hs => ?_) hsegments
    · obtain ⟨field, -, rfl⟩ := List.mem_map.mp hs
      exact Text.trim_trim field
    · obtain ⟨field, hfield, rfl⟩ := List.mem_map.mp hs
      obtain ⟨part, hpart, rfl⟩ := List.mem_map.mp hfield
      intro hmem
      rw [Text.trim, String.toList_ofList] at hmem
      have hmem' := Text.mem_of_mem_trimChars hmem
      rw [String.toList_ofList] at hmem'
      exact Text.not_mem_of_mem_splitOn hpart hmem'
  · cases h

end MavenPom.Dependency
