import MavenPom.Proofs.Text.Fields

/-!
# Coordinates read back

A dependency that has been read from a coordinate can be read again from the one that it is written
as. Classifier and scope are not written. What has a version comes back with it; without a version,
the packaging is the last of three segments and is taken for one.
-/

namespace MavenPom

namespace Text

/-- What begins and ends with trimmed texts is trimmed, whatever stands between them. -/
theorem trim_append_append {front back : String} (hfront : IsTrimmed front) (middle : String)
    (hback : IsTrimmed back) : trim (front ++ middle ++ back) = front ++ middle ++ back := by
  have hchars : ∀ {s : String}, IsTrimmed s → s.toList ≠ [] ∧ trimChars s.toList = s.toList := by
    intro s hs
    refine ⟨fun hnil => hs.2 (String.toList_injective hnil), ?_⟩
    have heq := congrArg String.toList hs.1
    rwa [trim, String.toList_ofList] at heq
  obtain ⟨hne, heq⟩ := hchars hfront
  obtain ⟨hne', heq'⟩ := hchars hback
  have hhead : ∀ c, (front ++ middle ++ back).toList.head? = some c → isBlank c = false := by
    intro c hc
    obtain ⟨first, more, hfirst⟩ := List.exists_cons_of_ne_nil hne
    have hstart : (trimChars front.toList).head? = some c := by
      rw [heq, hfirst]
      simpa [hfirst] using hc
    exact head?_trimChars hstart
  have hlast : ∀ c, (front ++ middle ++ back).toList.getLast? = some c → isBlank c = false := by
    intro c hc
    obtain ⟨last, hsome⟩ := Option.isSome_iff_exists.mp (List.getLast?_isSome.mpr hne')
    rw [String.toList_append, List.getLast?_append, hsome, Option.some_or] at hc
    rw [hc, ← heq', trimChars] at hsome
    exact getLast?_dropEndWhile hsome
  rw [trim, trimChars, dropWhile_eq_self hhead, dropEndWhile_eq_self hlast, String.ofList_toList]

end Text

namespace Dependency

variable {d : Dependency} {text : String} {segments : List String}

/-- What a dependency consists of has been a segment, or is the packaging that stands for none. -/
theorem mem_segments_of_ofSegments (h : ofSegments segments = .ok d) :
    d.groupId ∈ segments ∧ d.artifactId ∈ segments ∧
      (d.packaging ∈ segments ∨ d.packaging = "jar") ∧
      ∀ v ∈ d.version, v ∈ segments := by
  have hself : ∀ {segment v : String}, nonEmpty? segment = some v → v = segment := by
    intro segment v hv
    unfold nonEmpty? at hv
    split at hv
    · cases hv
    · exact (Option.some.inj hv).symm
  have hpackaging : ∀ segment, packagingOf segment = segment ∨ packagingOf segment = "jar" := by
    intro segment
    unfold packagingOf
    cases hsegment : nonEmpty? segment with
    | none => exact .inr rfl
    | some s => exact .inl (hself hsegment)
  unfold ofSegments at h
  split at h
  · next groupId artifactId version more =>
    split at h
    · cases h
    split at h
    · cases h
    simp only [ofKey] at h
    split at h
    · cases h
      refine ⟨by simp, by simp, .inr rfl, fun v hv => ?_⟩
      rw [hself hv]
      simp
    · next last _ =>
      cases h
      refine ⟨by simp, by simp, ?_, fun v hv => ?_⟩
      · exact (hpackaging version).imp_left fun heq => by simp [heq]
      · rw [hself hv]
        simp
    · next classifier last scope _ =>
      cases h
      refine ⟨by simp, by simp, ?_, fun v hv => ?_⟩
      · exact (hpackaging version).imp_left fun heq => by simp [heq]
      · rw [hself hv]
        simp
  · cases h

/-- The texts that are written into a coordinate have no colon. -/
structure Joinable (d : Dependency) : Prop where
  groupId : ':' ∉ d.groupId.toList
  artifactId : ':' ∉ d.artifactId.toList
  packaging : ':' ∉ d.packaging.toList
  version : ∀ v ∈ d.version, ':' ∉ v.toList

theorem joinable_of_parse (h : parse text = .ok d) : d.Joinable := by
  unfold parse at h
  split at h
  · next hsegments =>
    cases h
    have hcolon : ∀ s ∈ (Text.fields ':' (Text.trim text)).map Text.trim, ':' ∉ s.toList := by
      intro s hs hmem
      obtain ⟨field, hfield, rfl⟩ := List.mem_map.mp hs
      rw [Text.trim, String.toList_ofList] at hmem
      exact Text.not_mem_of_mem_fields hfield (Text.mem_of_mem_trimChars hmem)
    obtain ⟨hgroup, hartifact, hpackaging, hversion⟩ := mem_segments_of_ofSegments hsegments
    refine ⟨hcolon _ hgroup, hcolon _ hartifact, ?_, fun v hv => hcolon v (hversion v hv)⟩
    rcases hpackaging with hmem | heq
    · exact hcolon _ hmem
    · rw [heq]
      decide
  · cases h

/-- The segments of the coordinate that a dependency is written as. -/
theorem fields_coordinate (h : d.Joinable) :
    Text.fields ':' d.coordinate = [d.groupId, d.artifactId, d.packaging] ++ d.version.toList := by
  have hsingle : ":" = String.singleton ':' := rfl
  have hnames : Text.fields ':' (d.groupId ++ ":" ++ d.artifactId ++ ":" ++ d.packaging) =
      [d.groupId, d.artifactId, d.packaging] := by
    rw [hsingle, Text.fields_append, Text.fields_append, Text.fields_eq_singleton h.groupId,
      Text.fields_eq_singleton h.artifactId, Text.fields_eq_singleton h.packaging]
    rfl
  unfold coordinate
  cases hversion : d.version with
  | none => simpa using hnames
  | some v =>
    dsimp only
    rw [← String.append_assoc, hsingle, Text.fields_append, ← hsingle, hnames,
      Text.fields_eq_singleton (h.version v hversion)]
    rfl

theorem trim_coordinate (h : d.Proper) : Text.trim d.coordinate = d.coordinate := by
  unfold coordinate
  cases hversion : d.version with
  | none =>
    have htrim := Text.trim_append_append h.groupId (":" ++ d.artifactId ++ ":") h.packaging
    simpa only [String.append_assoc, String.append_empty] using htrim
  | some v =>
    have htrim := Text.trim_append_append h.groupId
      (":" ++ d.artifactId ++ ":" ++ d.packaging ++ ":") (h.version v hversion)
    simpa only [String.append_assoc] using htrim

/-- A coordinate is read as the segments that are written into it. -/
theorem parse_coordinate_eq (h : d.Proper) (hjoin : d.Joinable) :
    parse d.coordinate =
      (ofSegments ([d.groupId, d.artifactId, d.packaging] ++ d.version.toList)).mapError
        (.invalidCoordinate d.coordinate) := by
  have hmap : ([d.groupId, d.artifactId, d.packaging] ++ d.version.toList).map Text.trim =
      [d.groupId, d.artifactId, d.packaging] ++ d.version.toList := by
    refine (List.map_congr_left fun s hs => ?_).trans (List.map_id _)
    rcases List.mem_append.mp hs with hs | hs
    · simp only [List.mem_cons, List.not_mem_nil, or_false] at hs
      rcases hs with rfl | rfl | rfl
      · exact h.groupId.1
      · exact h.artifactId.1
      · exact h.packaging.1
    · exact (h.version s (Option.mem_toList.mp hs)).1
  rw [parse, trim_coordinate h, fields_coordinate hjoin, hmap]
  cases ofSegments ([d.groupId, d.artifactId, d.packaging] ++ d.version.toList) <;> rfl

/-- A dependency with a version is read again from its coordinate, but for its classifier and its
scope. One without a version is read as one at the version that its packaging spells. -/
theorem parse_coordinate_of_parse (h : parse text = .ok d) :
    (d.version ≠ none →
      parse d.coordinate = .ok { d with classifier := none, scope := "compile" }) ∧
    (d.version = none → parse d.coordinate = .ok (ofKey d.key (some d.packaging))) := by
  have hproper := proper_of_parse h
  have hread := parse_coordinate_eq hproper (joinable_of_parse h)
  have hgiven : ∀ {s : String}, Text.IsTrimmed s → nonEmpty? s = some s := by
    intro s hs
    simp [nonEmpty?, hs.2]
  have hnames : ¬(d.groupId.isEmpty = true ∨ d.artifactId.isEmpty = true) := by
    simp [hproper.groupId.2, hproper.artifactId.2]
  have hpackaging := hgiven hproper.packaging
  cases hversion : d.version with
  | none =>
    refine ⟨fun hne => absurd rfl hne, fun _ => ?_⟩
    rw [hread, hversion, Option.toList_none, List.append_nil, ofSegments, if_neg (by simp),
      if_neg hnames, hpackaging]
    rfl
  | some v =>
    refine ⟨fun _ => ?_, fun hnone => nomatch hnone⟩
    have hv := hgiven (hproper.version v hversion)
    rw [hread, hversion, Option.toList_some, List.cons_append, List.cons_append, List.cons_append,
      List.nil_append, ofSegments, if_neg (by simp), if_neg hnames, packagingOf, hpackaging]
    dsimp only
    rw [hv, Option.getD_some]
    rfl

/-- Classifier and scope are lost, and blanks are not written. -/
theorem parse_coordinate_tests : parse " g : a : test-jar : tests : 1.0 : test " =
      .ok ⟨"g", "a", some "1.0", some "tests", "test-jar", "test"⟩ ∧
    parse (coordinate ⟨"g", "a", some "1.0", some "tests", "test-jar", "test"⟩) =
      .ok ⟨"g", "a", some "1.0", none, "test-jar", "compile"⟩ := by
  have hparse : parse " g : a : test-jar : tests : 1.0 : test " =
      .ok ⟨"g", "a", some "1.0", some "tests", "test-jar", "test"⟩ := by decide +kernel
  exact ⟨hparse, (parse_coordinate_of_parse hparse).1 (by simp)⟩

/-- The coordinate of a dependency without a version is read as one with a version. -/
theorem parse_coordinate_unversioned : parse "g:a:" = .ok (ofKey ⟨"g", "a"⟩ none) ∧
    coordinate (ofKey ⟨"g", "a"⟩ none) = "g:a:jar" ∧
    parse "g:a:jar" = .ok (ofKey ⟨"g", "a"⟩ (some "jar")) :=
  ⟨by decide +kernel, by decide, by decide +kernel⟩

end Dependency

end MavenPom
