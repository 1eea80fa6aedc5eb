import MavenPom.Maven.DependencyTree
import MavenPom.Proofs.Text.Fields

/-!
# Dependency trees read back

A forest of dependencies, as it is drawn below the coordinate of a project, is read as the entries
that it has, each in front of those below it. This is so for the lines by themselves, and for those
of a log, where a heading stands before the tree and a line of dashes ends it.
-/

namespace MavenPom

/-! ## What is drawn -/

/-- A part of a coordinate in a tree. -/
structure IsSegment (s : String) : Prop where
  nonempty : s ≠ ""
  chars : ∀ c ∈ s.toList, Text.isBlank c = false ∧ c ≠ ':' ∧ c ≠ '('

/-- The name of a group in a tree: it begins neither like a branch nor like the mark of a log. -/
structure IsGroup (s : String) : Prop extends IsSegment s where
  first : ∀ c ∈ s.toList.head?, TreeEntry.isBranch c = false ∧ c ≠ '['

instance (s : String) : Decidable (IsSegment s) :=
  decidable_of_iff
    (s ≠ "" ∧ (s.toList.all fun c => decide (Text.isBlank c = false ∧ c ≠ ':' ∧ c ≠ '(')) = true)
    (by
      simp only [List.all_eq_true, decide_eq_true_eq]
      exact ⟨fun h => ⟨h.1, h.2⟩, fun h => ⟨h.nonempty, h.chars⟩⟩)

instance (s : String) : Decidable (IsGroup s) :=
  decidable_of_iff (IsSegment s ∧
      (s.toList.head?.all fun c => decide (TreeEntry.isBranch c = false ∧ c ≠ '[')) = true)
    (by
      simp only [Option.all_eq_true, decide_eq_true_eq]
      exact ⟨fun h => ⟨h.1, h.2⟩, fun h => ⟨h.toIsSegment, h.first⟩⟩)

/-- A coordinate as it is drawn. -/
def drawnParts (parts : List String) : List Char := [':'].intercalate (parts.map String.toList)

/-- A dependency that can be drawn in a tree. -/
structure TreeNode where
  groupId : String
  artifactId : String
  packaging : String
  classifier : Option String
  version : String
  scope : String
  optional : Bool
  isGroup : IsGroup groupId
  isSegment : ∀ s ∈ [artifactId, packaging] ++ classifier.toList ++ [version, scope], IsSegment s

/-- The coordinate of the project that a tree is drawn below, with three to five parts behind the
group. -/
structure TreeRoot where
  groupId : String
  more : List String
  isGroup : IsGroup groupId
  isSegment : ∀ s ∈ more, IsSegment s
  length_more : more.length ∈ [3, 4, 5]

namespace TreeNode

def parts (n : TreeNode) : List String :=
  n.groupId :: ([n.artifactId, n.packaging] ++ n.classifier.toList ++ [n.version, n.scope])

/-- The dependency that a node stands for. -/
def dependency (n : TreeNode) : Dependency :=
  ⟨n.groupId, n.artifactId, some n.version, n.classifier, n.packaging, n.scope⟩

/-- A node as it is drawn behind its branches. -/
def body (n : TreeNode) : List Char :=
  drawnParts n.parts ++ if n.optional then " (optional)".toList else []

end TreeNode

/-- A forest in order: its first tree, by the root and the forest below that, and
    the other trees. -/
inductive DependencyForest where
  | nil
  | cons (first : TreeNode) (below rest : DependencyForest)

namespace DependencyForest

/-- The entries of a forest at a depth, each in front of those below it. -/
def entries (depth : Nat) : DependencyForest → List TreeEntry
  | nil => []
  | cons first below rest =>
    ⟨first.dependency, depth + 1, first.optional⟩ ::
      (below.entries (depth + 1) ++ rest.entries depth)

/-- The branch to a root, with the trees behind it. -/
def branch : DependencyForest → List Char
  | nil => "\\- ".toList
  | cons .. => "+- ".toList

/-- What is drawn on the lines below that root. -/
def margin : DependencyForest → List Char
  | nil => "   ".toList
  | cons .. => "|  ".toList

/-- The lines of a forest, with what is drawn to the left of it. -/
def lines (left : List Char) : DependencyForest → List (List Char)
  | nil => []
  | cons first below rest =>
    (left ++ rest.branch ++ first.body) ::
      (below.lines (left ++ rest.margin) ++ rest.lines left)

/-- The lines of a tree: the project's coordinate, and the forest of its dependencies. -/
def drawn (root : TreeRoot) (forest : DependencyForest) : List (List Char) :=
  drawnParts (root.groupId :: root.more) :: forest.lines []

end DependencyForest

/-! ## Coordinates -/

section Coordinates

variable {parts : List String}

theorem isBlank_of_mem_drawnParts (h : ∀ s ∈ parts, IsSegment s) {c : Char}
    (hc : c ∈ drawnParts parts) : Text.isBlank c = false ∧ c ≠ '(' := by
  rcases Text.eq_or_mem_of_mem_intercalate hc with rfl | ⟨part, hpart, hc⟩
  · decide
  · obtain ⟨s, hs, rfl⟩ := List.mem_map.mp hpart
    obtain ⟨hblank, -, hparen⟩ := (h s hs).chars c hc
    exact ⟨hblank, hparen⟩

/-- A coordinate begins with the first character of its first part. -/
theorem head?_drawnParts {s : String} (h : IsSegment s) (more : List String) :
    (drawnParts (s :: more)).head? = s.toList.head? ∧ drawnParts (s :: more) ≠ [] := by
  have hne : s.toList ≠ [] := fun hnil => h.nonempty (String.toList_injective hnil)
  obtain ⟨c, cs, hcs⟩ := List.exists_cons_of_ne_nil hne
  unfold drawnParts
  cases more with
  | nil => simp [hcs]
  | cons => simp [hcs, List.intercalate_cons_cons]

theorem fields_drawnParts (hne : parts ≠ []) (h : ∀ s ∈ parts, IsSegment s) :
    Text.fields ':' (String.ofList (drawnParts parts)) = parts := by
  have hcolon : ∀ cs ∈ parts.map String.toList, ':' ∉ cs := by
    intro cs hcs hmem
    obtain ⟨s, hs, rfl⟩ := List.mem_map.mp hcs
    exact ((h s hs).chars ':' hmem).2.1 rfl
  rw [Text.fields, String.toList_ofList, drawnParts,
    List.splitOn_intercalate ':' hcolon (by simpa using hne), List.map_map]
  simp

/-- What is drawn as a coordinate is read as one, if a blank stands behind it or nothing at all. -/
theorem TreeEntry.coordinate?_drawnParts (hne : parts ≠ []) (h : ∀ s ∈ parts, IsSegment s)
    {rest : List Char} (hrest : ∀ c ∈ rest.head?, Text.isBlank c = true) :
    coordinate? (drawnParts parts ++ rest) = ofParts? parts := by
  have hdrawn : drawnParts parts ≠ [] := by
    obtain ⟨s, more, rfl⟩ := List.exists_cons_of_ne_nil hne
    exact (head?_drawnParts (h s List.mem_cons_self) more).2
  have hword := Text.head?_words hdrawn
    (fun c hc => (isBlank_of_mem_drawnParts h hc).1) hrest
  have hempty : ¬parts.contains "" = true := fun hmem =>
    (h "" (List.contains_iff_mem.mp hmem)).nonempty rfl
  rw [coordinate?, hword, Option.bind_some, fields_drawnParts hne h, if_neg hempty]

end Coordinates

namespace TreeNode

variable (n : TreeNode)

theorem isSegment_parts : ∀ s ∈ n.parts, IsSegment s :=
  List.forall_mem_cons.mpr ⟨n.isGroup.toIsSegment, n.isSegment⟩

theorem ofParts?_parts : TreeEntry.ofParts? n.parts = some n.dependency := by
  unfold parts dependency
  cases n.classifier <;> rfl

theorem coordinate?_body : TreeEntry.coordinate? n.body = some n.dependency := by
  rw [← n.ofParts?_parts, body]
  refine TreeEntry.coordinate?_drawnParts (by simp [parts]) n.isSegment_parts fun c hc => ?_
  split at hc
  · obtain rfl : ' ' = c := by simpa using hc
    decide
  · cases hc

/-- A node is drawn as optional exactly if it is. -/
theorem contains_body : Text.contains "(optional" n.body = n.optional := by
  unfold body
  cases n.optional with
  | true =>
    have hcontains := Text.contains_append "(optional" (drawnParts n.parts ++ [' ']) [')']
    simpa using hcontains
  | false =>
    refine Text.contains_eq_false (c := '(') (by decide) fun hc => ?_
    rw [if_neg (by simp), List.append_nil] at hc
    exact (isBlank_of_mem_drawnParts n.isSegment_parts hc).2 rfl

theorem head?_body : ∃ c rest, n.body = c :: rest ∧ TreeEntry.isBranch c = false := by
  obtain ⟨hhead, hne⟩ := head?_drawnParts n.isGroup.toIsSegment
    ([n.artifactId, n.packaging] ++ n.classifier.toList ++ [n.version, n.scope])
  obtain ⟨c, rest, hcs⟩ := List.exists_cons_of_ne_nil hne
  refine ⟨c, rest ++ if n.optional then " (optional)".toList else [], ?_, ?_⟩
  · rw [body, parts, hcs]
    rfl
  · rw [hcs] at hhead
    exact (n.isGroup.first c hhead.symm).1

/-- A node ends neither in a blank nor in a line end, and has no line feed. -/
theorem getLast?_body : (∀ c ∈ n.body.getLast?, Text.isBlank c = false) ∧ '\n' ∉ n.body := by
  have hdrawn : ∀ c ∈ drawnParts n.parts, Text.isBlank c = false := fun c hc =>
    (isBlank_of_mem_drawnParts n.isSegment_parts hc).1
  have hfeed : '\n' ∉ drawnParts n.parts := fun hc => by
    cases (by decide : Text.isBlank '\n' = true).symm.trans (hdrawn _ hc)
  unfold body
  cases n.optional with
  | true =>
    refine ⟨fun c hc => ?_, by simpa using hfeed⟩
    obtain rfl : ')' = c := by simpa [List.getLast?_append] using hc
    decide
  | false =>
    refine ⟨fun c hc => hdrawn c ?_, by simpa using hfeed⟩
    exact List.mem_of_getLast? (by simpa using hc)

end TreeNode

namespace TreeEntry

/-! ## Marks of a log -/

/-- A carriage return at the end of a line is not seen. -/
theorem unlogged_append_return (line : List Char) : unlogged (line ++ ['\r']) = unlogged line := by
  have hblank : Text.isBlank '\r' = true := by decide
  rw [unlogged, unlogged, Text.strip?_append_singleton (by decide),
    Text.strip?_append_singleton (by decide)]
  cases Text.strip? "[INFO] ".toList line with
  | some rest => exact Text.dropEndWhile_append_singleton hblank rest
  | none =>
    cases Text.strip? "[INFO]".toList line with
    | some rest => exact Text.dropEndWhile_append_singleton hblank rest
    | none => exact Text.dropEndWhile_append_singleton hblank line

/-- The mark of a log is taken off. -/
theorem unlogged_logged {line : List Char} (h : ∀ c ∈ line.getLast?, Text.isBlank c = false) :
    unlogged ("[INFO] ".toList ++ line) = line := by
  have hstrip : Text.strip? "[INFO] ".toList ("[INFO] ".toList ++ line) = some line :=
    Text.strip?_eq_some_iff.mpr rfl
  rw [unlogged, hstrip]
  exact Text.dropEndWhile_eq_self h

/-- What does not begin with a bracket has no mark. -/
theorem unlogged_eq_self {line : List Char} (hfirst : ∀ c ∈ line.head?, c ≠ '[')
    (h : ∀ c ∈ line.getLast?, Text.isBlank c = false) : unlogged line = line := by
  have hstrip : ∀ more : List Char, Text.strip? ('[' :: more) line = none := by
    intro more
    cases line with
    | nil => rfl
    | cons c cs => exact if_neg (hfirst c rfl).symm
  rw [unlogged, show "[INFO] ".toList = '[' :: "INFO] ".toList from rfl,
    show "[INFO]".toList = '[' :: "INFO]".toList from rfl, hstrip, hstrip]
  exact Text.dropEndWhile_eq_self h

/-! ## Lines below the project -/

variable {es : List TreeEntry} {more : List (List Char)}

/-- A line is read as its node, as deep as its branches are long. -/
theorem ofLines_cons {branches : List Char} (hne : branches ≠ [])
    (hbranches : ∀ c ∈ branches, isBranch c = true) (n : TreeNode) (hmore : ofLines more = .ok es) :
    ofLines ((branches ++ n.body) :: more) =
      .ok (⟨n.dependency, branches.length / 3, n.optional⟩ :: es) := by
  obtain ⟨c, rest, hbody, hc⟩ := n.head?_body
  have htake : (branches ++ n.body).takeWhile isBranch = branches := by
    rw [List.takeWhile_append_of_pos hbranches, hbody]
    simp [hc]
  have hdrop : (branches ++ n.body).dropWhile isBranch = n.body := by
    rw [List.dropWhile_append_of_pos hbranches, hbody]
    simp [hc]
  rw [ofLines]
  simp only [htake, hdrop]
  rw [if_neg (by simp [hne, hbody]), n.coordinate?_body]
  simp only [hmore, n.contains_body]
  rfl

/-- Dashes end a tree. -/
theorem ofLines_of_branches {line : List Char} (h : ∀ c ∈ line, isBranch c = true) :
    ofLines (line :: more) = .ok [] := by
  rw [ofLines]
  simp only [List.dropWhile_eq_nil_iff.mpr h]
  exact if_pos (.inr rfl)

end TreeEntry

namespace DependencyForest

open TreeEntry

theorem branch_spec (forest : DependencyForest) :
    forest.branch.length = 3 ∧ ∀ c ∈ forest.branch, isBranch c = true := by
  have hnil : ∀ c ∈ "\\- ".toList, isBranch c = true := List.all_eq_true.mp (by decide)
  have hcons : ∀ c ∈ "+- ".toList, isBranch c = true := List.all_eq_true.mp (by decide)
  cases forest with
  | nil => exact ⟨rfl, hnil⟩
  | cons => exact ⟨rfl, hcons⟩

theorem margin_spec (forest : DependencyForest) :
    forest.margin.length = 3 ∧ ∀ c ∈ forest.margin, isBranch c = true := by
  have hnil : ∀ c ∈ "   ".toList, isBranch c = true := List.all_eq_true.mp (by decide)
  have hcons : ∀ c ∈ "|  ".toList, isBranch c = true := List.all_eq_true.mp (by decide)
  cases forest with
  | nil => exact ⟨rfl, hnil⟩
  | cons => exact ⟨rfl, hcons⟩

/-- A forest is read as its entries, wherever it stands in a tree and whatever is read below. -/
theorem ofLines_lines (forest : DependencyForest) {left : List Char} {depth : Nat}
    (hlength : left.length = 3 * depth) (hleft : ∀ c ∈ left, isBranch c = true)
    {more : List (List Char)} {es : List TreeEntry} (hmore : ofLines more = .ok es) :
    ofLines (forest.lines left ++ more) = .ok (forest.entries depth ++ es) := by
  induction forest generalizing left depth more es with
  | nil => exact hmore
  | cons first below rest ihbelow ihrest =>
    obtain ⟨hbranch, hbranches⟩ := rest.branch_spec
    obtain ⟨hmargin, hmargins⟩ := rest.margin_spec
    have hlengths : (left ++ rest.branch).length / 3 = depth + 1 := by
      rw [List.length_append]
      omega
    have hdeeper : (left ++ rest.margin).length = 3 * (depth + 1) := by
      rw [List.length_append]
      omega
    have hbelow := ihbelow hdeeper
      (fun c hc => (List.mem_append.mp hc).elim (hleft c) (hmargins c))
      (ihrest hlength hleft hmore)
    have hne : left ++ rest.branch ≠ [] := by
      intro hnil
      rw [(List.append_eq_nil_iff.mp hnil).2] at hbranch
      cases hbranch
    have hread := ofLines_cons hne
      (fun c hc => (List.mem_append.mp hc).elim (hleft c) (hbranches c)) first hbelow
    rw [hlengths] at hread
    simpa only [lines, entries, List.cons_append, List.append_assoc] using hread

/-- Every line of a forest is a node behind branches. -/
theorem exists_of_mem_lines (forest : DependencyForest) {left line : List Char}
    (hleft : ∀ c ∈ left, isBranch c = true) (h : line ∈ forest.lines left) :
    ∃ (branches : List Char) (n : TreeNode), branches ≠ [] ∧
      (∀ c ∈ branches, isBranch c = true) ∧ line = branches ++ n.body := by
  induction forest generalizing left with
  | nil => cases h
  | cons first below rest ihbelow ihrest =>
    obtain ⟨hbranch, hbranches⟩ := rest.branch_spec
    obtain ⟨-, hmargins⟩ := rest.margin_spec
    rcases List.mem_cons.mp h with rfl | h
    · refine ⟨left ++ rest.branch, first, fun hnil => ?_, fun c hc =>
        (List.mem_append.mp hc).elim (hleft c) (hbranches c), rfl⟩
      rw [(List.append_eq_nil_iff.mp hnil).2] at hbranch
      cases hbranch
    · rcases List.mem_append.mp h with h | h
      · exact ihbelow (fun c hc => (List.mem_append.mp hc).elim (hleft c) (hmargins c)) h
      · exact ihrest hleft h

/-- The lines of a tree have no mark and no line end. -/
theorem plain_of_mem_drawn {root : TreeRoot} {forest : DependencyForest} {line : List Char}
    (h : line ∈ forest.drawn root) :
    (∀ c ∈ line.head?, c ≠ '[') ∧ (∀ c ∈ line.getLast?, Text.isBlank c = false) ∧ '\n' ∉ line := by
  rcases List.mem_cons.mp h with rfl | h
  · have hparts : ∀ s ∈ root.groupId :: root.more, IsSegment s :=
      List.forall_mem_cons.mpr ⟨root.isGroup.toIsSegment, root.isSegment⟩
    refine ⟨fun c hc => ?_, fun c hc =>
      (isBlank_of_mem_drawnParts hparts (List.mem_of_getLast? hc)).1, fun hfeed => ?_⟩
    · rw [(head?_drawnParts root.isGroup.toIsSegment root.more).1] at hc
      exact (root.isGroup.first c hc).2
    · cases (by decide : Text.isBlank '\n' = true).symm.trans
        (isBlank_of_mem_drawnParts hparts hfeed).1
  · obtain ⟨branches, n, hne, hbranches, rfl⟩ := forest.exists_of_mem_lines (by simp) h
    obtain ⟨hlast, hfeed⟩ := n.getLast?_body
    obtain ⟨c, cs, hbody, -⟩ := n.head?_body
    refine ⟨fun c hc hbracket => ?_, fun c hc => hlast c ?_, fun hmem => ?_⟩
    · obtain ⟨b, bs, hbs⟩ := List.exists_cons_of_ne_nil hne
      rw [hbs, List.cons_append, List.head?_cons] at hc
      obtain rfl := Option.some.inj hc
      have hnot := hbranches b (hbs ▸ List.mem_cons_self)
      rw [hbracket] at hnot
      revert hnot
      decide
    · rw [List.getLast?_append, hbody] at hc
      rw [hbody]
      simpa using hc
    · rcases List.mem_append.mp hmem with hmem | hmem
      · have hnot := hbranches _ hmem
        revert hnot
        decide
      · exact hfeed hmem

theorem coordinate?_root (root : TreeRoot) :
    ∃ d, coordinate? (drawnParts (root.groupId :: root.more)) = some d := by
  have hparts : ∀ s ∈ root.groupId :: root.more, IsSegment s :=
    List.forall_mem_cons.mpr ⟨root.isGroup.toIsSegment, root.isSegment⟩
  have hread : coordinate? (drawnParts (root.groupId :: root.more) ++ []) =
      ofParts? (root.groupId :: root.more) :=
    coordinate?_drawnParts (List.cons_ne_nil _ _) hparts (by simp)
  rw [List.append_nil] at hread
  rw [hread]
  have hlength := root.length_more
  match root.more, hlength with
  | [_, _, _], _ => exact ⟨_, rfl⟩
  | [_, _, _, _], _ => exact ⟨_, rfl⟩
  | [_, _, _, _, _], _ => exact ⟨_, rfl⟩

/-! ## Trees -/

/-- The lines of a log in front of a tree: a heading, with lines that are none before it, and lines
without a coordinate behind it. -/
def IsPreamble (ls : List (List Char)) : Prop :=
  (∀ line ∈ ls, '\n' ∉ line) ∧ ∃ front heading between, ls = front ++ heading :: between ∧
    (∀ line ∈ front, isHeading (unlogged line) = false) ∧ isHeading (unlogged heading) = true ∧
    ∀ line ∈ between, coordinate? (unlogged line) = none

/-- Of lines without a coordinate, one has to be a heading. -/
theorem isPreamble_of_forall {ls : List (List Char)}
    (h : ∀ line ∈ ls, '\n' ∉ line ∧ coordinate? (unlogged line) = none)
    (hheading : ∃ line ∈ ls, isHeading (unlogged line) = true) : IsPreamble ls := by
  refine ⟨fun line hline => (h line hline).1, ?_⟩
  induction ls with
  | nil => simp at hheading
  | cons line ls ih =>
    obtain ⟨-, hls⟩ := List.forall_mem_cons.mp h
    cases hline : isHeading (unlogged line) with
    | true =>
      exact ⟨[], line, ls, rfl, by simp, hline, fun other hother => (hls other hother).2⟩
    | false =>
      obtain ⟨front, heading, between, rfl, hfront, hrest⟩ :=
        ih hls (by simpa [hline] using hheading)
      exact ⟨line :: front, heading, between, rfl, List.forall_mem_cons.mpr ⟨hline, hfront⟩, hrest⟩

theorem afterHeading_eq_self {ls : List (List Char)} (h : ∀ line ∈ ls, isHeading line = false) :
    afterHeading ls = ls := by
  have hdrop : ls.dropWhile (!isHeading ·) = [] :=
    List.dropWhile_eq_nil_iff.mpr fun line hline => by rw [h line hline]; rfl
  rw [afterHeading, hdrop]

theorem afterHeading_append {front rest : List (List Char)} {heading : List Char}
    (hfront : ∀ line ∈ front, isHeading line = false) (hheading : isHeading heading = true) :
    afterHeading (front ++ heading :: rest) = rest := by
  rw [afterHeading, List.dropWhile_append_of_pos fun line hline => by rw [hfront line hline]; rfl,
    List.dropWhile_cons_of_neg (by simp [hheading])]

/-- A tree is read from its first line on. -/
theorem parse_of_lines {text : String} (root : TreeRoot) (forest : DependencyForest)
    {between more : List (List Char)} (hbetween : ∀ line ∈ between, coordinate? line = none)
    (hlines : afterHeading ((Text.lines text).map unlogged) =
      between ++ forest.drawn root ++ more) (hmore : ofLines more = .ok []) :
    parse text = .ok (forest.entries 0) := by
  obtain ⟨d, hroot⟩ := coordinate?_root root
  have hdrop : (between ++ forest.drawn root ++ more).dropWhile (fun line =>
      (coordinate? line).isNone) = forest.drawn root ++ more := by
    rw [List.append_assoc, List.dropWhile_append_of_pos fun line hline => by
      rw [hbetween line hline]; rfl]
    simp [drawn, hroot]
  rw [parse]
  simp only [hlines, hdrop]
  have hread : ofLines (forest.lines [] ++ more) = .ok (forest.entries 0 ++ []) :=
    forest.ofLines_lines rfl (by simp) hmore
  rwa [List.append_nil] at hread

/-- A tree is read back from its lines, of which none may be a heading, and from a log of them, down
to a line of dashes. -/
theorem parse_drawn (root : TreeRoot) (forest : DependencyForest) (e : Text.LineEnd) :
    ((∀ line ∈ forest.drawn root, isHeading line = false) →
      parse (String.ofList (Text.joinLines e (forest.drawn root))) = .ok (forest.entries 0)) ∧
    ∀ (preamble : List (List Char)) (dashes : Nat) (after : List Char), IsPreamble preamble →
      parse (String.ofList (Text.joinLines e (preamble ++
        (forest.drawn root).map ("[INFO] ".toList ++ ·) ++
        ["[INFO] ".toList ++ List.replicate dashes '-']) ++ after)) = .ok (forest.entries 0) := by
  have hfeed : ∀ line ∈ forest.drawn root, '\n' ∉ line := fun line hline =>
    (plain_of_mem_drawn hline).2.2
  constructor
  · intro hheading
    have hself : (forest.drawn root).map unlogged = forest.drawn root :=
      (List.map_congr_left fun line hline => unlogged_eq_self (plain_of_mem_drawn hline).1
        (plain_of_mem_drawn hline).2.1).trans (List.map_id _)
    have hlines := Text.map_lines_joinLines unlogged_append_return e hfeed []
    rw [List.append_nil, show Text.lines (String.ofList []) = [] from rfl, List.map_nil,
      List.append_nil, hself] at hlines
    have hnone : ∀ line ∈ ([] : List (List Char)), coordinate? line = none := by simp
    have hmore : ofLines [] = .ok [] := rfl
    refine parse_of_lines root forest hnone ?_ hmore
    rw [hlines, afterHeading_eq_self hheading]
    simp
  · rintro preamble dashes after ⟨hfeeds, front, heading, between, rfl, hfront, hheading, hbetween⟩
    have hdashes : ∀ c ∈ List.replicate dashes '-', c = '-' := fun c hc =>
      List.eq_of_mem_replicate hc
    have hlogged : (forest.drawn root).map (unlogged ∘ ("[INFO] ".toList ++ ·)) =
        forest.drawn root :=
      (List.map_congr_left fun line hline =>
        unlogged_logged (plain_of_mem_drawn hline).2.1).trans (List.map_id _)
    have hend : unlogged ("[INFO] ".toList ++ List.replicate dashes '-') =
        List.replicate dashes '-' := by
      refine unlogged_logged fun c hc => ?_
      rw [hdashes c (List.mem_of_getLast? hc)]
      decide
    have hmark : '\n' ∉ "[INFO] ".toList := by decide
    have hplain : ∀ line ∈ (front ++ heading :: between) ++
        (forest.drawn root).map ("[INFO] ".toList ++ ·) ++
        ["[INFO] ".toList ++ List.replicate dashes '-'], '\n' ∉ line := by
      intro line hline
      rcases List.mem_append.mp hline with hline | hline
      · rcases List.mem_append.mp hline with hline | hline
        · exact hfeeds line hline
        · obtain ⟨drawnLine, hdrawn, rfl⟩ := List.mem_map.mp hline
          simpa [hmark] using hfeed drawnLine hdrawn
      · rw [List.mem_singleton.mp hline, List.mem_append]
        rintro (hmem | hmem)
        · exact hmark hmem
        · cases hdashes _ hmem
    have hnone : ∀ line ∈ between.map unlogged, coordinate? line = none := by
      simpa using hbetween
    have hmore : ofLines (List.replicate dashes '-' ::
        (Text.lines (String.ofList after)).map unlogged) = .ok [] :=
      ofLines_of_branches fun c hc => by rw [hdashes c hc]; decide
    refine parse_of_lines root forest hnone ?_ hmore
    rw [Text.map_lines_joinLines unlogged_append_return e hplain after]
    simp only [List.map_append, List.map_cons, List.map_map, List.map_nil, hlogged, hend,
      List.append_assoc, List.cons_append, List.nil_append]
    exact afterHeading_append (by simpa using hfront) hheading

section Sample

/-- The project `g:a` with two dependencies, the first of which has an optional one. -/
def sampleRoot : TreeRoot := ⟨"g", ["a", "jar", "1"], by decide, by decide, by decide⟩

def sample : DependencyForest :=
  .cons ⟨"g", "b", "jar", none, "2", "compile", false, by decide, by decide⟩
    (.cons ⟨"g", "c", "jar", some "tests", "3", "test", true, by decide, by decide⟩ .nil .nil)
    (.cons ⟨"h", "d", "pom", none, "4", "runtime", false, by decide, by decide⟩ .nil .nil)

/-- The lines of this tree. -/
def sampleLines : List String :=
  ["g:a:jar:1", "+- g:b:jar:2:compile", "|  \\- g:c:jar:tests:3:test (optional)",
    "\\- h:d:pom:4:runtime"]

/-- A log of them, behind a heading. -/
def sampleLog : List String :=
  ["Scanning", "--- maven-dependency-plugin:3:tree @ a ---"] ++ sampleLines ++ ["----"]

/-- The tree is read from its lines, and from the log, whatever stands behind it. -/
theorem parse_drawn_sample :
    parse (String.join (sampleLines.map (· ++ "\n"))) = .ok (sample.entries 0) ∧
    parse (String.join (sampleLog.map ("[INFO] " ++ · ++ "\r\n")) ++ "[INFO] g:x:jar:5") =
      .ok (sample.entries 0) ∧
    sample.entries 0 = [⟨⟨"g", "b", some "2", none, "jar", "compile"⟩, 1, false⟩,
      ⟨⟨"g", "c", some "3", some "tests", "jar", "test"⟩, 2, true⟩,
      ⟨⟨"h", "d", some "4", none, "pom", "runtime"⟩, 1, false⟩] := by
  refine ⟨?_, ?_, rfl⟩
  · have hread := (parse_drawn sampleRoot sample .feed).1 (by decide +kernel)
    rwa [show String.ofList _ = String.join (sampleLines.map (· ++ "\n")) by
      decide +kernel] at hread
  · have hread := (parse_drawn sampleRoot sample .returnFeed).2
      ["[INFO] Scanning".toList, "[INFO] --- maven-dependency-plugin:3:tree @ a ---".toList] 4
      "[INFO] g:x:jar:5".toList (isPreamble_of_forall (by decide +kernel) (by decide +kernel))
    rwa [show String.ofList _ = String.join (sampleLog.map ("[INFO] " ++ · ++ "\r\n")) ++
      "[INFO] g:x:jar:5" by decide +kernel] at hread

end Sample

end DependencyForest

end MavenPom
