import MavenPom.Proofs.Files.Write

/-!
# Walking along paths

What a path names is found by walking from directory to directory. Where directories stay, so does
the way, whatever is made beside it. All that a way goes through on its way down are directories.
-/

namespace MavenPom

namespace FileTree

variable {t t' : FileTree} {here l : Location} {segment : String} {segments : List String}

theorem enter_eq_ok : t.enter here segment = .ok l ↔
    t.isDirectoryAt here = true ∧ segment.utf8ByteSize ≤ nameLimit ∧ l = here.step segment := by
  rw [enter, isDirectoryAt]
  cases t.entry? here with
  | none => simp
  | some entry =>
    cases entry with
    | file content => simp
    | directory =>
      by_cases hlimit : nameLimit < segment.utf8ByteSize
      · simp [hlimit, Nat.not_le_of_lt hlimit]
      · simp [hlimit, Nat.le_of_not_lt hlimit, eq_comm]

theorem foldlM_enter_cons : (segment :: segments).foldlM t.enter here = .ok l ↔
    ∃ next, t.enter here segment = .ok next ∧ segments.foldlM t.enter next = .ok l := by
  rw [List.foldlM_cons]
  cases t.enter here segment with
  | error cause => simp [bind, Except.bind]
  | ok next => simp [bind, Except.bind]

/-- An empty segment leads nowhere else. -/
theorem enter_empty_bind (t : FileTree) (here : Location) (segment : String) :
    (t.enter here "" >>= fun l => t.enter l segment) = t.enter here segment := by
  cases hentry : t.entry? here with
  | none => simp [enter, hentry, bind, Except.bind]
  | some entry =>
    cases entry with
    | file content => simp [enter, hentry, bind, Except.bind]
    | directory => simp [enter, hentry, bind, Except.bind]

/-! ## The way of a path -/

/-- Where a path leads by directories that are there. -/
def walk (t : FileTree) (path : String) : Except IoError Location :=
  (Text.fields '/' path).foldlM t.enter (t.start path)

theorem foldlM_enter_singleton (t : FileTree) (here : Location) (segment : String) :
    [segment].foldlM t.enter here = t.enter here segment := by
  rw [List.foldlM_cons]
  exact bind_pure _

/-- A name that is joined to a path is its last segment, and the way to it is that of the path. -/
theorem fields_join (base : String) {name : String} (h : '/' ∉ name.toList) :
    ∃ front, Text.fields '/' (Path.join base name) = front ++ [name] ∧
      ∀ t : FileTree, (front.foldlM t.enter (t.start (Path.join base name)) >>= (t.enter · name)) =
        t.walk base >>= (t.enter · name) := by
  have habsolute : ¬name.toList.head? = some '/' := fun heq => h (List.mem_of_mem_head? heq)
  have hname : Text.fields '/' name = [name] := Text.fields_eq_singleton h
  rw [Path.join, if_neg (by simpa [Path.isAbsolute] using habsolute)]
  by_cases hempty : base = ""
  · subst hempty
    refine ⟨[], by simpa using hname, fun t => ?_⟩
    have hstart : t.start name = t.start "" := by simp [start, habsolute]
    rw [if_pos (.inl rfl), String.empty_append, walk, hstart, Text.fields_eq_singleton (by decide),
      foldlM_enter_singleton, enter_empty_bind]
    rfl
  · by_cases hslash : base.toList.getLast? = some '/'
    · obtain ⟨front, hfront⟩ := List.getLast?_eq_some_iff.mp hslash
      have hbase : base = String.ofList front ++ "/" ++ "" := by
        apply String.toList_injective
        simpa using hfront
      have hsplit (back : String) := Text.fields_append '/' (String.ofList front) back
      rw [show String.singleton '/' = "/" from rfl] at hsplit
      have hfields : Text.fields '/' base = Text.fields '/' (String.ofList front) ++ [""] := by
        rw [hbase, hsplit, Text.fields_eq_singleton (s := "") (by decide)]
      rw [if_pos (.inr hslash)]
      refine ⟨Text.fields '/' (String.ofList front), ?_, fun t => ?_⟩
      · rw [hbase, String.append_empty, hsplit, hname]
      · rw [walk, start_append hempty, hfields, List.foldlM_append, bind_assoc]
        simp only [foldlM_enter_singleton, enter_empty_bind]
    · have hplain : ¬(base.isEmpty ∨ base.toList.getLast? = some '/') := by
        simpa [hempty] using hslash
      have hfields := Text.fields_append '/' base name
      rw [show String.singleton '/' = "/" from rfl, hname] at hfields
      rw [if_neg hplain]
      exact ⟨Text.fields '/' base, hfields, fun t => by
        rw [walk, String.append_assoc, start_append hempty]⟩

theorem walk_join (t : FileTree) (base : String) {name : String} (h : '/' ∉ name.toList) :
    t.walk (Path.join base name) = t.walk base >>= (t.enter · name) := by
  obtain ⟨front, hfields, hway⟩ := fields_join base h
  rw [← hway t, walk, hfields, List.foldlM_append]
  simp only [foldlM_enter_singleton]

/-- The way of a path to which names are joined goes on by them. -/
theorem walk_foldl_join (t : FileTree) {names : List String}
    (h : ∀ name ∈ names, '/' ∉ name.toList) (base : String) :
    t.walk (names.foldl Path.join base) = t.walk base >>= fun l => names.foldlM t.enter l := by
  induction names generalizing base with
  | nil => exact (bind_pure _).symm
  | cons name names ih =>
    obtain ⟨hname, hnames⟩ := List.forall_mem_cons.mp h
    rw [List.foldl_cons, ih hnames, walk_join t base hname, bind_assoc]
    rfl

/-! ## Reading and putting -/

/-- A file is read where the way of its path ends. -/
theorem read_eq_ok {path : String} {content : Bytes} : t.read path = .ok content ↔
    FileTree.segments path = .ok (Text.fields '/' path) ∧
      ∃ l, t.walk path = .ok l ∧ t.file? l = some content := by
  rw [read, locate]
  cases hsegments : FileTree.segments path with
  | error cause => simp [bind, Except.bind]
  | ok parts =>
    obtain ⟨rfl, -⟩ := segments_eq hsegments
    simp only [bind, Except.bind, true_and]
    cases hwalk : (Text.fields '/' path).foldlM t.enter (t.start path) with
    | error cause => simp [walk, hwalk]
    | ok l =>
      have hway : ∀ l', t.walk path = .ok l' ↔ l = l' := fun l' => by
        rw [walk, hwalk, Except.ok.injEq]
      simp only [hway, exists_eq_left', readAt, file?]
      rcases hentry : t.entry? l with - | there | - <;> simp [hentry]

/-- What is put at a path that ends in a name is put where its way ends. -/
theorem walk_of_target {path last name : String} {front : List String}
    (h : t.target path = .ok (l, last)) (hfields : Text.fields '/' path = front ++ [name])
    (hname : name ≠ "") :
    FileTree.segments path = .ok (Text.fields '/' path) ∧ t.walk path = .ok l := by
  rw [target] at h
  cases hsegments : FileTree.segments path with
  | error cause => rw [hsegments] at h; cases h
  | ok parts =>
    obtain ⟨rfl, -⟩ := segments_eq hsegments
    have hdrop :
        (Text.fields '/' path).reverse.dropWhile String.isEmpty = name :: front.reverse := by
      rw [hfields, List.reverse_append, List.reverse_singleton, List.singleton_append,
        List.dropWhile_cons_of_neg (by simpa using hname)]
    simp only [hsegments, bind, Except.bind, hdrop, List.reverse_reverse] at h
    refine ⟨rfl, ?_⟩
    rw [walk, hfields, List.foldlM_append]
    cases hwalk : front.foldlM t.enter (t.start path) with
    | error cause => simp only [hwalk, reduceCtorEq] at h
    | ok dir =>
      rw [hwalk] at h
      simp only at h
      cases henter : t.enter dir name with
      | error cause => simp only [henter, reduceCtorEq] at h
      | ok there =>
        simp only [henter] at h
        obtain ⟨rfl, -⟩ := Prod.mk.inj (Except.ok.inj h)
        exact (foldlM_enter_singleton t dir name).trans henter

/-! ## Directories that stay -/

/-- All directories stay directories. -/
structure KeepsDirectories (t t' : FileTree) : Prop where
  workingDirectory : t'.workingDirectory = t.workingDirectory
  isDirectoryAt : ∀ l, t.isDirectoryAt l = true → t'.isDirectoryAt l = true

theorem KeepsDirectories.refl (t : FileTree) : KeepsDirectories t t := ⟨rfl, fun _ h => h⟩

theorem KeepsDirectories.trans {t'' : FileTree} (h : KeepsDirectories t t')
    (h' : KeepsDirectories t' t'') : KeepsDirectories t t'' :=
  ⟨h'.workingDirectory.trans h.workingDirectory,
    fun l hl => h'.isDirectoryAt l (h.isDirectoryAt l hl)⟩

theorem KeepsDirectories.foldlM_enter (h : KeepsDirectories t t')
    (hwalk : segments.foldlM t.enter here = .ok l) : segments.foldlM t'.enter here = .ok l := by
  induction segments generalizing here with
  | nil => exact hwalk
  | cons segment segments ih =>
    obtain ⟨next, henter, hrest⟩ := foldlM_enter_cons.mp hwalk
    obtain ⟨hhere, hlimit, hnext⟩ := enter_eq_ok.mp henter
    exact foldlM_enter_cons.mpr
      ⟨next, enter_eq_ok.mpr ⟨h.isDirectoryAt here hhere, hlimit, hnext⟩, ih hrest⟩

theorem KeepsDirectories.walk (h : KeepsDirectories t t') {path : String}
    (hwalk : t.walk path = .ok l) : t'.walk path = .ok l := by
  have hstart : t'.start path = t.start path := by simp only [start, h.workingDirectory]
  rw [FileTree.walk, hstart]
  exact h.foldlM_enter hwalk

/-- What is put where no directory is leaves all directories. -/
theorem keepsDirectories_put {entry : Entry} (h : t.isDirectoryAt l = false) :
    KeepsDirectories t (t.put l entry) := by
  have hroot : l ≠ [] := by
    rintro rfl
    simp [isDirectoryAt, entry?] at h
  refine ⟨rfl, fun l' hl' => ?_⟩
  have hne : l' ≠ l := by
    rintro rfl
    rw [h] at hl'
    cases hl'
  rw [isDirectoryAt, entry?_put hroot, if_neg hne]
  exact hl'

theorem keepsDirectories_of_makeDirectory {path : String} (h : t.makeDirectory path = .ok t') :
    KeepsDirectories t t' := by
  obtain ⟨l, hfree, rfl⟩ := makeDirectory_eq_ok h
  exact keepsDirectories_put (by simp [isDirectoryAt, hfree])

theorem keepsDirectories_ensure (dir : String) : Action.Keeps KeepsDirectories (ensure dir) := by
  intro t
  rw [run_ensure]
  cases hmake : t.makeDirectory dir with
  | ok t' => exact keepsDirectories_of_makeDirectory hmake
  | error cause => exact KeepsDirectories.refl t

theorem keepsDirectories_makeAlong (dirs : List String) :
    Action.Keeps KeepsDirectories (makeAlong dirs) := by
  induction dirs with
  | nil => exact Action.keeps_pure KeepsDirectories.refl ()
  | cons dir above ih =>
    intro t
    rw [run_makeAlong_cons]
    refine Action.keeps_get_bind (fun t => ?_) t
    rw [makeAlongStep]
    split
    · exact Action.keeps_pure KeepsDirectories.refl ()
    · split
      · exact Action.keeps_bind KeepsDirectories.trans ih fun _ => keepsDirectories_ensure dir
      · exact keepsDirectories_ensure dir

/-! ## What stands on a way -/

theorem prefix_step {segment : String} (h : segment ≠ "..") (l : Location) :
    l <+: l.step segment := by
  rw [Location.step]
  split
  · exact List.prefix_refl l
  · exact List.prefix_append ..

/-- A step leads on by a name, back by one, or nowhere. -/
theorem eq_or_prefix_of_step {between : Location} (h : between <+: here.step segment) :
    between = here.step segment ∨ between <+: here := by
  rw [Location.step] at h ⊢
  split_ifs at h ⊢
  · exact .inr h
  · exact .inr (h.trans (List.dropLast_prefix here))
  · exact List.prefix_concat_iff.mp h

theorem prefix_foldl_step {segments : List String} (h : ".." ∉ segments) (l : Location) :
    l <+: segments.foldl Location.step l := by
  induction segments generalizing l with
  | nil => exact List.prefix_refl l
  | cons segment segments ih =>
    obtain ⟨hsegment, hsegments⟩ := List.ne_and_not_mem_of_not_mem_cons h
    exact (prefix_step hsegment.symm l).trans (ih hsegments _)

/-- A way that ends below where it begins goes through all that is between. -/
theorem isDirectoryAt_of_foldlM (h : segments.foldlM t.enter here = .ok l) {between : Location}
    (hfront : here <+: between) (hback : between <+: l) (hne : between ≠ l) :
    t.isDirectoryAt between = true := by
  induction segments using List.reverseRecOn generalizing l with
  | nil =>
    obtain rfl := Except.ok.inj h
    exact absurd (hback.eq_of_length_le hfront.length_le) hne
  | append_singleton segments segment ih =>
    rw [List.foldlM_append] at h
    cases hwalk : segments.foldlM t.enter here with
    | error cause => rw [hwalk] at h; cases h
    | ok mid =>
      rw [hwalk] at h
      have henter : t.enter mid segment = .ok l :=
        (foldlM_enter_singleton t mid segment).symm.trans h
      obtain ⟨hmid, -, rfl⟩ := enter_eq_ok.mp henter
      by_cases heq : between = mid
      · rw [heq]
        exact hmid
      · exact ih hwalk ((eq_or_prefix_of_step hback).resolve_left hne) heq

/-- A way that never leads up can be gone wherever the directories on it are. -/
theorem foldlM_enter_of_down (h : segments.foldlM t'.enter here = .ok l) (hdown : ".." ∉ segments)
    (hend : t'.isDirectoryAt l = false)
    (hbetween : ∀ between, here <+: between → between <+: l → between ≠ l →
      t.isDirectoryAt between = true) : segments.foldlM t.enter here = .ok l := by
  induction segments generalizing here with
  | nil => exact h
  | cons segment segments ih =>
    have hfront : here <+: l := foldlM_enter h ▸ prefix_foldl_step hdown here
    obtain ⟨hsegment, hdown⟩ := List.ne_and_not_mem_of_not_mem_cons hdown
    obtain ⟨next, henter, hrest⟩ := foldlM_enter_cons.mp h
    obtain ⟨hhere, hlimit, rfl⟩ := enter_eq_ok.mp henter
    have hne : here ≠ l := by
      rintro rfl
      rw [hend] at hhere
      cases hhere
    refine foldlM_enter_cons.mpr ⟨_, enter_eq_ok.mpr
      ⟨hbetween here (List.prefix_refl here) hfront hne, hlimit, rfl⟩, ih hrest hdown ?_⟩
    exact fun between hnext => hbetween between ((prefix_step hsegment.symm here).trans hnext)

end FileTree

end MavenPom
