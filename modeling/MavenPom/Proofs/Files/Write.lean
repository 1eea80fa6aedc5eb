import MavenPom.Proofs.Action
import MavenPom.Proofs.Files.Location
import MavenPom.Proofs.Table

/-!
# What directories and files are made

Making directories leaves every file as it is. What a file holds makes no difference to what paths
elsewhere name, nor to what is made there.
-/

namespace MavenPom.FileTree

/-- The content of the file at a location. -/
def file? (t : FileTree) (l : Location) : Option Bytes :=
  match t.entry? l with
  | some (.file content) => some content
  | _ => none

theorem file?_eq_some {t : FileTree} {l : Location} {content : Bytes} :
    t.file? l = some content ↔ t.entry? l = some (.file content) := by
  unfold file?
  split
  · next held hentry => simp [hentry]
  · next hother => simpa using hother content

theorem entry?_put {l : Location} (hroot : l ≠ []) (t : FileTree) (entry : Entry) (l' : Location) :
    FileTree.entry? (t.put l entry) l' = if l' = l then some entry else t.entry? l' := by
  by_cases hl' : l' = []
  · subst hl'
    simp [hroot.symm, entry?]
  · simp only [if_neg hl', entry?, put, Table.get?_insert, eq_comm]

@[simp] theorem location_put (t : FileTree) (l : Location) (entry : Entry) (path : String) :
    (t.put l entry).location path = t.location path := rfl

theorem location_congr {t t' : FileTree} (h : t'.workingDirectory = t.workingDirectory)
    (path : String) : t'.location path = t.location path := by
  simp only [location, start, h]

/-- What is read at a path is the file where the path leads. -/
theorem file?_of_read {t : FileTree} {path : String} {content : Bytes}
    (h : t.read path = .ok content) : t.file? (t.location path) = some content := by
  simp only [read] at h
  cases hlocate : t.locate path with
  | error cause => rw [hlocate] at h; cases h
  | ok l =>
    rw [hlocate] at h
    simp only [bind, Except.bind, readAt] at h
    rw [← eq_location_of_locate hlocate, file?_eq_some]
    split at h
    · cases h
    · cases h
    · next hentry => rw [hentry, Except.ok.inj h]

/-! ## Files elsewhere -/

/-- The file at a location. -/
def fileCell (l : Location) : Action.Cell FileTree Bytes :=
  ⟨fun t => t.file? l, fun t content => t.put l (.file content)⟩

section Filled

variable {t : FileTree} {l : Location} {old : Bytes} (hfile : t.file? l = some old) (new : Bytes)
include hfile

theorem ne_root_of_file : l ≠ [] := by
  rintro rfl
  simp [file?, entry?] at hfile

theorem entry?_filled (l' : Location) :
    FileTree.entry? (t.put l (.file new)) l' =
      if l' = l then some (.file new) else t.entry? l' :=
  entry?_put (ne_root_of_file hfile) t _ l'

theorem isSome_entry?_filled (l' : Location) :
    (FileTree.entry? (t.put l (.file new)) l').isSome = (t.entry? l').isSome := by
  rw [entry?_filled hfile]
  by_cases h : l' = l
  · rw [if_pos h, h, file?_eq_some.mp hfile]
    rfl
  · rw [if_neg h]

theorem isDirectoryAt_filled (l' : Location) :
    (t.put l (.file new)).isDirectoryAt l' = t.isDirectoryAt l' := by
  rw [isDirectoryAt, isDirectoryAt, entry?_filled hfile]
  by_cases h : l' = l
  · rw [if_pos h, h, file?_eq_some.mp hfile]
    rfl
  · rw [if_neg h]

theorem isFileAt_filled (l' : Location) :
    (t.put l (.file new)).isFileAt l' = t.isFileAt l' := by
  rw [isFileAt, isFileAt, entry?_filled hfile]
  by_cases h : l' = l
  · rw [if_pos h, h, file?_eq_some.mp hfile]
  · rw [if_neg h]

theorem enter_filled : (t.put l (.file new)).enter = t.enter := by
  funext here segment
  simp only [enter, entry?_filled hfile]
  by_cases h : here = l
  · rw [if_pos h, h, file?_eq_some.mp hfile]
  · rw [if_neg h]

theorem locate_filled (path : String) : (t.put l (.file new)).locate path = t.locate path := by
  simp only [locate, enter_filled hfile, isSome_entry?_filled hfile]
  rfl

theorem target_filled (path : String) : (t.put l (.file new)).target path = t.target path := by
  simp only [target, enter_filled hfile]
  rfl

theorem isFile_filled (path : String) : (t.put l (.file new)).isFile path = t.isFile path := by
  simp only [isFile, locate_filled hfile, isFileAt_filled hfile]

theorem isDirectory_filled (path : String) :
    (t.put l (.file new)).isDirectory path = t.isDirectory path := by
  simp only [isDirectory, locate_filled hfile, isDirectoryAt_filled hfile]

/-- A file that is read from a path elsewhere is read alike. -/
theorem read_filled {path : String} (hne : l ≠ t.location path) :
    (t.put l (.file new)).read path = t.read path := by
  simp only [read, locate_filled hfile]
  cases hlocate : t.locate path with
  | error cause => rfl
  | ok there =>
    have hthere : there ≠ l := fun heq => hne (heq ▸ eq_location_of_locate hlocate)
    simp only [bind, Except.bind, readAt, entry?_filled hfile, if_neg hthere]

theorem put_filled {l' : Location} (hne : l' ≠ l) (entry : Entry) :
    (t.put l (.file new)).put l' entry = (t.put l' entry).put l (.file new) := by
  have hentry : t.entries.get? l = some (.file old) := by
    have h := file?_eq_some.mp hfile
    unfold entry? at h
    rwa [if_neg (ne_root_of_file hfile)] at h
  simp only [put, Table.insert,
    Table.insertPair_comm hne (.file new) entry (Table.mem_keys_of_get? hentry)]

theorem makeDirectory_filled (path : String) :
    (t.put l (.file new)).makeDirectory path =
      (t.makeDirectory path).map fun t' => t'.put l (.file new) := by
  simp only [makeDirectory, target_filled hfile]
  cases htarget : t.target path with
  | error cause => rfl
  | ok place =>
    obtain ⟨there, last⟩ := place
    simp only [bind, Except.bind, isSome_entry?_filled hfile]
    split
    · rfl
    · next hfree =>
      have hthere : there ≠ l := by
        rintro rfl
        simp [file?_eq_some.mp hfile] at hfree
      rw [put_filled hfile new hthere]
      rfl

end Filled

/-! ## Making directories -/

/-- All files stay as they are. -/
structure SameFiles (t t' : FileTree) : Prop where
  workingDirectory : t'.workingDirectory = t.workingDirectory
  file? : ∀ l, t'.file? l = t.file? l

theorem SameFiles.refl (t : FileTree) : SameFiles t t := ⟨rfl, fun _ => rfl⟩

theorem SameFiles.trans {t t' t'' : FileTree} (h : SameFiles t t') (h' : SameFiles t' t'') :
    SameFiles t t'' :=
  ⟨h'.workingDirectory.trans h.workingDirectory, fun l => (h'.file? l).trans (h.file? l)⟩

/-- A directory is made where nothing is. -/
theorem makeDirectory_eq_ok {t t' : FileTree} {path : String} (h : t.makeDirectory path = .ok t') :
    ∃ l, t.entry? l = none ∧ t' = t.put l .directory := by
  simp only [makeDirectory] at h
  cases htarget : t.target path with
  | error cause => rw [htarget] at h; cases h
  | ok place =>
    simp only [htarget, bind, Except.bind] at h
    split at h
    · cases h
    · next hfree =>
      refine ⟨place.1, ?_, (Except.ok.inj h).symm⟩
      simpa using fun heq => hfree (.inr (.inr heq))

theorem sameFiles_of_makeDirectory {t t' : FileTree} {path : String}
    (h : t.makeDirectory path = .ok t') : SameFiles t t' := by
  obtain ⟨there, hfree, rfl⟩ := makeDirectory_eq_ok h
  have hroot : there ≠ [] := by
    rintro rfl
    unfold entry? at hfree
    simp at hfree
  refine ⟨rfl, fun l => ?_⟩
  rw [file?, entry?_put hroot, file?]
  by_cases hl : l = there
  · rw [if_pos hl, hl, hfree]
  · rw [if_neg hl]

/-- Makes a directory, unless it is there. -/
def ensure (dir : String) : Action FileTree IoError Unit := do
  let t ← get
  match t.makeDirectory dir with
  | .ok t' => set t'
  | .error cause => if t.isDirectory dir then pure () else throw cause

theorem run_ensure (dir : String) (t : FileTree) :
    StateT.run (ExceptT.run (ensure dir)) t =
      match t.makeDirectory dir with
      | .ok t' => (.ok (), t')
      | .error cause => (if t.isDirectory dir then .ok () else .error cause, t) := by
  change StateT.run (ExceptT.run (match t.makeDirectory dir with
    | .ok t' => set t'
    | .error cause => if t.isDirectory dir then pure () else throw cause :
      Action FileTree IoError Unit)) t = _
  cases t.makeDirectory dir with
  | ok t' => rfl
  | error cause =>
    dsimp only
    split <;> rfl

theorem keeps_ensure (dir : String) : Action.Keeps SameFiles (ensure dir) := by
  intro t
  rw [run_ensure]
  cases hmake : t.makeDirectory dir with
  | ok t' => exact sameFiles_of_makeDirectory hmake
  | error cause => exact SameFiles.refl t

theorem ignores_ensure (dir : String) (l : Location) (t : FileTree) :
    Action.Ignores (fileCell l) (ensure dir) t := by
  intro old hold
  refine ⟨((keeps_ensure dir t).file? l).trans hold, fun new => ?_⟩
  simp only [run_ensure, fileCell, makeDirectory_filled hold, isDirectory_filled hold]
  cases t.makeDirectory dir with
  | ok t' => rfl
  | error cause => rfl

/-- What making a directory and those above it comes to: where the one above is missing, those above
    are made first. -/
def makeAlongStep (dir : String) (above : List String) (t : FileTree) :
    Action FileTree IoError Unit :=
  if dir.isEmpty then pure ()
  else if t.makeDirectory dir matches .error .notFound then makeAlong above >>= fun _ => ensure dir
  else ensure dir

theorem run_makeAlong_cons (dir : String) (above : List String) (t : FileTree) :
    StateT.run (ExceptT.run (makeAlong (dir :: above))) t =
      StateT.run (ExceptT.run (get >>= makeAlongStep dir above)) t := by
  rw [makeAlong, Action.run_get_bind, Action.run_get_bind, makeAlongStep]
  split
  · rfl
  · cases hmake : t.makeDirectory dir with
    | ok t' =>
      simp [run_ensure, hmake]
      rfl
    | error cause =>
      cases cause
      case notFound => rfl
      all_goals
        simp only [hmake, Bool.false_eq_true, if_false, run_ensure]
        split <;> rfl

/-- Making directories leaves all files as they are. -/
theorem keeps_makeAlong (dirs : List String) : Action.Keeps SameFiles (makeAlong dirs) := by
  induction dirs with
  | nil => exact Action.keeps_pure SameFiles.refl ()
  | cons dir above ih =>
    intro t
    rw [run_makeAlong_cons]
    refine Action.keeps_get_bind (fun t => ?_) t
    rw [makeAlongStep]
    split
    · exact Action.keeps_pure SameFiles.refl ()
    · split
      · exact Action.keeps_bind SameFiles.trans ih fun _ => keeps_ensure dir
      · exact keeps_ensure dir

theorem ignores_makeAlong (dirs : List String) (l : Location) (t : FileTree) :
    Action.Ignores (fileCell l) (makeAlong dirs) t := by
  induction dirs generalizing t with
  | nil => exact Action.ignores_pure ()
  | cons dir above ih =>
    have hstep : Action.Ignores (fileCell l) (get >>= makeAlongStep dir above) t := by
      refine Action.ignores_get_bind ?_ fun old new hold => ?_
      · rw [makeAlongStep]
        split
        · exact Action.ignores_pure ()
        · split
          · exact Action.ignores_bind (ih t) fun _ _ _ => ignores_ensure dir l _
          · exact ignores_ensure dir l t
      · have hmiss : (((t.makeDirectory dir).map fun t' => t'.put l (.file new)) matches
            .error .notFound) = (t.makeDirectory dir matches .error .notFound) := by
          cases t.makeDirectory dir with
          | ok t' => rfl
          | error cause => rfl
        simp only [makeAlongStep, fileCell, makeDirectory_filled hold, hmiss]
    intro old hold
    simp only [run_makeAlong_cons]
    exact hstep old hold

end MavenPom.FileTree
