import MavenPom.Proofs.Files.Walk
import MavenPom.Proofs.Repository.Load

/-!
# What is kept can be read

A POM that is fetched is read where it was kept. The POMs of other files stay, unless the path of
the new one leads up and down again to a file that is there, past directories that are not.
-/

namespace MavenPom

open MavenPom.Action (Runs)

/-- The path of a POM ends in the name of its file. -/
theorem PomKey.exists_fields_path (k : PomKey) :
    ∃ parts name, Text.fields '/' k.path = parts ++ [name] ∧ name ≠ "" := by
  obtain ⟨stem, hstem⟩ : ∃ stem, k.path = stem ++ "pom" := ⟨_, rfl⟩
  have hlist : k.path.toList = (stem.toList ++ ['p', 'o']) ++ ['m'] := by
    rw [hstem, String.toList_append, List.append_assoc]
    rfl
  exact Text.exists_fields_concat (by decide) hlist

namespace PomSource

variable {source : PomSource} {key other : PomKey} {t : FileTree} {l : Location}

theorem exists_fields_file (source : PomSource) (key : PomKey) :
    ∃ parts name, Text.fields '/' (source.file key) = parts ++ [name] ∧ name ≠ "" := by
  obtain ⟨front, name, hfields, hname⟩ := key.exists_fields_path
  have hfile : source.file key = Path.join (front.foldl Path.join source.repository) name := by
    have hjoin :
        source.file key = (Text.fields '/' key.path).foldl Path.join source.repository := rfl
    rw [hjoin, hfields, List.foldl_append]
    rfl
  have hplain : '/' ∉ name.toList := Text.not_mem_of_mem_fields (s := key.path) (by simp [hfields])
  obtain ⟨parts, hparts, -⟩ := FileTree.fields_join (front.foldl Path.join source.repository) hplain
  exact ⟨parts, name, by rw [hfile, hparts], hname⟩

/-- The way to a POM's file begins with the way to the repository. -/
theorem walk_file_eq_ok : t.walk (source.file key) = .ok l ↔
    ∃ base, t.walk source.repository = .ok base ∧
      (Text.fields '/' key.path).foldlM t.enter base = .ok l := by
  have hjoin : source.file key = (Text.fields '/' key.path).foldl Path.join source.repository := rfl
  rw [hjoin, FileTree.walk_foldl_join t fun _ => Text.not_mem_of_mem_fields]
  cases t.walk source.repository with
  | error cause => simp [bind, Except.bind]
  | ok base => simp [bind, Except.bind]

end PomSource

namespace PomStore

open FileTree (SameFiles KeepsDirectories)

variable {source : PomSource} {key other : PomKey} {t t' : FileTree} {l : Location}
  {content there : Bytes}

theorem runs_deposit {path : String} (h : Runs (deposit path content) t () t') :
    ∃ l last, t.target path = .ok (l, last) ∧ t.isDirectoryAt l = false ∧
      t' = t.put l (.file content) := by
  rw [Runs, run_deposit] at h
  cases htarget : t.target path with
  | error cause => rw [htarget] at h; cases (Prod.mk.inj h).1
  | ok place =>
    obtain ⟨l, last⟩ := place
    rw [htarget] at h
    dsimp only at h
    split at h
    · cases (Prod.mk.inj h).1
    · next hplain => exact ⟨l, last, rfl, by simpa using hplain, (Prod.mk.inj h).2.symm⟩

/-- A POM's file is at the end of its way, and all other files are as they were. -/
structure Kept (source : PomSource) (key : PomKey) (content : Bytes) (t t' : FileTree)
    (l : Location) : Prop where
  directories : KeepsDirectories t t'
  segments : FileTree.segments (source.file key) = .ok (Text.fields '/' (source.file key))
  walk : t'.walk (source.file key) = .ok l
  content : t'.file? l = some content
  others : ∀ l', l' ≠ l → t'.file? l' = t.file? l'

theorem exists_kept (h : Runs (keep (source.file key) content) t () t') :
    ∃ l, Kept source key content t t' l := by
  rw [keep_eq] at h
  cases hparent : Path.parent? (source.file key) with
  | none =>
    rw [hparent] at h
    exact absurd h Action.not_runs_throw
  | some dir =>
    rw [hparent] at h
    obtain ⟨u, t₁, hmake, hdeposit⟩ := Action.runs_bind.mp h
    have hsame : SameFiles t t₁ := (FileTree.keeps_makeAlong _).of_runs hmake
    have hkeeps : KeepsDirectories t t₁ := (FileTree.keepsDirectories_makeAlong _).of_runs hmake
    obtain ⟨l, last, htarget, hplain, rfl⟩ := runs_deposit hdeposit
    obtain ⟨parts, name, hfields, hname⟩ := source.exists_fields_file key
    obtain ⟨hsegments, hwalk⟩ := FileTree.walk_of_target htarget hfields hname
    have hput : KeepsDirectories t₁ (t₁.put l (.file content)) :=
      FileTree.keepsDirectories_put hplain
    have hroot : l ≠ [] := by
      rintro rfl
      simp [FileTree.isDirectoryAt, FileTree.entry?] at hplain
    refine ⟨l, hkeeps.trans hput, hsegments, hput.walk hwalk, ?_, fun l' hne => ?_⟩
    · rw [FileTree.file?_eq_some, FileTree.entry?_put hroot, if_pos rfl]
    · rw [FileTree.file?, FileTree.entry?_put hroot, if_neg hne, ← FileTree.file?, hsame.file?]

theorem Kept.read (h : Kept source key content t t' l) :
    t'.read (source.file key) = .ok content :=
  FileTree.read_eq_ok.mpr ⟨h.segments, l, h.walk, h.content⟩

/-- Whatever is a file stays one. -/
theorem Kept.isFile (h : Kept source key content t t' l) {path : String}
    (hfile : t.isFile path = true) : t'.isFile path = true := by
  obtain ⟨there, hread⟩ := FileTree.isFile_iff.mp hfile
  obtain ⟨hsegments, l', hwalk, hthere⟩ := FileTree.read_eq_ok.mp hread
  rw [FileTree.isFile_iff]
  by_cases heq : l' = l
  · exact ⟨content, FileTree.read_eq_ok.mpr
      ⟨hsegments, l, heq ▸ h.directories.walk hwalk, h.content⟩⟩
  · exact ⟨there, FileTree.read_eq_ok.mpr
      ⟨hsegments, l', h.directories.walk hwalk, (h.others l' heq).trans hthere⟩⟩

/-- A file that is missing is not put in the place of another POM's, where its path leads only down:
    the directories on the way are there already. -/
theorem Kept.read_other (h : Kept source key content t t' l)
    (hmissing : t.isFile (source.file key) = false) (hdown : ".." ∉ Text.fields '/' key.path)
    (hread : t.read (source.file other) = .ok there) : t'.read (source.file other) = .ok there := by
  obtain ⟨hsegments, l', hwalk, hthere⟩ := FileTree.read_eq_ok.mp hread
  have hne : l' ≠ l := by
    rintro rfl
    obtain ⟨base, hbase, hother⟩ := PomSource.walk_file_eq_ok.mp hwalk
    obtain ⟨base', hbase', hkey⟩ := PomSource.walk_file_eq_ok.mp h.walk
    obtain rfl := Except.ok.inj ((h.directories.walk hbase).symm.trans hbase')
    have hplain : t'.isDirectoryAt l' = false := by
      simp [FileTree.isDirectoryAt, FileTree.file?_eq_some.mp h.content]
    have hway := FileTree.foldlM_enter_of_down hkey hdown hplain fun between hfront hback hne =>
      FileTree.isDirectoryAt_of_foldlM hother hfront hback hne
    have hfile := FileTree.isFile_iff.mpr ⟨there, FileTree.read_eq_ok.mpr
      ⟨h.segments, l', PomSource.walk_file_eq_ok.mpr ⟨base, hbase, hway⟩, hthere⟩⟩
    rw [hmissing] at hfile
    cases hfile
  exact FileTree.read_eq_ok.mpr
    ⟨hsegments, l', h.directories.walk hwalk, (h.others l' hne).trans hthere⟩

end PomStore

end MavenPom
