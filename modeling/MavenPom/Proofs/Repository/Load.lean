import MavenPom.Proofs.Repository.Store

/-!
# When loading a POM succeeds

A POM that is loaded is given again. Another one is read from its file, or from what the remote
repository answers where there is no such file. What is loaded stays loaded.
-/

namespace MavenPom

/-- The path of a POM's file. -/
abbrev PomSource.file (source : PomSource) (k : PomKey) : String :=
  Repository.pomFile source.repository k.groupId k.artifactId k.version

theorem FileTree.isFile_iff {t : FileTree} {path : String} :
    t.isFile path = true ↔ ∃ content, t.read path = .ok content := by
  rw [isFile, read]
  cases t.locate path with
  | error cause => simp [bind, Except.bind]
  | ok l =>
    simp only [bind, Except.bind, isFileAt, readAt]
    rcases t.entry? l with - | content | - <;> simp

namespace PomStore

open MavenPom.Action (Runs)

variable {source : PomSource} {key : PomKey} {s s' : PomStore} {pom : Pom} {bytes : Bytes}

theorem runs_keep (path : String) (content : Bytes) :
    Runs (Action.onPart files (fun s files => { s with files }) BuildError.io (keep path content))
      s () s' ↔
    ∃ files, Runs (keep path content) s.files () files ∧ s' = { s with files } := by
  rw [Runs, Action.run_onPart]
  cases hrun : StateT.run (ExceptT.run (keep path content)) s.files with
  | mk result files =>
    cases result with
    | ok x =>
      refine ⟨fun h => ⟨files, hrun, (Prod.mk.inj h).2.symm⟩, ?_⟩
      rintro ⟨files', hruns, rfl⟩
      obtain rfl := (Prod.mk.inj (hrun.symm.trans hruns)).2
      rfl
    | error e =>
      refine ⟨fun h => (by cases (Prod.mk.inj h).1), ?_⟩
      rintro ⟨files', hruns, rfl⟩
      cases (Prod.mk.inj (hrun.symm.trans hruns)).1

theorem runs_receive {path : String} {answer : Option (Except BuildError Bytes)} :
    Runs (receive key path answer) s bytes s' ↔
      answer = some (.ok bytes) ∧
        ∃ files, Runs (keep path bytes) s.files () files ∧ s' = { s with files } := by
  rcases answer with - | cause | there
  · exact ⟨fun h => absurd h Action.not_runs_throw, fun h => by cases h.1⟩
  · exact ⟨fun h => absurd h Action.not_runs_throw, fun h => by cases h.1⟩
  · rw [receive, Action.runs_bind]
    constructor
    · rintro ⟨u, t, hpart, hpure⟩
      obtain ⟨files, hkeep, rfl⟩ := (runs_keep path there).mp hpart
      obtain ⟨rfl, rfl⟩ := Action.runs_pure.mp hpure
      exact ⟨rfl, files, hkeep, rfl⟩
    · rintro ⟨heq, files, hkeep, rfl⟩
      obtain rfl := Except.ok.inj (Option.some.inj heq)
      exact ⟨(), _, (runs_keep path there).mpr ⟨files, hkeep, rfl⟩, Action.runs_pure.mpr ⟨rfl, rfl⟩⟩

theorem answer?_eq_some {path : String} : source.answer? path = some bytes ↔
    ∃ remote, source.remote = some remote ∧ remote.get? path = some (.ok bytes) := by
  rw [PomSource.answer?, Option.bind_eq_some_iff]
  refine exists_congr fun remote => and_congr_right fun _ => ?_
  rcases remote.get? path with - | cause | there <;> simp [Except.toOption]

theorem runs_fetch {path : String} : Runs (fetch source key path) s bytes s' ↔
    source.answer? key.path = some bytes ∧
      ∃ files, Runs (keep path bytes) s.files () files ∧ s' = { ask s key with files } := by
  rw [fetch_eq, answer?_eq_some]
  cases source.remote with
  | none => exact ⟨fun h => absurd h Action.not_runs_throw, fun h => by simpa using h.1⟩
  | some remote =>
    have hask : Runs (modify (ask · key) >>= fun _ => receive key path (remote.get? key.path))
        s bytes s' ↔ Runs (receive key path (remote.get? key.path)) (ask s key) bytes s' := Iff.rfl
    rw [hask, runs_receive]
    simp only [Option.some.injEq, exists_eq_left']
    exact Iff.rfl

/-- The content of a POM's file is read, or it is the answer to a request that is put there. -/
theorem runs_content : Runs (content source key) s bytes s' ↔
    s.files.read (source.file key) = .ok bytes ∧ s' = s ∨
    s.files.isFile (source.file key) = false ∧ source.answer? key.path = some bytes ∧
      ∃ files, Runs (keep (source.file key) bytes) s.files () files ∧
        s' = { ask s key with files } := by
  rw [content, Action.runs_get_bind, ← runs_fetch]
  dsimp only
  by_cases hfile : s.files.isFile (source.file key) = true
  · obtain ⟨there, hread⟩ := FileTree.isFile_iff.mp hfile
    rw [if_pos hfile, hread, hfile, Action.runs_pure, Except.ok.injEq, eq_comm]
    simp
  · have hno : s.files.read (source.file key) ≠ .ok bytes := fun hread =>
      hfile (FileTree.isFile_iff.mpr ⟨bytes, hread⟩)
    rw [if_neg hfile]
    simp [hno, hfile]

/-- The content of a POM's file has the POM. -/
def Reads (key : PomKey) (bytes : Bytes) (pom : Pom) : Prop :=
  Pom.parse (String.ofList (Utf8.decodeLossy bytes)) key.text = .ok pom

theorem runs_register : Runs (register key bytes) s pom s' ↔
    Reads key bytes pom ∧ s' = { s with loaded := s.loaded.insert key pom } := by
  rw [register, Reads]
  cases hparse : Pom.parse (String.ofList (Utf8.decodeLossy bytes)) key.text with
  | error cause => simp [Action.not_runs_throw]
  | ok there =>
    rw [Action.runs_bind, Except.ok.injEq]
    constructor
    · rintro ⟨u, t, hmodify, hpure⟩
      obtain ⟨rfl, rfl⟩ := Action.runs_pure.mp hpure
      exact ⟨rfl, Action.runs_modify.mp hmodify⟩
    · rintro ⟨rfl, rfl⟩
      exact ⟨⟨⟩, _, Action.runs_modify.mpr rfl, Action.runs_pure.mpr ⟨rfl, rfl⟩⟩

/-- A POM is loaded already, or it is read from the content of its file. -/
theorem runs_load : Runs (load source key) s pom s' ↔
    s.loaded.get? key = some pom ∧ s' = s ∨
    s.loaded.get? key = none ∧ isOpen key.version = false ∧
      ∃ bytes t, Runs (content source key) s bytes t ∧ Reads key bytes pom ∧
        s' = { t with loaded := t.loaded.insert key pom } := by
  rw [load_eq, Action.runs_get_bind, loadStep]
  cases s.loaded.get? key with
  | some there =>
    simp only [Action.runs_pure, Option.some.injEq, reduceCtorEq, false_and, or_false]
    rw [eq_comm (a := pom)]
  | none =>
    simp only [reduceCtorEq, false_and, false_or, true_and, loadNew]
    cases isOpen key.version with
    | true => simp [Action.not_runs_throw]
    | false =>
      simp only [Bool.false_eq_true, if_false, true_and, Action.runs_bind, runs_register]

/-! ## What is loaded -/

/-- All POMs that are loaded stay so. -/
def Grows (s s' : PomStore) : Prop :=
  ∀ key pom, s.loaded.get? key = some pom → s'.loaded.get? key = some pom

theorem Grows.refl (s : PomStore) : Grows s s := fun _ _ h => h

theorem Grows.trans {s'' : PomStore} (h : Grows s s') (h' : Grows s' s'') : Grows s s'' :=
  fun key pom hpom => h' key pom (h key pom hpom)

theorem loaded_of_content (h : Runs (content source key) s bytes s') : s'.loaded = s.loaded := by
  rcases runs_content.mp h with ⟨-, rfl⟩ | ⟨-, -, files, -, rfl⟩
  · rfl
  · rfl

theorem loaded_of_load (h : Runs (load source key) s pom s') :
    Grows s s' ∧ s'.loaded.get? key = some pom := by
  rcases runs_load.mp h with ⟨hpom, rfl⟩ | ⟨hnone, -, bytes, t, hcontent, -, rfl⟩
  · exact ⟨Grows.refl s', hpom⟩
  · refine ⟨fun other there hthere => ?_, ?_⟩
    · have hne : key ≠ other := by
        rintro rfl
        rw [hnone] at hthere
        cases hthere
      rw [Table.get?_insert, if_neg hne, loaded_of_content hcontent, hthere]
    · rw [Table.get?_insert, if_pos rfl]

/-!
## What can be loaded

Loading makes no POM available that was not before: each one that is loaded has the content of a
file or of an answer of the remote repository. So there are finitely many.
-/

/-- The POM is loaded, or it has the content of a file or of an answer of the remote repository. -/
def Obtainable (source : PomSource) (s : PomStore) (pom : Pom) : Prop :=
  (∃ key, s.loaded.get? key = some pom) ∨
  ∃ key bytes, Reads key bytes pom ∧
    ((∃ l, s.files.file? l = some bytes) ∨ ∃ path, source.answer? path = some bytes)

theorem Confined.obtainable (h : Confined source s s') (hpom : Obtainable source s' pom) :
    Obtainable source s pom := by
  rcases hpom with ⟨key, hloaded⟩ | ⟨key, bytes, hreads, ⟨l, hfile⟩ | hanswer⟩
  · rcases h.loaded key pom hloaded with hloaded | ⟨-, bytes, hreads, hfile | hoffers⟩
    · exact .inl ⟨key, hloaded⟩
    · exact .inr ⟨key, bytes, hreads, .inl ⟨_, hfile⟩⟩
    · obtain ⟨path, -, hanswer, -⟩ := hoffers
      exact .inr ⟨key, bytes, hreads, .inr ⟨path, hanswer⟩⟩
  · refine .inr ⟨key, bytes, hreads, ?_⟩
    rcases h.file? l with hsame | ⟨content, ⟨path, -, hanswer, -⟩, hcontent⟩
    · exact .inl ⟨l, hsame.symm.trans hfile⟩
    · obtain rfl := Option.some.inj (hcontent.symm.trans hfile)
      exact .inr ⟨path, hanswer⟩
  · exact .inr ⟨key, bytes, hreads, .inr hanswer⟩

theorem obtainable_of_load (h : Runs (load source key) s pom s') : Obtainable source s pom :=
  ((keeps_load source key).of_runs h).obtainable (.inl ⟨key, (loaded_of_load h).2⟩)

theorem toOption_of_reads (h : Reads key bytes pom) :
    (Pom.parse (String.ofList (Utf8.decodeLossy bytes)) "").toOption = some pom := by
  rw [Reads, Pom.parse] at h
  rw [Pom.parse]
  cases hparse : Markup.Strict.parse? (String.ofList (Utf8.decodeLossy bytes)) with
  | none => rw [hparse] at h; cases h
  | some project =>
    rw [hparse] at h
    rw [← Except.ok.inj h]
    rfl

theorem mem_contents (h : (∃ l, s.files.file? l = some bytes) ∨
    ∃ path, source.answer? path = some bytes) : bytes ∈ contents source s := by
  rw [contents, List.mem_append]
  rcases h with ⟨l, hfile⟩ | ⟨path, hanswer⟩
  · have hentry := FileTree.file?_eq_some.mp hfile
    rw [FileTree.entry?, if_neg (FileTree.ne_root_of_file hfile)] at hentry
    exact .inl (List.mem_filterMap.mpr ⟨_, Table.mem_entries_of_get? hentry, rfl⟩)
  · obtain ⟨remote, hremote, hget⟩ := answer?_eq_some.mp hanswer
    rw [hremote]
    exact .inr (List.mem_filterMap.mpr ⟨_, Table.mem_entries_of_get? hget, rfl⟩)

/-- The POMs that can be loaded are all in the supply. -/
theorem mem_supply (h : Obtainable source s pom) : pom ∈ supply source s := by
  rw [supply, List.mem_append]
  rcases h with ⟨key, hloaded⟩ | ⟨key, bytes, hreads, hplace⟩
  · exact .inl (List.mem_map.mpr ⟨_, Table.mem_entries_of_get? hloaded, rfl⟩)
  · exact .inr (List.mem_filterMap.mpr ⟨bytes, mem_contents hplace, toOption_of_reads hreads⟩)

theorem length_supply_le (source : PomSource) (s : PomStore) :
    (supply source s).length ≤ s.loaded.entries.length + (contents source s).length := by
  rw [supply, List.length_append, List.length_map]
  exact Nat.add_le_add_left (List.length_filterMap_le ..) _

end PomStore

end MavenPom
