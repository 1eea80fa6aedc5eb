import MavenPom.Proofs.Files.Location
import MavenPom.Proofs.Files.Write
import MavenPom.Repository.PomStore

/-!
# What loading a POM does

The path of a POM's file leads from the repository where the POM's own path leads. The group's dots
part directories, so a group leads down, but an artifact's id or a version with a segment `..` may
lead out of the repository.

A POM is loaded from one file: the one at the location that its path in the repository leads to. If
there is none, the remote repository is asked for that path and its answer is put there. No other
file is read or changed.
-/

namespace MavenPom

/-! ## Places in a repository -/

/-- The path of a POM, relative to a repository. -/
def PomKey.path (k : PomKey) : String := Repository.pomPath k.groupId k.artifactId k.version

namespace PomSource

/-- The location of the local repository. -/
def base (source : PomSource) (t : FileTree) : Location := t.location source.repository

/-- The location of a POM's file. -/
def place (source : PomSource) (t : FileTree) (k : PomKey) : Location :=
  t.location (Repository.pomFile source.repository k.groupId k.artifactId k.version)

/-- The path of a POM leads to its place from where the repository is. -/
theorem place_eq (source : PomSource) (t : FileTree) (k : PomKey) :
    source.place t k = (source.base t).descend k.path := by
  have hrun : ∀ (segments : List String) (base : String),
      (∀ segment ∈ segments, '/' ∉ segment.toList) →
      t.location (segments.foldl Path.join base) =
        segments.foldl Location.step (t.location base) := by
    intro segments
    induction segments with
    | nil => exact fun base _ => rfl
    | cons segment segments ih =>
      intro base hsegments
      obtain ⟨hsegment, hsegments⟩ := List.forall_mem_cons.mp hsegments
      rw [List.foldl_cons, List.foldl_cons, ih _ hsegments, FileTree.location_join _ _ hsegment]
  exact hrun _ _ fun _ => Text.not_mem_of_mem_fields

end PomSource

theorem Repository.not_mem_fields_groupPath (groupId : String) :
    ".." ∉ Text.fields '/' (groupPath groupId) := by
  intro h
  obtain ⟨part, hpart, hdots⟩ := List.mem_map.mp h
  have hdot : '.' ∈ (groupPath groupId).toList := by
    refine Text.mem_of_mem_splitOn hpart ?_
    rw [← String.toList_ofList (l := part), hdots]
    decide
  simp only [groupPath, String.toList_map, List.mem_map] at hdot
  obtain ⟨c, -, hc⟩ := hdot
  split at hc
  · simp at hc
  · next hne => exact hne hc

theorem Repository.not_mem_fields_fileName {artifactId version : String}
    (hartifact : ".." ∉ Text.fields '/' artifactId) (hversion : ".." ∉ Text.fields '/' version) :
    ".." ∉ Text.fields '/' (artifactId ++ "-" ++ version ++ "." ++ "pom") := by
  intro h
  obtain ⟨part, hpart, hdots⟩ := List.mem_map.mp h
  obtain rfl : part = ['.', '.'] := by
    rw [← String.toList_ofList (l := part), hdots]
    rfl
  have hname : (artifactId ++ "-" ++ version ++ "." ++ "pom").toList =
      artifactId.toList ++ '-' :: (version.toList ++ '.' :: ['p', 'o', 'm']) := by
    simp
  rw [hname] at hpart
  rcases Text.mem_splitOn_append_cons (by decide) hpart with hfront | hback | ⟨last, first, -, heq⟩
  · exact hartifact (List.mem_map.mpr ⟨_, hfront, rfl⟩)
  · rcases Text.mem_splitOn_append_cons (by decide) hback with hfront | hend |
      ⟨last, first, hfirst, heq⟩
    · exact hversion (List.mem_map.mpr ⟨_, hfront, rfl⟩)
    · revert hend
      decide
    · rw [List.splitOn_eq_singleton (by decide), List.mem_singleton] at hfirst
      subst hfirst
      have hp : 'p' ∈ ['.', '.'] := heq ▸ by simp
      revert hp
      decide
  · have hdash : '-' ∈ ['.', '.'] := heq ▸ by simp
    revert hdash
    decide

/-- Only the artifact's own id and its version can lead above a repository, by a segment `..`. -/
theorem PomKey.stays_path {k : PomKey} (hartifact : ".." ∉ Text.fields '/' k.artifactId)
    (hversion : ".." ∉ Text.fields '/' k.version) : Path.Stays k.path := by
  have hpath : k.path = Repository.groupPath k.groupId ++ "/" ++ k.artifactId ++ "/" ++ k.version ++
      "/" ++ (k.artifactId ++ "-" ++ k.version ++ "." ++ "pom") := by
    simp only [PomKey.path, Repository.pomPath, Repository.artifactPath, String.append_assoc]
  have hfields (front back : String) := Text.fields_append '/' front back
  rw [show String.singleton '/' = "/" from rfl] at hfields
  refine Path.stays_of_not_mem ?_
  rw [hpath, hfields, hfields, hfields]
  simp only [List.mem_append, not_or]
  exact ⟨⟨⟨Repository.not_mem_fields_groupPath _, hartifact⟩, hversion⟩,
    Repository.not_mem_fields_fileName hartifact hversion⟩

/-- A POM's place is in every repository exactly if its path does not lead above one. -/
theorem PomKey.stays_iff {k : PomKey} :
    Path.Stays k.path ↔ ∀ (source : PomSource) (t : FileTree),
      source.base t <+: source.place t k := by
  simp only [PomSource.place_eq]
  refine ⟨fun h source t => Path.stays_iff.mp h _, fun h => Path.stays_iff.mpr fun l => ?_⟩
  have hl := h ⟨"", none⟩ ⟨Table.empty, l⟩
  have hbase : PomSource.base ⟨"", none⟩ ⟨Table.empty, l⟩ = l := by
    simp [PomSource.base, FileTree.location, FileTree.start, Location.descend_of_not_mem]
  rwa [hbase] at hl

/-! ## The remote repository -/

/-- The content that the remote repository has for a path. -/
def PomSource.answer? (source : PomSource) (path : String) : Option Bytes :=
  source.remote.bind fun remote => (remote.get? path).bind Except.toOption

namespace PomStore

open FileTree

/-! ## Keeping a file -/

/-- Puts a file at a path in a directory that is there. -/
def deposit (path : String) (content : Bytes) : Action FileTree IoError Unit := do
  let files ← get
  match files.target path with
  | .error cause => throw cause
  | .ok (l, _) =>
    if files.isDirectoryAt l then throw .isADirectory else set (files.put l (.file content))

theorem run_deposit (path : String) (content : Bytes) (t : FileTree) :
    StateT.run (ExceptT.run (deposit path content)) t =
      match t.target path with
      | .error cause => (.error cause, t)
      | .ok (l, _) =>
        if t.isDirectoryAt l then (.error .isADirectory, t)
        else (.ok (), t.put l (.file content)) := by
  change StateT.run (ExceptT.run (match t.target path with
    | .error cause => throw cause
    | .ok (l, _) =>
      if t.isDirectoryAt l then throw .isADirectory else set (t.put l (.file content)) :
      Action FileTree IoError Unit)) t = _
  cases t.target path with
  | error cause => rfl
  | ok place =>
    dsimp only
    split <;> rfl

theorem keep_eq (path : String) (content : Bytes) :
    keep path content =
      match Path.parent? path with
      | none => throw .notFound
      | some dir => makeDirectories dir >>= fun _ => deposit path content := rfl

/-- At most the file at the location of a path changes. It then has the content. -/
structure FilesBut (path : String) (content : Bytes) (t t' : FileTree) : Prop where
  workingDirectory : t'.workingDirectory = t.workingDirectory
  file? : ∀ l, t'.file? l = t.file? l ∨ l = t.location path ∧ t'.file? l = some content

section FilesBut

variable {path : String} {content : Bytes} {t t' t'' : FileTree}

theorem FilesBut.of_sameFiles (h : SameFiles t t') : FilesBut path content t t' :=
  ⟨h.workingDirectory, fun l => .inl (h.file? l)⟩

theorem FilesBut.refl (path : String) (content : Bytes) (t : FileTree) :
    FilesBut path content t t := .of_sameFiles (.refl t)

theorem FilesBut.trans (h : FilesBut path content t t') (h' : FilesBut path content t' t'') :
    FilesBut path content t t'' := by
  refine ⟨h'.workingDirectory.trans h.workingDirectory, fun l => ?_⟩
  rcases h'.file? l with hsame | ⟨hl, hcontent⟩
  · rw [hsame]
    exact h.file? l
  · exact .inr ⟨hl.trans (location_congr h.workingDirectory path), hcontent⟩

end FilesBut

theorem keeps_deposit (path : String) (content : Bytes) :
    Action.Keeps (FilesBut path content) (deposit path content) := by
  intro t
  rw [run_deposit]
  cases htarget : t.target path with
  | error cause => exact FilesBut.refl path content t
  | ok place =>
    obtain ⟨there, last⟩ := place
    dsimp only
    split
    · exact FilesBut.refl path content t
    · next hplain =>
      have hroot : there ≠ [] := by
        rintro rfl
        simp [isDirectoryAt, entry?] at hplain
      refine ⟨rfl, fun l => ?_⟩
      by_cases hl : l = there
      · refine .inr ⟨hl.trans (eq_location_of_target htarget), ?_⟩
        rw [file?_eq_some, entry?_put hroot, if_pos hl]
      · refine .inl ?_
        rw [file?, entry?_put hroot, if_neg hl, file?]

/-- Keeping a file changes what is at its path's location at most. -/
theorem keeps_keep (path : String) (content : Bytes) :
    Action.Keeps (FilesBut path content) (keep path content) := by
  rw [keep_eq]
  cases Path.parent? path with
  | none => exact Action.keeps_throw (FilesBut.refl path content) _
  | some dir =>
    exact Action.keeps_bind FilesBut.trans ((keeps_makeAlong _).mono FilesBut.of_sameFiles)
      fun _ => keeps_deposit path content

theorem ignores_deposit {path : String} {l : Location} {t : FileTree} (hne : l ≠ t.location path)
    (content : Bytes) : Action.Ignores (fileCell l) (deposit path content) t := by
  intro old hold
  have hkept : (StateT.run (ExceptT.run (deposit path content)) t).2.file? l = t.file? l := by
    rcases (keeps_deposit path content t).file? l with hsame | ⟨hl, -⟩
    · exact hsame
    · exact absurd hl hne
  refine ⟨hkept.trans hold, fun new => ?_⟩
  simp only [run_deposit, fileCell, target_filled hold, isDirectoryAt_filled hold]
  cases htarget : t.target path with
  | error cause => rfl
  | ok place =>
    obtain ⟨there, last⟩ := place
    have hthere : there ≠ l := fun heq => hne (heq ▸ eq_location_of_target htarget)
    dsimp only
    split
    · rfl
    · rw [put_filled hold new hthere]

/-- Keeping a file ignores what files elsewhere hold. -/
theorem ignores_keep {path : String} {l : Location} {t : FileTree} (hne : l ≠ t.location path)
    (content : Bytes) : Action.Ignores (fileCell l) (keep path content) t := by
  rw [keep_eq]
  cases Path.parent? path with
  | none => exact Action.ignores_throw _
  | some dir =>
    refine Action.ignores_bind (ignores_makeAlong _ l t) fun _ t' hruns => ?_
    have hsame := (keeps_makeAlong _).of_runs hruns
    exact ignores_deposit (by rwa [location_congr hsame.workingDirectory]) content

/-! ## Loading -/

/-- The file at a location. -/
def fileCell (l : Location) : Action.Cell PomStore Bytes :=
  (FileTree.fileCell l).ofPart files fun s files => { s with files }

/-- The state after a request for a POM. -/
def ask (s : PomStore) (key : PomKey) : PomStore :=
  { s with requests := s.requests ++ [key.path] }

/-- Takes what the remote repository answers to the request for a POM. -/
def receive (key : PomKey) (path : String) :
    Option (Except BuildError Bytes) → Action PomStore BuildError Bytes
  | none => throw (.artifactMissing key.text "not found in the remote repository")
  | some (.error cause) => throw cause
  | some (.ok content) => do
    Action.onPart files (fun s files => { s with files }) .io (keep path content)
    pure content

theorem fetch_eq (source : PomSource) (key : PomKey) (path : String) :
    fetch source key path =
      match source.remote with
      | none => throw (.artifactMissing key.text "not in the local repository and offline")
      | some remote => modify (ask · key) >>= fun _ => receive key path (remote.get? key.path) := by
  rw [fetch]
  cases source.remote with
  | none => rfl
  | some remote => rfl

section Loading

variable {source : PomSource} {key : PomKey} {s : PomStore} {l : Location}

theorem ignores_receive {path : String} (hne : l ≠ s.files.location path)
    (answer? : Option (Except BuildError Bytes)) :
    Action.Ignores (fileCell l) (receive key path answer?) s := by
  rcases answer? with - | cause | content
  · exact Action.ignores_throw _
  · exact Action.ignores_throw _
  · refine Action.ignores_bind ?_ fun _ _ _ => Action.ignores_pure content
    exact Action.ignores_onPart (fun _ _ => rfl) (fun _ _ _ => rfl) (ignores_keep hne content)

theorem ignores_fetch {path : String} (hne : l ≠ s.files.location path) :
    Action.Ignores (fileCell l) (fetch source key path) s := by
  rw [fetch_eq]
  cases source.remote with
  | none => exact Action.ignores_throw _
  | some remote =>
    refine Action.ignores_bind (Action.ignores_modify rfl fun _ => rfl) fun _ s' hruns => ?_
    obtain rfl := Action.runs_modify.mp hruns
    exact ignores_receive (s := ask s key) hne _

theorem ignores_content (hne : l ≠ source.place s.files key) :
    Action.Ignores (fileCell l) (content source key) s := by
  refine Action.ignores_get_bind ?_ fun old new hold => ?_
  · dsimp only
    split
    · split
      · exact Action.ignores_pure _
      · exact Action.ignores_throw _
    · exact ignores_fetch hne
  · have hfile : s.files.file? l = some old := hold
    simp only [fileCell, Action.Cell.ofPart, FileTree.fileCell, isFile_filled hfile,
      read_filled hfile new hne]

/-- Reads a POM from the content of its file. -/
def register (key : PomKey) (bytes : Bytes) : Action PomStore BuildError Pom :=
  match Pom.parse (String.ofList (Utf8.decodeLossy bytes)) key.text with
  | .error cause => throw (.project cause)
  | .ok pom => do
    modify fun s => { s with loaded := s.loaded.insert key pom }
    pure pom

/-- Loads a POM that is not loaded yet. -/
def loadNew (source : PomSource) (key : PomKey) : Action PomStore BuildError Pom :=
  if isOpen key.version then
    throw (.invalidModel key.text ["cannot resolve version \x60" ++ key.version ++ "\x60"])
  else content source key >>= register key

def loadStep (source : PomSource) (key : PomKey) (s : PomStore) : Action PomStore BuildError Pom :=
  match s.loaded.get? key with
  | some pom => pure pom
  | none => loadNew source key

theorem load_eq (source : PomSource) (key : PomKey) :
    load source key = get >>= loadStep source key := rfl

theorem ignores_register (bytes : Bytes) (s : PomStore) :
    Action.Ignores (fileCell l) (register key bytes) s := by
  rw [register]
  split
  · exact Action.ignores_throw _
  · next pom _ =>
    exact Action.ignores_bind (Action.ignores_modify rfl fun _ => rfl)
      fun _ _ _ => Action.ignores_pure pom

/-- Loading a POM ignores what the files elsewhere hold. -/
theorem ignores_load (hne : l ≠ source.place s.files key) :
    Action.Ignores (fileCell l) (load source key) s := by
  rw [load_eq]
  refine Action.ignores_get_bind ?_ fun old new hold => rfl
  rw [loadStep]
  split
  · exact Action.ignores_pure _
  · rw [loadNew]
    split
    · exact Action.ignores_throw _
    · exact Action.ignores_bind (ignores_content hne) fun bytes s' _ => ignores_register bytes s'

end Loading

/-! ## What steps leave behind -/

/-- The paths that are asked of the remote repository between two states. -/
def asked (s s' : PomStore) : List String := s'.requests.drop s.requests.length

/-- The remote repository answers a request between two states with a content, for a path that leads
    to a location. -/
def Offers (source : PomSource) (s s' : PomStore) (l : Location) (content : Bytes) : Prop :=
  ∃ path ∈ asked s s', source.answer? path = some content ∧
    l = (source.base s.files).descend path

/-- Between two states, files change only by answers to requests that are put where their paths lead
    from the repository, and POMs are loaded only from the files at their places there. -/
structure Confined (source : PomSource) (s s' : PomStore) : Prop where
  workingDirectory : s'.files.workingDirectory = s.files.workingDirectory
  requests : s.requests <+: s'.requests
  file? : ∀ l, s'.files.file? l = s.files.file? l ∨
    ∃ content, Offers source s s' l content ∧ s'.files.file? l = some content
  loaded : ∀ key pom, s'.loaded.get? key = some pom →
    s.loaded.get? key = some pom ∨
    isOpen key.version = false ∧
      ∃ content, Pom.parse (String.ofList (Utf8.decodeLossy content)) key.text = .ok pom ∧
        (s.files.file? (source.place s.files key) = some content ∨
          Offers source s s' (source.place s.files key) content)

section Confined

variable {source : PomSource} {s s' s'' : PomStore} {l : Location} {content : Bytes}

theorem mem_asked_left {path : String} (h : s'.requests <+: s''.requests)
    (hpath : path ∈ asked s s') : path ∈ asked s s'' := by
  obtain ⟨more, hmore⟩ := h
  rw [asked, ← hmore, List.drop_append]
  exact List.mem_append_left _ hpath

theorem mem_asked_right {path : String} (h : s.requests <+: s'.requests)
    (hpath : path ∈ asked s' s'') : path ∈ asked s s'' := by
  obtain ⟨more, hmore⟩ := h
  rw [asked, ← hmore, List.length_append, ← List.drop_drop] at hpath
  exact List.mem_of_mem_drop hpath

theorem Offers.left (h : s'.requests <+: s''.requests) (hoffers : Offers source s s' l content) :
    Offers source s s'' l content := by
  obtain ⟨path, hpath, hanswer, hl⟩ := hoffers
  exact ⟨path, mem_asked_left h hpath, hanswer, hl⟩

theorem Offers.right (h : Confined source s s') (hoffers : Offers source s' s'' l content) :
    Offers source s s'' l content := by
  obtain ⟨path, hpath, hanswer, hl⟩ := hoffers
  refine ⟨path, mem_asked_right h.requests hpath, hanswer, hl.trans ?_⟩
  rw [PomSource.base, location_congr h.workingDirectory, PomSource.base]

theorem Confined.refl (source : PomSource) (s : PomStore) : Confined source s s :=
  ⟨rfl, List.prefix_refl _, fun _ => .inl rfl, fun _ _ h => .inl h⟩

theorem Confined.trans (h : Confined source s s') (h' : Confined source s' s'') :
    Confined source s s'' := by
  refine ⟨h'.workingDirectory.trans h.workingDirectory, h.requests.trans h'.requests,
    fun l => ?_, fun key pom hpom => ?_⟩
  · rcases h'.file? l with hsame | ⟨content, hoffers, hcontent⟩
    · rcases h.file? l with hsame' | ⟨content, hoffers, hcontent⟩
      · exact .inl (hsame.trans hsame')
      · exact .inr ⟨content, hoffers.left h'.requests, hsame.trans hcontent⟩
    · exact .inr ⟨content, hoffers.right h, hcontent⟩
  · rcases h'.loaded key pom hpom with hpom | ⟨hopen, content, hparse, hsource⟩
    · rcases h.loaded key pom hpom with hpom | ⟨hopen, content, hparse, hsource⟩
      · exact .inl hpom
      · exact .inr ⟨hopen, content, hparse, hsource.imp_right (Offers.left h'.requests)⟩
    · refine .inr ⟨hopen, content, hparse, ?_⟩
      have hplace : source.place s'.files key = source.place s.files key :=
        location_congr h.workingDirectory _
      rw [hplace] at hsource
      rcases hsource with hfile | hoffers
      · rcases h.file? (source.place s.files key) with hsame | ⟨content', hoffers, hcontent⟩
        · exact .inl (hsame.symm.trans hfile)
        · obtain rfl := Option.some.inj (hcontent.symm.trans hfile)
          exact .inr (hoffers.left h'.requests)
      · exact .inr (hoffers.right h)

end Confined

theorem confined_ask (source : PomSource) (s : PomStore) (key : PomKey) :
    Confined source s (ask s key) :=
  ⟨rfl, List.prefix_append .., fun _ => .inl rfl, fun _ _ h => .inl h⟩

section Steps

variable {source : PomSource} {key : PomKey} {s s' : PomStore} {bytes : Bytes}

/-- A request for a POM whose answer is kept at the POM's place. -/
theorem confined_kept (hanswer : source.answer? key.path = some bytes) {files : FileTree}
    (h : FilesBut (Repository.pomFile source.repository key.groupId key.artifactId key.version)
      bytes s.files files) : Confined source s { ask s key with files } := by
  refine ⟨h.workingDirectory, List.prefix_append .., fun l => ?_, fun _ _ h => .inl h⟩
  refine (h.file? l).imp_right fun ⟨hl, hcontent⟩ => ?_
  refine ⟨bytes, ⟨key.path, ?_, hanswer, ?_⟩, hcontent⟩
  · simp [asked, ask]
  · rw [hl, ← PomSource.place_eq, PomSource.place]

theorem offers_answer (hanswer : source.answer? key.path = some bytes) (files : FileTree) :
    Offers source s { ask s key with files } (source.place s.files key) bytes :=
  ⟨key.path, by simp [asked, ask], hanswer, PomSource.place_eq source s.files key⟩

/-- A step takes the content of a POM's file: it changes the store as loading does, and what it
    gives stands at the POM's place or answers a request. -/
def Takes (source : PomSource) (key : PomKey) (a : Action PomStore BuildError Bytes)
    (s : PomStore) : Prop :=
  Confined source s (StateT.run (ExceptT.run a) s).2 ∧
  ∀ bytes s', Action.Runs a s bytes s' →
    s.files.file? (source.place s.files key) = some bytes ∨
      Offers source s s' (source.place s.files key) bytes

theorem takes_throw (e : BuildError) : Takes source key (throw e) s :=
  ⟨Confined.refl source s, fun _ _ hruns => absurd hruns Action.not_runs_throw⟩

theorem takes_get_bind {g : PomStore → Action PomStore BuildError Bytes}
    (h : Takes source key (g s) s) : Takes source key (get >>= g) s := h

/-- What answers the request for a POM is kept at most at the POM's place. -/
theorem takes_receive {answer : Option (Except BuildError Bytes)}
    (h : ∀ bytes, answer = some (.ok bytes) → source.answer? key.path = some bytes) :
    Takes source key (modify (ask · key) >>= fun _ => receive key (Repository.pomFile
      source.repository key.groupId key.artifactId key.version) answer) s := by
  generalize hpath : Repository.pomFile source.repository key.groupId key.artifactId key.version =
    path
  change Confined source s (StateT.run (ExceptT.run (receive key path answer)) (ask s key)).2 ∧
    ∀ bytes s', Action.Runs (receive key path answer) (ask s key) bytes s' → _
  rcases answer with - | cause | bytes
  · exact ⟨confined_ask source s key, fun _ _ hruns => absurd hruns Action.not_runs_throw⟩
  · exact ⟨confined_ask source s key, fun _ _ hruns => absurd hruns Action.not_runs_throw⟩
  · obtain ⟨result, files, hkeep⟩ : ∃ result files,
        StateT.run (ExceptT.run (keep path bytes)) (ask s key).files = (result, files) :=
      ⟨_, _, Prod.eta _ |>.symm⟩
    have hrun : StateT.run (ExceptT.run (receive key path (some (.ok bytes)))) (ask s key) =
        ((result.mapError .io).map fun _ => bytes, { ask s key with files }) := by
      rw [receive, Action.run_bind, Action.run_onPart, hkeep]
      cases result <;> rfl
    have hfiles := keeps_keep path bytes (ask s key).files
    rw [hkeep, ← hpath] at hfiles
    rw [hrun]
    refine ⟨confined_kept (h bytes rfl) hfiles, fun bytes' s' hruns => .inr ?_⟩
    obtain ⟨hresult, rfl⟩ := Prod.mk.inj (hrun.symm.trans hruns)
    cases result with
    | ok x =>
      obtain rfl := Except.ok.inj hresult
      exact offers_answer (h _ rfl) files
    | error e => cases hresult

theorem takes_fetch (source : PomSource) (key : PomKey) (s : PomStore) :
    Takes source key (fetch source key (Repository.pomFile source.repository key.groupId
      key.artifactId key.version)) s := by
  rw [fetch_eq]
  cases hremote : source.remote with
  | none => exact takes_throw _
  | some remote =>
    refine takes_receive fun bytes hanswer => ?_
    rw [PomSource.answer?, hremote, Option.bind_some, hanswer]
    rfl

theorem takes_content (source : PomSource) (key : PomKey) (s : PomStore) :
    Takes source key (content source key) s := by
  rw [content]
  refine takes_get_bind ?_
  dsimp only
  split
  · cases hread : s.files.read _ with
    | error cause => exact takes_throw _
    | ok found =>
      refine ⟨Confined.refl source s, fun bytes s' hruns => .inl ?_⟩
      obtain ⟨rfl, -⟩ := Action.runs_pure.mp hruns
      exact file?_of_read hread
  · exact takes_fetch source key s

theorem confined_loaded {pom : Pom} (hconfined : Confined source s s')
    (hopen : isOpen key.version = false)
    (hparse : Pom.parse (String.ofList (Utf8.decodeLossy bytes)) key.text = .ok pom)
    (hbytes : s.files.file? (source.place s.files key) = some bytes ∨
      Offers source s s' (source.place s.files key) bytes) :
    Confined source s { s' with loaded := s'.loaded.insert key pom } := by
  refine ⟨hconfined.workingDirectory, hconfined.requests, hconfined.file?, fun other q hq => ?_⟩
  rw [Table.get?_insert] at hq
  split at hq
  · next heq =>
    subst heq
    obtain rfl := Option.some.inj hq
    exact .inr ⟨hopen, bytes, hparse, hbytes⟩
  · exact hconfined.loaded other q hq

theorem keeps_load (source : PomSource) (key : PomKey) :
    Action.Keeps (Confined source) (load source key) := by
  rw [load_eq]
  refine Action.keeps_get_bind fun t => ?_
  rw [loadStep]
  cases t.loaded.get? key with
  | some pom => exact Action.keeps_pure (Confined.refl source) pom
  | none =>
    dsimp only [loadNew]
    split
    · exact Action.keeps_throw (Confined.refl source) _
    · next hopen =>
      intro s
      obtain ⟨hconfined, hsource⟩ := takes_content source key s
      rw [Action.run_bind]
      cases hrun : StateT.run (ExceptT.run (content source key)) s with
      | mk result s' =>
        rw [hrun] at hconfined
        cases result with
        | error e => exact hconfined
        | ok bytes =>
          dsimp only [register]
          cases hparse : Pom.parse (String.ofList (Utf8.decodeLossy bytes)) key.text with
          | error cause => exact hconfined
          | ok pom =>
            exact confined_loaded hconfined (by simpa using hopen) hparse (hsource bytes s' hrun)

end Steps

end PomStore

end MavenPom
