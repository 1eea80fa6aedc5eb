import MavenPom.Proofs.Repository.Kept
import MavenPom.Proofs.Repository.Mediation

/-!
# Resolving offline what was fetched

What a resolution has fetched is in the repository afterwards, so another one finds all that it
needs there and asks for nothing. A path that leads up is the exception: what is fetched for it may
be put in the place of a POM that was loaded before.
-/

namespace MavenPom

open MavenPom.Action (Runs Again)

namespace PomSource

/-- The same repository, with nothing to fetch from. -/
def offline (source : PomSource) : PomSource :=
  { source with remote := none }

theorem file_congr {source : PomSource} {key other : PomKey} (h : key.path = other.path) :
    source.file key = source.file other :=
  congrArg (fun path => (Text.fields '/' path).foldl Path.join source.repository) h

end PomSource

namespace PomStore

variable {source : PomSource} {key : PomKey} {s s' t : PomStore} {pom : Pom}

/-! ## What is asked for -/

/-- All paths that were asked for are different, and there are files for them. -/
structure AskedOnce (source : PomSource) (s : PomStore) : Prop where
  nodup : s.requests.Nodup
  isFile : ∀ path ∈ s.requests, ∃ key : PomKey, key.path = path ∧
    s.files.isFile (source.file key) = true

theorem askedOnce_ofFiles (source : PomSource) (files : FileTree) :
    AskedOnce source (.ofFiles files) :=
  ⟨List.nodup_nil, fun _ hpath => absurd hpath List.not_mem_nil⟩

theorem AskedOnce.load (h : AskedOnce source s) (hload : Runs (load source key) s pom s') :
    AskedOnce source s' := by
  rcases runs_load.mp hload with ⟨-, rfl⟩ | ⟨-, -, bytes, t, hcontent, -, rfl⟩
  · exact h
  rcases runs_content.mp hcontent with ⟨-, rfl⟩ | ⟨hmissing, -, files, hkeep, rfl⟩
  · exact ⟨h.nodup, h.isFile⟩
  obtain ⟨l, hkept⟩ := exists_kept hkeep
  have hnew : key.path ∉ s.requests := by
    intro hasked
    obtain ⟨other, hpath, hfile⟩ := h.isFile key.path hasked
    rw [PomSource.file_congr hpath, hmissing] at hfile
    cases hfile
  refine ⟨List.nodup_append.mpr ⟨h.nodup, List.nodup_singleton _, ?_⟩, fun path hpath => ?_⟩
  · rintro path hasked _ (hlast : _ ∈ [key.path]) rfl
    exact hnew (List.mem_singleton.mp hlast ▸ hasked)
  · rcases List.mem_append.mp hpath with hpath | hpath
    · obtain ⟨other, hother, hfile⟩ := h.isFile path hpath
      exact ⟨other, hother, hkept.isFile hfile⟩
    · exact ⟨key, (List.mem_singleton.mp hpath).symm,
        FileTree.isFile_iff.mpr ⟨bytes, hkept.read⟩⟩

theorem again_askedOnce (source : PomSource) (key : PomKey) :
    Again (fun _ => True) (fun s t => t = s ∧ AskedOnce source s) (load source key)
      (load source key) :=
  Action.again_self (fun _ _ => trivial) fun hload _ h => h.load hload

/-! ## What was loaded is still there -/

/-- No path that was asked for leads up. -/
def AsksDown (s : PomStore) : Prop := ∀ path ∈ s.requests, ".." ∉ Text.fields '/' path

/-- All POMs that are loaded are what their files have. -/
def Backed (source : PomSource) (s : PomStore) : Prop :=
  ∀ key pom, s.loaded.get? key = some pom → isOpen key.version = false ∧
    ∃ bytes, s.files.read (source.file key) = .ok bytes ∧ Reads key bytes pom

theorem backed_ofFiles (source : PomSource) (files : FileTree) :
    Backed source (.ofFiles files) := by
  intro key pom hpom
  cases hpom

theorem Backed.load (h : Backed source s) (hload : Runs (load source key) s pom s')
    (hdown : AsksDown s') : Backed source s' := by
  rcases runs_load.mp hload with ⟨-, rfl⟩ | ⟨-, hopen, bytes, t, hcontent, hreads, rfl⟩
  · exact h
  have hold : ∀ other there, s.loaded.get? other = some there → isOpen other.version = false ∧
      ∃ bytes, t.files.read (source.file other) = .ok bytes ∧ Reads other bytes there := by
    intro other there hthere
    obtain ⟨hopen, held, hread, hreads⟩ := h other there hthere
    rcases runs_content.mp hcontent with ⟨-, rfl⟩ | ⟨hmissing, -, files, hkeep, rfl⟩
    · exact ⟨hopen, held, hread, hreads⟩
    · obtain ⟨l, hkept⟩ := exists_kept hkeep
      have hpath : key.path ∈ (ask s key).requests :=
        List.mem_append_right _ (List.mem_singleton_self _)
      exact ⟨hopen, held, hkept.read_other hmissing (hdown _ hpath) hread, hreads⟩
  have hnew : t.files.read (source.file key) = .ok bytes := by
    rcases runs_content.mp hcontent with ⟨hread, rfl⟩ | ⟨-, -, files, hkeep, rfl⟩
    · exact hread
    · obtain ⟨l, hkept⟩ := exists_kept hkeep
      exact hkept.read
  intro other there hthere
  rw [Table.get?_insert] at hthere
  split at hthere
  · next heq =>
    subst heq
    obtain rfl := Option.some.inj hthere
    exact ⟨hopen, bytes, hnew, hreads⟩
  · exact hold other there (loaded_of_content hcontent ▸ hthere)

theorem again_backed (source : PomSource) (key : PomKey) :
    Again AsksDown (fun s t => t = s ∧ Backed source s) (load source key) (load source key) :=
  Action.again_self
    (fun hload hdown path hpath =>
      hdown path (((keeps_load source key).of_runs hload).requests.subset hpath))
    fun hload hdown h => h.load hload hdown

/-- Nothing but what is loaded at the end of another resolution is loaded, and nothing
    is asked for. -/
structure Behind (last t : PomStore) : Prop where
  files : t.files = last.files
  requests : t.requests = []
  grows : Grows t last

theorem behind_ofFiles (s : PomStore) : Behind s (.ofFiles s.files) := by
  refine ⟨rfl, rfl, fun key pom hpom => ?_⟩
  cases hpom

/-- What was loaded is loaded offline from the files that were left. -/
theorem again_offline {last : PomStore} (h : Backed source last) (key : PomKey) :
    Again (Grows · last) (fun _ t => Behind last t) (load source key)
    (load source.offline key) := by
  refine ⟨fun hload hgrows => (loaded_of_load hload).1.trans hgrows, ?_⟩
  intro s pom s' hload hgrows t hbehind
  have hpom : last.loaded.get? key = some pom := hgrows key pom (loaded_of_load hload).2
  cases hloaded : t.loaded.get? key with
  | some there =>
    obtain rfl := Option.some.inj ((hbehind.grows key there hloaded).symm.trans hpom)
    exact ⟨t, runs_load.mpr (.inl ⟨hloaded, rfl⟩), hbehind⟩
  | none =>
    obtain ⟨hopen, bytes, hread, hreads⟩ := h key pom hpom
    have hcontent : Runs (content source.offline key) t bytes t :=
      runs_content.mpr (.inl ⟨hbehind.files ▸ hread, rfl⟩)
    refine ⟨_, runs_load.mpr (.inr ⟨hloaded, hopen, bytes, t, hcontent, hreads, rfl⟩),
      hbehind.files, hbehind.requests, fun other there hthere => ?_⟩
    rw [Table.get?_insert] at hthere
    split at hthere
    · next heq =>
      obtain rfl := Option.some.inj hthere
      exact heq ▸ hpom
    · exact hbehind.grows other there hthere

end PomStore

namespace Resolver

/-- Nothing is fetched. -/
def offline (r : Resolver) : Resolver :=
  { r with remote := none }

/-- Resolves the dependencies of the model of a lineage. -/
def resolveAll (r : Resolver) (lineage : List Pom) : Resolving (List Dependency) :=
  effectiveModel r lineage >>= resolve r

variable {r r' : Resolver} {Enough : PomStore → Prop} {R : PomStore → PomStore → Prop}

theorem again_resolveAll (hload : ∀ key, Again Enough R (PomStore.load r.toPomSource key)
    (PomStore.load r'.toPomSource key)) (hselection : r'.selection = r.selection)
    (lineage : List Pom) : Again Enough R (resolveAll r lineage) (resolveAll r' lineage) :=
  Action.again_bind (again_effectiveModel hload hselection lineage)
    (again_resolve hload hselection)

/-- A resolution asks for no path twice. Where none that it asked for leads up, it can be done again
    offline, over the files that it left, with the same result and without a request. -/
theorem resolveAll_offline {lineage : List Pom} {files : FileTree} {ds : List Dependency}
    {s : PomStore} (h : Runs (resolveAll r lineage) (.ofFiles files) ds s) :
    s.requests.Nodup ∧ (s.AsksDown →
      ∃ s', Runs (resolveAll r.offline lineage) (.ofFiles s.files) ds s' ∧
        s'.files = s.files ∧ s'.requests = []) := by
  refine ⟨?_, fun hdown => ?_⟩
  · have hagain := again_resolveAll (PomStore.again_askedOnce r.toPomSource) rfl lineage
    exact (hagain.invariant h trivial (PomStore.askedOnce_ofFiles _ files)).nodup
  · have hbacked : PomStore.Backed r.toPomSource s :=
      (again_resolveAll (PomStore.again_backed r.toPomSource) rfl lineage).invariant h hdown
        (PomStore.backed_ofFiles _ files)
    have hload : ∀ key, Again (PomStore.Grows · s) (fun _ t => PomStore.Behind s t)
        (PomStore.load r.toPomSource key) (PomStore.load r.offline.toPomSource key) :=
      PomStore.again_offline hbacked
    have hagain := again_resolveAll hload rfl lineage
    obtain ⟨s', hruns, hbehind⟩ :=
      hagain.runs h (PomStore.Grows.refl s) (.ofFiles s.files) (PomStore.behind_ofFiles s)
    exact ⟨s', hruns, hbehind.files, hbehind.requests⟩

/-- A POM with nothing but dependencies. -/
def nameless (dependencies : List DeclaredDependency) : Pom :=
  ⟨none, none, none, none, none, Table.empty, dependencies, [], []⟩

/-- A store in whose repository nothing is but the POM of `g:a:1`, which was fetched. -/
def fetched : PomStore :=
  ⟨FileTree.empty.writeAt ["m2", "g", "a", "1", "a-1.pom"] emptyPom,
    Table.ofList [(⟨"g", "a", "1"⟩, nameless [])], ["g/a/1/a-1.pom"]⟩

theorem runs_resolveAll_fetched :
    Runs (resolveAll (inM2 "g/a/1/a-1.pom") [nameless [dependsOn "a" "1"]]) (.ofFiles .empty)
      [⟨"g", "a", some "1", none, "jar", "compile"⟩] fetched := by
  have hmodel : Runs (effectiveModel (inM2 "g/a/1/a-1.pom") [nameless [dependsOn "a" "1"]])
      (.ofFiles .empty) (EffectiveModel.build [nameless [dependsOn "a" "1"]] .none)
      (.ofFiles .empty) := by
    decide +kernel
  exact Action.runs_bind.mpr ⟨_, _, hmodel,
    runs_resolve_of_rounds (n := 3) (by decide +kernel) (by decide +kernel)⟩

theorem resolveAll_offline_fetched :
    fetched.requests.Nodup ∧ fetched.AsksDown ∧
      ∃ s', Runs (resolveAll (inM2 "g/a/1/a-1.pom").offline [nameless [dependsOn "a" "1"]])
        (.ofFiles fetched.files) [⟨"g", "a", some "1", none, "jar", "compile"⟩] s' ∧
        s'.files = fetched.files ∧ s'.requests = [] := by
  have hdown : fetched.AsksDown := by
    intro path hpath
    obtain rfl := List.mem_singleton.mp hpath
    decide +kernel
  obtain ⟨hnodup, hagain⟩ := resolveAll_offline runs_resolveAll_fetched
  exact ⟨hnodup, hdown, hagain hdown⟩

/-! ## A path that leads up -/

/-- A dependency on `..` of version `w`. -/
def upward (groupId : String) : DeclaredDependency :=
  ⟨some groupId, some "..", some "w", none, none, none, false, []⟩

def upwardEntry (groupId : String) : Dependency :=
  ⟨groupId, "..", some "w", none, "jar", "compile"⟩

/-- Resolves with what is fetched for `g:..:w`. -/
def fetchingUpward : Resolver := inM2 "g/../w/..-w.pom"

/-- A POM that depends on `g:..:w`. -/
def upwardPom : Bytes :=
  Utf8.encode
    ("<project><dependencies><dependency><groupId>g</groupId><artifactId>..</artifactId>" ++
    "<version>w</version></dependency></dependencies></project>").toList

/-- It is there for `e:..:w`, and `g` has no directory yet. -/
def crossed : FileTree :=
  ⟨⟨[(["m2"], .directory), (["m2", "e"], .directory), (["m2", "w"], .directory),
    (["m2", "w", "..-w.pom"], .file upwardPom)]⟩, []⟩

def overwritten : FileTree :=
  (crossed.put ["m2", "w", "..-w.pom"] (.file emptyPom)).put ["m2", "g"] .directory

theorem runs_resolveAll_crossed :
    Runs (resolveAll fetchingUpward [nameless [upward "e"]]) (.ofFiles crossed)
      [upwardEntry "e", upwardEntry "g"]
      ⟨overwritten, Table.ofList [(⟨"e", "..", "w"⟩, nameless [upward "g"]),
        (⟨"g", "..", "w"⟩, nameless [])], ["g/../w/..-w.pom"]⟩ := by
  have hmodel : Runs (effectiveModel fetchingUpward [nameless [upward "e"]]) (.ofFiles crossed)
      (EffectiveModel.build [nameless [upward "e"]] .none) (.ofFiles crossed) := by
    decide +kernel
  exact Action.runs_bind.mpr ⟨_, _, hmodel,
    runs_resolve_of_rounds (n := 4) (by decide +kernel) (by decide +kernel)⟩

theorem runs_resolveAll_overwritten :
    Runs (resolveAll fetchingUpward.offline [nameless [upward "e"]]) (.ofFiles overwritten)
      [upwardEntry "e"]
      ⟨overwritten, Table.ofList [(⟨"e", "..", "w"⟩, nameless [])], []⟩ := by
  have hmodel : Runs (effectiveModel fetchingUpward.offline [nameless [upward "e"]])
      (.ofFiles overwritten) (EffectiveModel.build [nameless [upward "e"]] .none)
      (.ofFiles overwritten) := by
    decide +kernel
  exact Action.runs_bind.mpr ⟨_, _, hmodel,
    runs_resolve_of_rounds (n := 3) (by decide +kernel) (by decide +kernel)⟩

/-- What is fetched for `g:..:w` is put in the place of the POM that was read for `e:..:w`. The
    dependency of that POM is found at first, and offline it is not found again. -/
theorem not_resolveAll_offline :
    ∃ s, Runs (resolveAll fetchingUpward [nameless [upward "e"]]) (.ofFiles crossed)
        [upwardEntry "e", upwardEntry "g"] s ∧
      ¬∃ s', Runs (resolveAll fetchingUpward.offline [nameless [upward "e"]]) (.ofFiles s.files)
        [upwardEntry "e", upwardEntry "g"] s' := by
  refine ⟨_, runs_resolveAll_crossed, ?_⟩
  rintro ⟨s', hruns⟩
  have hsame := (Prod.mk.inj (hruns.symm.trans runs_resolveAll_overwritten)).1
  exact absurd (Except.ok.inj hsame) (by decide)

end Resolver

end MavenPom
