import Mathlib.Control.Monad.Basic
import MavenPom.Proofs.Repository.Confinement
import MavenPom.Proofs.Repository.Kept

/-!
# What a failed load leaves

A POM that could not be loaded is not loaded, and mostly nothing else has changed. A download is
kept before it is read, though: where the remote repository delivers something that is no POM, it
stays in the POM's place, and the POM cannot be loaded from there later either.
-/

namespace MavenPom

open MavenPom.Action (Runs Fails)

namespace Action

variable {σ ε α β : Type}

instance [DecidableEq σ] [DecidableEq ε] [DecidableEq α] (a : Action σ ε α) (s : σ) (e : ε)
    (s' : σ) : Decidable (Fails a s e s') :=
  inferInstanceAs (Decidable (@Eq (Except ε α × σ) (StateT.run (ExceptT.run a) s) (.error e, s')))

/-- The step gives the same in related states, and leaves related states. -/
def Respects (R : σ → σ → Prop) (a : Action σ ε α) : Prop :=
  ∀ s t, R s t → (StateT.run (ExceptT.run a) s).1 = (StateT.run (ExceptT.run a) t).1 ∧
    R (StateT.run (ExceptT.run a) s).2 (StateT.run (ExceptT.run a) t).2

section Respects

variable {R : σ → σ → Prop} {a : Action σ ε α} {f : α → Action σ ε β}

theorem respects_pure (x : α) : Respects R (pure x : Action σ ε α) := fun _ _ h => ⟨rfl, h⟩

theorem respects_throw (e : ε) : Respects R (throw e : Action σ ε α) := fun _ _ h => ⟨rfl, h⟩

theorem respects_modify {g : σ → σ} (h : ∀ s t, R s t → R (g s) (g t)) :
    Respects R (modify g : Action σ ε PUnit) := fun s t hst => ⟨rfl, h s t hst⟩

/-- A step that looks at the state respects a relation that leaves what it sees alone. -/
theorem respects_get_bind {g : σ → Action σ ε β} (hseen : ∀ s t, R s t → g s = g t)
    (hg : ∀ s, Respects R (g s)) : Respects R (get >>= g) := by
  intro s t hst
  rw [run_get_bind, run_get_bind, hseen s t hst]
  exact hg t s t hst

theorem respects_bind (ha : Respects R a) (hf : ∀ x, Respects R (f x)) :
    Respects R (a >>= f) := by
  intro s t hst
  obtain ⟨hresult, hstate⟩ := ha s t hst
  rw [run_bind, run_bind]
  cases hrun : StateT.run (ExceptT.run a) s with
  | mk result s' =>
    cases hrun' : StateT.run (ExceptT.run a) t with
    | mk result' t' =>
      rw [hrun, hrun'] at hresult hstate
      obtain rfl : result = result' := hresult
      cases result with
      | ok x => exact hf x s' t' hstate
      | error e => exact ⟨rfl, hstate⟩

end Respects

end Action

namespace PomStore

open FileTree (SameFiles KeepsDirectories)

variable {source : PomSource} {key : PomKey} {s s' : PomStore} {e : BuildError} {bytes : Bytes}

/-! ## What was asked makes no difference -/

/-- The files and the loaded POMs are the same. -/
structure SameHoldings (s t : PomStore) : Prop where
  files : t.files = s.files
  loaded : t.loaded = s.loaded

theorem respects_keep (path : String) (content : Bytes) : Action.Respects SameHoldings
    (Action.onPart files (fun s files => { s with files }) BuildError.io (keep path content)) := by
  intro s t h
  rw [Action.run_onPart, Action.run_onPart, h.files]
  exact ⟨rfl, rfl, h.loaded⟩

theorem respects_receive (path : String) (answer : Option (Except BuildError Bytes)) :
    Action.Respects SameHoldings (receive key path answer) := by
  rcases answer with - | cause | content
  · exact Action.respects_throw _
  · exact Action.respects_throw _
  · exact Action.respects_bind (respects_keep path content) fun _ => Action.respects_pure content

theorem respects_fetch (source : PomSource) (key : PomKey) (path : String) :
    Action.Respects SameHoldings (fetch source key path) := by
  rw [fetch_eq]
  cases source.remote with
  | none => exact Action.respects_throw _
  | some remote =>
    exact Action.respects_bind (Action.respects_modify fun s t h => ⟨h.files, h.loaded⟩)
      fun _ => respects_receive path _

theorem respects_content (source : PomSource) (key : PomKey) :
    Action.Respects SameHoldings (content source key) := by
  rw [content]
  refine Action.respects_get_bind (fun s t h => ?_) fun s => ?_
  · simp only [h.files]
  · dsimp only
    split
    · split
      · exact Action.respects_pure _
      · exact Action.respects_throw _
    · exact respects_fetch source key _

theorem respects_register (key : PomKey) (bytes : Bytes) :
    Action.Respects SameHoldings (register key bytes) := by
  rw [register]
  split
  · exact Action.respects_throw _
  · exact Action.respects_bind
      (Action.respects_modify fun s t h => ⟨h.files, by simp only [h.loaded]⟩)
      fun _ => Action.respects_pure _

/-- Loading a POM depends on the files and on what is loaded, but not on what was asked before. -/
theorem respects_load (source : PomSource) (key : PomKey) :
    Action.Respects SameHoldings (load source key) := by
  rw [load_eq]
  refine Action.respects_get_bind (fun s t h => ?_) fun s => ?_
  · rw [loadStep, loadStep, h.loaded]
  · rw [loadStep]
    split
    · exact Action.respects_pure _
    · rw [loadNew]
      split
      · exact Action.respects_throw _
      · exact Action.respects_bind (respects_content source key) (respects_register key)

/-! ## How loading fails -/

theorem fails_keep {path : String} {content : Bytes} :
    Fails (Action.onPart files (fun s files => { s with files }) BuildError.io (keep path content))
      s e s' ↔
    ∃ cause files, e = .io cause ∧ Fails (keep path content) s.files cause files ∧
      s' = { s with files } := by
  rw [Fails, Action.run_onPart]
  cases hrun : StateT.run (ExceptT.run (keep path content)) s.files with
  | mk result files =>
    cases result with
    | ok x =>
      refine ⟨fun h => (by cases (Prod.mk.inj h).1), ?_⟩
      rintro ⟨cause, files', -, hfails, -⟩
      cases (Prod.mk.inj (hrun.symm.trans hfails)).1
    | error cause =>
      constructor
      · intro h
        obtain ⟨hresult, hstate⟩ := Prod.mk.inj h
        exact ⟨cause, files, (Except.error.inj hresult).symm, hrun, hstate.symm⟩
      · rintro ⟨cause', files', rfl, hfails, rfl⟩
        obtain ⟨hresult, rfl⟩ := Prod.mk.inj (hrun.symm.trans hfails)
        obtain rfl := Except.error.inj hresult
        rfl

/-- Nothing but directories is made for a file that could not be kept. -/
theorem directories_of_fails_keep {path : String} {content : Bytes} {t t' : FileTree}
    {cause : IoError} (h : Fails (keep path content) t cause t') :
    SameFiles t t' ∧ KeepsDirectories t t' := by
  rw [keep_eq] at h
  cases hparent : Path.parent? path with
  | none =>
    rw [hparent] at h
    obtain rfl := (Prod.mk.inj h).2
    exact ⟨.refl _, .refl _⟩
  | some dir =>
    rw [hparent] at h
    have hmade (t₁ : FileTree) (h₁ : t₁ = (StateT.run (ExceptT.run
        (FileTree.makeDirectories dir)) t).2) : SameFiles t t₁ ∧ KeepsDirectories t t₁ :=
      h₁ ▸ ⟨FileTree.keeps_makeAlong _ t, FileTree.keepsDirectories_makeAlong _ t⟩
    rcases Action.fails_bind.mp h with hmake | ⟨u, t₁, hmake, hdeposit⟩
    · exact hmade t' (by rw [hmake])
    · rw [Fails, run_deposit] at hdeposit
      have hstate : t' = t₁ := by
        split at hdeposit
        · exact (Prod.mk.inj hdeposit).2.symm
        · split at hdeposit
          · exact (Prod.mk.inj hdeposit).2.symm
          · cases (Prod.mk.inj hdeposit).1
      exact hstate ▸ hmade t₁ (by rw [hmake])

theorem fails_receive {path : String} {answer : Option (Except BuildError Bytes)}
    (h : Fails (receive key path answer) s e s') :
    s' = s ∨ ∃ bytes cause files, answer = some (.ok bytes) ∧ e = .io cause ∧
      Fails (keep path bytes) s.files cause files ∧ s' = { s with files } := by
  rcases answer with - | cause | there
  · exact .inl (Prod.mk.inj h).2.symm
  · exact .inl (Prod.mk.inj h).2.symm
  · rw [receive] at h
    rcases Action.fails_bind.mp h with hkeep | ⟨u, t, -, hpure⟩
    · obtain ⟨cause, files, rfl, hfails, rfl⟩ := fails_keep.mp hkeep
      exact .inr ⟨there, cause, files, rfl, rfl, hfails, rfl⟩
    · cases (Prod.mk.inj hpure).1

/-- Without a content, the store is as it was but for what was asked, or the remote repository
    delivered the content of a file that is missing and it could not be kept. -/
theorem fails_content (h : Fails (content source key) s e s') :
    SameHoldings s s' ∨ ∃ bytes cause files, s.files.isFile (source.file key) = false ∧
      source.answer? key.path = some bytes ∧ e = .io cause ∧
      Fails (keep (source.file key) bytes) s.files cause files ∧ s' = { ask s key with files } := by
  rw [content, Action.fails_get_bind] at h
  dsimp only at h
  split at h
  · split at h
    · cases (Prod.mk.inj h).1
    · obtain rfl := (Prod.mk.inj h).2
      exact .inl ⟨rfl, rfl⟩
  · next hmissing =>
    rw [fetch_eq] at h
    cases hremote : source.remote with
    | none =>
      rw [hremote] at h
      obtain rfl := (Prod.mk.inj h).2
      exact .inl ⟨rfl, rfl⟩
    | some remote =>
      rw [hremote] at h
      have hreceive :
          Fails (receive key (source.file key) (remote.get? key.path)) (ask s key) e s' := h
      rcases fails_receive hreceive with rfl | ⟨bytes, cause, files, hanswer, rfl, hkeep, rfl⟩
      · exact .inl ⟨rfl, rfl⟩
      · refine .inr ⟨bytes, cause, files, Bool.eq_false_iff.mpr hmissing, ?_, rfl, hkeep, rfl⟩
        exact answer?_eq_some.mpr ⟨remote, hremote, hanswer⟩

theorem fails_register : Fails (register key bytes) s e s' ↔
    (∀ pom, ¬Reads key bytes pom) ∧ e = .project (.notWellFormed key.text) ∧ s' = s := by
  rw [register]
  simp only [Reads, Pom.parse]
  cases Markup.Strict.parse? (String.ofList (Utf8.decodeLossy bytes)) with
  | none =>
    constructor
    · intro h
      obtain ⟨hresult, hstate⟩ := Prod.mk.inj h
      refine ⟨fun pom hpom => ?_, (Except.error.inj hresult).symm, hstate.symm⟩
      cases hpom
    · rintro ⟨-, rfl, rfl⟩
      exact Action.fails_throw
  | some project =>
    constructor
    · intro h
      cases (Prod.mk.inj h).1
    · rintro ⟨hnone, -, -⟩
      exact absurd rfl (hnone _)

theorem fails_load : Fails (load source key) s e s' ↔
    s.loaded.get? key = none ∧
      (isOpen key.version = true ∧ s' = s ∧
        e = .invalidModel key.text ["cannot resolve version \x60" ++ key.version ++ "\x60"] ∨
      isOpen key.version = false ∧ (Fails (content source key) s e s' ∨
        ∃ bytes, Runs (content source key) s bytes s' ∧ (∀ pom, ¬Reads key bytes pom) ∧
          e = .project (.notWellFormed key.text))) := by
  rw [load_eq, Action.fails_get_bind, loadStep]
  cases s.loaded.get? key with
  | some pom =>
    constructor
    · intro h
      cases (Prod.mk.inj h).1
    · rintro ⟨hnone, -⟩
      cases hnone
  | none =>
    dsimp only [loadNew]
    cases isOpen key.version with
    | true =>
      rw [if_pos rfl]
      constructor
      · intro h
        obtain ⟨hresult, hstate⟩ := Prod.mk.inj h
        exact ⟨rfl, .inl ⟨rfl, hstate.symm, (Except.error.inj hresult).symm⟩⟩
      · rintro ⟨-, hopened⟩
        rcases hopened with ⟨-, rfl, rfl⟩ | ⟨hopen, -⟩
        · exact Action.fails_throw
        · cases hopen
    | false =>
      rw [if_neg Bool.false_ne_true, Action.fails_bind]
      constructor
      · rintro (hcontent | ⟨bytes, t, hcontent, hregister⟩)
        · exact ⟨rfl, .inr ⟨rfl, .inl hcontent⟩⟩
        · obtain ⟨hnone, rfl, rfl⟩ := fails_register.mp hregister
          exact ⟨rfl, .inr ⟨rfl, .inr ⟨bytes, hcontent, hnone, rfl⟩⟩⟩
      · rintro ⟨-, hopened⟩
        rcases hopened with ⟨hopen, -⟩ | ⟨-, hcontent | ⟨bytes, hcontent, hnone, rfl⟩⟩
        · cases hopen
        · exact .inl hcontent
        · exact .inr ⟨bytes, s', hcontent, fails_register.mpr ⟨hnone, rfl, rfl⟩⟩

/-! ## What is left -/

/-- Every later load gives what it would have given. -/
theorem SameHoldings.result_load (h : SameHoldings s s') (source : PomSource) (key : PomKey) :
    (StateT.run (ExceptT.run (load source key)) s').1 =
      (StateT.run (ExceptT.run (load source key)) s).1 :=
  (respects_load source key s s' h).1.symm

/-- A load that fails loads nothing. The files are as they were too, and so is every later load,
    unless the POM's file was missing and the remote repository delivered one. Where that could not
    be kept, no more than directories were made. Where it is no POM, it stays in the POM's place,
    and from there the POM fails to load in the same way. -/
theorem left_of_fails_load (h : Fails (load source key) s e s') :
    s'.loaded = s.loaded ∧
    ((s'.files = s.files ∧ ∀ later other,
        (StateT.run (ExceptT.run (load later other)) s').1 =
          (StateT.run (ExceptT.run (load later other)) s).1) ∨
      ∃ bytes, s.files.isFile (source.file key) = false ∧ source.answer? key.path = some bytes ∧
        ((∃ cause, e = .io cause) ∧ SameFiles s.files s'.files ∧
            KeepsDirectories s.files s'.files ∨
          e = .project (.notWellFormed key.text) ∧ (∀ pom, ¬Reads key bytes pom) ∧
            (∃ l, Kept source key bytes s.files s'.files l) ∧
            ∀ later, later.repository = source.repository → Fails (load later key) s' e s')) := by
  have hsame {t : PomStore} (ht : SameHoldings s t) : t.files = s.files ∧ ∀ later other,
      (StateT.run (ExceptT.run (load later other)) t).1 =
        (StateT.run (ExceptT.run (load later other)) s).1 :=
    ⟨ht.files, ht.result_load⟩
  obtain ⟨hnew, ⟨-, rfl, -⟩ | ⟨hopen, hcontent | ⟨bytes, hcontent, hnone, rfl⟩⟩⟩ := fails_load.mp h
  · -- the version names no one POM
    exact ⟨rfl, .inl (hsame ⟨rfl, rfl⟩)⟩
  · -- there is no content
    rcases fails_content hcontent with
      ht | ⟨bytes, cause, files, hmissing, hanswer, rfl, hkeep, rfl⟩
    · exact ⟨ht.loaded, .inl (hsame ht)⟩
    · exact ⟨rfl, .inr ⟨bytes, hmissing, hanswer,
        .inl ⟨⟨cause, rfl⟩, directories_of_fails_keep hkeep⟩⟩⟩
  · -- the content is no POM
    rcases runs_content.mp hcontent with ⟨-, rfl⟩ | ⟨hmissing, hanswer, files, hkeep, rfl⟩
    · exact ⟨rfl, .inl (hsame ⟨rfl, rfl⟩)⟩
    · obtain ⟨l, hkept⟩ := exists_kept hkeep
      refine ⟨rfl, .inr ⟨bytes, hmissing, hanswer, .inr ⟨rfl, hnone, ⟨l, hkept⟩, ?_⟩⟩⟩
      intro later hrepository
      have hread : files.read (later.file key) = .ok bytes := by
        rw [PomSource.file, hrepository]
        exact hkept.read
      have hagain : Runs (content later key) { ask s key with files } bytes
          { ask s key with files } := runs_content.mpr (.inl ⟨hread, rfl⟩)
      exact fails_load.mpr ⟨hnew, .inr ⟨hopen, .inr ⟨bytes, hagain, hnone, rfl⟩⟩⟩

/-- A repository at `/m2` that lacks `g:a:1`, and what a remote one delivers for it. -/
def delivering (content : String) : PomSource :=
  ⟨"/m2", some (Table.empty.insert "g/a/1/a-1.pom" (.ok (Utf8.encode content.toList)))⟩

def wanted : PomKey := ⟨"g", "a", "1"⟩

/-- What is left of an attempt to load a POM from a page that is not even XML. -/
def garbled : PomStore :=
  (StateT.run (ExceptT.run (load (delivering "gone") wanted)) (.ofFiles .empty)).2

theorem left_of_fails_load_garbled :
    Fails (load (delivering "gone") wanted) (.ofFiles .empty)
        (.project (.notWellFormed "g:a:1")) garbled ∧
      garbled.files.files = [["m2", "g", "a", "1", "a-1.pom"]] ∧
      garbled.loaded = Table.empty ∧
      Fails (load ⟨"/m2", none⟩ wanted) garbled (.project (.notWellFormed "g:a:1")) garbled := by
  have hfails : Fails (load (delivering "gone") wanted) (.ofFiles .empty)
      (.project (.notWellFormed "g:a:1")) garbled := by decide +kernel
  have hfiles : garbled.files.files = [["m2", "g", "a", "1", "a-1.pom"]] := by decide +kernel
  obtain ⟨hloaded, ⟨hsame, -⟩ | ⟨bytes, -, -, ⟨⟨cause, hcause⟩, -⟩ | ⟨-, -, -, hlater⟩⟩⟩ :=
    left_of_fails_load hfails
  · rw [hsame] at hfiles
    cases hfiles
  · cases hcause
  · exact ⟨hfails, hfiles, hloaded, hlater ⟨"/m2", none⟩ rfl⟩

/-- The file that is left stands in the way of the POM that the remote repository delivers later:
    without the attempt that failed it would be loaded. -/
theorem not_unchanged_garbled :
    Fails (load (delivering "gone") wanted) (.ofFiles .empty)
        (.project (.notWellFormed "g:a:1")) garbled ∧
      garbled.files ≠ (PomStore.ofFiles .empty).files ∧
      ((StateT.run (ExceptT.run (load (delivering "<project/>") wanted))
        (.ofFiles .empty)).2.loaded.get? wanted).isSome ∧
      Fails (load (delivering "<project/>") wanted) garbled (.project (.notWellFormed "g:a:1"))
        garbled := by
  decide +kernel

end PomStore

end MavenPom
