import MavenPom.Proofs.Markup.Characters
import MavenPom.Proofs.Project.Planned

/-!
# Projects by their characters

What a request makes of a project can be computed from the characters of its documents. Projects
whose documents are all in UTF-8 and in memory are enough to show a request at work.
-/

namespace MavenPom

open Markup MavenPom.Action

namespace Document

/-- Characters can be read as a document in UTF-8, without a mark or another encoding's name. -/
structure Readable (cs : List Char) : Prop where
  detect : Charset.detect (Utf8.encode cs) = .ok Charset.utf8
  decode : Utf8.decode (Utf8.encode cs) = some cs
  tree : (Tree.ofScan (Token.scanChars cs)).isOk = true
  pom : (Strict.parseChars? cs).isSome = true

instance (cs : List Char) : Decidable (Readable cs) :=
  decidable_of_iff (Charset.detect (Utf8.encode cs) = .ok Charset.utf8 ∧
    Utf8.decode (Utf8.encode cs) = some cs ∧ (Tree.ofScan (Token.scanChars cs)).isOk = true ∧
    (Strict.parseChars? cs).isSome = true)
    ⟨fun ⟨h₁, h₂, h₃, h₄⟩ => ⟨h₁, h₂, h₃, h₄⟩, fun ⟨h₁, h₂, h₃, h₄⟩ => ⟨h₁, h₂, h₃, h₄⟩⟩

/-- The document that readable characters are read as. -/
def ofChars (cs : List Char) : Document :=
  let tree := (Tree.ofScan (Token.scanChars cs)).toOption.getD Tree.empty
  let root := (Strict.parseChars? cs).getD (.text "")
  ⟨.memory, Utf8.encode cs, Charset.utf8, String.ofList cs, tree, Pom.ofNode root, tree, none, none,
    false⟩

variable {d : Document} {cs : List Char}

/-- The document that bytes are read as which stand for characters. -/
def ofDecoded (bytes : Bytes) (charset : Charset) (cs : List Char) : Document :=
  { ofChars cs with bytes := bytes, charset := charset }

theorem ofBytes_eq_ofDecoded {bytes : Bytes} {charset : Charset}
    (hdetect : Charset.detect bytes = .ok charset)
    (hdecode : charset.decode bytes = .ok (String.ofList cs))
    (htree : (Tree.ofScan (Token.scanChars cs)).isOk = true)
    (hpom : (Strict.parseChars? cs).isSome = true) :
    ofBytes bytes .memory = .ok (ofDecoded bytes charset cs) := by
  obtain ⟨root, hroot⟩ := Option.isSome_iff_exists.mp hpom
  cases hscan : Tree.ofScan (Token.scanChars cs) with
  | error fault =>
    rw [hscan] at htree
    cases htree
  | ok tree =>
    rw [ofDecoded, ofChars, hscan, hroot]
    rw [← Tree.parse_ofList] at hscan
    rw [← Strict.parse?_ofList] at hroot
    simp only [ofBytes, hdetect, Except.mapError, bind, Except.bind, hdecode, hscan, Pom.parse,
      hroot]
    rfl

theorem ofBytes_encode (h : Readable cs) : ofBytes (Utf8.encode cs) .memory = .ok (ofChars cs) := by
  refine ofBytes_eq_ofDecoded h.detect ?_ h.tree h.pom
  simp only [Charset.decode, Charset.utf8, Charset.Encoding.decode, Bool.false_eq_true, if_false,
    List.drop_zero, h.decode]

/-- Decoding takes away one byte order mark, and no more. -/
theorem ofBytes_mark (cs : List Char) (hdecode : Utf8.decode (Utf8.encode cs) = some cs)
    (htree : (Tree.ofScan (Token.scanChars cs)).isOk = true)
    (hpom : (Strict.parseChars? cs).isSome = true) :
    ofBytes (Charset.Encoding.utf8.mark ++ Utf8.encode cs) .memory =
      .ok (ofDecoded (Charset.Encoding.utf8.mark ++ Utf8.encode cs) ⟨.utf8, true⟩ cs) := by
  have hmark : Charset.ofMark? (Charset.Encoding.utf8.mark ++ Utf8.encode cs) = some .utf8 := rfl
  refine ofBytes_eq_ofDecoded ?_ ?_ htree hpom
  · rw [Charset.detect, hmark]
  · simp only [Charset.decode, hmark, if_true, Option.map_some, Option.getD_some, List.drop_left,
      Charset.Encoding.decode, hdecode]

instance (d : Document) : Decidable d.ReadAlike :=
  inferInstanceAs (Decidable (d.tree.shownPom? = some d.pom))

/-- The document with the layout of its characters captured. -/
def captured (d : Document) : Document :=
  { d with layout :=
      (Utf8.decode d.bytes).bind fun cs => (Layout.captureChars cs d.charset).toOption }

theorem capture_ofChars (h : Readable cs) (hsome : (ofChars cs).captured.layout ≠ none) :
    Formatting.capture (ofChars cs) = .ok (ofChars cs).captured := by
  rw [captured, show (ofChars cs).bytes = Utf8.encode cs from rfl, h.decode, Option.bind_some]
    at hsome ⊢
  rw [Formatting.capture, captureLayout, capture, show (ofChars cs).layout = none from rfl,
    show (ofChars cs).text = String.ofList cs from rfl]
  simp only [Layout.capture_ofList]
  cases hcapture : Layout.captureChars cs (ofChars cs).charset with
  | error fault => simp [hcapture, Except.toOption] at hsome
  | ok layout => rfl

end Document

namespace Formatting

/-- The document with the bytes of its result. -/
def writeBytes (d : Document) : Except RequestError Document :=
  if !d.hasChanges then
    .ok (if d.result.isNone then d.discardChanges else d)
  else do
    let layout ← d.capture.mapError .project
    let result ←
      (layout.restoreBytes (d.edited.renderChars d.edited.size Tree.root)).mapError .markup
    return { d with layout := some layout, result := some result, dirty := true }

theorem writeResult_eq : writeResult = writeBytes := by
  funext d
  simp only [writeResult, writeBytes, Document.editedText, Tree.render_eq, Layout.restore_ofList]

/-- The keeping of layouts, once they have been captured. -/
def restoring : Command Project RequestError :=
  { keepLayout with
    postProcess := do
      changeDocuments writeBytes
      pure false }

theorem restoring_eq : restoring = keepLayout := by
  rw [restoring, ← writeResult_eq]
  rfl

theorem runs_changeDocuments {f : Document → Except RequestError Document} {g : Document → Document}
    {p : Project} (h : ∀ d ∈ p.documents, f d = .ok (g d)) :
    Runs (changeDocuments f) p () (p.mapDocuments g) := by
  have heach : ∀ ds : List Document, (∀ d ∈ ds, f d = .ok (g d)) →
      eachDocument f ds = (ds.map g, none) := by
    intro ds
    induction ds with
    | nil => exact fun _ => rfl
    | cons d ds ih =>
      intro h
      obtain ⟨hd, hds⟩ := List.forall_mem_cons.mp h
      rw [eachDocument, hd]
      simp only [ih hds, List.map_cons]
  unfold changeDocuments
  simp only [runs_get_bind, heach _ h]
  exact runs_set_bind.mpr (runs_pure.mpr ⟨rfl, rfl⟩)

end Formatting

namespace Guard

variable {p : Project}

theorem runs_dependencyPresent (h : p.request.dependency ≠ none) :
    Runs dependencyPresent.execute p .notApplicable p := by
  unfold dependencyPresent
  simp only [runs_get_bind, h, and_false, if_false]
  exact runs_pure.mpr ⟨rfl, rfl⟩

theorem runs_parentPackaging (h : hierarchyFault? p = none) :
    Runs parentPackaging.execute p .notApplicable p := by
  unfold parentPackaging
  simp only [runs_get_bind, h]
  exact runs_pure.mpr ⟨rfl, rfl⟩

end Guard

namespace Project

variable {p p' q : Project} {d : Dependency} {v : String} {handled : Bool} {request : Request}

/-- What is left of a request once its guards have let it pass and layouts have been captured. -/
def carryOut : Editing Bool := do
  let (ran, handled) ← Chain.forward
    [Formatting.restoring, Guard.parentPackaging, Guard.dependencyPresent]
    [Formatting.discardUnchangedAll, Insertion.upgrade, Insertion.upgradeManaged,
      Insertion.manageInAncestor, Insertion.insert]
  Chain.backward ran
  pure handled

theorem run_modify (hdependency : p.request.dependency ≠ none)
    (hfault : Guard.hierarchyFault? p = none)
    (hcapture : ∀ doc ∈ p.documents, Formatting.capture doc = .ok doc.captured) :
    StateT.run (ExceptT.run modify) p =
      StateT.run (ExceptT.run carryOut) (p.mapDocuments (·.captured)) := by
  have hkeep : Runs Formatting.keepLayout.execute p .notApplicable (p.mapDocuments (·.captured)) :=
    runs_bind.mpr ⟨(), _, Formatting.runs_changeDocuments hcapture, runs_pure.mpr ⟨rfl, rfl⟩⟩
  unfold modify Chain.run carryOut modificationCommands
  rw [run_bind, run_bind, Formatting.restoring_eq,
    Chain.run_forward_of_notApplicable (Guard.runs_dependencyPresent hdependency),
    Chain.run_forward_of_notApplicable (Guard.runs_parentPackaging hfault),
    Chain.run_forward_of_notApplicable hkeep]

/-- A project of documents with these characters. -/
def ofChars (request : Request) (target : List Char) (ancestors : List (List Char)) : Project :=
  new (Document.ofChars target) (ancestors.map Document.ofChars) request

/-- Carrying out a request yields the documents of `q`, with the content that has been edited. -/
def carriesOut (p q : Project) : Bool :=
  match StateT.run (ExceptT.run carryOut) (p.mapDocuments (·.captured)) with
  | (.ok _, p') => p'.documents.length == q.documents.length &&
      (p'.documents.zip q.documents).all fun (doc, r) =>
        doc.result == some r.bytes && doc.source == r.source && doc.edited.sameContent r.tree
  | _ => false

/-- What a request comes to, and how its documents look then. -/
def seen? {α : Type} (look : Document → α) (p : Project) : Option (Bool × List α) :=
  match StateT.run (ExceptT.run carryOut) (p.mapDocuments (·.captured)) with
  | (.ok handled, p') => some (handled, p'.documents.map look)
  | _ => none

/-- What there is to be computed of a request that makes `q` of `p`. -/
structure Enacts (p q : Project) : Prop where
  fault : Guard.hierarchyFault? p = none
  layout : ∀ doc ∈ p.documents, doc.captured.layout ≠ none
  readAlike : ∀ doc ∈ p.documents ++ q.documents, doc.ReadAlike
  unrepeated : ∀ doc ∈ p.documents, doc.tree.Unrepeated
  carriesOut : p.carriesOut q = true

instance (p q : Project) : Decidable (p.Enacts q) :=
  decidable_of_iff (Guard.hierarchyFault? p = none ∧
    (∀ doc ∈ p.documents, doc.captured.layout ≠ none) ∧
    (∀ doc ∈ p.documents ++ q.documents, doc.ReadAlike) ∧
    (∀ doc ∈ p.documents, doc.tree.Unrepeated) ∧ p.carriesOut q = true)
    ⟨fun ⟨h₁, h₂, h₃, h₄, h₅⟩ => ⟨h₁, h₂, h₃, h₄, h₅⟩,
      fun ⟨h₁, h₂, h₃, h₄, h₅⟩ => ⟨h₁, h₂, h₃, h₄, h₅⟩⟩

section Brings

variable {target target' : List Char} {ancestors ancestors' : List (List Char)}

theorem exists_ofChars {doc : Document}
    (h : doc ∈ (ofChars request target ancestors).documents) :
    ∃ cs ∈ target :: ancestors, Document.ofChars cs = doc := by
  rcases List.mem_cons.mp h with rfl | h
  · exact ⟨target, List.mem_cons_self .., rfl⟩
  · obtain ⟨cs, hcs, rfl⟩ := List.mem_map.mp h
    exact ⟨cs, List.mem_cons_of_mem _ hcs, rfl⟩

theorem forall_mem_ofChars {P : Document → Prop}
    (h : ∀ cs ∈ target :: ancestors, P (Document.ofChars cs)) :
    ∀ doc ∈ (ofChars request target ancestors).documents, P doc := by
  intro doc hdoc
  obtain ⟨cs, hcs, rfl⟩ := exists_ofChars hdoc
  exact h cs hcs

/-- The documents of readable characters are ones that are read. -/
theorem ofBytes_of_readable (hread : ∀ cs ∈ target :: ancestors, Document.Readable cs) :
    ∀ doc ∈ (ofChars request target ancestors).documents,
      ∃ bytes source, Document.ofBytes bytes source = .ok doc :=
  forall_mem_ofChars fun cs hcs => ⟨_, _, Document.ofBytes_encode (hread cs hcs)⟩

theorem wellFormed_of_readable (hread : ∀ cs ∈ target :: ancestors, Document.Readable cs) :
    ∀ doc ∈ (ofChars request target ancestors).documents, doc.edited.WellFormed := by
  intro doc hdoc
  obtain ⟨bytes, source, hbytes⟩ := ofBytes_of_readable hread doc hdoc
  obtain ⟨-, -, hedited, hwell, -⟩ := Document.facts_of_ofBytes hbytes
  exact hedited ▸ hwell

/-- What has been computed of a request is what carrying it out comes to. -/
theorem exists_of_seen? {α : Type} {look : Document → α} {seen : List α}
    (hread : ∀ cs ∈ target :: ancestors, Document.Readable cs)
    (hdependency : request.dependency ≠ none)
    (hfault : Guard.hierarchyFault? (ofChars request target ancestors) = none)
    (hlayout : ∀ cs ∈ target :: ancestors, (Document.ofChars cs).captured.layout ≠ none)
    (h : (ofChars request target ancestors).seen? look = some (handled, seen)) :
    ∃ p', Runs modify (ofChars request target ancestors) handled p' ∧
      p'.documents.map look = seen := by
  have hcapture : ∀ doc ∈ (ofChars request target ancestors).documents,
      Formatting.capture doc = .ok doc.captured :=
    forall_mem_ofChars fun cs hcs => Document.capture_ofChars (hread cs hcs) (hlayout cs hcs)
  unfold seen? at h
  split at h
  · next handled' p' hrun =>
    obtain ⟨rfl, rfl⟩ := Prod.mk.inj (Option.some.inj h)
    exact ⟨p', (run_modify hdependency hfault hcapture).trans hrun, rfl⟩
  · cases h

theorem Enacts.brings
    (h : (ofChars request target ancestors).Enacts (ofChars request target' ancestors'))
    (hread : ∀ cs ∈ target :: ancestors, Document.Readable cs)
    (hread' : ∀ cs ∈ target' :: ancestors', Document.Readable cs) (hrequested : d.Requested v)
    (hdependency : request.dependency = some d) (hmutation : request.isMutation = true) :
    (ofChars request target ancestors).Brings d v (ofChars request target' ancestors') := by
  refine ⟨fun doc hdoc => ?_, hrequested, hdependency, hmutation, ?_, rfl⟩
  · exact ⟨ofBytes_of_readable hread doc hdoc, h.readAlike _ (List.mem_append_left _ hdoc),
      h.unrepeated _ hdoc⟩
  · have hcarries := h.carriesOut
    unfold Project.carriesOut at hcarries
    split at hcarries
    · next handled p' hrun =>
      have hcapture : ∀ doc ∈ (ofChars request target ancestors).documents,
          Formatting.capture doc = .ok doc.captured := by
        intro doc hdoc
        obtain ⟨cs, hcs, rfl⟩ := exists_ofChars hdoc
        exact Document.capture_ofChars (hread cs hcs) (h.layout _ hdoc)
      have hsome : (ofChars request target ancestors).request.dependency ≠ none := by
        simp [ofChars, new, hdependency]
      refine ⟨handled, p', (run_modify hsome h.fault hcapture).trans hrun, ?_⟩
      obtain ⟨hlength, hall⟩ := (Bool.and_eq_true ..).mp hcarries
      refine List.forall₂_iff_zip.mpr ⟨by simpa using hlength, fun {doc r} hmem => ?_⟩
      have hpair := List.all_eq_true.mp hall _ hmem
      simp only [Bool.and_eq_true, beq_iff_eq] at hpair
      obtain ⟨⟨hresult, hsource⟩, hsame⟩ := hpair
      have hr := (List.of_mem_zip hmem).2
      have halike := h.readAlike r (List.mem_append_right _ hr)
      obtain ⟨cs, hcs, rfl⟩ := exists_ofChars hr
      exact ⟨⟨_, hresult, hsource ▸ Document.ofBytes_encode (hread' cs hcs)⟩, hsame, halike⟩
    · cases hcarries

end Brings

end Project

/-! ## Small documents -/

namespace Spelling

/-- The characters of an element. -/
def element (name : String) (inside : List (List Char)) : List Char :=
  '<' :: name.toList ++ '>' :: inside.flatten ++ '<' :: '/' :: name.toList ++ ['>']

/-- The characters of an element that holds a text. -/
def field (name value : String) : List Char := element name [value.toList]

/-- The characters of an entry for an artifact, with more of its elements. -/
def entry (groupId artifactId : String) (more : List (List Char)) : List Char :=
  element "dependency" ([field "groupId" groupId, field "artifactId" artifactId] ++ more)

/-- The characters of a target's elements that name its parent `r:r`. -/
def parent : List Char := element "parent" [field "groupId" "r", field "artifactId" "r"]

/-- The characters of the parent's elements with its own names. -/
def named : List Char :=
  field "groupId" "r" ++ field "artifactId" "r" ++ field "packaging" "pom"

end Spelling

end MavenPom
