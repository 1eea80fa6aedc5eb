import MavenPom.Proofs.PropertyUpgrade

/-!
# The documents in play

A request is carried out in the target and, where the target does not give its dependency a version
already, in the ancestor that holds managed entries. No other document changes, unless a version is
written into a property that it declares. Then nothing but the text of that property does.
-/

namespace MavenPom

open MavenPom.Action VersionSlot Insertion

namespace Editor

variable {e : Editor} {id : Markup.NodeId}

/-- What is written does not depend on the layout, nor on what has been written before. -/
theorem tree_setText (e : Editor) (id : Markup.NodeId) (text : String) (indent : Markup.Indent)
    (dirty : Bool) :
    ({ e with indent, dirty }.setText id text).tree = (e.setText id text).tree := by
  have htext : ({ e with indent, dirty } : Editor).text id = e.text id := rfl
  unfold setText
  rw [htext]
  split <;> rfl

end Editor

namespace Document

variable {s : ProfileSelection} {name value : String} {doc doc' : Document}

/-- `doc'` is `doc` with a value given to a property that it declares: the text of its element has
been replaced. -/
def Redeclares (s : ProfileSelection) (name value : String) (doc doc' : Document) : Prop :=
  ∃ e id, doc.editor? = some e ∧ e.propertyId? (scopeOf s doc.pom name) name = some id ∧
    doc'.edited = (e.setText id value).tree

theorem Redeclares.of_sameEdits {doc₁ doc₂ : Document} (h : Redeclares s name value doc₁ doc₂)
    (hbefore : doc.SameEdits doc₁) (hafter : doc₂.SameEdits doc') :
    Redeclares s name value doc doc' := by
  obtain ⟨e₁, id, he₁, hid, hedited⟩ := h
  rw [Project.SameEdits.editor? hbefore] at he₁
  obtain ⟨e, he, rfl⟩ := Option.map_eq_some_iff.mp he₁
  refine ⟨e, id, he, ?_, ?_⟩
  · rw [← hbefore.pom]
    exact hid
  · rw [hafter.edited, hedited, Editor.tree_setText]

end Document

namespace Project

variable {p p' : Project} {index : Nat} {d : Dependency}

/-- The target gives the dependency a version already: the first of the entries that it lists or
manages for the artifact has exactly one version element. -/
def TargetGivesVersion (p : Project) : Prop :=
  ∃ d ∈ p.request.dependency, ∃ c : Container, (lookup? p 0 (·.slot? c d.key)).isSome = true

/-- The documents in play: the target and, unless it gives the dependency a version already, the
ancestor that holds managed entries. -/
def InPlay (p : Project) (index : Nat) : Prop :=
  index = 0 ∨ ¬p.TargetGivesVersion ∧ p.managedIndex? = some index

/-! ## Documents elsewhere -/

theorem document?_edit_of_ne {other : Nat} (h : other ≠ index) (f : Editor → Editor) :
    (p.edit index f).document? other = p.document? other := by
  rw [document?_edit_eq, if_neg h.symm]

/-- Where a property is written, a document other than the one that refers to it is as it was, or
declares the property, whose text has changed. -/
theorem document?_withProperty {owner other : Nat} (hother : other ≠ owner) (name value : String) :
    (p.withProperty owner name value).document? other = p.document? other ∨
      other = (p.propertySite owner name).1 ∧ ∃ doc doc', p.document? other = some doc ∧
        (p.withProperty owner name value).document? other = some doc' ∧
        doc.Redeclares p.request.selection name value doc' := by
  by_cases hsite : other = (p.propertySite owner name).1
  swap
  · exact .inl (document?_edit_of_ne hsite _)
  cases hfound : declaration? p owner name with
  | none =>
    refine absurd ?_ hother
    rw [hsite, propertySite, hfound]
    rfl
  | some found =>
    have hsite' : p.propertySite owner name = (found.index, found.scope) := by
      rw [propertySite, hfound]
      rfl
    obtain ⟨j, -, hin⟩ := List.exists_of_findSome?_eq_some hfound
    obtain ⟨doc, e, hdoc, he, hindex, hscope, hproperty⟩ := declarationIn?_eq_some hin
    obtain ⟨id, hid, -⟩ := Option.map_eq_some_iff.mp hproperty
    obtain rfl : j = other := by rw [hsite, hsite', ← hindex]
    refine .inr
      ⟨hsite, doc, doc.edit (·.setProperty (p.propertySite owner name).2 name value), hdoc,
      ?_, e, id, he, hscope ▸ hid, ?_⟩
    · rw [withProperty, ← hsite, document?_edit_eq, if_pos rfl, hdoc]
      rfl
    · simp only [hsite', Document.edit, he]
      exact congrArg Editor.tree (Editor.setProperty_eq_setText hid value)

/-- Bringing a dependency in leaves the documents other than the target and the one that its version
    is written in, unless they declare the property for it. -/
theorem document?_brought {other : Nat} (hother : other ≠ (p.site d).index) (htarget : other ≠ 0) :
    (p.brought d).document? other = p.document? other ∨
      p.request.useProperties = true ∧ other = p.propertyIndex d ∧
        ∃ v ∈ d.version, ∃ doc doc', p.document? other = some doc ∧
          (p.brought d).document? other = some doc' ∧
          doc.Redeclares p.request.selection (p.propertyName d) v doc' := by
  have hentry : (p.brought d).document? other =
      (p.withEntry (p.site d).index (p.site d).container d).document? other := by
    unfold brought
    dsimp only
    split
    · exact document?_edit_of_ne htarget _
    · rfl
  rw [hentry]
  unfold withEntry
  cases hv : d.version with
  | none => exact .inl (document?_edit_of_ne hother _)
  | some v =>
    dsimp only
    unfold withVersion
    split
    · exact .inl rfl
    · rw [document?_edit_of_ne hother]
      unfold prepared
      split
      · next hprops =>
        refine (document?_withProperty hother _ v).imp_right fun ⟨hindex, doc, doc', hdocs⟩ => ?_
        exact ⟨hprops, hindex, v, rfl, doc, doc', hdocs⟩
      · exact .inl rfl

/-! ## Requests -/

/-- The place that a version is written in is in play. -/
theorem inPlay_site (hd : p.request.dependency = some d) : p.InPlay (p.site d).index := by
  by_cases hgives : p.TargetGivesVersion
  · obtain ⟨d', hd', c, hslot⟩ := hgives
    obtain rfl := Option.some.inj (hd.symm.trans hd')
    rw [← slotText?_isSome] at hslot
    left
    unfold site
    cases c with
    | dependencies => rw [if_pos hslot]
    | managed =>
      rw [if_pos hslot]
      split
      · rfl
      · rfl
  · unfold site
    split
    · exact .inl rfl
    split
    · exact .inl rfl
    split
    · next index hindex => exact .inr ⟨hgives, hindex⟩
    · split
      · exact .inl rfl
      · exact .inl rfl

/-- What may become of a document that is not in play: it is as it was, or it is the one that the
property is written in, and declares it already. -/
def Spares (p : Project) (index : Nat) (doc doc' : Document) : Prop :=
  doc'.edited = doc.edited ∨
    p.request.useProperties = true ∧ ∃ d ∈ p.request.dependency, index = p.propertyIndex d ∧
      ∃ v ∈ d.version, doc.Redeclares p.request.selection (p.propertyName d) v doc'

/-- Bringing a dependency in spares every document that is not in play, whatever becomes of the
layouts before, and of the results behind it. -/
theorem spares_brought {p₁ : Project} (hd : p.request.dependency = some d)
    (hbefore : p.SameEdits p₁) (hafter : (p₁.brought d).SameEdits p') (hplay : ¬p.InPlay index) :
    Option.Rel (p.Spares index) (p.document? index) (p'.document? index) := by
  have hsite : index ≠ (p₁.site d).index := fun heq =>
    hplay (heq ▸ hbefore.site_eq d ▸ inPlay_site hd)
  have hdocs := hbefore.document? index
  have hdocs' := hafter.document? index
  rcases document?_brought hsite fun htarget => hplay (.inl htarget) with
    heq | ⟨hprops, hindex, v, hv, doc₁, doc₂, hdoc₁, hdoc₂, hredeclares⟩
  · rw [heq] at hdocs'
    generalize p.document? index = before, p₁.document? index = between,
      p'.document? index = after at hdocs hdocs'
    cases hdocs with
    | none =>
      cases hdocs' with
      | none => exact .none
    | some hsame =>
      cases hdocs' with
      | some hsame' => exact .some (.inl (hsame'.edited.trans hsame.edited))
  · rw [hdoc₁] at hdocs
    rw [hdoc₂] at hdocs'
    rw [hbefore.request] at hprops hredeclares
    simp only [propertyIndex, propertyName, hbefore.site_eq, hbefore.versionProperty_eq,
      hbefore.propertySite_eq] at hindex hredeclares
    generalize p.document? index = before, p'.document? index = after at hdocs hdocs'
    cases hdocs with
    | some hsame =>
      cases hdocs' with
      | some hsame' =>
        exact .some (.inr ⟨hprops, d, hd, hindex, v, hv, hredeclares.of_sameEdits hsame hsame'⟩)

/-- A modification that is carried out spares every document that is not in play, and a command that
does not apply has changed nothing. -/
theorem spares_of_modify {handled : Bool} (h : Runs modify p handled p') :
    (∀ index, ¬p.InPlay index →
      Option.Rel (p.Spares index) (p.document? index) (p'.document? index)) ∧
    ∀ command ∈ insertions, ∀ q q', Runs command.execute q .notApplicable q' → q' = q := by
  refine ⟨fun index hplay => ?_, fun command hcommand q q' => eq_of_notApplicable hcommand⟩
  obtain ⟨p₁, p₂, hrequest, hcaptured, hedits, hafter⟩ := phases_of_modify h
  have hbefore : p.SameEdits p₁ :=
    ⟨hrequest, hcaptured.imp fun _ _ => Formatting.sameEdits_capture⟩
  rcases hedits with rfl | ⟨d, hd, rfl⟩
  · have hdocs := (hbefore.trans hafter).document? index
    generalize p.document? index = before, p'.document? index = after at hdocs
    cases hdocs with
    | none => exact .none
    | some hsame => exact .some (.inl hsame.edited)
  · exact spares_brought hd hbefore hafter hplay

section Inherited

open Spelling

/-- The target, which lists the dependency already, refers to a property, and the text of that is
    all that changes in its parent. -/
theorem spares_of_modify_inherited :
    ∃ p', Runs modify (inherited "1") true p' ∧
      p'.documents.map (·.editor?.bind (·.property? .project "v")) = [none, some "2"] ∧
      ¬(inherited "1").InPlay 1 ∧
      Option.Rel ((inherited "1").Spares 1) ((inherited "1").document? 1) (p'.document? 1) := by
  have hreadable : ∀ cs ∈ [referringTarget, declaringParent "1"], Document.Readable cs := by
    decide +kernel
  obtain ⟨p', hruns, hseen⟩ : ∃ p', Runs modify (inherited "1") true p' ∧
      p'.documents.map (·.editor?.bind (·.property? .project "v")) = [none, some "2"] :=
    exists_of_seen? hreadable (by simp [propertyRequest, plainRequest]) (by decide +kernel)
      (by decide +kernel) (by decide +kernel)
  have hplay : ¬(inherited "1").InPlay 1 := by
    rintro (hnot | ⟨hnot, -⟩)
    · cases hnot
    · exact hnot ⟨_, rfl, .dependencies, by decide +kernel⟩
  exact ⟨p', hruns, hseen, hplay, (spares_of_modify hruns).1 1 hplay⟩

end Inherited

end Project

end MavenPom
