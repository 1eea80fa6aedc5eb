import MavenPom.Proofs.Markup.Frame

/-!
# Names of added elements

An element that is added under another one has the local name that it is given and is in the other
one's namespace, whatever its prefix.
-/

namespace MavenPom.Text

theorem cut?_singleton_eq_none {c : Char} {cs : List Char} (h : c ∉ cs) : cut? [c] cs = none := by
  induction cs with
  | nil => rfl
  | cons d cs ih =>
    obtain ⟨hne, hcs⟩ := not_or.mp (fun hor => h (List.mem_cons.mpr hor))
    simp [cut?, strip?, hne, ih hcs]

theorem cut?_singleton_append {c : Char} {before : List Char} (h : c ∉ before)
    (after : List Char) : cut? [c] (before ++ c :: after) = some (before, after) := by
  induction before with
  | nil => simp [cut?, strip?]
  | cons d before ih =>
    obtain ⟨hne, hbefore⟩ := not_or.mp (fun hor => h (List.mem_cons.mpr hor))
    simp [cut?, strip?, hne, ih hbefore]

theorem not_mem_of_cut?_singleton {c : Char} {cs before after : List Char}
    (h : cut? [c] cs = some (before, after)) : c ∉ before := by
  induction cs generalizing before with
  | nil => simp [cut?, strip?] at h
  | cons d cs ih =>
    by_cases heq : c = d
    · subst heq
      obtain ⟨rfl, -⟩ : [] = before ∧ cs = after := by simpa [cut?, strip?] using h
      simp
    · simp only [cut?, strip?, heq, if_false, Option.map_eq_some_iff, Prod.mk.injEq,
        Prod.exists] at h
      obtain ⟨front, rest, hcut, rfl, rfl⟩ := h
      simp [heq, ih hcut]

end MavenPom.Text

namespace MavenPom.Markup

namespace Element

theorem localName_of_not_mem {e : Element} (h : ':' ∉ e.name.toList) :
    e.localName = e.name ∧ e.nsPrefix = none := by
  simp [localName, nsPrefix, Text.splitOnce?, Text.cut?_singleton_eq_none h]

theorem not_mem_of_nsPrefix {e : Element} {p : String} (h : e.nsPrefix = some p) :
    ':' ∉ p.toList := by
  simp only [nsPrefix, Text.splitOnce?, Option.map_map, Option.map_eq_some_iff,
    Function.comp_apply, Prod.exists] at h
  obtain ⟨before, after, hcut, rfl⟩ := h
  rw [String.toList_ofList]
  exact Text.not_mem_of_cut?_singleton hcut

theorem localName_prefixed {p name : String} (h : ':' ∉ p.toList) (text : String)
    (attributes : List (String × String)) :
    (Element.mk (p ++ ":" ++ name) text attributes).localName = name ∧
      (Element.mk (p ++ ":" ++ name) text attributes).nsPrefix = some p := by
  have hcut : Text.cut? [':'] (p ++ ":" ++ name).toList = some (p.toList, name.toList) := by
    rw [String.toList_append, String.toList_append, List.append_assoc]
    exact Text.cut?_singleton_append h name.toList
  simp only [localName, nsPrefix, Text.splitOnce?, hcut]
  simp

end Element

namespace Tree

variable {t t' : Tree} {parent : NodeId} {name : String} {front back : List NodeId}

theorem elementUnder_spec (hname : ':' ∉ name.toList) :
    (t.elementUnder parent name).localName = name ∧
      (t.elementUnder parent name).nsPrefix = (t.element? parent).bind (·.nsPrefix) ∧
        (t.elementUnder parent name).attributes = [] := by
  unfold elementUnder
  split
  · next p hp =>
    obtain ⟨e, -, he⟩ := Option.bind_eq_some_iff.mp hp
    have hspec := @Element.localName_prefixed _ name (Element.not_mem_of_nsPrefix he) "" []
    exact ⟨hspec.1, hspec.2.trans hp.symm, rfl⟩
  · next hnone =>
    have hspec := Element.localName_of_not_mem (e := ⟨name, "", []⟩) hname
    exact ⟨hspec.1, hspec.2.trans hnone.symm, rfl⟩

namespace Inserted

theorem element?_new (h : Inserted t t' parent name front back) :
    t'.element? t.size = some (t.elementUnder parent name) :=
  element?_eq_some_iff.mpr h.content_new

theorem ancestors_new (h : Inserted t t' parent name front back) (ht : t.WellFormed)
    (hparent : parent < t.size) : t'.ancestors t.size = parent :: t.ancestors parent := by
  rw [h.wellFormed.ancestors_eq, h.parent?_new]
  simp only [Option.map_some, Option.getD_some]
  congr 1
  refine ht.ancestors_congr h.wellFormed fun a ha => h.parent? a ?_
  rcases List.mem_cons.mp ha with rfl | ha
  · exact hparent
  · exact Nat.lt_trans (ht.lt_of_mem_ancestors ha) hparent

/-- A new element is in its parent's namespace. -/
theorem namespace?_new (h : Inserted t t' parent name front back) (ht : t.WellFormed)
    (helement : t.isElement parent = true) (hname : ':' ∉ name.toList) :
    t'.namespace? t.size = t.namespace? parent := by
  obtain ⟨e, he⟩ := Option.isSome_iff_exists.mp helement
  have hparent := lt_size_of_element? he
  obtain ⟨-, hspace, hattributes⟩ := @elementUnder_spec t parent _ hname
  have hkey : bindingKey (t.elementUnder parent name) = bindingKey e := by
    simp [bindingKey, hspace, he]
  have hnew : (t.elementUnder parent name).attribute? (bindingKey e) = none := by
    simp [Element.attribute?, hattributes]
  rw [namespace?, namespace?, h.element?_new, he]
  simp only [hkey]
  rw [List.findSome?_cons, h.element?_new, Option.bind_some, hnew, h.ancestors_new ht hparent]
  congr 1
  refine findSome?_congr fun a ha => ?_
  have hlt : a < t.size := by
    rcases List.mem_cons.mp ha with rfl | ha
    · exact hparent
    · exact Nat.lt_trans (ht.lt_of_mem_ancestors ha) hparent
  simp only [element?, h.content a hlt]

end Inserted

end Tree

end MavenPom.Markup
