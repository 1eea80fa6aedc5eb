import MavenPom.Proofs.Markup.Nodes
import MavenPom.Proofs.Markup.Uniform
import MavenPom.Proofs.Project.Restoration

/-!
# Indentation of uniform documents

Every line of a uniform document suggests the same unit, so that the unit is found which the
document is indented with.
-/

namespace MavenPom.Markup

namespace Indent

variable {style : Indent} {m : Measure} {depth : ℕ}

/-! ## One line -/

theorem measure?_zero (blanks : List Char) : measure? blanks 0 = none := by
  cases blanks <;> simp [measure?]

/-- Repetitions of a unit suggest that unit. -/
theorem measure?_replicate (hm : style.IsMeasured m) (hdepth : 0 < depth) :
    measure? (List.replicate (depth * m.width) m.char) depth = some m := by
  obtain ⟨-, hchar, hwidth⟩ := hm
  obtain ⟨n, hn⟩ := Nat.exists_eq_succ_of_ne_zero (Nat.mul_pos hdepth hwidth).ne'
  have hsame : (List.replicate (depth * m.width) m.char).any (· != m.char) = false :=
    List.any_eq_false.mpr fun c hc => by simp [List.eq_of_mem_replicate hc]
  have hlength : (List.replicate (depth * m.width) m.char).length = depth * m.width :=
    List.length_replicate
  have hcons : List.replicate (depth * m.width) m.char = m.char :: List.replicate n m.char := by
    rw [hn, List.replicate_succ]
  rw [hcons] at hsame hlength ⊢
  unfold measure?
  simp only [hsame, hlength, hdepth.ne', hchar, not_true_eq_false, Bool.false_eq_true, or_false,
    if_false, Nat.mul_mod_right, if_true, Nat.mul_div_cancel_left _ hdepth]

/-- The units that blanks before the next token of a line suggest. -/
def suggested (pending : Option (List Char)) (level : ℕ) : List Measure :=
  (pending.bind (measure? · level)).toList

end Indent

open Indent

/-- The blanks that a node leaves before what follows it on its line. -/
def Content.pending? : Content → Option (List Char)
  | .text raw => lineStart? raw
  | _ => none

namespace Content

variable {style : Indent} {m : Measure} {depth : ℕ} {inside : Bool} {a b c : Content}

theorem IndentsTo.pending? (hm : style.IsMeasured m) (h : c.IndentsTo style depth) :
    c.pending? = some (List.replicate (depth * m.width) m.char) := by
  obtain ⟨raw, rfl, hblank, front, hraw⟩ := h
  obtain ⟨feed, hbreak⟩ : ∃ feed, style.lineBreak.text.toList = feed ++ ['\n'] := by
    cases style.lineBreak with
    | lf => exact ⟨[], rfl⟩
    | crlf => exact ⟨['\r'], rfl⟩
  rw [hm.toList_newline, hbreak] at hraw
  have hunits : ∀ c ∈ (List.replicate (depth * m.width) m.char).reverse, (c != '\n') = true := by
    intro c hc
    rw [List.eq_of_mem_replicate (List.mem_reverse.mp hc)]
    rcases hm.2.1 with heq | heq <;> rw [heq] <;> decide
  have hmem : raw.toList.contains '\n' = true := by simp [← hraw]
  have hstart : raw.toList.reverse.takeWhile (· != '\n') =
      (List.replicate (depth * m.width) m.char).reverse := by
    rw [← hraw]
    simp only [List.reverse_append, List.reverse_singleton, List.append_assoc]
    rw [List.takeWhile_append_of_pos hunits]
    simp
  rw [Content.pending?, lineStart?, if_pos ⟨hblank, hmem⟩, hstart, List.reverse_reverse]

theorem IndentsTo.suggested (hm : style.IsMeasured m) (h : c.IndentsTo style depth)
    (hdepth : 0 < depth) : Indent.suggested c.pending? depth = [m] := by
  rw [Indent.suggested, h.pending? hm, Option.bind_some, measure?_replicate hm hdepth]
  rfl

/-- Blanks that are indented in a style suggest no other unit, and all else suggests none. -/
theorem forall_suggested (hm : style.IsMeasured m)
    (h : c.isBlank = true → c.IndentsTo style depth) :
    ∀ x ∈ Indent.suggested c.pending? depth, x = m := by
  intro x hx
  cases hblank : c.isBlank with
  | true =>
    rcases Nat.eq_zero_or_pos depth with rfl | hdepth
    · obtain ⟨blanks, -, hsome⟩ := Option.bind_eq_some_iff.mp (Option.mem_toList.mp hx)
      rw [measure?_zero] at hsome
      cases hsome
    · rw [(h hblank).suggested hm hdepth] at hx
      exact List.mem_singleton.mp hx
  | false =>
    have hnone : c.pending? = none := by
      cases c with
      | text raw =>
        refine if_neg fun hand => ?_
        exact Bool.noConfusion (hblank.symm.trans hand.1)
      | _ => rfl
    rw [hnone] at hx
    cases hx

theorem Precedes.forall_suggested (hm : style.IsMeasured m) (h : Precedes style inside depth a b)
    (hinside : inside = true ∨ depth = 0) (hb : b.isElement = true ∨ b.isComment = true) :
    ∀ x ∈ Indent.suggested a.pending? depth, x = m := by
  rcases hb with hb | hb
  · rcases hinside with hinside | rfl
    · exact Content.forall_suggested hm fun _ => h.1 hinside hb
    · intro x hx
      obtain ⟨blanks, -, hsome⟩ := Option.bind_eq_some_iff.mp (Option.mem_toList.mp hx)
      rw [measure?_zero] at hsome
      cases hsome
  · exact Content.forall_suggested hm (h.2 hb)

end Content

/-! ## A whole document -/

namespace Writing

end Writing

namespace Token

/-- The blanks that a token leaves before what follows it on its line. -/
def pending? : Token → Option (List Char)
  | .text raw => lineStart? raw
  | _ => none

def isComment : Token → Bool
  | .comment _ => true
  | _ => false

variable {token : Token}

theorem measures_leaf (h : token.isLeaf = true) (depth : ℕ) (pending : Option (List Char))
    (rest : List Token) : measures depth pending (token :: rest) =
      (if token.isComment then suggested pending depth else []) ++
        measures depth token.pending? rest := by
  cases token with
  | startTag tag => cases h
  | emptyTag tag => cases h
  | endTag name => cases h
  | _ => rfl

theorem content_of_adds (h : token.isLeaf = true) {c : Content} (hadds : Tree.Adds token c) :
    c.pending? = token.pending? ∧ c.isComment = token.isComment ∧ c.isElement = false := by
  cases token with
  | startTag tag => cases h
  | emptyTag tag => cases h
  | endTag name => cases h
  | _ =>
    cases hadds
    exact ⟨rfl, rfl, rfl⟩

end Token

namespace Writing

/-- The blanks before what follows a writing on its last line. -/
def pendingAfter (pending : Option (List Char)) : Writing → Option (List Char)
  | .nil => pending
  | .leaf token rest => rest.pendingAfter token.pending?
  | .empty _ rest => rest.pendingAfter none
  | .pair _ _ _ rest => rest.pendingAfter none

/-- The units that the lines of a writing suggest. -/
def measures : Writing → ℕ → Option (List Char) → List Measure
  | .nil, _, _ => []
  | .leaf token rest, depth, pending =>
    (if token.isComment then suggested pending depth else []) ++ rest.measures depth token.pending?
  | .empty _ rest, depth, pending => suggested pending depth ++ rest.measures depth none
  | .pair _ inside _ rest, depth, pending =>
    suggested pending depth ++ (inside.measures (depth + 1) none ++
      (suggested (inside.pendingAfter none) depth ++ rest.measures depth none))

theorem measures_tokens {w : Writing} (hw : w.Legible) (depth : ℕ) (pending : Option (List Char))
    (more : List Token) : Indent.measures depth pending (w.tokens ++ more) =
      w.measures depth pending ++ Indent.measures depth (w.pendingAfter pending) more := by
  induction w generalizing depth pending more with
  | nil => rfl
  | leaf token rest ih =>
    obtain ⟨hleaf, -, -, hrest⟩ := hw
    rw [tokens, List.cons_append, Token.measures_leaf hleaf, ih hrest, measures, pendingAfter,
      List.append_assoc]
  | empty tag rest ih =>
    have hstep : Indent.measures depth pending (.emptyTag tag :: (rest.tokens ++ more)) =
      suggested pending depth ++ Indent.measures depth none (rest.tokens ++ more) := rfl
    rw [tokens, List.cons_append, hstep, ih hw.2, measures, pendingAfter, List.append_assoc]
  | pair tag inside gap rest ihinside ihrest =>
    obtain ⟨-, hinside, -, hrest⟩ := hw
    have hopen : ∀ tokens, Indent.measures depth pending (.startTag tag :: tokens) =
      suggested pending depth ++ Indent.measures (depth + 1) none tokens := fun _ => rfl
    have hclose : ∀ pending tokens,
      Indent.measures (depth + 1) pending (.endTag tag.name :: tokens) =
      suggested pending depth ++ Indent.measures depth none tokens := fun _ _ => rfl
    rw [tokens, List.cons_append, List.cons_append, List.append_assoc, List.cons_append, hopen,
      ihinside hinside, hclose, ihrest hrest, measures, pendingAfter]
    simp only [List.append_assoc]

end Writing

namespace Tree

variable {t : Tree} {w : Writing} {ids : List NodeId} {style : Indent} {m : Measure} {depth : ℕ}
  {pending : Option (List Char)} {inside : Bool}

theorem StandFor.pendingAfter (h : t.StandFor w ids) (pending : Option (List Char)) :
    w.pendingAfter pending =
      ((ids.map t.content).getLast?.map Content.pending?).getD pending := by
  induction w generalizing ids pending with
  | nil =>
    obtain rfl := h
    rfl
  | leaf token rest ih =>
    obtain ⟨id, more, rfl, hleaf, hadds, hrest⟩ := h
    rw [Writing.pendingAfter, ih hrest, List.map_cons, List.getLast?_cons,
      ← (Token.content_of_adds hleaf hadds).1]
    cases (more.map t.content).getLast? <;> rfl
  | empty tag rest ih =>
    obtain ⟨id, more, e, rfl, -, he, -, hrest⟩ := h
    rw [Writing.pendingAfter, ih hrest, List.map_cons, List.getLast?_cons]
    cases (more.map t.content).getLast? <;> simp [he, Content.pending?]
  | pair tag inside gap rest _ ih =>
    obtain ⟨id, more, e, rfl, -, he, -, hrest⟩ := h
    rw [Writing.pendingAfter, ih hrest, List.map_cons, List.getLast?_cons]
    cases (more.map t.content).getLast? <;> simp [he, Content.pending?]

/-- The unit that each line of a uniform tree suggests, if any, is its own. -/
theorem StandFor.forall_measures (h : t.StandFor w ids) (ht : t.WellFormed)
    (hu : t.Uniform style) (hm : style.IsMeasured m)
    (hids : ∀ id ∈ ids, t.Reached id ∧ t.depth id = depth) (hinside : inside = true ∨ depth = 0)
    (hchain : (ids.map t.content).IsChain (Content.Precedes style inside depth))
    (hpending : ∀ c ∈ (ids.map t.content).head?, c.isElement = true ∨ c.isComment = true →
      ∀ x ∈ suggested pending depth, x = m) : ∀ x ∈ w.measures depth pending, x = m := by
  have hnone : ∀ {c : Content} {depth : ℕ}, c.isElement = true ∨ c.isComment = true →
      ∀ x ∈ suggested none depth, x = m := fun _ x hx => absurd hx List.not_mem_nil
  induction w generalizing ids depth pending inside with
  | nil => exact fun x hx => absurd hx List.not_mem_nil
  | leaf token rest ih =>
    obtain ⟨id, more, rfl, hleaf, hadds, hrest⟩ := h
    obtain ⟨hsame, hcomment, -⟩ := Token.content_of_adds hleaf hadds
    obtain ⟨-, hmore⟩ := List.forall_mem_cons.mp hids
    rw [List.map_cons] at hchain hpending
    refine List.forall_mem_append.mpr ⟨fun x hx => ?_, ?_⟩
    · split at hx
      · next htoken => exact hpending _ rfl (.inr (hcomment.trans htoken)) x hx
      · cases hx
    · refine ih hrest hmore hinside hchain.tail fun c hc hkind => ?_
      obtain ⟨cs, hcs⟩ := List.head?_eq_some_iff.mp hc
      rw [hcs, List.isChain_cons_cons] at hchain
      exact hsame ▸ hchain.1.forall_suggested hm hinside hkind
  | empty tag rest ih =>
    obtain ⟨id, more, e, rfl, -, he, -, hrest⟩ := h
    obtain ⟨-, hmore⟩ := List.forall_mem_cons.mp hids
    rw [List.map_cons] at hchain hpending
    refine List.forall_mem_append.mpr ⟨hpending _ rfl (.inl (he ▸ rfl)), ?_⟩
    exact ih hrest hmore hinside hchain.tail fun _ _ => hnone
  | pair tag within gap rest ihinside ihrest =>
    obtain ⟨id, more, e, rfl, -, he, hwithin, hrest⟩ := h
    obtain ⟨⟨hreached, hdepth⟩, hmore⟩ := List.forall_mem_cons.mp hids
    rw [List.map_cons] at hchain hpending
    have helement : t.isElement id = true := by rw [← content_isElement, he]; rfl
    have hdeeper : t.depthInside id = depth + 1 := by rw [depthInside_of_isElement helement, hdepth]
    have hlaid := hu.laidOut id hreached
    rw [helement, hdeeper] at hlaid
    refine List.forall_mem_append.mpr ⟨hpending _ rfl (.inl (he ▸ rfl)), ?_⟩
    refine List.forall_mem_append.mpr ⟨?_, List.forall_mem_append.mpr ⟨?_, ?_⟩⟩
    · refine ihinside hwithin (fun c hc => ⟨hreached.child hc, ?_⟩) (.inl rfl) hlaid.chain
        fun _ _ => hnone
      rw [ht.depth_child hc, hdeeper]
    · rw [hwithin.pendingAfter]
      have hlast := hlaid.last rfl
      rw [contents] at hlast
      cases hget : ((t.children id).map t.content).getLast? with
      | none => exact fun x hx => absurd hx List.not_mem_nil
      | some c => exact Content.forall_suggested hm (hlast c hget)
    · exact ihrest hrest hmore hinside hchain.tail fun _ _ => hnone

/-- Where elements stand inside another one, a line suggests the unit. -/
theorem StandFor.mem_measures (h : t.StandFor w ids) (hm : style.IsMeasured m) (hdepth : 0 < depth)
    (hchain : (ids.map t.content).IsChain (Content.Precedes style true depth))
    (hpending : ∀ c ∈ (ids.map t.content).head?, c.isElement = true → m ∈ suggested pending depth)
    {x : NodeId} (hx : x ∈ ids) (helement : t.isElement x = true) :
    m ∈ w.measures depth pending := by
  induction w generalizing ids pending with
  | nil =>
    obtain rfl := h
    cases hx
  | leaf token rest ih =>
    obtain ⟨id, more, rfl, hleaf, hadds, hrest⟩ := h
    obtain ⟨hsame, -, hno⟩ := Token.content_of_adds hleaf hadds
    rw [List.map_cons] at hchain
    have hmore : x ∈ more := by
      refine (List.mem_cons.mp hx).resolve_left ?_
      rintro rfl
      rw [content_isElement, helement] at hno
      cases hno
    refine List.mem_append_right _ (ih hrest hchain.tail (fun c hc hkind => ?_) hmore)
    obtain ⟨cs, hcs⟩ := List.head?_eq_some_iff.mp hc
    rw [hcs, List.isChain_cons_cons] at hchain
    rw [← hsame, (hchain.1.1 rfl hkind).suggested hm hdepth]
    exact List.mem_singleton_self m
  | empty tag rest _ =>
    obtain ⟨id, more, e, rfl, -, he, -⟩ := h
    exact List.mem_append_left _ (hpending _ rfl (he ▸ rfl))
  | pair tag within gap rest _ _ =>
    obtain ⟨id, more, e, rfl, -, he, -⟩ := h
    exact List.mem_append_left _ (hpending _ rfl (he ▸ rfl))

/-- An element with child elements has a line that suggests the unit. -/
theorem StandFor.mem_measures_child (h : t.StandFor w ids) (hu : t.Uniform style)
    (hm : style.IsMeasured m) (hids : ∀ id ∈ ids, t.Reached id ∧ t.depth id = depth)
    {r : NodeId} (hr : r ∈ ids) (hrelement : t.isElement r = true)
    (hchild : t.childElements r ≠ []) : m ∈ w.measures depth pending := by
  obtain ⟨x, hx⟩ := List.exists_mem_of_ne_nil _ hchild
  obtain ⟨hmem, helement⟩ := List.mem_filter.mp hx
  induction w generalizing ids pending with
  | nil =>
    obtain rfl := h
    cases hr
  | leaf token rest ih =>
    obtain ⟨id, more, rfl, hleaf, hadds, hrest⟩ := h
    refine List.mem_append_right _ (ih hrest (List.forall_mem_cons.mp hids).2 ?_)
    refine (List.mem_cons.mp hr).resolve_left ?_
    rintro rfl
    have hno := (Token.content_of_adds hleaf hadds).2.2
    rw [content_isElement, hrelement] at hno
    cases hno
  | empty tag rest ih =>
    obtain ⟨id, more, e, rfl, -, -, hnil, hrest⟩ := h
    refine List.mem_append_right _ (ih hrest (List.forall_mem_cons.mp hids).2 ?_)
    refine (List.mem_cons.mp hr).resolve_left ?_
    rintro rfl
    rw [hnil] at hmem
    cases hmem
  | pair tag within gap rest _ ih =>
    obtain ⟨id, more, e, rfl, -, he, hwithin, hrest⟩ := h
    refine List.mem_append_right _ ?_
    rcases List.mem_cons.mp hr with rfl | hr
    · obtain ⟨hreached, hdepth⟩ := hids r (List.mem_cons_self ..)
      have hlaid := hu.laidOut r hreached
      rw [hrelement, depthInside_of_isElement hrelement, hdepth] at hlaid
      refine List.mem_append_left _ (hwithin.mem_measures hm (Nat.succ_pos _) hlaid.chain ?_ hmem
        helement)
      intro c hc hkind
      exact Bool.noConfusion ((hlaid.first rfl c hc).symm.trans hkind)
    · refine List.mem_append_right _ (List.mem_append_right _ ?_)
      exact ih hrest (List.forall_mem_cons.mp hids).2 hr

end Tree

/-! ## The unit of a document -/

namespace Indent

/-- Where all suggestions are the same, that one is preferred. -/
theorem best?_eq_some {all : List Measure} {m : Measure} (hall : ∀ x ∈ all, x = m)
    (hmem : m ∈ all) : best? all = some m := by
  have hsome : (best? all).isSome := by
    obtain ⟨first, rest, rfl⟩ := List.exists_cons_of_ne_nil (List.ne_nil_of_mem hmem)
    unfold best?
    rw [List.foldl_cons]
    have hfold : ∀ (step : Option Measure → Measure → Option Measure),
        (∀ best x, best.isSome → (step best x).isSome) → ∀ (xs : List Measure) best,
          best.isSome → (xs.foldl step best).isSome := by
      intro step hstep xs
      induction xs with
      | nil => exact fun _ h => h
      | cons x xs ih => exact fun best h => ih _ (hstep best x h)
    refine hfold _ (fun best x h => ?_) rest _ rfl
    obtain ⟨b, rfl⟩ := Option.isSome_iff_exists.mp h
    dsimp only
    split <;> rfl
  obtain ⟨b, hb⟩ := Option.isSome_iff_exists.mp hsome
  rw [hb, hall b (mem_of_best? hb)]

/-- The unit that is found in a document whose tree is uniform, with elements inside the root
    element, is the one that the tree is indented with. -/
theorem unit_infer {text : String} {t : Tree} {style : Indent} (hparse : Tree.parse text = .ok t)
    {node : Strict.Node} (hstrict : Strict.parse? text = some node) (hu : t.Uniform style)
    {r : NodeId} (hr : t.rootElement? = some r) (hchild : t.childElements r ≠ []) :
    (infer text).unit = style.unit := by
  obtain ⟨cs, rfl⟩ : ∃ cs, text = String.ofList cs := ⟨text.toList, by simp⟩
  rw [Strict.parse?_ofList] at hstrict
  obtain ⟨w, hw, hchars, hdraft⟩ := Tree.exists_writing_of_parseChars hparse hstrict
  obtain ⟨ht, hcontent, -, hroot, hrecords⟩ := Tree.records_of_foldlM hw.leaves hdraft
  obtain ⟨m, hm⟩ := hu.unit
  have hstand : t.StandFor w (t.children Tree.root) := hroot ▸ hrecords.standFor
  have htokens : (Token.scan (String.ofList cs)).lexemes.map (·.token) = w.tokens := by
    rw [Token.scan_ofList, Token.scanChars_eq, hchars, Writing.scanFrom_self hw,
      Writing.map_token_lexemes]
  have hmeasures : measures 0 none w.tokens = w.measures 0 none := by
    have happend := Writing.measures_tokens hw 0 none []
    rwa [List.append_nil, measures, List.append_nil] at happend
  have hdocument : t.isElement Tree.root = false := by
    rw [← Tree.content_isElement, hcontent]
    rfl
  have houtside : t.depthInside Tree.root = 0 := by
    rw [Tree.depthInside, hdocument, ht.depth_root]
    rfl
  have hids : ∀ id ∈ t.children Tree.root, t.Reached id ∧ t.depth id = 0 := fun id hid =>
    ⟨.child .root hid, (ht.depth_child hid).trans houtside⟩
  have hlaid := hu.laidOut Tree.root .root
  rw [hdocument, houtside] at hlaid
  have hall : ∀ x ∈ w.measures 0 none, x = m :=
    hstand.forall_measures ht hu hm hids (.inr rfl) hlaid.chain fun _ _ _ x hx =>
      absurd hx List.not_mem_nil
  have hmem : m ∈ w.measures 0 none :=
    hstand.mem_measures_child hu hm hids (List.mem_of_find?_eq_some hr) (List.find?_some hr) hchild
  rw [infer, htokens, hmeasures, best?_eq_some hall hmem, hm.1]
  rfl

end Indent

end MavenPom.Markup
