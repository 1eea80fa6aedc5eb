import MavenPom.Proofs.Recognition

/-!
# The order of versions

Versions that are compared the other way round are ordered the other way round. So of two versions
not both are newer, and none is newer than itself. Their numbers decide first, as far as they are
compared before their qualifiers.
-/

namespace MavenPom

/-! ## The order turned round -/

theorem Prerelease.swap_order (a b : Prerelease) : (a.order b).swap = b.order a := by
  have hnumber : (compareNumber a.number b.number).swap = compareNumber b.number a.number := by
    cases a.number with
    | none => cases b.number <;> rfl
    | some m =>
      cases b.number with
      | none => rfl
      | some n => exact (@Std.OrientedCmp.eq_swap _ compare _ n m).symm
  rw [order, Ordering.swap_then, hnumber, ← Std.OrientedCmp.eq_swap]
  rfl

theorem Prerelease.swap_orderRelease (a b : Option Prerelease) :
    (orderRelease a b).swap = orderRelease b a := by
  cases a <;> cases b <;> first | rfl | exact swap_order ..

theorem Prerelease.orderRelease_self (p : Option Prerelease) :
    orderRelease p p = .eq := by
  cases p with
  | none => rfl
  | some p =>
    rw [orderRelease, order, Nat.compare_eq_eq.mpr rfl]
    cases h : p.number with
    | none => rfl
    | some n => exact Nat.compare_eq_eq.mpr rfl

namespace Version

theorem swap_orderIdentifier (a b : String) :
    (orderIdentifier a b).swap = orderIdentifier b a := by
  unfold orderIdentifier
  cases Text.number? 10 a.toList <;> cases Text.number? 10 b.toList <;> simp only
  · exact Std.OrientedCmp.eq_swap.symm
  · rfl
  · rfl
  · rw [Ordering.swap_then, ← Std.OrientedCmp.eq_swap, ← Std.OrientedCmp.eq_swap]

theorem swap_orderBuild (as bs : List String) : (orderBuild as bs).swap = orderBuild bs as := by
  induction as generalizing bs with
  | nil => cases bs <;> rfl
  | cons a as ih =>
    cases bs with
    | nil => rfl
    | cons b bs => rw [orderBuild, orderBuild, Ordering.swap_then, swap_orderIdentifier, ih]

theorem swap_order (a b : Version) : (a.order b).swap = b.order a := by
  simp only [order, Ordering.swap_then, ← Std.OrientedCmp.eq_swap, Prerelease.swap_orderRelease,
    swap_orderBuild]

/-- Of two versions, not both are newer than the other. -/
theorem isNewer?_asymm {left right : String} (h : isNewer? left right = some true) :
    isNewer? right left = some false := by
  unfold isNewer? at h ⊢
  cases hl : parse? left with
  | none => simp [hl] at h
  | some l =>
    cases hr : parse? right with
    | none => simp [hl, hr] at h
    | some r =>
      have hgt : l.order r = .gt := by simpa [hl, hr] using h
      simp [← swap_order l r, hgt]

/-! ## Versions with different numbers -/

variable {i : Nat}

theorem number?_toString (n : Nat) : Text.number? 10 (toString n).toList = some n := by
  rw [Nat.toString_eq_ofList_toDigits, String.toList_ofList, Text.number?_eq_some_iff]
  exact ⟨Nat.toDigits_ne_nil,
    fun c hc => Nat.isDigit_of_mem_toDigits (by decide) (by decide) hc,
    Nat.ofDigitChars_ten_toDigits⟩

/-- At this place stands the first number that differs, and it is greater. Missing ones are zero. -/
def GreaterAt (xs ys : List Nat) (i : Nat) : Prop :=
  (∀ j < i, xs.getD j 0 = ys.getD j 0) ∧ ys.getD i 0 < xs.getD i 0

instance (xs ys : List Nat) (i : Nat) : Decidable (GreaterAt xs ys i) :=
  inferInstanceAs (Decidable (_ ∧ _))

theorem GreaterAt.tail {x y : Nat} {xs ys : List Nat} (h : GreaterAt (x :: xs) (y :: ys) (i + 1)) :
    x = y ∧ GreaterAt xs ys i :=
  ⟨h.1 0 (Nat.succ_pos i), fun j hj => h.1 (j + 1) (Nat.succ_lt_succ hj), h.2⟩

theorem GreaterAt.drop {xs ys : List Nat} (k : Nat) (h : GreaterAt xs ys (k + i)) :
    GreaterAt (xs.drop k) (ys.drop k) i := by
  simp only [GreaterAt, List.getD_eq_getElem?_getD, List.getElem?_drop] at h ⊢
  exact ⟨fun j hj => h.1 (k + j) (Nat.add_lt_add_left hj k), h.2⟩

theorem orderIdentifier_toString (m n : Nat) :
    orderIdentifier (toString m) (toString n) =
      (compare m n).then (compare (toString m).length (toString n).length) := by
  simp only [orderIdentifier, number?_toString]

theorem orderIdentifier_label (a b : Stage) :
    orderIdentifier a.label b.label = compare a.rank b.rank := by
  cases a <;> cases b <;> decide +kernel

/-- Stages stand in the order of what is written for them, identifier by identifier: their labels
    are compared as words, and their numbers by value. -/
theorem order_eq_orderBuild (a b : Prerelease) :
    a.order b = orderBuild (splitIdentifiers a.text) (splitIdentifiers b.text) := by
  rw [splitIdentifiers_text, splitIdentifiers_text, orderBuild, orderIdentifier_label,
    Prerelease.order]
  congr 1
  cases a.number with
  | none => cases b.number <;> rfl
  | some m =>
    cases b.number with
    | none => rfl
    | some n =>
      have hlength : (compare m n).then (compare (toString m).length (toString n).length) =
          compare m n := by
        by_cases heq : m = n
        · rw [heq, Nat.compare_eq_eq.mpr rfl, Nat.compare_eq_eq.mpr rfl]
          rfl
        · cases hcompare : compare m n with
          | eq => exact absurd (Nat.compare_eq_eq.mp hcompare) heq
          | lt => rfl
          | gt => rfl
      simp only [Option.toList_some, List.map_cons, List.map_nil, orderBuild,
        orderIdentifier_toString, hlength, Ordering.then_eq, Prerelease.compareNumber]

/-- The greater number decides before what follows the numbers, unless it stands where the others
have ended. There it decides if nothing follows them. -/
theorem orderBuild_of_greaterAt {xs ys : List Nat} (h : GreaterAt xs ys i) (more : List String)
    {more' : List String} (hend : i < ys.length ∨ more' = []) :
    orderBuild (xs.map toString ++ more) (ys.map toString ++ more') = .gt := by
  induction ys generalizing xs i with
  | nil =>
    obtain rfl : more' = [] := hend.resolve_left (Nat.not_lt_zero i)
    cases xs with
    | nil => exact absurd h.2 (Nat.not_lt_zero _)
    | cons x xs => rfl
  | cons y ys ih =>
    cases xs with
    | nil => exact absurd h.2 (Nat.not_lt_zero _)
    | cons x xs =>
      rw [List.map_cons, List.map_cons, List.cons_append, List.cons_append, orderBuild,
        orderIdentifier_toString]
      cases i with
      | zero =>
        have hlt : y < x := h.2
        rw [Nat.compare_eq_gt.mpr hlt]
        rfl
      | succ i =>
        obtain ⟨rfl, htail⟩ := h.tail
        have hend' : i < ys.length ∨ more' = [] :=
          hend.imp_left fun hlt => Nat.lt_of_succ_lt_succ hlt
        rw [Nat.compare_eq_eq.mpr rfl, Nat.compare_eq_eq.mpr rfl, ih htail hend']
        rfl

/-- Versions are ordered by their first three numbers, then by their stages, and then
    by the rest. -/
theorem order_assemble_of_greaterAt {xs ys : List Nat} (h : GreaterAt xs ys i) {q q' : Qualifier}
    (hqualifier : i < 3 ∨ Prerelease.orderRelease q.prerelease? q'.prerelease? = .gt ∨
      Prerelease.orderRelease q.prerelease? q'.prerelease? = .eq ∧
        (i < ys.length ∨ q'.identifiers = [])) :
    (assemble xs q).order (assemble ys q') = .gt := by
  have heq : ∀ {j}, j < i → compare (xs.getD j 0) (ys.getD j 0) = .eq := fun hj =>
    Nat.compare_eq_eq.mpr (h.1 _ hj)
  have hgt : compare (xs.getD i 0) (ys.getD i 0) = .gt := Nat.compare_eq_gt.mpr h.2
  simp only [order, assemble]
  match i with
  | 0 =>
    rw [hgt]
    rfl
  | 1 =>
    rw [heq Nat.zero_lt_one, hgt]
    rfl
  | 2 =>
    rw [heq Nat.zero_lt_two, heq Nat.one_lt_two, hgt]
    rfl
  | i + 3 =>
    rw [heq (Nat.zero_lt_succ _), heq (by omega), heq (by omega)]
    rcases hqualifier with hlt | hrelease | ⟨hrelease, hend⟩
    · omega
    · rw [hrelease]
      rfl
    · have hend' : i < (ys.drop 3).length ∨ q'.identifiers = [] :=
        hend.imp_left fun hlt => by rw [List.length_drop]; omega
      rw [hrelease, orderBuild_of_greaterAt (GreaterAt.drop 3 (by rwa [Nat.add_comm])) _ hend']
      rfl

/-- Of two versions, the one with the greater number where they first differ is newer, if this is
    one of the first three. Behind them it is newer if its qualifier comes later, or if both have
    the same stage and the other has a number at this place or no qualifier without a meaning of its
    own. -/
theorem isNewer?_of_greaterAt {x y : String} {xs ys : List Nat} (hx : numbers? x = some xs)
    (hy : numbers? y = some ys) (h : GreaterAt xs ys i)
    (hqualifier : i < 3 ∨
      Prerelease.orderRelease (qualifier x).prerelease? (qualifier y).prerelease? = .gt ∨
      (qualifier x).prerelease? = (qualifier y).prerelease? ∧
        (i < ys.length ∨ (qualifier y).identifiers = [])) :
    isNewer? x y = some true ∧ isNewer? y x = some false := by
  have horder : (assemble xs (qualifier x)).order (assemble ys (qualifier y)) = .gt := by
    refine order_assemble_of_greaterAt h (hqualifier.imp_right (Or.imp_right ?_))
    rintro ⟨hsame, hend⟩
    exact ⟨by rw [hsame, Prerelease.orderRelease_self], hend⟩
  have hnewer : isNewer? x y = some true := by
    simp [isNewer?, parse?_eq, hx, hy, horder]
  exact ⟨hnewer, isNewer?_asymm hnewer⟩

theorem isNewer?_fourth_number :
    numbers? "1.0.0.2-m1" = some [1, 0, 0, 2] ∧ numbers? "1.0.0.1-M1" = some [1, 0, 0, 1] ∧
      isNewer? "1.0.0.2-m1" "1.0.0.1-M1" = some true := by
  have hx : numbers? "1.0.0.2-m1" = some [1, 0, 0, 2] := by decide +kernel
  have hy : numbers? "1.0.0.1-M1" = some [1, 0, 0, 1] := by decide +kernel
  have hgreater : GreaterAt [1, 0, 0, 2] [1, 0, 0, 1] 3 := by decide
  exact ⟨hx, hy, (isNewer?_of_greaterAt hx hy hgreater (.inr (.inr (by decide +kernel)))).1⟩

/-- A fourth number does not make a stage newer than the release of the first three, nor the release
newer than a qualifier without a meaning of its own. -/
theorem not_isNewer?_fourth_number :
    numbers? "1.0.0.1-alpha" = some [1, 0, 0, 1] ∧ numbers? "1.0.0.1" = some [1, 0, 0, 1] ∧
      numbers? "1.0.0" = some [1, 0, 0] ∧ numbers? "1.0.0-jre" = some [1, 0, 0] ∧
      GreaterAt [1, 0, 0, 1] [1, 0, 0] 3 ∧
      isNewer? "1.0.0.1-alpha" "1.0.0" = some false ∧
      isNewer? "1.0.0" "1.0.0.1-alpha" = some true ∧
      isNewer? "1.0.0.1" "1.0.0-jre" = some false ∧
      isNewer? "1.0.0-jre" "1.0.0.1" = some true := by
  decide +kernel

end Version

end MavenPom
