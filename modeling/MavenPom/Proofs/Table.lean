import MavenPom.Table

/-!
# Laws of tables

The last value inserted for a key counts, and keeps the key's first place.
-/

namespace MavenPom.Table

variable {κ ν : Type} [DecidableEq κ]

/-- The last value that pairs give a key. -/
def lastPair? (key : κ) (pairs : List (κ × ν)) : Option ν :=
  (pairs.reverse.find? fun pair => pair.1 = key).map (·.2)

theorem lastPair?_append (key : κ) (front back : List (κ × ν)) :
    lastPair? key (front ++ back) = (lastPair? key back).or (lastPair? key front) := by
  simp only [lastPair?, List.reverse_append, List.find?_append]
  cases back.reverse.find? fun pair => pair.1 = key <;> rfl

theorem lastPair?_singleton (key k : κ) (value : ν) :
    lastPair? key [(k, value)] = if k = key then some value else none := by
  by_cases h : k = key <;> simp [lastPair?, h]

theorem lastPair?_eq_none {key : κ} {pairs : List (κ × ν)} (h : ∀ pair ∈ pairs, pair.1 ≠ key) :
    lastPair? key pairs = none := by
  rw [lastPair?, Option.map_eq_none_iff, List.find?_eq_none]
  intro pair hpair
  simpa using h pair (List.mem_reverse.mp hpair)

theorem extend_eq (t more : Table κ ν) :
    t.extend more = more.entries.foldl (fun t pair => t.insert pair.1 pair.2) t := rfl

theorem get?_foldl_insert (t : Table κ ν) (pairs : List (κ × ν)) (key : κ) :
    (pairs.foldl (fun t pair => t.insert pair.1 pair.2) t).get? key =
      (lastPair? key pairs).or (t.get? key) := by
  induction pairs generalizing t with
  | nil => simp [lastPair?]
  | cons pair pairs ih =>
    obtain ⟨k, v⟩ := pair
    rw [List.foldl_cons, ih, get?_insert, ← List.singleton_append, lastPair?_append,
      lastPair?_singleton, Option.or_assoc]
    by_cases h : k = key <;> simp [h]

/-- The last pair for a key counts. -/
theorem get?_ofList (pairs : List (κ × ν)) (key : κ) :
    (ofList pairs).get? key = lastPair? key pairs := by
  rw [ofList, extend_eq, get?_foldl_insert]
  simp [empty, get?, getPair?]

theorem isSome_get?_ofList (pairs : List (κ × ν)) (key : κ) :
    ((ofList pairs).get? key).isSome = (pairs.map (·.1)).contains key := by
  rw [get?_ofList, lastPair?, Option.isSome_map, Bool.eq_iff_iff, List.find?_isSome]
  simp [eq_comm]

/-- No key stands twice. -/
def Distinct (t : Table κ ν) : Prop := (t.entries.map (·.1)).Nodup

theorem lastPair?_eq_getPair? {pairs : List (κ × ν)} (h : (pairs.map (·.1)).Nodup) (key : κ) :
    lastPair? key pairs = getPair? key pairs := by
  induction pairs with
  | nil => rfl
  | cons pair pairs ih =>
    obtain ⟨k, v⟩ := pair
    obtain ⟨hk, hpairs⟩ := List.nodup_cons.mp h
    rw [← List.singleton_append, lastPair?_append, lastPair?_singleton, ih hpairs,
      List.singleton_append, getPair?]
    by_cases heq : k = key
    · subst heq
      have hnone : getPair? k pairs = none := by
        rw [← ih hpairs]
        exact lastPair?_eq_none fun pair hpair hkey => hk (List.mem_map.mpr ⟨pair, hpair, hkey⟩)
      simp [hnone]
    · simp [heq]

/-- The bindings of the table that is added count over those that are there. -/
theorem get?_extend {t more : Table κ ν} (h : more.Distinct) (key : κ) :
    (t.extend more).get? key = (more.get? key).or (t.get? key) := by
  rw [extend_eq, get?_foldl_insert, lastPair?_eq_getPair? h]
  rfl

/-- In tables that are put over each other, the last one that binds a key counts. -/
theorem get?_foldl_extend {α : Type} {f : α → Table κ ν} {as : List α}
    (h : ∀ a ∈ as, (f a).Distinct) (t : Table κ ν) (key : κ) :
    (as.foldl (fun t a => t.extend (f a)) t).get? key =
      (as.reverse.findSome? fun a => (f a).get? key).or (t.get? key) := by
  induction as generalizing t with
  | nil => rfl
  | cons a as ih =>
    obtain ⟨ha, has⟩ := List.forall_mem_cons.mp h
    rw [List.foldl_cons, ih has, get?_extend ha, List.reverse_cons, List.findSome?_append,
      Option.or_assoc, List.findSome?_singleton]

theorem mem_keys_insertPair {key k : κ} {value : ν} {pairs : List (κ × ν)} :
    k ∈ (insertPair key value pairs).map (·.1) ↔ k = key ∨ k ∈ pairs.map (·.1) := by
  induction pairs with
  | nil => simp [insertPair]
  | cons pair pairs ih =>
    obtain ⟨k', v⟩ := pair
    by_cases h : k' = key
    · simp [insertPair, h]
    · rw [insertPair, if_neg h, List.map_cons, List.mem_cons, ih, List.map_cons, List.mem_cons]
      exact or_left_comm

theorem mem_entries_of_get? {t : Table κ ν} {key : κ} {value : ν} (h : t.get? key = some value) :
    (key, value) ∈ t.entries := by
  obtain ⟨pairs⟩ := t
  simp only [get?] at h
  induction pairs with
  | nil => cases h
  | cons pair pairs ih =>
    obtain ⟨k, v⟩ := pair
    rw [getPair?] at h
    split at h
    · next hk => rw [hk, Option.some.inj h]; exact List.mem_cons_self
    · exact List.mem_cons_of_mem _ (ih h)

theorem mem_keys_of_get? {t : Table κ ν} {key : κ} {value : ν} (h : t.get? key = some value) :
    key ∈ t.entries.map (·.1) :=
  List.mem_map.mpr ⟨_, mem_entries_of_get? h, rfl⟩

theorem Distinct.insert {t : Table κ ν} (h : t.Distinct) (key : κ) (value : ν) :
    (t.insert key value).Distinct := by
  obtain ⟨pairs⟩ := t
  simp only [Distinct, Table.insert] at h ⊢
  induction pairs with
  | nil => simp [insertPair]
  | cons pair pairs ih =>
    obtain ⟨k, v⟩ := pair
    obtain ⟨hk, hpairs⟩ := List.nodup_cons.mp h
    by_cases heq : k = key
    · subst heq
      simpa [insertPair] using h
    · rw [insertPair, if_neg heq]
      refine List.nodup_cons.mpr ⟨fun hmem => ?_, ih hpairs⟩
      rcases mem_keys_insertPair.mp hmem with hkey | hmem
      · exact heq hkey
      · exact hk hmem

theorem Distinct.extend {t : Table κ ν} (h : t.Distinct) (more : Table κ ν) :
    (t.extend more).Distinct := by
  obtain ⟨pairs⟩ := more
  rw [extend_eq]
  induction pairs generalizing t with
  | nil => exact h
  | cons pair pairs ih => exact ih (h.insert pair.1 pair.2)

omit [DecidableEq κ] in
theorem distinct_empty : (empty : Table κ ν).Distinct := List.nodup_nil

theorem distinct_ofList (pairs : List (κ × ν)) : (ofList pairs).Distinct :=
  distinct_empty.extend _

/-! ## Replacing a pair -/

theorem insertPair_insertPair_self (key : κ) (old value : ν) (pairs : List (κ × ν)) :
    insertPair key value (insertPair key old pairs) = insertPair key value pairs := by
  induction pairs with
  | nil => simp [insertPair]
  | cons pair pairs ih =>
    obtain ⟨k, v⟩ := pair
    by_cases h : k = key <;> simp [insertPair, h, ih]

/-- Where a key is bound already, binding it anew and binding another key may be swapped. -/
theorem insertPair_comm {key other : κ} (hne : other ≠ key) (value v : ν) {pairs : List (κ × ν)}
    (hmem : key ∈ pairs.map (·.1)) :
    insertPair key value (insertPair other v pairs) =
      insertPair other v (insertPair key value pairs) := by
  induction pairs with
  | nil => simp at hmem
  | cons pair pairs ih =>
    obtain ⟨k, w⟩ := pair
    by_cases hk : k = key
    · subst hk
      simp [insertPair, Ne.symm hne]
    · have hmem' : key ∈ pairs.map (·.1) := by
        rcases List.mem_cons.mp hmem with heq | hmem
        · exact absurd heq.symm hk
        · exact hmem
      by_cases ho : k = other
      · subst ho
        simp [insertPair, hne]
      · simp [insertPair, hk, ho, ih hmem']

theorem insert_foldl_insert {key : κ} (value : ν) {pairs : List (κ × ν)}
    (hpairs : ∀ pair ∈ pairs, pair.1 ≠ key) {t : Table κ ν}
    (hmem : key ∈ t.entries.map (·.1)) :
    (pairs.foldl (fun t pair => t.insert pair.1 pair.2) t).insert key value =
      pairs.foldl (fun t pair => t.insert pair.1 pair.2) (t.insert key value) := by
  induction pairs generalizing t with
  | nil => rfl
  | cons pair pairs ih =>
    obtain ⟨k, v⟩ := pair
    obtain ⟨hk, hpairs⟩ := List.forall_mem_cons.mp hpairs
    have hmem' : key ∈ (t.insert k v).entries.map (·.1) := mem_keys_insertPair.mpr (.inr hmem)
    rw [List.foldl_cons, List.foldl_cons, ih hpairs hmem']
    congr 1
    simp only [Table.insert, insertPair_comm hk value v hmem]

/-- Pairs with another value for a key make the table with that value inserted. -/
theorem ofList_replace {key : κ} (old value : ν) (front : List (κ × ν)) {back : List (κ × ν)}
    (hback : ∀ pair ∈ back, pair.1 ≠ key) :
    ofList (front ++ (key, value) :: back) =
      (ofList (front ++ (key, old) :: back)).insert key value := by
  simp only [ofList, extend_eq, List.foldl_append, List.foldl_cons]
  have hmem : ∀ t : Table κ ν, key ∈ (t.insert key old).entries.map (·.1) := fun t =>
    mem_keys_insertPair.mpr (.inl rfl)
  rw [insert_foldl_insert value hback (hmem _)]
  congr 1
  simp only [Table.insert, insertPair_insertPair_self]

theorem ofList_append_singleton (pairs : List (κ × ν)) (key : κ) (value : ν) :
    ofList (pairs ++ [(key, value)]) = (ofList pairs).insert key value := by
  simp only [ofList, extend_eq, List.foldl_append, List.foldl_cons, List.foldl_nil]

end MavenPom.Table
