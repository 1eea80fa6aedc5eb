/-!
# Tables

Finite maps as lists of pairs. A key keeps the place of its first insertion, and the last value
inserted for it counts.
-/

namespace MavenPom

structure Table (κ ν : Type) where
  entries : List (κ × ν)
  deriving DecidableEq, Repr

namespace Table

variable {κ ν : Type} [DecidableEq κ]

def empty : Table κ ν := ⟨[]⟩

/-- The pairs with the value of `key` replaced, or with a new pair at the end. -/
def insertPair (key : κ) (value : ν) : List (κ × ν) → List (κ × ν)
  | [] => [(key, value)]
  | (k, v) :: rest => if k = key then (key, value) :: rest else (k, v) :: insertPair key value rest

/-- Binds a key, in place of what it was bound to. -/
def insert (t : Table κ ν) (key : κ) (value : ν) : Table κ ν :=
  ⟨insertPair key value t.entries⟩

/-- The value bound to a key in pairs that have no key twice. -/
def getPair? (key : κ) : List (κ × ν) → Option ν
  | [] => none
  | (k, v) :: rest => if k = key then some v else getPair? key rest

def get? (t : Table κ ν) (key : κ) : Option ν := getPair? key t.entries

/-- Binds a key to nothing. -/
def erase (t : Table κ ν) (key : κ) : Table κ ν := ⟨t.entries.filter fun p => p.1 ≠ key⟩

/-- Binds a key that is not bound yet. -/
def insertNew (t : Table κ ν) (key : κ) (value : ν) : Table κ ν :=
  if (t.get? key).isSome then t else t.insert key value

/-- All bindings of `more`, over those of `t`. -/
def extend (t more : Table κ ν) : Table κ ν :=
  more.entries.foldl (fun t (k, v) => t.insert k v) t

/-- A table of pairs, in which later ones count. -/
def ofList (pairs : List (κ × ν)) : Table κ ν := extend empty ⟨pairs⟩

theorem getPair?_insertPair (key other : κ) (value : ν) (pairs : List (κ × ν)) :
    getPair? other (insertPair key value pairs) =
      if key = other then some value else getPair? other pairs := by
  induction pairs with
  | nil => simp [insertPair, getPair?]
  | cons pair rest ih =>
    obtain ⟨k, v⟩ := pair
    by_cases hk : k = key
    · subst hk
      by_cases ho : k = other <;> simp [insertPair, getPair?, ho]
    · by_cases ho : k = other
      · subst ho
        simp [insertPair, getPair?, hk, Ne.symm hk]
      · simp [insertPair, getPair?, hk, ho, ih]

/-- Inserting binds the key, and no other. -/
theorem get?_insert (t : Table κ ν) (key other : κ) (value : ν) :
    (t.insert key value).get? other = if key = other then some value else t.get? other :=
  getPair?_insertPair key other value t.entries

end Table

end MavenPom
