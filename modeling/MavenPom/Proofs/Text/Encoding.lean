import MavenPom.Text.Utf16

/-!
# Unicode encodings after decoding

Where bytes are well-formed UTF-8 or UTF-16, encoding their characters gives the bytes back: no
character has a second well-formed spelling. Each reader takes the bytes of one character at a
time, so the law is one on the character at the head, carried along the text. Cutting at the byte
offset at which a part of a text ends gives that part.
-/

namespace MavenPom

/-- A code point that is not a surrogate is the one its character has. -/
theorem toNat_ofNat_of_valid {n : Nat} (h : n < 0xD800 ∨ 0xE000 ≤ n ∧ n < 0x110000) :
    (Char.ofNat n).toNat = n := by
  have hvalid : n.isValidChar := by
    unfold Nat.isValidChar
    omega
  rw [Char.ofNat, dif_pos hvalid]
  rfl

theorem toUInt8_eq_of_toNat {n : Nat} {b : UInt8} (h : n = b.toNat) : n.toUInt8 = b := by
  rw [h, Nat.toUInt8_eq, UInt8.ofNat_toNat]

namespace Utf8

theorem isTail_iff {b : UInt8} : isTail b = true ↔ 0x80 ≤ b.toNat ∧ b.toNat ≤ 0xBF := by
  simp [isTail]

/-- A second byte keeps the code point of the sequence within what its length may spell. -/
theorem bounds_of_isSecond {lead : Nat} {b : UInt8} (h : isSecond lead b = true) :
    isTail b = true ∧ (lead = 0xE0 → 0xA0 ≤ b.toNat) ∧ (lead = 0xED → b.toNat ≤ 0x9F) ∧
      (lead = 0xF0 → 0x90 ≤ b.toNat) ∧ (lead = 0xF4 → b.toNat ≤ 0x8F) := by
  rw [isTail_iff]
  unfold isSecond at h
  split at h
  · simp only [Bool.and_eq_true, decide_eq_true_eq] at h
    omega
  split at h
  · simp only [Bool.and_eq_true, decide_eq_true_eq] at h
    omega
  split at h
  · simp only [Bool.and_eq_true, decide_eq_true_eq] at h
    omega
  split at h
  · simp only [Bool.and_eq_true, decide_eq_true_eq] at h
    omega
  · rw [isTail_iff] at h
    omega

/-! ## The bytes of one character -/

theorem encodeChar_one {a : UInt8} (h : a.toNat < 0x80) :
    encodeChar (Char.ofNat a.toNat) = [a] := by
  have hn : (Char.ofNat a.toNat).toNat = a.toNat := toNat_ofNat_of_valid (by omega)
  unfold encodeChar
  simp only [hn]
  rw [if_pos h, toUInt8_eq_of_toNat rfl]

theorem encodeChar_two {a b : UInt8} (hlow : 0xC2 ≤ a.toNat) (hhigh : a.toNat < 0xE0)
    (hb : isTail b = true) :
    encodeChar (Char.ofNat ((a.toNat - 0xC0) * 0x40 + (b.toNat - 0x80))) = [a, b] := by
  rw [isTail_iff] at hb
  have hn := toNat_ofNat_of_valid (n := (a.toNat - 0xC0) * 0x40 + (b.toNat - 0x80)) (by omega)
  unfold encodeChar
  simp only [hn]
  rw [if_neg (by omega), if_pos (by omega), toUInt8_eq_of_toNat (b := a) (by omega),
    toUInt8_eq_of_toNat (b := b) (by omega)]

theorem encodeChar_three {a b c : UInt8} (hlow : 0xE0 ≤ a.toNat) (hhigh : a.toNat < 0xF0)
    (hb : isSecond a.toNat b = true) (hc : isTail c = true) :
    encodeChar (Char.ofNat (((a.toNat - 0xE0) * 0x40 + (b.toNat - 0x80)) * 0x40 +
      (c.toNat - 0x80))) = [a, b, c] := by
  obtain ⟨htail, he0, hed, -, -⟩ := bounds_of_isSecond hb
  rw [isTail_iff] at htail hc
  have hn := toNat_ofNat_of_valid (n := ((a.toNat - 0xE0) * 0x40 + (b.toNat - 0x80)) * 0x40 +
    (c.toNat - 0x80)) (by omega)
  unfold encodeChar
  simp only [hn]
  rw [if_neg (by omega), if_neg (by omega), if_pos (by omega),
    toUInt8_eq_of_toNat (b := a) (by omega), toUInt8_eq_of_toNat (b := b) (by omega),
    toUInt8_eq_of_toNat (b := c) (by omega)]

theorem encodeChar_four {a b c d : UInt8} (hlow : 0xF0 ≤ a.toNat) (hhigh : a.toNat < 0xF5)
    (hb : isSecond a.toNat b = true) (hc : isTail c = true) (hd : isTail d = true) :
    encodeChar (Char.ofNat ((((a.toNat - 0xF0) * 0x40 + (b.toNat - 0x80)) * 0x40 +
      (c.toNat - 0x80)) * 0x40 + (d.toNat - 0x80))) = [a, b, c, d] := by
  obtain ⟨htail, -, -, hf0, hf4⟩ := bounds_of_isSecond hb
  rw [isTail_iff] at htail hc hd
  have hn := toNat_ofNat_of_valid (n := (((a.toNat - 0xF0) * 0x40 + (b.toNat - 0x80)) * 0x40 +
      (c.toNat - 0x80)) * 0x40 + (d.toNat - 0x80)) (by omega)
  unfold encodeChar
  simp only [hn]
  rw [if_neg (by omega), if_neg (by omega), if_neg (by omega),
    toUInt8_eq_of_toNat (b := a) (by omega), toUInt8_eq_of_toNat (b := b) (by omega),
    toUInt8_eq_of_toNat (b := c) (by omega), toUInt8_eq_of_toNat (b := d) (by omega)]

/-! ## Reading one character -/

theorem exists_of_readTail_succ {owed code : Nat} {rest after : Bytes} {c : Char}
    (h : readTail (owed + 1) code rest = (some c, after)) :
    ∃ b tail, rest = b :: tail ∧ isTail b = true ∧
      readTail owed (code * 0x40 + (b.toNat - 0x80)) tail = (some c, after) := by
  cases rest with
  | nil => simp [readTail] at h
  | cons b tail =>
    unfold readTail at h
    split at h
    · rename_i hb
      exact ⟨b, tail, rfl, hb, h⟩
    · simp at h

theorem eq_of_readTail_zero {code : Nat} {rest after : Bytes} {c : Char}
    (h : readTail 0 code rest = (some c, after)) : c = Char.ofNat code ∧ after = rest := by
  simp only [readTail, Prod.mk.injEq, Option.some.injEq] at h
  exact ⟨h.1.symm, h.2.symm⟩

/-- The bytes that reading a character takes are those of the character. -/
theorem encodeChar_append_of_next {first : UInt8} {rest after : Bytes} {c : Char}
    (h : next first rest = (some c, after)) : encodeChar c ++ after = first :: rest := by
  unfold next at h
  simp only at h
  split at h
  · -- one byte
    rename_i hlow
    simp only [Prod.mk.injEq, Option.some.injEq] at h
    obtain ⟨rfl, rfl⟩ := h
    rw [encodeChar_one hlow]
    rfl
  split at h
  · simp at h
  split at h
  · -- two bytes
    rename_i hlow hhigh
    obtain ⟨b, tail, rfl, hb, h⟩ := exists_of_readTail_succ h
    obtain ⟨hchar, rfl⟩ := eq_of_readTail_zero h
    rw [hchar, encodeChar_two (by omega) hhigh hb]
    rfl
  split at h
  · rename_i hlow hhigh
    cases rest with
    | nil => simp at h
    | cons b rest =>
      simp only at h
      split at h
      · rename_i hb
        split at h
        · -- three bytes
          rename_i hthree
          obtain ⟨c, tail, rfl, hc, h⟩ := exists_of_readTail_succ h
          obtain ⟨hchar, rfl⟩ := eq_of_readTail_zero h
          rw [hchar, encodeChar_three (by omega) hthree hb hc]
          rfl
        · -- four bytes
          rename_i hthree
          obtain ⟨c, tail, rfl, hc, h⟩ := exists_of_readTail_succ h
          obtain ⟨d, tail, rfl, hd, h⟩ := exists_of_readTail_succ h
          obtain ⟨hchar, rfl⟩ := eq_of_readTail_zero h
          rw [hchar, encodeChar_four (by omega) hhigh hb hc hd]
          rfl
      · simp at h
  · simp at h

theorem encode_of_decode {bytes : Bytes} {cs : List Char} (h : decode bytes = some cs) :
    encode cs = bytes := by
  induction bytes using decode.induct generalizing cs with
  | case1 =>
    simp only [decode, Option.some.injEq] at h
    rw [← h]
    rfl
  | case2 first rest hnext => simp [decode, hnext] at h
  | case3 first rest c hnext ih =>
    rw [decode, hnext] at h
    obtain ⟨tail, htail, rfl⟩ := Option.map_eq_some_iff.mp h
    have hhead : next first rest = (some c, (next first rest).2) := Prod.ext hnext rfl
    change encodeChar c ++ encode tail = first :: rest
    rw [ih htail, encodeChar_append_of_next hhead]

end Utf8

namespace Utf16

/-- The unit of two bytes. -/
def unitOf (order : ByteOrder) (a b : UInt8) : Nat :=
  match order with
  | .little => a.toNat + b.toNat * 0x100
  | .big => a.toNat * 0x100 + b.toNat

theorem unitsOfBytes_cons_cons (order : ByteOrder) (a b : UInt8) (rest : Bytes) :
    unitsOfBytes order (a :: b :: rest) =
      (unitsOfBytes order rest).map (unitOf order a b :: ·) := by
  cases order <;> rfl

theorem unitBytes_unitOf (order : ByteOrder) (a b : UInt8) :
    unitBytes order (unitOf order a b) = [a, b] := by
  have ha := a.toNat_lt
  have hb := b.toNat_lt
  cases order with
  | little =>
    simp only [unitBytes, unitOf]
    rw [toUInt8_eq_of_toNat (b := a) (by omega), toUInt8_eq_of_toNat (b := b) (by omega)]
  | big =>
    simp only [unitBytes, unitOf]
    rw [toUInt8_eq_of_toNat (b := a) (by omega), toUInt8_eq_of_toNat (b := b) (by omega)]

theorem unitOf_lt (order : ByteOrder) (a b : UInt8) : unitOf order a b < 0x10000 := by
  have ha := a.toNat_lt
  have hb := b.toNat_lt
  cases order with
  | little => simp only [unitOf]; omega
  | big => simp only [unitOf]; omega

theorem bytes_of_unitsOfBytes {order : ByteOrder} : ∀ {bytes : Bytes} {us : List Nat},
    unitsOfBytes order bytes = some us →
      us.flatMap (unitBytes order) = bytes ∧ ∀ u ∈ us, u < 0x10000
  | [], us, h => by
    simp only [unitsOfBytes, Option.some.injEq] at h
    simp [← h]
  | [_], us, h => by simp [unitsOfBytes] at h
  | a :: b :: rest, us, h => by
    rw [unitsOfBytes_cons_cons] at h
    obtain ⟨tail, htail, rfl⟩ := Option.map_eq_some_iff.mp h
    obtain ⟨hbytes, hlt⟩ := bytes_of_unitsOfBytes htail
    constructor
    · rw [List.flatMap_cons, hbytes, unitBytes_unitOf]
      rfl
    · exact List.forall_mem_cons.mpr ⟨unitOf_lt order a b, hlt⟩

/-- A unit that is no surrogate is the only unit of its character. -/
theorem units_single {u : Nat} (hlt : u < 0x10000) (h : (u < 0xD800 || 0xE000 ≤ u) = true) :
    units (Char.ofNat u) = [u] := by
  simp only [Bool.or_eq_true, decide_eq_true_eq] at h
  have hn : (Char.ofNat u).toNat = u := toNat_ofNat_of_valid (by omega)
  unfold units
  simp only [hn]
  rw [if_pos hlt]

theorem units_pair {u v : Nat} (hsingle : ¬(u < 0xD800 || 0xE000 ≤ u) = true)
    (h : (u < 0xDC00 && 0xDC00 ≤ v && v < 0xE000) = true) :
    units (Char.ofNat (0x10000 + (u - 0xD800) * 0x400 + (v - 0xDC00))) = [u, v] := by
  simp only [Bool.or_eq_true, Bool.and_eq_true, decide_eq_true_eq] at hsingle h
  have hn := toNat_ofNat_of_valid (n := 0x10000 + (u - 0xD800) * 0x400 + (v - 0xDC00)) (by omega)
  have hhigh : 0xD800 + (0x10000 + (u - 0xD800) * 0x400 + (v - 0xDC00) - 0x10000) / 0x400 = u := by
    omega
  have hlow : 0xDC00 + (0x10000 + (u - 0xD800) * 0x400 + (v - 0xDC00) - 0x10000) % 0x400 = v := by
    omega
  unfold units
  simp only [hn]
  rw [if_neg (by omega), hhigh, hlow]

theorem units_of_ofUnits {us : List Nat} {cs : List Char} (hlt : ∀ u ∈ us, u < 0x10000)
    (h : ofUnits us = some cs) : cs.flatMap units = us := by
  induction us using ofUnits.induct generalizing cs with
  | case1 =>
    simp only [ofUnits, Option.some.injEq] at h
    simp [← h]
  | case2 u hsingle =>
    rw [ofUnits, if_pos hsingle, Option.some.injEq] at h
    rw [← h, List.flatMap_singleton, units_single (hlt u List.mem_cons_self) hsingle]
  | case3 u hsingle =>
    rw [ofUnits, if_neg hsingle] at h
    simp at h
  | case4 u v rest hsingle ih =>
    rw [ofUnits, if_pos hsingle] at h
    obtain ⟨tail, htail, rfl⟩ := Option.map_eq_some_iff.mp h
    rw [List.flatMap_cons, units_single (hlt u List.mem_cons_self) hsingle,
      ih (fun w hw => hlt w (List.mem_cons_of_mem u hw)) htail]
    rfl
  | case5 u v rest hsingle hpair ih =>
    rw [ofUnits, if_neg hsingle, if_pos hpair] at h
    obtain ⟨tail, htail, rfl⟩ := Option.map_eq_some_iff.mp h
    have hrest : ∀ u ∈ rest, u < 0x10000 := fun w hw =>
      hlt w (List.mem_cons_of_mem u (List.mem_cons_of_mem v hw))
    rw [List.flatMap_cons, units_pair hsingle hpair, ih hrest htail]
    rfl
  | case6 u v rest hsingle hpair =>
    rw [ofUnits, if_neg hsingle, if_neg hpair] at h
    simp at h

theorem encode_of_decode {order : ByteOrder} {bytes : Bytes} {cs : List Char}
    (h : decode order bytes = some cs) : encode order cs = bytes := by
  obtain ⟨us, hus, hcs⟩ := Option.bind_eq_some_iff.mp h
  obtain ⟨hbytes, hlt⟩ := bytes_of_unitsOfBytes hus
  unfold encode
  rw [units_of_ofUnits hlt hcs, hbytes]

end Utf16

/-! ## Byte offsets -/

namespace Utf8

@[simp] theorem size_nil : size [] = 0 := rfl

theorem size_append (cs cs' : List Char) :
    size (cs ++ cs') = size cs + size cs' := by
  induction cs with
  | nil => simp [size]
  | cons c cs ih =>
    simp only [size, List.cons_append, List.foldr_cons] at ih ⊢
    omega

theorem take_append_of_le {front : List Char} {n : Nat} (h : size front ≤ n)
    (cs : List Char) : ∃ m, take n (front ++ cs) = front ++ take m cs := by
  induction front generalizing n with
  | nil => exact ⟨n, rfl⟩
  | cons c front ih =>
    have hsize : size (c :: front) = c.utf8Size + size front := rfl
    obtain ⟨m, hm⟩ := ih (n := n - c.utf8Size) (by omega)
    refine ⟨m, ?_⟩
    rw [List.cons_append, take, if_pos (by omega), hm]
    rfl

theorem take_zero (cs : List Char) : take 0 cs = [] := by
  cases cs with
  | nil => rfl
  | cons c cs => rw [take, if_neg (Nat.not_le.mpr c.utf8Size_pos)]

theorem drop_zero (cs : List Char) : drop 0 cs = cs := by
  cases cs with
  | nil => rfl
  | cons c cs => rw [drop, if_neg (Nat.not_le.mpr c.utf8Size_pos)]

theorem drop_size_add (front cs : List Char) (n : Nat) :
    drop (size front + n) (front ++ cs) = drop n cs := by
  induction front with
  | nil => simp [size]
  | cons c front ih =>
    have hsize : size (c :: front) = c.utf8Size + size front := rfl
    have hrest : c.utf8Size + size front + n - c.utf8Size = size front + n := by omega
    rw [List.cons_append, drop, hsize, if_pos (by omega), hrest, ih]

theorem take_size_add (front cs : List Char) (n : Nat) :
    take (size front + n) (front ++ cs) = front ++ take n cs := by
  induction front with
  | nil => simp [size]
  | cons c front ih =>
    have hsize : size (c :: front) = c.utf8Size + size front := rfl
    have hrest : c.utf8Size + size front + n - c.utf8Size = size front + n := by omega
    rw [List.cons_append, take, hsize, if_pos (by omega), hrest, ih, List.cons_append]

theorem drop_size (front cs : List Char) : drop (size front) (front ++ cs) = cs := by
  simpa [drop_zero] using drop_size_add front cs 0

theorem take_size (front cs : List Char) : take (size front) (front ++ cs) = front := by
  simpa [take_zero] using take_size_add front cs 0

/-- The bytes between two offsets are the part of the text that begins at the one and ends at the
    other. -/
theorem take_drop_size (front middle back : List Char) :
    take (size front + size middle - size front) (drop (size front) (front ++ (middle ++ back))) =
      middle := by
  rw [drop_size, Nat.add_sub_cancel_left, take_size]

/-! ### Boundaries of characters -/

variable {cs : List Char} {n m : Nat}

theorem isBoundary_zero (cs : List Char) : isBoundary 0 cs = true := by
  cases cs with
  | nil => rfl
  | cons c cs => rfl

theorem isBoundary_cons {c : Char} (h : isBoundary n (c :: cs) = true) :
    n = 0 ∨ c.utf8Size ≤ n ∧ isBoundary (n - c.utf8Size) cs = true := by
  simpa [isBoundary] using h

/-- What stands in front of a part of a text ends at a boundary. -/
theorem isBoundary_size (front cs : List Char) : isBoundary (size front) (front ++ cs) = true := by
  induction front with
  | nil => exact isBoundary_zero _
  | cons c front ih =>
    have hrest : c.utf8Size + size front - c.utf8Size = size front := Nat.add_sub_cancel_left ..
    rw [List.cons_append, isBoundary, show size (c :: front) = c.utf8Size + size front from rfl,
      hrest, ih, decide_eq_true (Nat.le_add_right ..), Bool.and_self, Bool.or_true]

theorem isBoundary_iff : isBoundary n cs = true ↔
    ∃ front back, cs = front ++ back ∧ size front = n := by
  constructor
  · intro h
    induction cs generalizing n with
    | nil => exact ⟨[], [], rfl, (eq_of_beq h).symm⟩
    | cons c cs ih =>
      rcases isBoundary_cons h with rfl | ⟨hle, hrest⟩
      · exact ⟨[], c :: cs, rfl, rfl⟩
      · obtain ⟨front, back, rfl, hsize⟩ := ih hrest
        refine ⟨c :: front, back, rfl, ?_⟩
        rw [show size (c :: front) = c.utf8Size + size front from rfl, hsize,
          Nat.add_sub_cancel' hle]
  · rintro ⟨front, back, rfl, rfl⟩
    exact isBoundary_size front back

theorem le_size_of_isBoundary (h : isBoundary n cs = true) : n ≤ size cs := by
  obtain ⟨front, back, rfl, rfl⟩ := isBoundary_iff.mp h
  rw [size_append]
  exact Nat.le_add_right ..

/-- A boundary of a text is one of what fills its first bytes. -/
theorem isBoundary_take (h : isBoundary n cs = true) (hle : n ≤ m) :
    isBoundary n (take m cs) = true := by
  induction cs generalizing n m with
  | nil => exact h
  | cons c cs ih =>
    rcases isBoundary_cons h with rfl | ⟨hc, hrest⟩
    · exact isBoundary_zero _
    · rw [take, if_pos (Nat.le_trans hc hle), isBoundary, ih hrest (Nat.sub_le_sub_right hle _),
        decide_eq_true hc, Bool.and_self, Bool.or_true]

end Utf8

end MavenPom
