import MavenPom.Charset
import MavenPom.Proofs.Text.Encoding
import Mathlib.Control.Monad.Basic
import Mathlib.Data.List.Nodup

/-!
# Encoding what was decoded

The charset that was detected for a document gives its bytes back from its text. A byte order mark
is taken off and put back, and behind it the encoding has one spelling for each text it can read;
the single-byte encodings can read any bytes.
-/

namespace MavenPom.Charset

namespace Encoding

/-! ## The single-byte tables -/

/-- What makes a table invertible: a place for each byte, no code point twice, and none that is
    written as one byte already or is no character. -/
structure IsTable (upper : List Nat) : Prop where
  length : upper.length = 128
  nodup : upper.Nodup
  bounds : ∀ n ∈ upper, 0x80 ≤ n ∧ n < 0xD800

theorem isTable_windows1252 : IsTable windows1252Upper where
  length := rfl
  nodup := by decide +kernel
  bounds := by decide +kernel

theorem isTable_iso8859_15 : IsTable iso8859_15Upper where
  length := rfl
  nodup := by decide +kernel
  bounds := by decide +kernel

theorem isTable_windows1251 : IsTable windows1251Upper where
  length := rfl
  nodup := by decide +kernel
  bounds := by decide +kernel

theorem encodeChar_low (upper : List Nat) {b : UInt8} (h : b.toNat < 0x80) :
    encodeChar upper (Char.ofNat b.toNat) = [b] := by
  have hn : (Char.ofNat b.toNat).toNat = b.toNat := toNat_ofNat_of_valid (by omega)
  rw [encodeChar, hn, if_pos h, toUInt8_eq_of_toNat rfl]

/-- A table finds the place of each of its code points. -/
theorem IsTable.encodeChar_getElem {upper : List Nat} (htable : IsTable upper) {i : Nat}
    (hi : i < upper.length) : encodeChar upper (Char.ofNat upper[i]) = [(0x80 + i).toUInt8] := by
  obtain ⟨hlow, hhigh⟩ := htable.bounds upper[i] (List.getElem_mem hi)
  have hn : (Char.ofNat upper[i]).toNat = upper[i] := toNat_ofNat_of_valid (.inl hhigh)
  have hplace : upper.idxOf? upper[i] = some i := by
    refine List.idxOf?_eq_some_iff.mpr ⟨hi, rfl, fun j hj hsame => ?_⟩
    exact Nat.ne_of_lt hj (htable.nodup.getElem_inj_iff.mp hsame)
  rw [encodeChar, hn, if_neg (Nat.not_lt.mpr hlow), hplace]

theorem IsTable.encodeChar_decodeByte {upper : List Nat} (htable : IsTable upper) (b : UInt8) :
    encodeChar upper (decodeByte upper b) = [b] := by
  by_cases hlow : b.toNat < 0x80
  · rw [decodeByte, if_pos hlow, encodeChar_low upper hlow]
  · have hi : b.toNat - 0x80 < upper.length := by
      have hb := b.toNat_lt
      rw [htable.length]
      omega
    rw [decodeByte, if_neg hlow, List.getD_eq_getElem?_getD, List.getElem?_eq_getElem hi,
      Option.getD_some, htable.encodeChar_getElem hi,
      toUInt8_eq_of_toNat (b := b) (by omega)]

theorem IsTable.encode_map {upper : List Nat} (htable : IsTable upper) (bytes : Bytes) :
    (bytes.map (decodeByte upper)).flatMap (encodeChar upper) = bytes := by
  induction bytes with
  | nil => rfl
  | cons b bytes ih =>
    rw [List.map_cons, List.flatMap_cons, ih, htable.encodeChar_decodeByte]
    rfl

/-! ## Every encoding -/

/-- An encoding with one byte for each character. -/
def IsSingleByte : Encoding → Prop
  | .utf8 => False
  | .utf16 _ => False
  | .windows1252 => True
  | .iso8859_15 => True
  | .windows1251 => True

theorem IsSingleByte.exists_decode {e : Encoding} (h : e.IsSingleByte) (bytes : Bytes) :
    ∃ cs, e.decode bytes = some cs := by
  cases e with
  | utf8 => exact h.elim
  | utf16 order => exact h.elim
  | windows1252 => exact ⟨_, rfl⟩
  | iso8859_15 => exact ⟨_, rfl⟩
  | windows1251 => exact ⟨_, rfl⟩

theorem encode_of_decode {e : Encoding} {bytes : Bytes} {cs : List Char}
    (h : e.decode bytes = some cs) : e.encode cs = bytes := by
  cases e with
  | utf8 => exact Utf8.encode_of_decode h
  | utf16 order => exact Utf16.encode_of_decode h
  | windows1252 =>
    obtain rfl := Option.some.inj h
    exact isTable_windows1252.encode_map bytes
  | iso8859_15 =>
    obtain rfl := Option.some.inj h
    exact isTable_iso8859_15.encode_map bytes
  | windows1251 =>
    obtain rfl := Option.some.inj h
    exact isTable_windows1251.encode_map bytes

end Encoding

/-! ## Byte order marks -/

theorem exists_of_ofMark? {bytes : Bytes} {e : Encoding} (h : ofMark? bytes = some e) :
    ∃ body, bytes = e.mark ++ body := by
  have hprefix := List.find?_some h
  obtain ⟨body, hbody⟩ := List.isPrefixOf_iff_prefix.mp hprefix
  exact ⟨body, hbody.symm⟩

/-- A charset has a mark only from the bytes, and of its own encoding. -/
theorem ofMark?_of_detect {bytes : Bytes} {c : Charset} (h : detect bytes = .ok c)
    (hbom : c.bom = true) : ofMark? bytes = some c.encoding := by
  unfold detect at h
  split at h
  · rename_i e hmark
    obtain rfl := Except.ok.inj h
    exact hmark
  · have hundeclared : (undeclared bytes).bom = false := by
      unfold undeclared
      split <;> rfl
    split at h
    · obtain rfl := Except.ok.inj h
      rw [hundeclared] at hbom
      cases hbom
    · split at h
      · cases h
      · obtain rfl := Except.ok.inj h
        rw [hundeclared] at hbom
        cases hbom
      · obtain rfl := Except.ok.inj h
        cases hbom

theorem decode_eq_ok {c : Charset} {bytes body : Bytes}
    (hbody : bytes = (if c.bom then c.encoding.mark else []) ++ body)
    (hmark : c.bom = true → ofMark? bytes = some c.encoding) {text : String} :
    c.decode bytes = .ok text ↔
      ∃ cs, c.encoding.decode body = some cs ∧ text = String.ofList cs := by
  have hdrop : bytes.drop (if c.bom then ((ofMark? bytes).map (·.mark.length)).getD 0 else 0) =
      body := by
    cases hbom : c.bom with
    | false => simpa [hbom] using hbody
    | true =>
      rw [hmark hbom]
      simp only [if_true, Option.map_some, Option.getD_some, hbody, hbom, List.drop_left]
  unfold decode
  simp only [hdrop]
  cases hcs : c.encoding.decode body with
  | none => simp
  | some cs => simp [eq_comm]

/-- The bytes of a document are the mark of its charset, if it has one, and a body, which is all
    that is decoded. -/
theorem exists_body_of_detect {bytes : Bytes} {c : Charset} (h : detect bytes = .ok c) :
    ∃ body, bytes = (if c.bom then c.encoding.mark else []) ++ body ∧ ∀ text,
      c.decode bytes = .ok text ↔
        ∃ cs, c.encoding.decode body = some cs ∧ text = String.ofList cs := by
  have hmark := ofMark?_of_detect h
  cases hbom : c.bom with
  | false =>
    have hbody : bytes = (if c.bom then c.encoding.mark else []) ++ bytes := by simp [hbom]
    exact ⟨bytes, rfl, fun text => decode_eq_ok hbody hmark⟩
  | true =>
    obtain ⟨body, hbytes⟩ := exists_of_ofMark? (hmark hbom)
    have hbody : bytes = (if c.bom then c.encoding.mark else []) ++ body := by simpa [hbom]
    exact ⟨body, hbytes, fun text => decode_eq_ok hbody hmark⟩

/-! ## The round trip -/

/-- A text decoded with the charset that was detected is encoded to the very bytes it came from,
    whatever they are; and in a single-byte encoding every document can be decoded. -/
theorem encode_of_detect {bytes : Bytes} {c : Charset} (hdetect : detect bytes = .ok c) :
    (∀ text, c.decode bytes = .ok text → c.encode text = bytes) ∧
      (c.encoding.IsSingleByte → ∃ text, c.decode bytes = .ok text) := by
  obtain ⟨body, hbody, hdecode⟩ := exists_body_of_detect hdetect
  constructor
  · intro text htext
    obtain ⟨cs, hcs, rfl⟩ := (hdecode text).mp htext
    rw [encode, String.toList_ofList, Encoding.encode_of_decode hcs, ← hbody]
  · intro hsingle
    obtain ⟨cs, hcs⟩ := hsingle.exists_decode body
    exact ⟨String.ofList cs, (hdecode _).mpr ⟨cs, hcs, rfl⟩⟩

/-- A document in UTF-16 whose text begins with a second mark and goes on with a character beyond
    U+FFFF. -/
def markedTwice : Bytes := [0xFF, 0xFE, 0xFF, 0xFE, 0x3D, 0xD8, 0x00, 0xDE]

/-- A document that is not UTF-8, with bytes that windows-1252 leaves to control characters. -/
def unmarked : Bytes := [0x80, 0x81, 0xE9, 0xFF]

theorem encode_of_detect_markedTwice :
    (detect markedTwice = .ok ⟨.utf16 .little, true⟩ ∧
      Charset.decode ⟨.utf16 .little, true⟩ markedTwice = .ok "\uFEFF😀" ∧
      Charset.encode ⟨.utf16 .little, true⟩ "\uFEFF😀" = markedTwice) ∧
    detect unmarked = .ok ⟨.windows1252, false⟩ ∧
      ∃ text, Charset.decode ⟨.windows1252, false⟩ unmarked = .ok text ∧
        Charset.encode ⟨.windows1252, false⟩ text = unmarked := by
  have hmarked : detect markedTwice = .ok ⟨.utf16 .little, true⟩ := rfl
  have htext : Charset.decode ⟨.utf16 .little, true⟩ markedTwice = .ok "\uFEFF😀" := rfl
  have hunmarked : detect unmarked = .ok ⟨.windows1252, false⟩ := by decide +kernel
  obtain ⟨text, hread⟩ := (encode_of_detect hunmarked).2 trivial
  exact ⟨⟨hmarked, htext, (encode_of_detect hmarked).1 _ htext⟩, hunmarked, text, hread,
    (encode_of_detect hunmarked).1 text hread⟩

end MavenPom.Charset
