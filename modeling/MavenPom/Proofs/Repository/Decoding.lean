import MavenPom.Proofs.Charset
import MavenPom.Proofs.Markup.WellFormed
import MavenPom.Proofs.Project.Characters
import MavenPom.Proofs.Project.Growth
import MavenPom.Proofs.Repository.Failure

/-!
# POMs as documents and in repositories

A document is decoded by its charset, and a POM in a repository always as UTF-8, with U+FFFD for
what is none. Both read the same where the bytes stand for the same characters either way, except
for a second byte order mark. No POM in UTF-16 can be loaded from a repository.
-/

namespace MavenPom

namespace Utf8

variable {bytes : Bytes} {cs : List Char}

/-- Nothing is replaced in well-formed bytes. -/
theorem decodeLossy_of_decode (h : decode bytes = some cs) : decodeLossy bytes = cs := by
  induction bytes using decode.induct generalizing cs with
  | case1 =>
    rw [decode] at h
    rw [decodeLossy, Option.some.inj h]
  | case2 first rest hnext => simp [decode, hnext] at h
  | case3 first rest c hnext ih =>
    rw [decode, hnext] at h
    obtain ⟨tail, htail, rfl⟩ := Option.map_eq_some_iff.mp h
    rw [decodeLossy, hnext, ih htail]
    rfl

theorem decodeLossy_mark (body : Bytes) :
    decodeLossy (Charset.Encoding.utf8.mark ++ body) = '\uFEFF' :: decodeLossy body := by
  have hnext : next 0xEF (0xBB :: 0xBF :: body) = (some '\uFEFF', body) := rfl
  rw [show Charset.Encoding.utf8.mark ++ body = 0xEF :: 0xBB :: 0xBF :: body from rfl, decodeLossy,
    hnext]
  rfl

/-- A byte that no sequence begins with is replaced. -/
theorem decodeLossy_cons_of_le {first : UInt8} (h : 0xF5 ≤ first.toNat) (rest : Bytes) :
    decodeLossy (first :: rest) = '\uFFFD' :: decodeLossy rest := by
  have hnext : next first rest = (none, rest) := by
    unfold next
    dsimp only
    rw [if_neg (by omega), if_neg (by omega), if_neg (by omega), if_neg (by omega)]
  rw [decodeLossy, hnext]
  rfl

theorem decodeLossy_ascii (h : ∀ b ∈ bytes, b.toNat < 0x80) :
    decodeLossy bytes = bytes.map fun b => Char.ofNat b.toNat := by
  induction bytes with
  | nil => rw [decodeLossy, List.map_nil]
  | cons b bytes ih =>
    obtain ⟨hb, hbytes⟩ := List.forall_mem_cons.mp h
    have hnext : next b bytes = (some (Char.ofNat b.toNat), bytes) := by
      unfold next
      exact if_pos hb
    rw [decodeLossy, hnext, List.map_cons, ← ih hbytes]
    rfl

end Utf8

namespace Charset

variable {bytes : Bytes} {c : Charset}

/-- ASCII bytes stand for their own characters. -/
def Encoding.ReadsAscii (e : Encoding) : Prop :=
  ∀ bytes : Bytes, (∀ b ∈ bytes, b.toNat < 0x80) →
    e.decode bytes = some (bytes.map fun b => Char.ofNat b.toNat)

theorem Encoding.IsSingleByte.readsAscii {e : Encoding} (hsingle : e.IsSingleByte) :
    e.ReadsAscii := by
  intro bytes h
  have htable : ∀ upper, bytes.map (decodeByte upper) = bytes.map fun b => Char.ofNat b.toNat :=
    fun upper => List.map_congr_left fun b hb => if_pos (h b hb)
  cases e with
  | utf8 => exact hsingle.elim
  | utf16 order => exact hsingle.elim
  | windows1252 => exact congrArg some (htable _)
  | iso8859_15 => exact congrArg some (htable _)
  | windows1251 => exact congrArg some (htable _)

/-- UTF-16 is detected by its mark alone. -/
theorem bom_of_utf16 {order : Utf16.ByteOrder} (h : detect bytes = .ok c)
    (horder : c.encoding = .utf16 order) : c.bom = true := by
  have hundeclared : (undeclared bytes).encoding ≠ .utf16 order := by
    unfold undeclared
    split <;> simp [utf8]
  unfold detect at h
  split at h
  · rw [← Except.ok.inj h]
  · split at h
    · rw [← Except.ok.inj h] at horder
      exact absurd horder hundeclared
    · split at h
      · cases h
      · rw [← Except.ok.inj h] at horder
        exact absurd horder hundeclared
      · next hne _ =>
        rw [← Except.ok.inj h] at horder
        exact absurd horder (hne order)

/-- Nothing but Unicode has marks. -/
theorem encoding_of_bom (h : detect bytes = .ok c) (hbom : c.bom = true) :
    c.encoding = .utf8 ∨ ∃ order, c.encoding = .utf16 order := by
  have hmem := List.mem_of_find?_eq_some (ofMark?_of_detect h hbom)
  simp only [List.mem_cons, List.not_mem_nil, or_false] at hmem
  rcases hmem with hutf8 | hbig | hlittle
  · exact .inl hutf8
  · exact .inr ⟨_, hbig⟩
  · exact .inr ⟨_, hlittle⟩

/-- The bytes of a document in UTF-16 begin with one that is none of UTF-8. -/
theorem exists_cons_of_utf16 {order : Utf16.ByteOrder} (h : detect bytes = .ok c)
    (horder : c.encoding = .utf16 order) :
    ∃ first rest, bytes = first :: rest ∧ 0xF5 ≤ first.toNat := by
  obtain ⟨body, hbody, -⟩ := exists_body_of_detect h
  rw [bom_of_utf16 h horder, horder, if_pos rfl] at hbody
  cases order with
  | little => exact ⟨_, _, hbody, by decide⟩
  | big => exact ⟨_, _, hbody, by decide⟩

/-- No byte order mark is ASCII. -/
theorem bom_of_ascii (h : detect bytes = .ok c) (hascii : ∀ b ∈ bytes, b.toNat < 0x80) :
    c.bom = false := by
  by_contra hbom
  have hbom : c.bom = true := by simpa using hbom
  have hfirst : ∃ first rest, bytes = first :: rest ∧ 0x80 ≤ first.toNat := by
    rcases encoding_of_bom h hbom with hutf8 | ⟨order, horder⟩
    · obtain ⟨body, hbody, -⟩ := exists_body_of_detect h
      rw [hbom, hutf8, if_pos rfl] at hbody
      exact ⟨_, _, hbody, by decide⟩
    · obtain ⟨first, rest, hbytes, hfirst⟩ := exists_cons_of_utf16 h horder
      exact ⟨first, rest, hbytes, Nat.le_trans (by decide) hfirst⟩
  obtain ⟨first, rest, rfl, hfirst⟩ := hfirst
  exact absurd (hascii first List.mem_cons_self) (Nat.not_lt.mpr hfirst)

/-- What the replacing reader makes of the bytes of a text that is in UTF-8, or ASCII throughout. -/
theorem decodeLossy_of_detect {text : String} (hdetect : detect bytes = .ok c)
    (hdecode : c.decode bytes = .ok text)
    (hplain : c.encoding = .utf8 ∨ c.encoding.ReadsAscii ∧ ∀ b ∈ bytes, b.toNat < 0x80) :
    Utf8.decodeLossy bytes = (if c.bom then ['\uFEFF'] else []) ++ text.toList := by
  obtain ⟨body, hbody, hdecoded⟩ := exists_body_of_detect hdetect
  obtain ⟨cs, hcs, rfl⟩ := (hdecoded text).mp hdecode
  rw [String.toList_ofList]
  rcases hplain with hutf8 | ⟨hreads, hascii⟩
  · rw [hutf8] at hbody hcs
    cases hbom : c.bom with
    | false =>
      rw [hbom] at hbody
      rw [hbody]
      exact Utf8.decodeLossy_of_decode hcs
    | true =>
      rw [hbom, if_pos rfl] at hbody
      rw [hbody, Utf8.decodeLossy_mark, Utf8.decodeLossy_of_decode hcs]
      rfl
  · have hbom := bom_of_ascii hdetect hascii
    rw [hbom] at hbody ⊢
    obtain rfl : bytes = body := hbody
    rw [hreads bytes hascii] at hcs
    rw [Utf8.decodeLossy_ascii hascii, Option.some.inj hcs]
    rfl

end Charset

/-- A byte order mark at the head of a text is passed over once. -/
theorem Markup.Strict.parseChars?_mark {cs : List Char} (h : cs.head? ≠ some '\uFEFF') :
    parseChars? ('\uFEFF' :: cs) = parseChars? cs := by
  have hstrip : Text.strip? ['\uFEFF'] cs = none := by
    cases cs with
    | nil => rfl
    | cons c cs => exact if_neg fun hc => h (congrArg some hc.symm)
  rw [parseChars?, parseChars?, hstrip]
  rfl

namespace PomStore

open MavenPom.Action (Runs Fails)
open Markup

variable {source : PomSource} {key : PomKey} {s t : PomStore} {bytes : Bytes} {d : Document}
  {origin : DocumentSource}

theorem reads_of_ofBytes (h : Document.ofBytes bytes origin = .ok d)
    (hplain : d.charset.encoding = .utf8 ∨
      d.charset.encoding.ReadsAscii ∧ ∀ b ∈ bytes, b.toNat < 0x80)
    (hmark : d.charset.bom = true → d.text.toList.head? ≠ some '\uFEFF') :
    Reads key bytes d.pom := by
  obtain ⟨hdetect, hdecode, -, -⟩ := Document.read_of_ofBytes h
  obtain ⟨-, node, hnode, hpom⟩ := Document.exists_node_of_ofBytes h
  have hparse : Strict.parse? (String.ofList (Utf8.decodeLossy bytes)) = some node := by
    rw [Charset.decodeLossy_of_detect hdetect hdecode hplain, Strict.parse?_ofList]
    cases hbom : d.charset.bom with
    | false => exact hnode
    | true => exact (Strict.parseChars?_mark (hmark hbom)).trans hnode
  rw [Reads, Pom.parse, hparse, hpom]

/-- Nothing is read that begins with another character than a POM can. -/
theorem not_reads_of_head {c : Char} (hmarkup : c ≠ '<') (hspace : isSpace c = false)
    {rest : List Char} (hhead : (Text.strip? ['\uFEFF'] (Utf8.decodeLossy bytes)).getD
      (Utf8.decodeLossy bytes) = c :: rest) (pom : Pom) : ¬Reads key bytes pom := by
  intro hreads
  rw [Reads, Pom.parse, Strict.parse?_ofList] at hreads
  cases hnode : Strict.parseChars? (Utf8.decodeLossy bytes) with
  | none =>
    rw [hnode] at hreads
    cases hreads
  | some node =>
    rcases Strict.head_of_parseChars? hnode hhead with heq | heq
    · exact hmarkup heq
    · rw [hspace] at heq
      cases heq

theorem not_reads_of_utf16 {order : Utf16.ByteOrder} {c : Charset}
    (h : Charset.detect bytes = .ok c) (horder : c.encoding = .utf16 order) (pom : Pom) :
    ¬Reads key bytes pom := by
  obtain ⟨first, rest, rfl, hfirst⟩ := Charset.exists_cons_of_utf16 h horder
  have hhead := Utf8.decodeLossy_cons_of_le hfirst rest
  exact not_reads_of_head (c := '\uFFFD') (by decide) (by decide) (by rw [hhead]; rfl) pom

/-- A second byte order mark is a character outside of all elements. -/
theorem not_reads_of_mark (h : Document.ofBytes bytes origin = .ok d) (hbom : d.charset.bom = true)
    (hmark : d.text.toList.head? = some '\uFEFF') (pom : Pom) : ¬Reads key bytes pom := by
  obtain ⟨hdetect, hdecode, -, -⟩ := Document.read_of_ofBytes h
  rcases Charset.encoding_of_bom hdetect hbom with hutf8 | ⟨order, horder⟩
  · obtain ⟨rest, hrest⟩ := List.head?_eq_some_iff.mp hmark
    have hlossy := Charset.decodeLossy_of_detect hdetect hdecode (.inl hutf8)
    rw [hbom, hrest] at hlossy
    exact not_reads_of_head (c := '\uFEFF') (by decide) (by decide) (by rw [hlossy]; rfl) pom
  · exact not_reads_of_utf16 hdetect horder pom

/-- A POM whose file has the bytes of a document is loaded as the document reads it, where the bytes
    are UTF-8, or ASCII in an encoding that reads ASCII as it is, and at most one byte order mark
    stands at their head. A document in UTF-16 or with two marks cannot be loaded. -/
theorem load_of_ofBytes (h : Document.ofBytes bytes origin = .ok d)
    (hnew : s.loaded.get? key = none) (hopen : isOpen key.version = false)
    (hcontent : Runs (content source key) s bytes t) :
    ((d.charset.encoding = .utf8 ∨
        d.charset.encoding.ReadsAscii ∧ ∀ b ∈ bytes, b.toNat < 0x80) →
      (d.charset.bom = true → d.text.toList.head? ≠ some '\uFEFF') →
      Runs (load source key) s d.pom { t with loaded := t.loaded.insert key d.pom }) ∧
    ((∃ order, d.charset.encoding = .utf16 order) ∨
        d.charset.bom = true ∧ d.text.toList.head? = some '\uFEFF' →
      Fails (load source key) s (.project (.notWellFormed key.text)) t) := by
  refine ⟨fun hplain hmark => ?_, fun hforeign => ?_⟩
  · exact runs_load.mpr
      (.inr ⟨hnew, hopen, bytes, t, hcontent, reads_of_ofBytes h hplain hmark, rfl⟩)
  · have hnot : ∀ pom, ¬Reads key bytes pom := by
      rcases hforeign with ⟨order, horder⟩ | ⟨hbom, hmark⟩
      · exact not_reads_of_utf16 (Document.read_of_ofBytes h).1 horder
      · exact not_reads_of_mark h hbom hmark
    exact fails_load.mpr ⟨hnew, .inr ⟨hopen, .inr ⟨bytes, hcontent, hnot, rfl⟩⟩⟩

/-- A local repository without a remote one. -/
def localOnly : PomSource := ⟨"/m2", none⟩

/-- A store in whose repository nothing is but the file of one POM. -/
def filed (bytes : Bytes) : PomStore :=
  .ofFiles (FileTree.empty.writeAt ["m2", "g", "a", "1", "a-1.pom"] bytes)

theorem runs_content_filed (bytes : Bytes) :
    Runs (content localOnly wanted) (filed bytes) bytes (filed bytes) := by
  refine runs_content.mpr (.inl ⟨?_, rfl⟩)
  with_unfolding_all rfl

/-- The characters of a POM that says its version. -/
def versioned (version : List Char) : List Char :=
  "<project><version>".toList ++ version ++ "</version></project>".toList

/-- The characters of a declaration of ISO-8859-1. -/
def declaredLatin1 : List Char := "<?xml version='1.0' encoding='l1'?>".toList

/-- A POM with a byte order mark is loaded, and so is one in ISO-8859-1 that is ASCII throughout.
    One in UTF-16 is not. -/
theorem load_of_ofBytes_marked :
    let marked := Charset.Encoding.utf8.mark ++ Utf8.encode (versioned ['é'])
    let plain := Utf8.encode (declaredLatin1 ++ versioned ['e'])
    let wide := Charset.Encoding.mark (.utf16 .little) ++ Utf16.encode .little (versioned ['é'])
    isOpen wanted.version = false ∧
    (∃ d t, Document.ofBytes marked .memory = .ok d ∧ (filed marked).loaded.get? wanted = none ∧
      Runs (content localOnly wanted) (filed marked) marked (filed marked) ∧
      d.charset = ⟨.utf8, true⟩ ∧ d.text.toList.head? ≠ some '\uFEFF' ∧
      d.pom.version = some "é" ∧ Runs (load localOnly wanted) (filed marked) d.pom t) ∧
    (∃ d t, Document.ofBytes plain .memory = .ok d ∧ (filed plain).loaded.get? wanted = none ∧
      Runs (content localOnly wanted) (filed plain) plain (filed plain) ∧
      d.charset = ⟨.windows1252, false⟩ ∧ (∀ b ∈ plain, b.toNat < 0x80) ∧
      d.pom.version = some "e" ∧ Runs (load localOnly wanted) (filed plain) d.pom t) ∧
    ∃ d, Document.ofBytes wide .memory = .ok d ∧ (filed wide).loaded.get? wanted = none ∧
      Runs (content localOnly wanted) (filed wide) wide (filed wide) ∧
      d.charset.encoding = .utf16 .little ∧ d.pom.version = some "é" ∧
      Fails (load localOnly wanted) (filed wide) (.project (.notWellFormed wanted.text))
        (filed wide) := by
  intro marked plain wide
  have hopen : isOpen wanted.version = false := by decide +kernel
  refine ⟨hopen, ?_, ?_, ?_⟩
  · have hread := Document.ofBytes_mark (versioned ['é']) (by decide +kernel) (by decide +kernel)
      (by decide +kernel)
    have hhead : (String.ofList (versioned ['é'])).toList.head? ≠ some '\uFEFF' := by decide +kernel
    have hload := (load_of_ofBytes hread rfl hopen (runs_content_filed marked)).1 (.inl rfl)
      fun _ => hhead
    exact ⟨_, _, hread, rfl, runs_content_filed marked, rfl, hhead, by decide +kernel, hload⟩
  · have hread : Document.ofBytes plain .memory = .ok (Document.ofDecoded plain
        ⟨.windows1252, false⟩ (declaredLatin1 ++ versioned ['e'])) :=
      Document.ofBytes_eq_ofDecoded (by decide +kernel) (by decide +kernel) (by decide +kernel)
        (by decide +kernel)
    have hascii : ∀ b ∈ plain, b.toNat < 0x80 := by decide +kernel
    have hsingle : Charset.Encoding.windows1252.IsSingleByte := trivial
    have hload := (load_of_ofBytes hread rfl hopen (runs_content_filed plain)).1
      (.inr ⟨hsingle.readsAscii, hascii⟩) (fun hbom => Bool.noConfusion hbom)
    exact ⟨_, _, hread, rfl, runs_content_filed plain, rfl, hascii, by decide +kernel, hload⟩
  · have hread : Document.ofBytes wide .memory =
        .ok (Document.ofDecoded wide ⟨.utf16 .little, true⟩ (versioned ['é'])) :=
      Document.ofBytes_eq_ofDecoded (by decide +kernel) (by decide +kernel) (by decide +kernel)
        (by decide +kernel)
    have hload := (load_of_ofBytes hread rfl hopen (runs_content_filed wide)).2
      (.inl ⟨.little, rfl⟩)
    exact ⟨_, hread, rfl, runs_content_filed wide, rfl, by decide +kernel, hload⟩

/-- A POM in ISO-8859-1. -/
def latin1 : Bytes :=
  Utf8.encode declaredLatin1 ++ (versioned ['é']).map fun c => c.toNat.toUInt8

/-- The document reads its version, and what is loaded for it has U+FFFD instead. -/
theorem not_load_of_ofBytes_latin1 :
    ∃ d pom t, Document.ofBytes latin1 .memory = .ok d ∧
      (filed latin1).loaded.get? wanted = none ∧ isOpen wanted.version = false ∧
      Runs (content localOnly wanted) (filed latin1) latin1 (filed latin1) ∧
      Runs (load localOnly wanted) (filed latin1) pom t ∧
      d.pom.version = some "é" ∧ pom.version = some "\uFFFD" := by
  have hread : Document.ofBytes latin1 .memory = .ok (Document.ofDecoded latin1
      ⟨.windows1252, false⟩ (declaredLatin1 ++ versioned ['é'])) :=
    Document.ofBytes_eq_ofDecoded (by decide +kernel) (by decide +kernel) (by decide +kernel)
      (by decide +kernel)
  have hversion : ((Strict.parseChars? (Utf8.decodeLossy latin1)).bind fun node =>
      (Pom.ofNode node).version) = some "\uFFFD" := by decide +kernel
  obtain ⟨node, hnode, hversion⟩ := Option.bind_eq_some_iff.mp hversion
  have hreads : Reads wanted latin1 (Pom.ofNode node) := by
    rw [Reads, Pom.parse, Strict.parse?_ofList, hnode]
  have hopen : isOpen wanted.version = false := by decide +kernel
  have hload := runs_load.mpr
    (.inr ⟨rfl, hopen, latin1, _, runs_content_filed latin1, hreads, rfl⟩)
  exact ⟨_, _, _, hread, rfl, hopen, runs_content_filed latin1, hload, by decide +kernel, hversion⟩

end PomStore

end MavenPom
