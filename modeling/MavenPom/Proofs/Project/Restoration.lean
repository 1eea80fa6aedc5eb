import MavenPom.Proofs.Markup.Restoration
import MavenPom.Proofs.Markup.RoundTrip
import MavenPom.Proofs.Project.Characters
import MavenPom.Proofs.Project.Growth

/-!
# Restoring documents

Over the tree of a document that has been read, its layout puts back every character that the tree
does not hold, but for white space in end tags. Over an edited tree it gives a text that carries the
content of that tree.
-/

namespace MavenPom

open Markup

/-! ## Documents that are not edited -/

namespace Document

variable {d : Document}

/-- Restoring the layout of a document over its unedited tree gives its text, without the white
    space in the end tags of elements that have content. A byte order mark at the start of the text
    (one more than decoding takes away) is excluded: the offsets of markup leave it out. -/
theorem restoreText_eq_tightened {bytes : Bytes} {source : DocumentSource}
    (h : ofBytes bytes source = .ok d) (hmark : d.text.toList.head? ≠ some '\uFEFF') :
    ∃ layout, Layout.capture d.text d.charset = .ok layout ∧
      layout.restoreText d.tree.render = .ok (Token.tightened d.text) := by
  obtain ⟨hparse, node, hnode⟩ := parse_of_ofBytes h
  exact Layout.restoreText_render hparse hnode hmark d.charset

/-- Elements and text in unusual spellings. -/
def spaced : List Char :=
  "<?xml version = '1.0'?>\n<!-- a --><project  a = '>' ><b ></b ><c\n/><d /> &#65;&gt;".toList ++
    "<![CDATA[<]]><e>1</e\n></project >\n<?f?>\n".toList

example : Token.tightened (String.ofList spaced) = String.ofList (
  "<?xml version = '1.0'?>\n<!-- a --><project  a = '>' ><b ></b ><c\n/><d /> &#65;&gt;".toList ++
    "<![CDATA[<]]><e>1</e></project>\n<?f?>\n".toList) := by
  rw [Token.tightened, Token.scan_ofList, String.toList_ofList]
  exact congrArg String.ofList (by decide +kernel)

theorem restoreText_spaced :
    Document.ofBytes (Utf8.encode spaced) .memory = .ok (ofChars spaced) ∧
    (ofChars spaced).text.toList.head? ≠ some '\uFEFF' ∧
    ∃ layout, Layout.capture (ofChars spaced).text (ofChars spaced).charset = .ok layout ∧
      layout.restoreText (ofChars spaced).tree.render =
        .ok (Token.tightened (ofChars spaced).text) := by
  have hreadable : Readable spaced := by decide +kernel
  have hmark : (ofChars spaced).text.toList.head? ≠ some '\uFEFF' := by
    rw [show (ofChars spaced).text = String.ofList spaced from rfl, String.toList_ofList]
    decide
  exact ⟨ofBytes_encode hreadable, hmark, restoreText_eq_tightened (ofBytes_encode hreadable) hmark⟩

/-- Elements after a byte order mark. -/
def marked : List Char := '\uFEFF' :: "<project><a></a></project>".toList

/-- Those elements in UTF-8, after the mark that decoding takes away. -/
def markedBytes : Bytes := Charset.Encoding.utf8.mark ++ Utf8.encode marked

/-- The mark that decoding leaves moves the offsets of markup, and another part of the text than the
    empty element is put back for it. -/
theorem restoreText_marked :
    ∃ d, Document.ofBytes markedBytes .memory = .ok d ∧ d.text = String.ofList marked ∧
      ((Layout.capture d.text d.charset).bind fun layout => layout.restoreText d.tree.render) =
        .ok (String.ofList ('\uFEFF' :: "<project><a><</project>".toList)) := by
  have hread := ofBytes_mark marked (by decide +kernel) (by decide +kernel)
    (by decide +kernel)
  refine ⟨_, hread, rfl, ?_⟩
  simp only [ofDecoded, show (ofChars marked).text = String.ofList marked from rfl, Tree.render_eq]
  exact Layout.restoreText_of_restoreChars (by decide +kernel)

end Document

/-! ## Captured indentation -/

namespace Markup.Indent

theorem char_of_measure? {blanks : List Char} {level : ℕ} {m : Measure}
    (h : measure? blanks level = some m) : m.char = ' ' ∨ m.char = '\t' := by
  unfold measure? at h
  split at h
  · cases h
  · next first rest =>
    split at h
    · cases h
    · next hnot =>
      split at h
      · cases h
        by_contra hne
        exact hnot (.inr (.inl hne))
      · cases h

theorem char_of_mem_measures {depth : ℕ} {pending : Option (List Char)} {tokens : List Token}
    {m : Measure} (h : m ∈ measures depth pending tokens) : m.char = ' ' ∨ m.char = '\t' := by
  have hat : ∀ {level : ℕ} {pending : Option (List Char)},
      m ∈ (pending.bind (measure? · level)).toList → m.char = ' ' ∨ m.char = '\t' := by
    intro level pending hmem
    obtain ⟨blanks, -, hblanks⟩ := Option.bind_eq_some_iff.mp (Option.mem_toList.mp hmem)
    exact char_of_measure? hblanks
  induction tokens generalizing depth pending with
  | nil => cases h
  | cons token rest ih =>
    cases token with
    | startTag tag => exact (List.mem_append.mp h).elim hat ih
    | emptyTag tag => exact (List.mem_append.mp h).elim hat ih
    | comment content => exact (List.mem_append.mp h).elim hat ih
    | endTag name => exact (List.mem_append.mp h).elim hat ih
    | _ => exact ih h

theorem mem_of_foldl {all : List Measure} {step : Option Measure → Measure → Option Measure}
    (hstep : ∀ best m, step best m = some m ∨ step best m = best) {more : List Measure}
    (hmore : ∀ x ∈ more, x ∈ all) {best : Option Measure} (hbest : ∀ b ∈ best, b ∈ all) :
    ∀ b ∈ more.foldl step best, b ∈ all := by
  induction more generalizing best with
  | nil => exact hbest
  | cons x more ih =>
    obtain ⟨hx, hmore⟩ := List.forall_mem_cons.mp hmore
    refine ih hmore fun b hb => ?_
    rcases hstep best x with h | h <;> rw [h] at hb
    · obtain rfl : x = b := by simpa using hb
      exact hx
    · exact hbest b hb

theorem mem_of_best? {all : List Measure} {m : Measure} (h : best? all = some m) : m ∈ all := by
  unfold best? at h
  refine mem_of_foldl (fun best m => ?_) (fun x hx => hx) (by simp) m h
  cases best with
  | none => exact .inl rfl
  | some b =>
    dsimp only
    split
    · exact .inl rfl
    · exact .inr rfl

/-- Elements are added with the indentation of the document, which is white space. -/
theorem isBlank_infer (text : String) : (infer text).IsBlank := by
  rw [IsBlank, infer]
  dsimp only
  cases hbest : best? (measures 0 none ((Token.scan text).lexemes.map (·.token))) with
  | none => decide
  | some m =>
    rw [Option.map_some, Option.getD_some, Text.isAllBlank, Measure.text, String.toList_ofList,
      List.all_eq_true]
    intro c hc
    rw [List.eq_of_mem_replicate hc]
    rcases char_of_mem_measures (mem_of_best? hbest) with h | h <;> rw [h] <;> decide

end Markup.Indent

/-! ## Restoring edited documents -/

namespace Document

variable {d : Document}

/-- After any edits of its elements, restoring the layout of a document gives a text that is read as
    a tree with the content of the edited one. The document must not begin with a byte order mark
    once decoded, and the attributes of its elements must differ where their values do. -/
theorem exists_restoreText_edited {bytes : Bytes} {source : DocumentSource}
    (h : ofBytes bytes source = .ok d) (hmark : d.text.toList.head? ≠ some '\uFEFF')
    (htold : d.tree.AttributesTold) {edits : List Amendment}
    (hproper : Amendment.AllProper d.tree edits) :
    ∃ layout restored t, Layout.capture d.text d.charset = .ok layout ∧
      layout.restoreText (Amendment.applyAll d.tree edits).render = .ok restored ∧
      Tree.parse restored = .ok t ∧
      t.sameContent (Amendment.applyAll d.tree edits) = true := by
  obtain ⟨hparse, node, hnode⟩ := parse_of_ofBytes h
  exact Layout.exists_restoreText_amended hparse hnode hmark htold hproper rfl d.charset

/-- Elements without content in two spellings, and a text with a reference. -/
def sparse : List Char := "<p><x a='1'/>a&lt;<y ></y></p>".toList

/-- Edits that fill elements without content, and move others to new places. -/
def fillings : List Amendment :=
  [.setText 4 "<", .appendElement 1 "z" .standard, .appendTextElement 2 "u" ";" .standard,
    .insertElementBefore 1 2 "x" .standard]

theorem exists_restoreText_filled :
    ofBytes (Utf8.encode sparse) .memory = .ok (ofChars sparse) ∧
    (ofChars sparse).text.toList.head? ≠ some '\uFEFF' ∧ (ofChars sparse).tree.AttributesTold ∧
    Amendment.AllProper (ofChars sparse).tree fillings ∧
    ∃ layout restored t,
      Layout.capture (ofChars sparse).text (ofChars sparse).charset = .ok layout ∧
      layout.restoreText (Amendment.applyAll (ofChars sparse).tree fillings).render = .ok restored ∧
      Tree.parse restored = .ok t ∧
      t.sameContent (Amendment.applyAll (ofChars sparse).tree fillings) = true := by
  have hreadable : Readable sparse := by decide +kernel
  have hread := ofBytes_encode hreadable
  have hmark : (ofChars sparse).text.toList.head? ≠ some '\uFEFF' := by
    rw [show (ofChars sparse).text = String.ofList sparse from rfl, String.toList_ofList]
    decide
  have htold : (ofChars sparse).tree.AttributesTold := by decide +kernel
  have hproper : Amendment.AllProper (ofChars sparse).tree fillings := by decide +kernel
  exact ⟨hread, hmark, htold, hproper, exists_restoreText_edited hread hmark htold hproper⟩

/-- Two elements whose attributes are the same in one spelling: one attribute with a value that
    holds quotes, and an attribute with a declaration of a namespace. -/
def quoted : List Char := "<p><x a='1\" xmlns:q=\"2'/><x a=\"1\" xmlns:q=\"2\"/></p>".toList

/-- What restoring gives of that document once an element of the same name has been inserted before
    the first. -/
def requoted : List Char :=
  "<p><x/>\n  <x a=\"1\" xmlns:q=\"2\"/><x a=\"1\" xmlns:q=\"2\"/></p>".toList

/-- The first of the two is restored with the other one's spelling. -/
theorem not_sameContent_quoted :
    ∃ d t, ofBytes (Utf8.encode quoted) .memory = .ok d ∧
      Amendment.AllProper d.tree [.insertElementBefore 1 2 "x" .standard] ∧
      ((Layout.capture d.text d.charset).bind fun layout => layout.restoreText
        (Amendment.applyAll d.tree [.insertElementBefore 1 2 "x" .standard]).render) =
          .ok (String.ofList requoted) ∧
      Tree.parse (String.ofList requoted) = .ok t ∧
      t.sameContent (Amendment.applyAll d.tree [.insertElementBefore 1 2 "x" .standard]) =
        false := by
  have hreadable : Readable quoted := by decide +kernel
  have hrequoted : Readable requoted := by decide +kernel
  obtain ⟨hparse, -⟩ := parse_of_ofBytes (ofBytes_encode hrequoted)
  refine ⟨_, _, ofBytes_encode hreadable, by decide +kernel, ?_, hparse, by decide +kernel⟩
  rw [Tree.render_eq]
  exact Layout.restoreText_of_restoreChars (by decide +kernel)

end Document

end MavenPom
