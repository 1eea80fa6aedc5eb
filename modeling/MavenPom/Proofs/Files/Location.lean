import MavenPom.Files.Tree
import MavenPom.Proofs.Text.Fields
import Mathlib.Data.List.Induction
import Mathlib.Logic.Function.Iterate

/-!
# Where paths lead

A path leads to a location by its segments alone: `..` takes a name back, and other names are added.
What is found at a path, and what is made there, is at this location. A path leads some names up
from where it begins and then down, so it stays below its start exactly where it leads up by none.
Where all names on the way to a location are names of files, its absolute path leads to it, and a
relative path leads from it as the two paths joined do.
-/

namespace MavenPom

namespace Location

@[simp] theorem step_empty (l : Location) : l.step "" = l := by simp [step]

theorem descend_of_not_mem {name : String} (h : '/' ∉ name.toList) (l : Location) :
    l.descend name = l.step name := by
  simp [descend, Text.fields_eq_singleton h]

/-- A path leads where its end leads from where its front does. -/
theorem descend_append (l : Location) (front back : String) :
    l.descend (front ++ "/" ++ back) = (l.descend front).descend back := by
  have hfields := Text.fields_append '/' front back
  rw [show String.singleton '/' = "/" from rfl] at hfields
  rw [descend, hfields, List.foldl_append]
  rfl

/-! ## Up and down -/

/-- Where segments lead: some names up, and then down by names. -/
structure Course where
  up : ℕ
  names : List String
  deriving DecidableEq, Repr

namespace Course

def step (c : Course) (segment : String) : Course :=
  if segment = "" ∨ segment = "." then c
  else if segment = ".." then
    if c.names = [] then { c with up := c.up + 1 } else { c with names := c.names.dropLast }
  else { c with names := c.names ++ [segment] }

/-- The course of a path. -/
def ofPath (path : String) : Course := (Text.fields '/' path).foldl step ⟨0, []⟩

/-- Where a course leads from a location. At the root there is no further way up. -/
def lead (c : Course) (l : Location) : Location := List.dropLast^[c.up] l ++ c.names

theorem lead_step (c : Course) (segment : String) (l : Location) :
    (c.step segment).lead l = (c.lead l).step segment := by
  by_cases hstay : segment = "" ∨ segment = "."
  · simp only [step, Location.step, if_pos hstay]
  · by_cases hup : segment = ".."
    · by_cases hnames : c.names = []
      · have hstep : c.step segment = { c with up := c.up + 1 } := by
          rw [step, if_neg hstay, if_pos hup, if_pos hnames]
        simp only [hstep, Location.step, if_neg hstay, if_pos hup, lead, hnames, List.append_nil,
          Function.iterate_succ_apply']
      · simp only [step, Location.step, if_neg hstay, if_pos hup, if_neg hnames, lead,
          List.dropLast_append_of_ne_nil hnames]
    · simp only [step, Location.step, if_neg hstay, if_neg hup, lead, List.append_assoc]

theorem up_step {c : Course} {segment : String} (h : segment ≠ "..") :
    (c.step segment).up = c.up := by
  simp only [step, if_neg h]
  split <;> rfl

end Course

theorem descend_eq_lead (l : Location) (path : String) :
    l.descend path = (Course.ofPath path).lead l := by
  have hrun : ∀ (segments : List String) (c : Course),
      segments.foldl step (c.lead l) = (segments.foldl Course.step c).lead l := by
    intro segments
    induction segments with
    | nil => exact fun c => rfl
    | cons segment segments ih =>
      intro c
      rw [List.foldl_cons, List.foldl_cons, ← Course.lead_step, ih]
  have hstart : (⟨0, []⟩ : Course).lead l = l := List.append_nil l
  rw [Course.ofPath, ← hrun, hstart]
  rfl

end Location

/-- A path does not lead above where it begins. -/
def Path.Stays (path : String) : Prop := (Location.Course.ofPath path).up = 0

instance (path : String) : Decidable (Path.Stays path) :=
  inferInstanceAs (Decidable (_ = 0))

namespace Path

/-- A path stays exactly if it leads from every location to one below it. -/
theorem stays_iff {path : String} : Stays path ↔ ∀ l : Location, l <+: l.descend path := by
  refine ⟨fun h l => ?_, fun h => ?_⟩
  · rw [Location.descend_eq_lead, Location.Course.lead, h]
    exact List.prefix_append ..
  · -- A path that leads up leaves one of the names that are not its own first one.
    by_contra hup
    obtain ⟨n, hn⟩ := Nat.exists_eq_succ_of_ne_zero hup
    have hlead (name : String) : [name] <+: (Location.Course.ofPath path).names := by
      have hnil : List.dropLast^[n] ([] : Location) = [] :=
        Function.iterate_fixed rfl n
      have hname := h [name]
      rwa [Location.descend_eq_lead, Location.Course.lead, hn, Function.iterate_succ_apply,
        List.dropLast_singleton, hnil, List.nil_append] at hname
    obtain ⟨rest, hrest⟩ := hlead "a"
    obtain ⟨rest', hrest'⟩ := hlead "b"
    rw [← hrest] at hrest'
    simp at hrest'

theorem stays_of_not_mem {path : String} (h : ".." ∉ Text.fields '/' path) : Stays path := by
  have hrun : ∀ (segments : List String) (c : Location.Course), ".." ∉ segments →
      (segments.foldl Location.Course.step c).up = c.up := by
    intro segments
    induction segments with
    | nil => exact fun c _ => rfl
    | cons segment segments ih =>
      intro c hsegments
      obtain ⟨hsegment, hsegments⟩ := List.ne_and_not_mem_of_not_mem_cons hsegments
      rw [List.foldl_cons, ih _ hsegments, Location.Course.up_step hsegment.symm]
  exact hrun _ _ h

end Path

namespace FileTree

/-- The location that a path leads to, whatever is there. -/
def location (t : FileTree) (path : String) : Location := (t.start path).descend path

theorem start_append {base : String} (h : base ≠ "") (t : FileTree) (rest : String) :
    t.start (base ++ rest) = t.start base := by
  obtain ⟨c, cs, hcs⟩ := List.exists_cons_of_ne_nil (mt String.toList_eq_nil_iff.mp h)
  simp [start, hcs]

/-- A relative path that is joined to a path leads on from where that leads. -/
theorem location_join_relative (t : FileTree) {base path : String} (hbase : base ≠ "")
    (hrelative : path.toList.head? ≠ some '/') :
    t.location (Path.join base path) = (t.location base).descend path := by
  rw [Path.join, if_neg (by simpa [Path.isAbsolute] using hrelative)]
  by_cases hslash : base.toList.getLast? = some '/'
  · obtain ⟨front, hfront⟩ := List.getLast?_eq_some_iff.mp hslash
    have hsplit : base = String.ofList front ++ "/" ++ "" := by
      apply String.toList_injective
      simpa using hfront
    rw [if_pos (.inr hslash), location, location, start_append hbase]
    rw [hsplit, String.append_empty, Location.descend_append,
      ← String.append_empty (s := String.ofList front ++ "/"), Location.descend_append]
    simp [Location.descend_of_not_mem]
  · have hplain : ¬(base.isEmpty ∨ base.toList.getLast? = some '/') := by
      simpa [hbase] using hslash
    rw [if_neg hplain, location, location, String.append_assoc, start_append hbase,
      ← String.append_assoc, Location.descend_append]

/-- A name that is joined to a path leads one step on. -/
theorem location_join (t : FileTree) (base : String) {name : String} (h : '/' ∉ name.toList) :
    t.location (Path.join base name) = (t.location base).step name := by
  have hrelative : name.toList.head? ≠ some '/' := fun heq => h (List.mem_of_mem_head? heq)
  by_cases hempty : base = ""
  · subst hempty
    simp [Path.join, Path.isAbsolute, hrelative, location, start, Location.descend_of_not_mem h,
      Location.descend_of_not_mem]
  · rw [location_join_relative t hempty hrelative, Location.descend_of_not_mem h]

/-! ## What is found at a path -/

theorem foldlM_enter {t : FileTree} {segments : List String} {here l : Location}
    (h : segments.foldlM t.enter here = .ok l) : l = segments.foldl Location.step here := by
  induction segments generalizing here with
  | nil => exact (Except.ok.inj h).symm
  | cons segment segments ih =>
    rw [List.foldlM_cons] at h
    cases henter : t.enter here segment with
    | error cause => rw [henter] at h; cases h
    | ok next =>
      rw [henter] at h
      have hnext : next = here.step segment := by
        simp only [enter] at henter
        split at henter
        · cases henter
        · cases henter
        · split at henter
          · cases henter
          · exact (Except.ok.inj henter).symm
      rw [ih h, hnext, List.foldl_cons]

theorem segments_eq {path : String} {parts : List String} (h : segments path = .ok parts) :
    parts = Text.fields '/' path ∧ path ≠ "" := by
  simp only [segments] at h
  split at h
  · cases h
  · split at h
    · cases h
    · next hempty =>
      split at h
      · cases h
      · exact ⟨(Except.ok.inj h).symm, by simpa using hempty⟩

/-- What a path names is where the path leads. -/
theorem eq_location_of_locate {t : FileTree} {path : String} {l : Location}
    (h : t.locate path = .ok l) : l = t.location path := by
  simp only [locate] at h
  cases hsegments : segments path with
  | error cause => rw [hsegments] at h; cases h
  | ok parts =>
    rw [hsegments] at h
    cases hwalk : parts.foldlM t.enter (t.start path) with
    | error cause =>
      simp only [bind, Except.bind, hwalk] at h
      cases h
    | ok here =>
      simp only [bind, Except.bind, hwalk] at h
      split at h
      · rw [← Except.ok.inj h, foldlM_enter hwalk, (segments_eq hsegments).1]
        rfl
      · cases h

theorem foldl_step_dropEmpty (here : Location) (parts : List String) :
    (parts.reverse.dropWhile String.isEmpty).reverse.foldl Location.step here =
      parts.foldl Location.step here := by
  induction parts using List.reverseRecOn with
  | nil => rfl
  | append_singleton parts part ih =>
    rw [List.reverse_append, List.reverse_singleton, List.singleton_append]
    by_cases hempty : part.isEmpty
    · obtain rfl : part = "" := by simpa using hempty
      rw [List.dropWhile_cons_of_pos hempty, ih]
      simp
    · rw [List.dropWhile_cons_of_neg hempty]
      simp

/-- A path of nothing but slashes begins at the root. -/
theorem start_of_fields_empty {t : FileTree} {path : String} (hne : path ≠ "")
    (h : ∀ part ∈ Text.fields '/' path, part = "") : t.start path = [] := by
  obtain ⟨c, cs, hcs⟩ := List.exists_cons_of_ne_nil (mt String.toList_eq_nil_iff.mp hne)
  by_cases hc : c = '/'
  · simp [start, hcs, hc]
  · obtain ⟨first, rest, hsplit⟩ := List.exists_cons_of_ne_nil (List.splitOn_ne_nil '/' cs)
    have hfirst := h (String.ofList (c :: first)) (by
      simp [Text.fields, hcs, List.splitOn_cons_eq_if_modifyHead, hc, hsplit])
    simp at hfirst

/-- What is made at a path is made where the path leads. -/
theorem eq_location_of_target {t : FileTree} {path last : String} {l : Location}
    (h : t.target path = .ok (l, last)) : l = t.location path := by
  simp only [target] at h
  cases hsegments : segments path with
  | error cause => rw [hsegments] at h; cases h
  | ok parts =>
    obtain ⟨rfl, hne⟩ := segments_eq hsegments
    rw [hsegments] at h
    have hsteps := foldl_step_dropEmpty (t.start path) (Text.fields '/' path)
    simp only [bind, Except.bind] at h
    cases hparts : (Text.fields '/' path).reverse.dropWhile String.isEmpty with
    | nil =>
      rw [hparts] at h hsteps
      have hroot : t.start path = [] := start_of_fields_empty hne fun part hpart => by
        have hall := List.dropWhile_eq_nil_iff.mp hparts part (List.mem_reverse.mpr hpart)
        simpa using hall
      obtain ⟨rfl, -⟩ := Prod.mk.inj (Except.ok.inj h)
      rw [hroot] at hsteps
      rw [location, hroot, Location.descend, ← hsteps]
      rfl
    | cons final above =>
      rw [hparts] at h hsteps
      cases hwalk : above.reverse.foldlM t.enter (t.start path) with
      | error cause => simp only [hwalk] at h; cases h
      | ok dir =>
        cases henter : t.enter dir final with
        | error cause => simp only [hwalk, henter] at h; cases h
        | ok there =>
          simp only [hwalk, henter] at h
          obtain ⟨rfl, -⟩ := Prod.mk.inj (Except.ok.inj h)
          have hthere : (above.reverse ++ [final]).foldlM t.enter (t.start path) = .ok there := by
            simp only [List.foldlM_append, hwalk, List.foldlM_cons, List.foldlM_nil, bind,
              Except.bind, henter]
            rfl
          rw [foldlM_enter hthere, ← List.reverse_cons, hsteps]
          rfl

end FileTree

/-! ## Names on the way -/

namespace Location

/-- A name that a file can have: no slash is in it, and it stands for nothing else. -/
structure IsName (name : String) : Prop where
  ne_empty : name ≠ ""
  ne_dot : name ≠ "."
  ne_up : name ≠ ".."
  slash : '/' ∉ name.toList

/-- All names on the way to a location are names of files. -/
def Proper (l : Location) : Prop := ∀ name ∈ l, IsName name

variable {l : Location} {name : String}

theorem IsName.step_eq (h : IsName name) (l : Location) : l.step name = l ++ [name] := by
  rw [step, if_neg (not_or.mpr ⟨h.ne_empty, h.ne_dot⟩), if_neg h.ne_up]

theorem Proper.append {front back : Location} (hfront : Proper front) (hback : Proper back) :
    Proper (front ++ back) := fun name hname =>
  (List.mem_append.mp hname).elim (hfront name) (hback name)

theorem Proper.step (h : Proper l) {segment : String} (hslash : '/' ∉ segment.toList) :
    Proper (l.step segment) := by
  rw [Location.step]
  split_ifs with hstay hup
  · exact h
  · exact fun name hname => h name (List.dropLast_subset _ hname)
  · obtain ⟨hempty, hdot⟩ := not_or.mp hstay
    exact h.append fun name hname => List.mem_singleton.mp hname ▸ ⟨hempty, hdot, hup, hslash⟩

theorem Proper.dropLast (h : Proper l) : Proper l.dropLast := fun name hname =>
  h name (List.dropLast_subset _ hname)

/-- A path leads from a location to one whose names are names of files. -/
theorem Proper.descend (h : Proper l) (path : String) : Proper (l.descend path) := by
  have hrun : ∀ (segments : List String) (l : Location), Proper l →
      (∀ segment ∈ segments, '/' ∉ segment.toList) → Proper (segments.foldl Location.step l) := by
    intro segments
    induction segments with
    | nil => exact fun l h _ => h
    | cons segment segments ih =>
      intro l h hsegments
      obtain ⟨hsegment, hsegments⟩ := List.forall_mem_cons.mp hsegments
      exact ih _ (h.step hsegment) hsegments
  exact hrun _ l h fun segment hsegment => Text.not_mem_of_mem_fields hsegment

/-- Names that are joined by slashes lead down by all of them. -/
theorem Proper.descend_intercalate (h : Proper l) (here : Location) :
    here.descend ("/".intercalate l) = here ++ l := by
  induction l generalizing here with
  | nil => simp [descend_of_not_mem]
  | cons name names ih =>
    obtain ⟨hname, hnames⟩ := List.forall_mem_cons.mp h
    cases names with
    | nil => simp [descend_of_not_mem hname.slash, hname.step_eq]
    | cons next names =>
      rw [String.intercalate_cons_cons, descend_append, descend_of_not_mem hname.slash,
        hname.step_eq, ih hnames, List.append_assoc, List.singleton_append]

theorem path_eq (l : Location) : l.path = "" ++ "/" ++ "/".intercalate l := rfl

end Location

namespace FileTree

open Location (Proper)

variable {t : FileTree} {l : Location}

theorem start_path (t : FileTree) (l : Location) : t.start l.path = [] := by
  simp [start, Location.path]

/-- The absolute path of a location leads to it. -/
theorem location_path (t : FileTree) (h : Proper l) : t.location l.path = l := by
  rw [location, start_path, Location.path_eq, Location.descend_append, h.descend_intercalate]
  simp [Location.descend_of_not_mem]

/-- A relative path leads from a location where it leads behind the location's own path. -/
theorem location_join_path (t : FileTree) (h : Proper l) {path : String}
    (hrelative : path.toList.head? ≠ some '/') :
    t.location (Path.join l.path path) = l.descend path := by
  have hbase : l.path ≠ "" := by
    rw [Location.path_eq]
    simp
  rw [location_join_relative t hbase hrelative, location_path t h]

/-- What a path names is at a location whose names are names of files. -/
theorem proper_of_locate (hstart : Proper t.workingDirectory) {path : String}
    (h : t.locate path = .ok l) : Proper l := by
  rw [eq_location_of_locate h, location]
  refine Proper.descend ?_ path
  rw [start]
  split
  · simp [Proper]
  · exact hstart

end FileTree

end MavenPom
