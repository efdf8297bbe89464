import Mathlib.Data.List.Sort
import Retrace.Proofs.Table
import Retrace.Proofs.Trace.RoundTrip
import Retrace.Symbolic.Declarations

/-! What the index of declarations holds.

The declarations of a file are those of its nodes, in the order of the nodes (`scanned_iff`). The
index of a project takes them in one after the other, so what it says of a line is what a scan of
the files finds there, and what it lists in all is what the files declare
(`index_of_project`). An index that is written is read back as it was (`ofOutline_toValue`). -/
namespace Retrace.Symbolic
open Source Json

/-! ### The declarations of a file -/

/-- The node is a declarator or a loop over a collection, and an identifier on the line names the
variable. -/
def Declares (f : File) (i : Nat) (x : Declaration) : Prop :=
  (f.form i = .variableDeclarator ∨ f.form i = .enhancedForStatement) ∧
    ∃ n, f.nameNode? i = some n ∧ f.word? n = some x.name ∧ (f.range n).beginLine = x.line

/-- One declaration for each node that has one, in the order of the nodes. -/
def Scanned (f : File) (xs : List Declaration) : Prop :=
  ∃ nodes : List Nat, nodes.Pairwise (· < ·) ∧
    (∀ i, i ∈ nodes ↔ i < f.nodes.size ∧ ∃ x, Declares f i x) ∧ List.Forall₂ (Declares f) nodes xs

theorem declaredName?_eq (f : File) (i : Nat) : declaredName? f i =
    if f.form i = .variableDeclarator ∨ f.form i = .enhancedForStatement then f.nameNode? i
    else none := by
  unfold declaredName?
  split <;> simp_all

theorem declaration?_eq_some_iff {f : File} {i : Nat} {x : Declaration} :
    declaration? f i = some x ↔ Declares f i x := by
  obtain ⟨line, name⟩ := x
  unfold declaration? Declares
  rw [declaredName?_eq]
  split
  · rename_i hform
    simp [hform, Option.bind_eq_some_iff, and_comm]
  · rename_i hform
    simp [hform]

theorem forall₂_filterMap {α β : Type} {R : α → β → Prop} {g : α → Option β}
    (h : ∀ a b, g a = some b → R a b) (l : List α) :
    List.Forall₂ R (l.filter fun a => (g a).isSome) (l.filterMap g) := by
  induction l with
  | nil => exact .nil
  | cons a l ih =>
    cases hg : g a with
    | none =>
      rw [List.filter_cons_of_neg (by simp [hg]), List.filterMap_cons_none hg]
      exact ih
    | some b =>
      rw [List.filter_cons_of_pos (by simp [hg]), List.filterMap_cons_some hg]
      exact .cons (h a b hg) ih

theorem scanned_declarations (f : File) : Scanned f (declarations f) := by
  refine ⟨f.numbersOf.filter fun i => (declaration? f i).isSome, ?_, fun i => ?_, ?_⟩
  · exact List.pairwise_lt_range.filter _
  · rw [List.mem_filter, File.numbersOf, List.mem_range, Option.isSome_iff_exists]
    simp only [declaration?_eq_some_iff]
  · exact forall₂_filterMap (fun _ _ => declaration?_eq_some_iff.mp) _

/-- There is one such list of declarations. -/
theorem scanned_iff {f : File} {xs : List Declaration} : Scanned f xs ↔ xs = declarations f := by
  constructor
  · rintro ⟨nodes, hsorted, hmem, hxs⟩
    obtain ⟨nodes', hsorted', hmem', hxs'⟩ := scanned_declarations f
    obtain rfl : nodes = nodes' :=
      hsorted.eq_of_mem_iff hsorted' fun i => (hmem i).trans (hmem' i).symm
    refine Relator.RightUnique.forall₂ (fun i x y hx hy => ?_) hxs hxs'
    rw [← declaration?_eq_some_iff] at hx hy
    exact Option.some.inj (hx.symm.trans hy)
  · rintro rfl
    exact scanned_declarations f

/-! ### One more declaration -/

namespace DeclarationIndex

/-- All declarations of an index with the names of their files. -/
def listed (d : DeclarationIndex) : List (String × Declaration) :=
  d.files.entries.flatMap fun e =>
    e.2.entries.flatMap fun l => l.2.map fun name => (e.1, ⟨l.1, name⟩)

def recordAll (d : DeclarationIndex) (xs : List (String × Declaration)) : DeclarationIndex :=
  xs.foldl (fun d x => d.record x.1 x.2.line x.2.name) d

/-- The declarations of all files, each with the name of its file. -/
def declared (p : Project) : List (String × Declaration) :=
  p.fileList.flatMap fun f => (declarations f).map (f.simpleName, ·)

theorem ofProject_eq (p : Project) : ofProject p = empty.recordAll (declared p) := by
  unfold ofProject recordAll declared
  rw [List.foldl_flatMap]
  simp only [List.foldl_map]
  rfl

section Record
variable (d : DeclarationIndex) (file : String) (x : Declaration)

theorem get?_record (other : String) : (d.record file x.line x.name).files.get? other =
    if other = file then some (Lines.record ((d.files.get? file).getD Table.empty) x.line x.name)
    else d.files.get? other := by
  unfold record Table.alter
  rw [Table.get?_put]
  simp

theorem get?_linesRecord (lines : Lines) (line other : UInt32) (name : String) :
    (Lines.record lines line name).get? other =
      if other = line then some ((lines.get? line).getD [] ++ [name]) else lines.get? other := by
  unfold Lines.record Table.alter
  rw [Table.get?_put]
  simp

theorem names_record (other : String) (line : UInt32) :
    (d.record file x.line x.name).names other line =
      d.names other line ++ if other = file ∧ line = x.line then [x.name] else [] := by
  unfold names
  rw [get?_record]
  by_cases hfile : other = file
  · subst hfile
    rw [if_pos rfl, Option.bind_some, get?_linesRecord]
    by_cases hline : line = x.line
    · subst hline
      rw [if_pos rfl, if_pos ⟨rfl, rfl⟩]
      cases d.files.get? other <;> rfl
    · rw [if_neg hline, if_neg fun h => hline h.2, List.append_nil]
      cases d.files.get? other <;> rfl
  · rw [if_neg hfile, if_neg fun h => hfile h.1, List.append_nil]

theorem isSome_record (other : String) :
    ((d.record file x.line x.name).files.get? other).isSome ↔
      (d.files.get? other).isSome ∨ other = file := by
  rw [get?_record]
  split <;> simp_all

theorem listed_record : (d.record file x.line x.name).listed.Perm (d.listed ++ [(file, x)]) := by
  refine Entries.flatMap_put_perm d.files.ascending ?_
  have hlines := Entries.flatMap_concat_perm (fun line name => (file, Declaration.mk line name))
    x.line x.name ((d.files.get? file).getD Table.empty).ascending
  refine hlines.trans (.append_right _ (.of_eq ?_))
  show _ = (d.files.get? file).elim [] _
  cases d.files.get? file <;> rfl

end Record

/-! ### All declarations -/

theorem names_recordAll (d : DeclarationIndex) (xs : List (String × Declaration)) (file : String)
    (line : UInt32) : (d.recordAll xs).names file line = d.names file line ++
      (xs.filter fun x => x.1 = file ∧ x.2.line = line).map fun x => x.2.name := by
  induction xs generalizing d with
  | nil => exact (List.append_nil _).symm
  | cons x xs ih =>
    show ((d.record x.1 x.2.line x.2.name).recordAll xs).names file line = _
    rw [ih, names_record, List.append_assoc, List.filter_cons]
    by_cases hx : x.1 = file ∧ x.2.line = line
    · rw [if_pos ⟨hx.1.symm, hx.2.symm⟩, if_pos (decide_eq_true hx), List.map_cons]
      rfl
    · rw [if_neg fun h => hx ⟨h.1.symm, h.2.symm⟩, if_neg (by simpa using hx)]
      rfl

theorem isSome_recordAll (d : DeclarationIndex) (xs : List (String × Declaration))
    (file : String) : ((d.recordAll xs).files.get? file).isSome ↔
      (d.files.get? file).isSome ∨ ∃ x ∈ xs, x.1 = file := by
  induction xs generalizing d with
  | nil => simp [recordAll]
  | cons x xs ih =>
    show (((d.record x.1 x.2.line x.2.name).recordAll xs).files.get? file).isSome ↔ _
    rw [ih, isSome_record, or_assoc, List.exists_mem_cons_iff, eq_comm (a := file)]

theorem listed_recordAll (d : DeclarationIndex) (xs : List (String × Declaration)) :
    (d.recordAll xs).listed.Perm (d.listed ++ xs) := by
  induction xs generalizing d with
  | nil => exact .of_eq (List.append_nil _).symm
  | cons x xs ih =>
    refine (ih _).trans ?_
    rw [List.append_cons]
    exact (listed_record d x.1 x.2).append_right xs

theorem names_ofProject (p : Project) (file : String) (line : UInt32) :
    (ofProject p).names file line = (p.fileList.filter fun f => f.simpleName = file).flatMap
      fun f => ((declarations f).filter fun x => x.line = line).map Declaration.name := by
  rw [ofProject_eq, names_recordAll, declared, List.filter_flatMap, List.map_flatMap]
  show [] ++ _ = _
  rw [List.nil_append]
  induction p.fileList with
  | nil => rfl
  | cons f fs ih =>
    rw [List.flatMap_cons, ih, List.filter_map, List.map_map, List.filter_cons]
    by_cases hf : f.simpleName = file
    · rw [if_pos (decide_eq_true hf), List.flatMap_cons]
      congr 1
      simp [Function.comp_def, hf]
    · rw [if_neg (by simpa using hf)]
      simp [Function.comp_def, hf]

/-! ### An index that is written -/

theorem natural_toValue (d : DeclarationIndex) : d.toValue.Natural := by
  refine Value.naturalMembers_of_forall (List.forall_mem_map.mpr fun e _ => ?_)
  refine Value.naturalMembers_of_forall (List.forall_mem_map.mpr fun l _ => ?_)
  exact natural_array fun _ _ => trivial

/-- A line is read back from the name of its member. -/
theorem lineOf_toString (line : UInt32) : lineOf (toString line) = .ok line := by
  have hlt : line.toNat < Limit.word := line.toNat_lt
  have hchars : (toString line).toList = digitChars line.toNat := Nat.toList_repr
  have hhead : (digitChars line.toNat).head?.any (fun c => c.isDigit || c == '-') = true := by
    obtain ⟨c, cs, hcs⟩ := List.exists_cons_of_ne_nil (Token.digitChars_ne_nil (n := line.toNat))
    have hdigit : c.isDigit = true := Token.isDigit_digitChars c (hcs ▸ List.mem_cons_self)
    rw [hcs]
    simp [hdigit]
  have hstops : Token.Stops [] := fun _ h => nomatch h
  have hscan := Token.scan_digitChars line.toNat hstops
  rw [List.append_nil] at hscan
  unfold lineOf
  simp only [hchars, hhead, hscan, bind, Except.bind, Bool.not_true, Bool.false_eq_true, if_false,
    Token.value?_digitChars (Nat.lt_trans hlt (by decide))]
  rw [if_neg (by omega)]
  exact congrArg Except.ok UInt32.ofNat_toNat

theorem linesOfOutline_linesRecord (lines : Lines) :
    linesOfOutline (linesRecord lines).outline = .ok lines := by
  rw [linesRecord, Value.outline, linesOfOutline]
  refine Shape.fold_table toString (fun names => .array (names.map .string))
    (fun line names known => ?_) lines
  have hlist : Shape.list Shape.string (Value.array (names.map .string)).outline = .ok names :=
    Shape.list_outline fun name _ => Shape.string_outline name
  unfold takeLine
  rw [lineOf_toString, hlist]
  rfl

theorem ofOutline_toValue (d : DeclarationIndex) : ofOutline d.toValue.outline = .ok d := by
  have hfold : Shape.fold takeFile Table.empty (Value.memberOutlines
      (d.files.entries.map fun e => (e.1, linesRecord e.2))) = .ok d.files := by
    refine Shape.fold_table id linesRecord (fun file lines known => ?_) d.files
    unfold takeFile
    rw [linesOfOutline_linesRecord]
    rfl
  rw [toValue, Value.outline, ofOutline, hfold]
  rfl

/-- The text of an index is read as the index. -/
theorem parse_toValue (d : DeclarationIndex) (pretty : Bool) :
    Json.parse (fun v => (ofOutline v).mapError .json) (write pretty d.toValue) = .ok d := by
  unfold Json.parse
  rw [ofText_write d.natural_toValue]
  dsimp only
  rw [ofOutline_toValue]
  rfl

/-- Of a line the index of a project says what the files of that name declare there, file by file
and in the order of their nodes. It has an entry for the names of files that declare something. It
lists what the files declare, nothing less and nothing twice, and an index that is written and read
back answers every question as before. -/
theorem index_of_project (p : Project) :
    let d := ofProject p
    (∀ f xs, Scanned f xs ↔ xs = declarations f) ∧
    (∀ file line, d.names file line = (p.fileList.filter fun f => f.simpleName = file).flatMap
      fun f => ((declarations f).filter fun x => x.line = line).map Declaration.name) ∧
    (∀ file, (d.files.get? file).isSome ↔
      ∃ f ∈ p.fileList, f.simpleName = file ∧ declarations f ≠ []) ∧
    d.listed.Perm (p.fileList.flatMap fun f => (declarations f).map (f.simpleName, ·)) ∧
    ∀ pretty, ∃ d', Json.parse (fun v => (ofOutline v).mapError .json) (write pretty d.toValue) =
      .ok d' ∧ ∀ file line, d'.names file line = d.names file line := by
  intro d
  refine ⟨fun f xs => scanned_iff, names_ofProject p, fun file => ?_, ?_, fun pretty =>
    ⟨d, parse_toValue d pretty, fun _ _ => rfl⟩⟩
  · have hrecorded := isSome_recordAll empty (declared p) file
    rw [← ofProject_eq] at hrecorded
    rw [hrecorded]
    constructor
    · rintro (hempty | ⟨x, hx, rfl⟩)
      · cases hempty
      · obtain ⟨f, hf, hx⟩ := List.mem_flatMap.mp hx
        obtain ⟨y, hy, rfl⟩ := List.mem_map.mp hx
        exact ⟨f, hf, rfl, List.ne_nil_of_mem hy⟩
    · rintro ⟨f, hf, rfl, hne⟩
      obtain ⟨y, hy⟩ := List.exists_mem_of_ne_nil _ hne
      exact .inr ⟨_, List.mem_flatMap.mpr ⟨f, hf, List.mem_map_of_mem hy⟩, rfl⟩
  · have hlisted := listed_recordAll empty (declared p)
    rw [← ofProject_eq] at hlisted
    exact hlisted

end DeclarationIndex

end Retrace.Symbolic
