/-! Insertions into a text.

An insertion names the byte offset of the text it goes in front of. Insertions are made in the
order of their offsets; at one offset the lower `order` goes first, and of equal ones the earlier.
`Edit.apply` fails when an offset is no boundary of a character of the text. -/
namespace Retrace.Source

structure Insertion where
  offset : Nat
  text : String
  order : Int
  deriving DecidableEq, Repr

namespace Insertion

def notAfter (a b : Insertion) : Bool :=
  a.offset < b.offset || (a.offset == b.offset && a.order ≤ b.order)

def sort (insertions : List Insertion) : List Insertion :=
  insertions.mergeSort notAfter

theorem notAfter_iff {a b : Insertion} : notAfter a b = true ↔
    a.offset < b.offset ∨ a.offset = b.offset ∧ a.order ≤ b.order := by
  simp only [notAfter, Bool.or_eq_true, Bool.and_eq_true, decide_eq_true_eq, beq_iff_eq]

theorem notAfter_trans (a b c : Insertion) (hab : notAfter a b = true)
    (hbc : notAfter b c = true) : notAfter a c = true := by
  rw [notAfter_iff] at hab hbc ⊢
  omega

theorem notAfter_total (a b : Insertion) : (notAfter a b || notAfter b a) = true := by
  rw [Bool.or_eq_true, notAfter_iff, notAfter_iff]
  omega

theorem sort_perm (insertions : List Insertion) : (sort insertions).Perm insertions :=
  List.mergeSort_perm insertions notAfter

theorem sort_pairwise (insertions : List Insertion) :
    (sort insertions).Pairwise fun a b => notAfter a b = true :=
  List.pairwise_mergeSort notAfter_trans notAfter_total insertions

end Insertion

namespace Edit

/-- A text half copied: what has been written, the byte offset reached, and what is left. -/
structure Cursor where
  written : String
  offset : Nat
  rest : List Char

/-- Copies characters up to the byte offset `target`. -/
def copyTo (target : Nat) (written : String) (offset : Nat) : List Char → Option Cursor
  | [] => if offset == target then some ⟨written, offset, []⟩ else none
  | c :: rest =>
    if offset == target then some ⟨written, offset, c :: rest⟩
    else if target < offset then none
    else copyTo target (written.push c) (offset + c.utf8Size) rest

def insert (c : Cursor) (i : Insertion) : Option Cursor :=
  (copyTo i.offset c.written c.offset c.rest).map fun c => {c with written := c.written ++ i.text}

def apply (source : String) (insertions : List Insertion) : Option String :=
  ((Insertion.sort insertions).foldlM insert ⟨"", 0, source.toList⟩).map fun c =>
    c.written ++ String.ofList c.rest

theorem apply_nil (source : String) : apply source [] = some source := by
  simp [apply, Insertion.sort]

end Edit

end Retrace.Source
