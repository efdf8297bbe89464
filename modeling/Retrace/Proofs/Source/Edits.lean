import Mathlib.Data.List.Pairwise
import Retrace.Proofs.Java.Points
import Retrace.Source.Edit

/-! What insertions make of a text.

`Piece` cuts an edited text into the characters that it had and the insertions between them. Pieces
that hold the insertions in the order in which they are made, each at its offset, are the edit
(`apply_of_aligned`), and insertions at boundaries of characters have such pieces
(`exists_aligned`). The edit then moves the characters without changing one or their order
(`getElem?_position`, `position_lt`), no character changes its line as long as no insertion
breaks one (`count_take_position`), and a stretch of text that holds nothing of what was added has
been in the source (`infix_of_text`). -/
namespace Retrace.Source
open Java (bytes bytes_cons)

/-- Some characters end at the offset when they begin at `o`. -/
def Boundary (o : Nat) (cs : List Char) (n : Nat) : Prop :=
  ∃ front back, cs = front ++ back ∧ n = o + bytes front

theorem Boundary.tail {o n : Nat} {c : Char} {cs : List Char} (h : Boundary o (c :: cs) n)
    (hn : o < n) : Boundary (o + c.utf8Size) cs n := by
  obtain ⟨front, back, hsplit, hoffset⟩ := h
  cases front with
  | nil => exact absurd hn (Nat.not_lt.mpr (Nat.le_of_eq hoffset))
  | cons d front =>
    rw [List.cons_append, List.cons.injEq] at hsplit
    obtain ⟨rfl, rfl⟩ := hsplit
    exact ⟨front, back, rfl, by rw [hoffset, bytes_cons, Nat.add_assoc]⟩

namespace Insertion

/-- The first is made before the second, wherever the two stand in a list. -/
def Before (a b : Insertion) : Prop :=
  a.offset < b.offset ∨ a.offset = b.offset ∧ a.order < b.order

/-- Insertions that are told apart by their offsets and orders have one order only. -/
theorem sort_eq_of_perm {is js : List Insertion} (hperm : is.Perm js) (hjs : js.Pairwise Before) :
    sort is = js := by
  have hsorted : js.Pairwise fun a b => notAfter a b = true := by
    refine hjs.imp fun {a b} hab => ?_
    rw [notAfter_iff]
    unfold Before at hab
    omega
  refine List.Perm.eq_of_pairwise (fun a b ha hb hab hba => ?_) (sort_pairwise is) hsorted
    ((sort_perm is).trans hperm)
  have hsymm : Std.Symm fun a b => Before a b ∨ Before b a := ⟨fun _ _ h => h.symm⟩
  have heither : js.Pairwise fun a b => Before a b ∨ Before b a := hjs.imp Or.inl
  by_contra hne
  have hbefore := heither.forall (hperm.mem_iff.mp ((sort_perm is).mem_iff.mp ha)) hb hne
  rw [notAfter_iff] at hab hba
  unfold Before at hbefore
  omega

end Insertion

inductive Piece
  | kept (c : Char)
  | added (i : Insertion)

namespace Piece

def kept? : Piece → Option Char
  | kept c => some c
  | added _ => none

def added? : Piece → Option Insertion
  | kept _ => none
  | added i => some i

def chars : Piece → List Char
  | kept c => [c]
  | added i => i.text.toList

/-- The text without the insertions. -/
def source (ps : List Piece) : List Char := ps.filterMap kept?

def insertions (ps : List Piece) : List Insertion := ps.filterMap added?

def text (ps : List Piece) : List Char := ps.flatMap chars

/-- Each insertion stands at its offset when the pieces begin at the offset `o`. -/
def Aligned : Nat → List Piece → Prop
  | _, [] => True
  | o, kept c :: ps => Aligned (o + c.utf8Size) ps
  | o, added i :: ps => i.offset = o ∧ Aligned o ps

section Cons
variable (c : Char) (i : Insertion) (ps qs : List Piece)

@[simp] theorem source_nil : source [] = [] := rfl
@[simp] theorem source_kept : source (kept c :: ps) = c :: source ps := rfl
@[simp] theorem source_added : source (added i :: ps) = source ps := rfl
@[simp] theorem source_append : source (ps ++ qs) = source ps ++ source qs := List.filterMap_append
@[simp] theorem insertions_nil : insertions [] = [] := rfl
@[simp] theorem insertions_kept : insertions (kept c :: ps) = insertions ps := rfl
@[simp] theorem insertions_added : insertions (added i :: ps) = i :: insertions ps := rfl
@[simp] theorem insertions_append : insertions (ps ++ qs) = insertions ps ++ insertions qs :=
  List.filterMap_append
@[simp] theorem text_nil : text [] = [] := rfl
@[simp] theorem text_kept : text (kept c :: ps) = c :: text ps := rfl
@[simp] theorem text_added : text (added i :: ps) = i.text.toList ++ text ps := rfl
@[simp] theorem text_append : text (ps ++ qs) = text ps ++ text qs := List.flatMap_append

end Cons

theorem aligned_append {o : Nat} {ps qs : List Piece} :
    Aligned o (ps ++ qs) ↔ Aligned o ps ∧ Aligned (o + bytes (source ps)) qs := by
  induction ps generalizing o with
  | nil => exact ⟨fun h => ⟨trivial, h⟩, fun h => h.2⟩
  | cons p ps ih =>
    cases p with
    | kept c =>
      rw [source_kept, bytes_cons, ← Nat.add_assoc]
      exact ih
    | added i => exact (and_congr_right fun _ => ih).trans and_assoc.symm

/-- The characters of a text alone. -/
def keep (cs : List Char) : List Piece := cs.map kept

@[simp] theorem source_keep (cs : List Char) : source (keep cs) = cs := by
  induction cs with
  | nil => rfl
  | cons c cs ih => exact congrArg (c :: ·) ih

@[simp] theorem insertions_keep (cs : List Char) : insertions (keep cs) = [] := by
  induction cs with
  | nil => rfl
  | cons c cs ih => exact ih

@[simp] theorem text_keep (cs : List Char) : text (keep cs) = cs := by
  induction cs with
  | nil => rfl
  | cons c cs ih => exact congrArg (c :: ·) ih

theorem aligned_keep (o : Nat) (cs : List Char) : Aligned o (keep cs) := by
  induction cs generalizing o with
  | nil => trivial
  | cons c cs ih => exact ih _

theorem Aligned.le_offset {o : Nat} {ps : List Piece} (h : Aligned o ps) :
    ∀ i ∈ insertions ps, o ≤ i.offset := by
  induction ps generalizing o with
  | nil => exact fun i hi => nomatch hi
  | cons p ps ih =>
    cases p with
    | kept c => exact fun i hi => Nat.le_trans (Nat.le_add_right o _) (ih h i hi)
    | added j => exact List.forall_mem_cons.mpr ⟨Nat.le_of_eq h.1.symm, ih h.2⟩

/-! ### The edit -/

/-- A character in front of all insertions is copied. -/
theorem foldlM_insert_cons {is : List Insertion} {written : String} {o : Nat} {c : Char}
    {cs : List Char} (h : ∀ i ∈ is, o + c.utf8Size ≤ i.offset) :
    (is.foldlM Edit.insert ⟨written, o, c :: cs⟩).map (fun d => d.written ++ String.ofList d.rest) =
      (is.foldlM Edit.insert ⟨written.push c, o + c.utf8Size, cs⟩).map
        fun d => d.written ++ String.ofList d.rest := by
  cases is with
  | nil =>
    show some (written ++ String.ofList (c :: cs)) = some (written.push c ++ String.ofList cs)
    rw [String.ofList_cons, String.push_eq_append, String.append_assoc]
  | cons i is =>
    have hoffset := h i List.mem_cons_self
    have hpos := c.utf8Size_pos
    have hcopy : Edit.copyTo i.offset written o (c :: cs) =
        Edit.copyTo i.offset (written.push c) (o + c.utf8Size) cs := by
      rw [Edit.copyTo, if_neg (by simp; omega), if_neg (by omega)]
    have hinsert : Edit.insert ⟨written, o, c :: cs⟩ i =
        Edit.insert ⟨written.push c, o + c.utf8Size, cs⟩ i := by
      unfold Edit.insert
      dsimp only
      rw [hcopy]
    rw [List.foldlM_cons, List.foldlM_cons, hinsert]

theorem foldlM_insert {o : Nat} {ps : List Piece} (h : Aligned o ps) (written : String) :
    ((insertions ps).foldlM Edit.insert ⟨written, o, source ps⟩).map
      (fun d => d.written ++ String.ofList d.rest) = some (written ++ String.ofList (text ps)) := by
  induction ps generalizing o written with
  | nil => rfl
  | cons p ps ih =>
    cases p with
    | kept c =>
      have hrest : Aligned (o + c.utf8Size) ps := h
      rw [insertions_kept, source_kept, text_kept, foldlM_insert_cons hrest.le_offset, ih hrest,
        String.ofList_cons, String.push_eq_append, String.append_assoc]
    | added i =>
      obtain ⟨hoffset, hrest⟩ := h
      have hcopy : Edit.copyTo i.offset written o (source ps) =
          some ⟨written, o, source ps⟩ := by
        rw [hoffset]
        cases source ps <;> simp [Edit.copyTo]
      have hinsert : Edit.insert ⟨written, o, source ps⟩ i =
          some ⟨written ++ i.text, o, source ps⟩ := by
        unfold Edit.insert
        dsimp only
        rw [hcopy]
        rfl
      rw [insertions_added, source_added, text_added, List.foldlM_cons, hinsert,
        String.ofList_append, String.ofList_toList, ← String.append_assoc]
      exact ih hrest _

/-- Pieces with the insertions in their order are the edit. -/
theorem apply_of_aligned {ps : List Piece} {text : String} {is : List Insertion}
    (h : Aligned 0 ps) (hsource : source ps = text.toList)
    (his : insertions ps = Insertion.sort is) :
    Edit.apply text is = some (String.ofList (Piece.text ps)) := by
  unfold Edit.apply
  rw [← his, ← hsource, foldlM_insert h, String.empty_append]

/-- Insertions at boundaries, in the order of their offsets, have their pieces. -/
theorem exists_aligned {o : Nat} {cs : List Char} {is : List Insertion}
    (hsorted : is.Pairwise fun a b => a.offset ≤ b.offset)
    (h : ∀ i ∈ is, o ≤ i.offset ∧ Boundary o cs i.offset) :
    ∃ ps, source ps = cs ∧ insertions ps = is ∧ Aligned o ps := by
  induction is generalizing o cs with
  | nil => exact ⟨keep cs, source_keep cs, insertions_keep cs, aligned_keep o cs⟩
  | cons i is ih =>
    obtain ⟨hi, his⟩ := List.forall_mem_cons.mp h
    obtain ⟨hle, hlater⟩ := List.pairwise_cons.mp hsorted
    induction cs generalizing o with
    | nil =>
      obtain ⟨front, back, hsplit, hoffset⟩ := hi.2
      have hnil : front = [] := (List.append_eq_nil_iff.mp hsplit.symm).1
      rw [hnil] at hoffset
      obtain ⟨ps, hsource, hinsertions, haligned⟩ := ih hlater his
      exact ⟨added i :: ps, hsource, by rw [insertions_added, hinsertions], hoffset, haligned⟩
    | cons c cs ihc =>
      rcases Nat.eq_or_lt_of_le hi.1 with heq | hlt
      · obtain ⟨ps, hsource, hinsertions, haligned⟩ := ih hlater his
        exact ⟨added i :: ps, hsource, by rw [insertions_added, hinsertions], heq.symm, haligned⟩
      · -- No insertion stands in front of the character, so all of them go behind it.
        have hall : ∀ j ∈ i :: is, o + c.utf8Size ≤ j.offset ∧
            Boundary (o + c.utf8Size) cs j.offset := by
          intro j hj
          have hj' : o < j.offset := by
            rcases List.mem_cons.mp hj with rfl | hj
            · exact hlt
            · exact Nat.lt_of_lt_of_le hlt (hle j hj)
          obtain ⟨front, back, hsplit, hoffset⟩ := (h j hj).2.tail hj'
          exact ⟨by omega, front, back, hsplit, hoffset⟩
        obtain ⟨hi', his'⟩ := List.forall_mem_cons.mp hall
        obtain ⟨ps, hsource, hinsertions, haligned⟩ := ihc hall hi' his'
        exact ⟨kept c :: ps, by rw [source_kept, hsource], hinsertions, haligned⟩

/-- An edit at boundaries of a text succeeds, and its result has these pieces. -/
theorem exists_apply {text : String} {is : List Insertion}
    (h : ∀ i ∈ is, Boundary 0 text.toList i.offset) :
    ∃ ps, source ps = text.toList ∧ insertions ps = Insertion.sort is ∧ Aligned 0 ps ∧
      Edit.apply text is = some (String.ofList (Piece.text ps)) := by
  have hsorted : (Insertion.sort is).Pairwise fun a b => a.offset ≤ b.offset := by
    refine (Insertion.sort_pairwise is).imp fun {a b} hab => ?_
    rw [Insertion.notAfter_iff] at hab
    omega
  obtain ⟨ps, hsource, hinsertions, haligned⟩ := exists_aligned (o := 0) hsorted fun i hi =>
    ⟨Nat.zero_le _, h i ((Insertion.sort_perm is).mem_iff.mp hi)⟩
  exact ⟨ps, hsource, hinsertions, haligned, apply_of_aligned haligned hsource hinsertions⟩

/-! ### What stands in the text -/

/-- What begins the edited text and holds nothing of what was added begins the source. -/
theorem prefix_of_text {ps : List Piece} {part : List Char}
    (h : ∀ i ∈ insertions ps, ∀ c ∈ i.text.toList, c ∉ part) (hpart : part <+: text ps) :
    part <+: source ps := by
  induction ps generalizing part with
  | nil => exact hpart
  | cons p ps ih =>
    cases part with
    | nil => exact List.nil_prefix
    | cons d part =>
      cases p with
      | kept c =>
        rw [text_kept, List.cons_prefix_cons] at hpart
        obtain ⟨rfl, hpart⟩ := hpart
        exact List.cons_prefix_cons.mpr
          ⟨rfl, ih (fun i hi e he hmem => h i hi e he (List.mem_cons_of_mem d hmem)) hpart⟩
      | added i =>
        obtain ⟨hi, hrest⟩ := List.forall_mem_cons.mp h
        rw [text_added] at hpart
        cases htext : i.text.toList with
        | nil =>
          rw [htext] at hpart
          exact ih hrest hpart
        | cons e cs =>
          rw [htext, List.cons_append, List.cons_prefix_cons] at hpart
          rw [htext] at hi
          exact absurd (hpart.1 ▸ List.mem_cons_self) (hi e List.mem_cons_self)

theorem infix_of_append {part cs ds : List Char} (hpart : part ≠ [])
    (h : ∀ c ∈ cs, c ∉ part) (hheld : part <:+: cs ++ ds) : part <:+: ds := by
  induction cs with
  | nil => exact hheld
  | cons c cs ih =>
    obtain ⟨hc, hcs⟩ := List.forall_mem_cons.mp h
    rcases List.infix_cons_iff.mp hheld with hfront | hheld
    · cases part with
      | nil => exact absurd rfl hpart
      | cons d part =>
        exact absurd ((List.cons_prefix_cons.mp hfront).1 ▸ List.mem_cons_self) hc
    · exact ih hcs hheld

/-- What stands in the edited text and holds nothing of what was added stands in the source. -/
theorem infix_of_text {ps : List Piece} {part : List Char} (hpart : part ≠ [])
    (h : ∀ i ∈ insertions ps, ∀ c ∈ i.text.toList, c ∉ part) (hheld : part <:+: text ps) :
    part <:+: source ps := by
  induction ps with
  | nil => exact hheld
  | cons p ps ih =>
    cases p with
    | kept c =>
      rcases List.infix_cons_iff.mp hheld with hfront | hheld
      · have hkept : part <+: text (kept c :: ps) := hfront
        exact (prefix_of_text h hkept).isInfix
      · exact List.infix_cons_iff.mpr (.inr (ih h hheld))
    | added i =>
      obtain ⟨hi, hrest⟩ := List.forall_mem_cons.mp h
      exact ih hrest (infix_of_append hpart hi hheld)

theorem infix_text_of_mem {ps : List Piece} {i : Insertion} (h : i ∈ insertions ps) :
    i.text.toList <:+: text ps := by
  obtain ⟨p, hp, hadded⟩ := List.mem_filterMap.mp h
  obtain ⟨front, back, rfl⟩ := List.append_of_mem hp
  cases p with
  | kept c => cases hadded
  | added j =>
    cases hadded
    exact ⟨text front, text back, by rw [text_append, text_added, List.append_assoc]⟩

/-! ### Where the characters go -/

/-- The index in the edited text of what has the index `k` in its source. -/
def position : List Piece → Nat → Nat
  | [], k => k
  | kept _ :: _, 0 => 0
  | kept _ :: ps, k + 1 => position ps k + 1
  | added i :: ps, k => i.text.toList.length + position ps k

theorem getElem?_position {ps : List Piece} {k : Nat} {c : Char} (h : (source ps)[k]? = some c) :
    (text ps)[position ps k]? = some c := by
  induction ps generalizing k with
  | nil => cases h
  | cons p ps ih =>
    cases p with
    | kept d =>
      cases k with
      | zero => exact h
      | succ k => exact ih h
    | added i =>
      rw [text_added, position, List.getElem?_append_right (Nat.le_add_right _ _),
        Nat.add_sub_cancel_left]
      exact ih h

theorem position_lt {ps : List Piece} {j k : Nat} (h : j < k) : position ps j < position ps k := by
  induction ps generalizing j k with
  | nil => exact h
  | cons p ps ih =>
    cases p with
    | kept c =>
      obtain ⟨k, rfl⟩ : ∃ m, k = m + 1 := ⟨k - 1, by omega⟩
      cases j with
      | zero => exact Nat.succ_pos _
      | succ j => exact Nat.succ_lt_succ (ih (Nat.lt_of_succ_lt_succ h))
    | added i => exact Nat.add_lt_add_left (ih h) _

theorem position_le {ps : List Piece} {k : Nat} (h : k ≤ (source ps).length) :
    position ps k ≤ (text ps).length := by
  induction ps generalizing k with
  | nil => exact h
  | cons p ps ih =>
    cases p with
    | kept c =>
      cases k with
      | zero => exact Nat.zero_le _
      | succ k => exact Nat.succ_le_succ (ih (Nat.le_of_succ_le_succ h))
    | added i =>
      rw [text_added, List.length_append]
      exact Nat.add_le_add_left (ih h) _

section Count
variable {ps : List Piece} {e : Char} (h : ∀ i ∈ insertions ps, e ∉ i.text.toList)
include h

/-- A character that is never added stands as often in front of another one as it did. -/
theorem count_take_position {k : Nat} (hk : k ≤ (source ps).length) :
    ((text ps).take (position ps k)).count e = ((source ps).take k).count e := by
  induction ps generalizing k with
  | nil => rfl
  | cons p ps ih =>
    cases p with
    | kept c =>
      cases k with
      | zero => rfl
      | succ k =>
        rw [text_kept, source_kept, position, List.take_succ_cons, List.take_succ_cons,
          List.count_cons, List.count_cons, ih h (Nat.le_of_succ_le_succ hk)]
    | added i =>
      obtain ⟨hi, hrest⟩ := List.forall_mem_cons.mp h
      rw [text_added, source_added, position, List.take_length_add_append, List.count_append,
        List.count_eq_zero.mpr hi, Nat.zero_add, ih hrest hk]

theorem count_text : (text ps).count e = (source ps).count e := by
  induction ps with
  | nil => rfl
  | cons p ps ih =>
    cases p with
    | kept c => rw [text_kept, source_kept, List.count_cons, List.count_cons, ih h]
    | added i =>
      obtain ⟨hi, hrest⟩ := List.forall_mem_cons.mp h
      rw [text_added, source_added, List.count_append, List.count_eq_zero.mpr hi, Nat.zero_add,
        ih hrest]

end Count

end Piece

end Retrace.Source
