import Mathlib.Data.List.Pairwise
import Retrace.Proofs.Source.Edits

/-! Where insertions stand in the text that they make.

Each offset has a queue: the insertions that name it, the lower order first and of equal orders the
earlier in the list (`Queued`). An edit whose insertions all stand at boundaries of characters is
the source with the queue of every offset in front of what stands there (`text_of_aligned`), and
other edits fail (`apply_eq_none_iff`). The list itself matters only through the queues, since two
lists that agree in the insertions of each offset and order are sorted alike
(`sort_eq_of_sameTurns`). -/
namespace Retrace.Source
open Java (bytes bytes_nil bytes_cons bytes_append)

namespace Insertion

/-! ### Queues -/

/-- The insertions of a list that name an offset, each with its index in the list, in the order in
which they are made. -/
structure Queued (is : List Insertion) (offset : Nat) (queue : List (Insertion × Nat)) : Prop where
  perm : queue.Perm (is.zipIdx.filter fun x => x.1.offset == offset)
  inTurn : queue.Pairwise fun x y =>
    x.1.order < y.1.order ∨ x.1.order = y.1.order ∧ x.2 < y.2

/-- An offset has one queue. -/
theorem Queued.unique {is : List Insertion} {offset : Nat} {q r : List (Insertion × Nat)}
    (hq : Queued is offset q) (hr : Queued is offset r) : q = r := by
  refine List.Perm.eq_of_pairwise (fun x y _ _ hxy hyx => ?_) hq.inTurn hr.inTurn
    (hq.perm.trans hr.perm.symm)
  omega

/-- The insertions with their indices in the order in which they are made. -/
def numbered (is : List Insertion) : List (Insertion × Nat) :=
  is.zipIdx.mergeSort (List.zipIdxLE notAfter)

theorem numbered_perm (is : List Insertion) : (numbered is).Perm is.zipIdx :=
  List.mergeSort_perm _ _

theorem map_fst_numbered (is : List Insertion) : (numbered is).map Prod.fst = sort is :=
  List.mergeSort_zipIdx

theorem numbered_pairwise (is : List Insertion) : (numbered is).Pairwise fun x y =>
    notAfter x.1 y.1 = true ∧ (notAfter y.1 x.1 = true → x.2 < y.2) := by
  have hsorted : (numbered is).Pairwise fun x y => List.zipIdxLE notAfter x y = true :=
    List.pairwise_mergeSort (List.zipIdxLE_trans notAfter_trans)
      (List.zipIdxLE_total notAfter_total) _
  have hindices : ((numbered is).map Prod.snd).Nodup := by
    rw [((numbered_perm is).map Prod.snd).nodup_iff, List.zipIdx_map_snd]
    exact List.nodup_range'
  refine (hsorted.and (List.pairwise_map.mp hindices)).imp fun {x y} ⟨hle, hne⟩ => ?_
  unfold List.zipIdxLE at hle
  split at hle
  · rename_i hxy
    refine ⟨hxy, fun hyx => ?_⟩
    rw [if_pos hyx, decide_eq_true_eq] at hle
    exact Nat.lt_of_le_of_ne hle hne
  · cases hle

theorem queued_numbered (is : List Insertion) (offset : Nat) :
    Queued is offset ((numbered is).filter fun x => x.1.offset == offset) := by
  refine ⟨(numbered_perm is).filter _, ?_⟩
  refine List.Pairwise.imp_of_mem (fun {x y} hx hy hxy => ?_) ((numbered_pairwise is).filter _)
  have hx' := beq_iff_eq.mp (List.mem_filter.mp hx).2
  have hy' := beq_iff_eq.mp (List.mem_filter.mp hy).2
  rw [notAfter_iff, notAfter_iff] at hxy
  omega

/-! ### Lists with the same queues -/

def isRanked (offset : Nat) (order : Int) (i : Insertion) : Bool :=
  i.offset == offset && i.order == order

theorem isRanked_iff {offset : Nat} {order : Int} {i : Insertion} :
    isRanked offset order i = true ↔ i.offset = offset ∧ i.order = order := by
  simp [isRanked]

/-- The insertions of one offset and one order follow each other alike in both lists. -/
def SameTurns (is js : List Insertion) : Prop :=
  ∀ offset order, is.filter (isRanked offset order) = js.filter (isRanked offset order)

theorem notAfter_antisymm {a b : Insertion} (hab : notAfter a b = true)
    (hba : notAfter b a = true) : a.offset = b.offset ∧ a.order = b.order := by
  rw [notAfter_iff] at hab hba
  omega

/-- Sorting leaves insertions of one offset and order as they follow each other. -/
theorem sameTurns_sort (is : List Insertion) : SameTurns (sort is) is := by
  intro offset order
  have hequal : (is.filter (isRanked offset order)).Pairwise fun a b => notAfter a b = true := by
    refine List.pairwise_of_forall_mem_list fun a ha b hb => ?_
    have ha' := isRanked_iff.mp (List.mem_filter.mp ha).2
    have hb' := isRanked_iff.mp (List.mem_filter.mp hb).2
    rw [notAfter_iff]
    omega
  have hkept : (is.filter (isRanked offset order)).Sublist (sort is) :=
    List.sublist_mergeSort notAfter_trans notAfter_total hequal List.filter_sublist
  have hfiltered := hkept.filter (isRanked offset order)
  rw [List.filter_eq_self.mpr fun a ha => (List.mem_filter.mp ha).2] at hfiltered
  exact (hfiltered.eq_of_length ((sort_perm is).filter _).length_eq.symm).symm

/-- Sorted lists of the same insertions differ at most in the turns of one offset and order. -/
theorem eq_of_sameTurns {is js : List Insertion} (hperm : is.Perm js)
    (his : is.Pairwise fun a b => notAfter a b = true)
    (hjs : js.Pairwise fun a b => notAfter a b = true) (h : SameTurns is js) : is = js := by
  induction is generalizing js with
  | nil => exact hperm.nil_eq
  | cons a is ih =>
    cases js with
    | nil => exact hperm.eq_nil
    | cons b js =>
      have hfirst : ∀ {c d : Insertion} {cs : List Insertion},
          (c :: cs).Pairwise (fun a b => notAfter a b = true) → d ∈ c :: cs →
          notAfter c d = true := by
        intro c d cs hcs hd
        rcases List.mem_cons.mp hd with rfl | hd
        · simpa using notAfter_total d d
        · exact List.rel_of_pairwise_cons hcs hd
      obtain ⟨hoffset, horder⟩ := notAfter_antisymm
        (hfirst his (hperm.mem_iff.mpr List.mem_cons_self))
        (hfirst hjs (hperm.mem_iff.mp List.mem_cons_self))
      have hhead := h b.offset b.order
      rw [List.filter_cons_of_pos (isRanked_iff.mpr ⟨hoffset, horder⟩),
        List.filter_cons_of_pos (isRanked_iff.mpr ⟨rfl, rfl⟩)] at hhead
      obtain rfl := (List.cons.inj hhead).1
      have htail : SameTurns is js := by
        intro offset order
        have hboth := h offset order
        rw [List.filter_cons, List.filter_cons] at hboth
        split at hboth
        · exact (List.cons.inj hboth).2
        · exact hboth
      rw [ih hperm.cons_inv his.of_cons hjs.of_cons htail]

theorem sort_eq_of_sameTurns {is js : List Insertion} (hperm : is.Perm js)
    (h : SameTurns is js) : sort is = sort js :=
  eq_of_sameTurns ((sort_perm is).trans (hperm.trans (sort_perm js).symm)) (sort_pairwise is)
    (sort_pairwise js) fun offset order =>
      (sameTurns_sort is offset order).trans
        ((h offset order).trans (sameTurns_sort js offset order).symm)

end Insertion

/-! ### Texts in front of characters -/

namespace Edit

/-- The characters from the offset `o` on, with a text in front of what stands at each offset. -/
def interleaved (front : Nat → List Char) (o : Nat) : List Char → List Char
  | [] => front o
  | c :: cs => front o ++ c :: interleaved front (o + c.utf8Size) cs

theorem interleaved_congr {f g : Nat → List Char} {o : Nat} {cs : List Char}
    (h : ∀ n, o ≤ n → f n = g n) : interleaved f o cs = interleaved g o cs := by
  induction cs generalizing o with
  | nil => exact h o (Nat.le_refl o)
  | cons c cs ih =>
    rw [interleaved, interleaved, h o (Nat.le_refl o),
      ih fun n hn => h n (Nat.le_trans (Nat.le_add_right o _) hn)]

/-- More text at the offset of the first character stands in front of everything. -/
theorem interleaved_append {f g : Nat → List Char} {extra : List Char} {o : Nat} {cs : List Char}
    (ho : f o = extra ++ g o) (h : ∀ n, o < n → f n = g n) :
    interleaved f o cs = extra ++ interleaved g o cs := by
  cases cs with
  | nil => exact ho
  | cons c cs =>
    have hlt : o < o + c.utf8Size := Nat.lt_add_of_pos_right c.utf8Size_pos
    have hrest : interleaved f (o + c.utf8Size) cs = interleaved g (o + c.utf8Size) cs :=
      interleaved_congr fun n hn => h n (Nat.lt_of_lt_of_le hlt hn)
    rw [interleaved, interleaved, ho, hrest, List.append_assoc]

end Edit

/-- The texts of the insertions at an offset, one behind the other. -/
def Insertion.textsAt (is : List Insertion) (offset : Nat) : List Char :=
  (is.filter fun i => i.offset == offset).flatMap fun i => i.text.toList

theorem Piece.text_of_aligned {o : Nat} {ps : List Piece} (h : Aligned o ps) :
    text ps = Edit.interleaved (Insertion.textsAt (insertions ps)) o (source ps) := by
  induction ps generalizing o with
  | nil => rfl
  | cons p ps ih =>
    cases p with
    | kept c =>
      -- All insertions stand behind the character, so none is in front of it.
      have hrest : Aligned (o + c.utf8Size) ps := h
      have hnone : Insertion.textsAt (insertions ps) o = [] := by
        have hfilter : (insertions ps).filter (fun i => i.offset == o) = [] := by
          refine List.filter_eq_nil_iff.mpr fun i hi heq => ?_
          have hle := hrest.le_offset i hi
          have hpos := c.utf8Size_pos
          have hoffset := beq_iff_eq.mp heq
          omega
        rw [Insertion.textsAt, hfilter]
        rfl
      rw [text_kept, insertions_kept, source_kept, Edit.interleaved, hnone, ih hrest]
      rfl
    | added i =>
      obtain ⟨rfl, hrest⟩ := h
      rw [text_added, insertions_added, source_added, ih hrest]
      refine (Edit.interleaved_append ?_ fun n hn => ?_).symm
      · unfold Insertion.textsAt
        rw [List.filter_cons_of_pos (by simp), List.flatMap_cons]
      · unfold Insertion.textsAt
        rw [List.filter_cons_of_neg (by simpa using Nat.ne_of_lt hn)]

/-! ### Edits that fail -/

/-- The offset lies behind the first byte of a character and in front of its end. -/
def Inside (cs : List Char) (n : Nat) : Prop :=
  ∃ front c back, cs = front ++ c :: back ∧ bytes front < n ∧ n < bytes front + c.utf8Size

theorem Inside.cons {cs : List Char} {n : Nat} (h : Inside cs n) (c : Char) :
    Inside (c :: cs) (c.utf8Size + n) := by
  obtain ⟨front, d, back, rfl, hlow, hhigh⟩ := h
  refine ⟨c :: front, d, back, rfl, ?_, ?_⟩ <;> rw [bytes_cons] <;> omega

theorem Boundary.not_inside {cs : List Char} {n : Nat} (h : Boundary 0 cs n) : ¬Inside cs n := by
  rintro ⟨front, c, back, hsplit, hlow, hhigh⟩
  obtain ⟨front', back', hsplit', hoffset⟩ := h
  rw [Nat.zero_add] at hoffset
  rw [hsplit'] at hsplit
  rcases List.append_eq_append_iff.mp hsplit with ⟨mid, hfront, _⟩ | ⟨mid, hfront, hback⟩
  · rw [hfront, bytes_append] at hlow
    omega
  · cases mid with
    | nil =>
      rw [hfront, List.append_nil] at hoffset
      omega
    | cons d mid =>
      obtain ⟨rfl, _⟩ := List.cons.inj hback
      rw [hfront, bytes_append, bytes_cons] at hoffset
      omega

/-- An offset is no boundary when it is past the end or inside of a character. -/
theorem not_boundary_iff {cs : List Char} {n : Nat} :
    ¬Boundary 0 cs n ↔ bytes cs < n ∨ Inside cs n := by
  constructor
  · intro h
    induction cs generalizing n with
    | nil =>
      refine .inl (Nat.pos_of_ne_zero fun hzero => h ⟨[], [], rfl, ?_⟩)
      rw [hzero, bytes_nil]
    | cons c cs ih =>
      have hpos : 0 < n := Nat.pos_of_ne_zero fun hzero => h ⟨[], c :: cs, rfl, by simp [hzero]⟩
      rcases Nat.lt_or_ge n c.utf8Size with hlt | hge
      · exact .inr ⟨[], c, cs, rfl, by simpa using hpos, by simpa using hlt⟩
      · obtain ⟨m, rfl⟩ := Nat.exists_eq_add_of_le hge
        have hm : ¬Boundary 0 cs m := by
          rintro ⟨front, back, rfl, hoffset⟩
          exact h ⟨c :: front, back, rfl, by rw [hoffset, bytes_cons]; omega⟩
        rcases ih hm with hpast | hinside
        · exact .inl (by rw [bytes_cons]; omega)
        · exact .inr (hinside.cons c)
  · rintro (hpast | hinside) h
    · obtain ⟨front, back, rfl, hoffset⟩ := h
      rw [bytes_append] at hpast
      omega
    · exact h.not_inside hinside

namespace Edit

/-- What is copied up to an offset ends there. -/
theorem copyTo_eq_some {target o : Nat} {written : String} {cs : List Char} {d : Cursor}
    (h : copyTo target written o cs = some d) :
    ∃ front, cs = front ++ d.rest ∧ target = o + bytes front ∧ d.offset = target := by
  induction cs generalizing written o with
  | nil =>
    unfold copyTo at h
    split at h
    · rename_i heq
      cases h
      exact ⟨[], rfl, (beq_iff_eq.mp heq).symm, beq_iff_eq.mp heq⟩
    · cases h
  | cons c cs ih =>
    unfold copyTo at h
    split at h
    · rename_i heq
      cases h
      exact ⟨[], rfl, (beq_iff_eq.mp heq).symm, beq_iff_eq.mp heq⟩
    · split at h
      · cases h
      · obtain ⟨front, rfl, htarget, hoffset⟩ := ih h
        exact ⟨c :: front, rfl, by rw [htarget, bytes_cons, Nat.add_assoc], hoffset⟩

/-- When all insertions are made, each of them stands at a boundary. -/
theorem boundary_of_foldlM {is : List Insertion} {c d : Cursor}
    (h : is.foldlM insert c = some d) : ∀ i ∈ is, Boundary c.offset c.rest i.offset := by
  induction is generalizing c with
  | nil => exact fun i hi => nomatch hi
  | cons i is ih =>
    rw [List.foldlM_cons] at h
    obtain ⟨e, hinsert, hrest⟩ := Option.bind_eq_some_iff.mp h
    obtain ⟨e', hcopy, rfl⟩ := Option.map_eq_some_iff.mp hinsert
    obtain ⟨front, hsplit, htarget, hoffset⟩ := copyTo_eq_some hcopy
    refine List.forall_mem_cons.mpr ⟨⟨front, e'.rest, hsplit, htarget⟩, fun j hj => ?_⟩
    obtain ⟨front', back, hsplit', hj'⟩ := ih hrest j hj
    dsimp only at hsplit' hj'
    refine ⟨front ++ front', back, ?_, ?_⟩
    · rw [hsplit, hsplit', List.append_assoc]
    · rw [hj', hoffset, htarget, bytes_append, Nat.add_assoc]

theorem boundary_of_apply {source text : String} {is : List Insertion}
    (h : apply source is = some text) : ∀ i ∈ is, Boundary 0 source.toList i.offset := by
  intro i hi
  obtain ⟨d, hmade, _⟩ := Option.map_eq_some_iff.mp h
  exact boundary_of_foldlM hmade i ((Insertion.sort_perm is).mem_iff.mpr hi)

/-- An edit fails exactly at an offset past the end or inside of a character. -/
theorem apply_eq_none_iff {source : String} {is : List Insertion} :
    apply source is = none ↔
      ∃ i ∈ is, bytes source.toList < i.offset ∨ Inside source.toList i.offset := by
  simp only [← not_boundary_iff]
  constructor
  · intro hnone
    by_contra hnot
    have hall : ∀ i ∈ is, Boundary 0 source.toList i.offset := by
      intro i hi
      by_contra hi'
      exact hnot ⟨i, hi, hi'⟩
    obtain ⟨ps, _, _, _, hsome⟩ := Piece.exists_apply hall
    rw [hnone] at hsome
    cases hsome
  · rintro ⟨i, hi, hnot⟩
    refine Option.eq_none_iff_forall_ne_some.mpr fun text hsome => ?_
    exact hnot (boundary_of_apply hsome i hi)

/-- The source with the queue of each offset in front of what stands there. -/
def withQueues (source : String) (queue : Nat → List (Insertion × Nat)) : String :=
  String.ofList
    (interleaved (fun n => (queue n).flatMap fun x => x.1.text.toList) 0 source.toList)

theorem apply_eq_withQueues {source : String} {is : List Insertion}
    {queue : Nat → List (Insertion × Nat)} (hqueue : ∀ n, Insertion.Queued is n (queue n))
    (h : ∀ i ∈ is, Boundary 0 source.toList i.offset) :
    apply source is = some (withQueues source queue) := by
  obtain ⟨ps, hsource, hinsertions, haligned, happly⟩ := Piece.exists_apply h
  have htexts : Insertion.textsAt (Insertion.sort is) =
      fun n => (queue n).flatMap fun x => x.1.text.toList := by
    funext n
    rw [(hqueue n).unique (Insertion.queued_numbered is n), Insertion.textsAt,
      ← Insertion.map_fst_numbered, List.filter_map, List.flatMap_map]
    rfl
  rw [happly, Piece.text_of_aligned haligned, hsource, hinsertions, htexts]
  rfl

/-- Insertions at boundaries of characters give the source with the queue of each offset in front
of what stands there; a permutation that leaves the insertions of one offset and order in their
turns gives the same; and there is no result exactly when an offset is past the end or inside of a
character. -/
theorem insertions_stand_in_turn (source : String) (is : List Insertion) :
    (∀ n, ∃ queue, Insertion.Queued is n queue) ∧
    (∀ queue : Nat → List (Insertion × Nat), (∀ n, Insertion.Queued is n (queue n)) →
      (∀ i ∈ is, Boundary 0 source.toList i.offset) →
      apply source is = some (withQueues source queue)) ∧
    (∀ js : List Insertion, js.Perm is → Insertion.SameTurns js is →
      apply source js = apply source is) ∧
    (apply source is = none ↔
      ∃ i ∈ is, bytes source.toList < i.offset ∨ Inside source.toList i.offset) := by
  refine ⟨fun n => ⟨_, Insertion.queued_numbered is n⟩,
    fun queue hqueue => apply_eq_withQueues hqueue, fun js hperm hturns => ?_,
    apply_eq_none_iff⟩
  unfold apply
  rw [Insertion.sort_eq_of_sameTurns hperm hturns]

/-- At the end two insertions, the later one of lower order; in front of a character of two bytes
two of one order; and one that would cut the character. -/
theorem insertions_around_wide_character :
    let is : List Insertion := [⟨3, "]", 5⟩, ⟨1, "<", 0⟩, ⟨3, ")", -1⟩, ⟨1, ">", 0⟩]
    let js : List Insertion := [⟨3, ")", -1⟩, ⟨1, "<", 0⟩, ⟨1, ">", 0⟩, ⟨3, "]", 5⟩]
    apply "aé" is = some "a<>é)]" ∧ apply "aé" js = apply "aé" is ∧
      apply "aé" (⟨2, "", 0⟩ :: is) = none := by
  intro is js
  let queue : Nat → List (Insertion × Nat)
    | 1 => [(⟨1, "<", 0⟩, 1), (⟨1, ">", 0⟩, 3)]
    | 3 => [(⟨3, ")", -1⟩, 2), (⟨3, "]", 5⟩, 0)]
    | _ => []
  have hqueue : ∀ n, Insertion.Queued is n (queue n) := by
    intro n
    by_cases h1 : n = 1
    · subst h1
      exact ⟨by decide, by decide⟩
    by_cases h3 : n = 3
    · subst h3
      exact ⟨by decide, by decide⟩
    have hnone : queue n = [] := by simp [queue]
    rw [hnone]
    refine ⟨?_, .nil⟩
    simp [is, Ne.symm h1, Ne.symm h3]
  have hturns : Insertion.SameTurns js is := by
    intro n k
    simp only [is, js, List.filter_cons, List.filter_nil, Insertion.isRanked]
    grind
  obtain ⟨_, hwritten, hpermuted, _⟩ := insertions_stand_in_turn "aé" is
  have hone : Boundary 0 "aé".toList 1 := ⟨['a'], ['é'], by decide, by decide⟩
  have hend : Boundary 0 "aé".toList 3 := ⟨['a', 'é'], [], by decide, by decide⟩
  refine ⟨(hwritten queue hqueue ?_).trans (by decide), hpermuted js (by decide) hturns, ?_⟩
  · simp only [is, List.forall_mem_cons]
    exact ⟨hend, hone, hend, hone, fun i hi => nomatch hi⟩
  · exact (insertions_stand_in_turn "aé" (⟨2, "", 0⟩ :: is)).2.2.2.mpr
      ⟨⟨2, "", 0⟩, List.mem_cons_self, .inr ⟨['a'], 'é', [], by decide, by decide, by decide⟩⟩

end Edit

end Retrace.Source
