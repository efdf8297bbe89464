import Retrace.Proofs.Java.Reading
import Retrace.Proofs.Java.Shapes
import Retrace.Proofs.Source.Layout

/-! What the numbering of a tree gives.

`At nodes parent n t` says that the nodes of `t` stand in the table from number `n` on. The table
of a tree holds the tree (`at_ofTree`), and each of its numbers is that of the root or of a child of
a part of the tree (`exists_at`). So what holds of the tree holds of its table: a file is laid out
as its tree stands, and has the shapes of its parts (`inOrder_of_row`, `shaped_of_parts`). -/
namespace Retrace.Source
open Java

mutual

/-- The nodes of a tree are in the table, from number `n` on. -/
def At (nodes : Array Node) (parent : Option Nat) (n : Nat) : Tree → Prop
  | .node form _ start stop word children =>
    nodes[n]? = some ⟨form, rangeBetween start stop, start.offset, stop.offset, parent,
      numbers (n + 1) children, fieldNumbers (n + 1) children, word⟩ ∧
      AllAt nodes n (n + 1) children

def AllAt (nodes : Array Node) (parent n : Nat) : List Tree → Prop
  | [] => True
  | t :: ts => At nodes (some parent) n t ∧ AllAt nodes parent (n + t.size) ts

end

/-! ### The table of a tree holds it -/

mutual

theorem at_congr {nodes nodes' : Array Node} {parent : Option Nat} {n : Nat} {t : Tree}
    (h : ∀ i, i < n + t.size → nodes'[i]? = nodes[i]?) (ht : At nodes parent n t) :
    At nodes' parent n t := by
  obtain ⟨form, slot, start, stop, word, children⟩ := t
  rw [At] at ht ⊢
  rw [Tree.size] at h
  exact ⟨(h n (by omega)).trans ht.1, allAt_congr (fun i hi => h i (by omega)) ht.2⟩

theorem allAt_congr {nodes nodes' : Array Node} {parent n : Nat} {ts : List Tree}
    (h : ∀ i, i < n + Tree.sizeAll ts → nodes'[i]? = nodes[i]?) (ht : AllAt nodes parent n ts) :
    AllAt nodes' parent n ts := by
  cases ts with
  | nil => rw [AllAt]; trivial
  | cons t ts =>
    rw [AllAt] at ht ⊢
    rw [Tree.sizeAll] at h
    exact ⟨at_congr (fun i hi => h i (by omega)) ht.1,
      allAt_congr (fun i hi => h i (by omega)) ht.2⟩

end

mutual

theorem at_place (parent : Option Nat) (nodes : Array Node) (t : Tree) :
    (∀ i, i < nodes.size → (place parent nodes t)[i]? = nodes[i]?) ∧
      At (place parent nodes t) parent nodes.size t := by
  obtain ⟨form, slot, start, stop, word, children⟩ := t
  rw [place, At]
  generalize hnode : (⟨form, rangeBetween start stop, start.offset, stop.offset, parent,
    numbers (nodes.size + 1) children, fieldNumbers (nodes.size + 1) children, word⟩ : Node) = node
  obtain ⟨hkept, hplaced⟩ := allAt_place nodes.size (nodes.push node) children
  rw [Array.size_push] at hkept hplaced
  refine ⟨fun i hi => ?_, ?_, hplaced⟩
  · rw [hkept i (by omega), Array.getElem?_push, if_neg (by omega)]
  · rw [hkept nodes.size (by omega), Array.getElem?_push, if_pos rfl]

theorem allAt_place (parent : Nat) (nodes : Array Node) (ts : List Tree) :
    (∀ i, i < nodes.size → (placeAll parent nodes ts)[i]? = nodes[i]?) ∧
      AllAt (placeAll parent nodes ts) parent nodes.size ts := by
  cases ts with
  | nil => exact ⟨fun _ _ => rfl, by rw [AllAt]; trivial⟩
  | cons t ts =>
    rw [placeAll, AllAt]
    obtain ⟨hkept, hplaced⟩ := at_place (some parent) nodes t
    obtain ⟨hkept', hplaced'⟩ := allAt_place parent (place (some parent) nodes t) ts
    rw [size_place] at hkept' hplaced'
    refine ⟨fun i hi => ?_, at_congr (fun i hi => hkept' i (by omega)) hplaced, hplaced'⟩
    rw [hkept' i (by omega), hkept i hi]

end

theorem at_ofTree (t : Tree) : At (ofTree t) none 0 t := (at_place none #[] t).2

theorem size_ofTree (t : Tree) : (ofTree t).size = t.size := by
  rw [ofTree, size_place]
  exact Nat.zero_add _

/-! ### Every number has its tree -/

/-- The number is that of a child of a part of the tree. -/
def Inner (nodes : Array Node) (t : Tree) (i : Nat) : Prop :=
  ∃ n parent v u, Part v t ∧ At nodes parent n v ∧ u ∈ v.children ∧ At nodes (some n) i u ∧
    i ∈ numbers (n + 1) v.children

mutual

theorem exists_at {nodes : Array Node} {parent : Option Nat} {n i : Nat} {t : Tree}
    (h : At nodes parent n t) (hn : n ≤ i) (hi : i < n + t.size) : i = n ∨ Inner nodes t i := by
  obtain ⟨form, slot, start, stop, word, children⟩ := t
  have hall := h
  rw [At] at hall
  rw [Tree.size] at hi
  rcases Nat.eq_or_lt_of_le hn with heq | hlt
  · exact .inl heq.symm
  · rcases exists_allAt hall.2 hlt (by omega) with ⟨u, hu, hat, hnumber⟩ | ⟨u, hu, hinner⟩
    · exact .inr ⟨n, parent, _, u, .self, h, hu, hat, hnumber⟩
    · obtain ⟨m, q, v, w, hpart, hrest⟩ := hinner
      exact .inr ⟨m, q, v, w, .child hu hpart, hrest⟩

theorem exists_allAt {nodes : Array Node} {parent n i : Nat} {ts : List Tree}
    (h : AllAt nodes parent n ts) (hn : n ≤ i) (hi : i < n + Tree.sizeAll ts) :
    (∃ u ∈ ts, At nodes (some parent) i u ∧ i ∈ numbers n ts) ∨ ∃ u ∈ ts, Inner nodes u i := by
  cases ts with
  | nil =>
    rw [Tree.sizeAll] at hi
    omega
  | cons t ts =>
    rw [AllAt] at h
    rw [Tree.sizeAll] at hi
    by_cases hfirst : i < n + t.size
    · rcases exists_at h.1 hn hfirst with rfl | hinner
      · exact .inl ⟨t, List.mem_cons_self, h.1, List.mem_cons_self⟩
      · exact .inr ⟨t, List.mem_cons_self, hinner⟩
    · have hlate : n + t.size ≤ i := Nat.le_of_not_lt hfirst
      rcases exists_allAt h.2 hlate (by omega) with ⟨u, hu, hat, hnumber⟩ | ⟨u, hu, hinner⟩
      · exact .inl ⟨u, List.mem_cons_of_mem t hu, hat, List.mem_cons_of_mem n hnumber⟩
      · exact .inr ⟨u, List.mem_cons_of_mem t hu, hinner⟩

end

/-! ### Numbers of siblings -/

theorem numbers_append (n : Nat) (xs ys : List Tree) :
    numbers n (xs ++ ys) = numbers n xs ++ numbers (n + Tree.sizeAll xs) ys := by
  induction xs generalizing n with
  | nil => rfl
  | cons t ts ih =>
    rw [List.cons_append, numbers, numbers, ih, Tree.sizeAll, List.cons_append, Nat.add_assoc]

theorem fieldNumbers_append (n : Nat) (xs ys : List Tree) :
    fieldNumbers n (xs ++ ys) = fieldNumbers n xs ++ fieldNumbers (n + Tree.sizeAll xs) ys := by
  induction xs generalizing n with
  | nil => rfl
  | cons t ts ih =>
    rw [List.cons_append, fieldNumbers, fieldNumbers, ih, Tree.sizeAll, Nat.add_assoc]
    cases t.slot <;> rfl

/-- A field that no tree stands under has no number. -/
theorem find?_fieldNumbers_eq_none {n : Nat} {slot : Field} {ts : List Tree}
    (h : ∀ t ∈ ts, t.slot ≠ some slot) :
    (fieldNumbers n ts).find? (fun e => e.1 == slot) = none := by
  induction ts generalizing n with
  | nil => rfl
  | cons t ts ih =>
    obtain ⟨ht, hts⟩ := List.forall_mem_cons.mp h
    rw [fieldNumbers]
    cases hslot : t.slot with
    | none => exact ih hts
    | some s =>
      have hne : (s == slot) = false := by
        rw [beq_eq_false_iff_ne]
        rintro rfl
        exact ht hslot
      exact (List.find?_cons_of_neg (by simp [hne])).trans (ih hts)

/-- What is under a field has a number of its own. -/
theorem mem_slots_of_mem_fieldNumbers {n : Nat} {ts : List Tree} {e : Field × Nat}
    (he : e ∈ fieldNumbers n ts) : ∃ t ∈ ts, t.slot = some e.1 := by
  induction ts generalizing n with
  | nil => cases he
  | cons t ts ih =>
    rw [fieldNumbers] at he
    split at he
    · rename_i slot hslot
      rcases List.mem_cons.mp he with rfl | he
      · exact ⟨t, List.mem_cons_self, hslot⟩
      · obtain ⟨u, hu, hrest⟩ := ih he
        exact ⟨u, List.mem_cons_of_mem t hu, hrest⟩
    · obtain ⟨u, hu, hrest⟩ := ih he
      exact ⟨u, List.mem_cons_of_mem t hu, hrest⟩

/-- Fields follow one another as the trees under them do. -/
theorem inTurn_fieldNumbers {a b : Field} {n : Nat} {ts : List Tree}
    (h : Java.Rule.InTurn a b ts) : File.InTurn a b (fieldNumbers n ts) := by
  induction ts generalizing n with
  | nil => exact List.Pairwise.nil
  | cons t ts ih =>
    obtain ⟨ht, hts⟩ := List.pairwise_cons.mp h
    rw [fieldNumbers]
    split
    · rename_i slot hslot
      refine List.pairwise_cons.mpr ⟨fun e he hb ha => ?_, ih hts⟩
      obtain ⟨u, hu, hfield⟩ := mem_slots_of_mem_fieldNumbers he
      exact ht u hu (hslot.trans (congrArg some hb)) (hfield.trans (congrArg some ha))
    · exact ih hts

theorem le_of_mem_numbers {n i : Nat} {ts : List Tree} (h : i ∈ numbers n ts) : n ≤ i := by
  induction ts generalizing n with
  | nil => cases h
  | cons t ts ih =>
    rcases List.mem_cons.mp h with rfl | h
    · exact Nat.le_refl i
    · exact Nat.le_trans (Nat.le_add_right n t.size) (ih h)

theorem nodup_numbers (n : Nat) (ts : List Tree) : (numbers n ts).Nodup := by
  induction ts generalizing n with
  | nil => exact List.nodup_nil
  | cons t ts ih =>
    refine List.nodup_cons.mpr ⟨fun h => ?_, ih _⟩
    have := le_of_mem_numbers h
    have := t.size_pos
    omega

theorem fieldNumbers_sublist (n : Nat) (ts : List Tree) :
    ((fieldNumbers n ts).map Prod.snd).Sublist (numbers n ts) := by
  induction ts generalizing n with
  | nil => exact List.Sublist.refl _
  | cons t ts ih =>
    rw [fieldNumbers, numbers]
    split
    · exact (ih _).cons_cons _
    · exact (ih _).cons _

/-- A number under a field is that of a tree under it. -/
theorem exists_of_field {nodes : Array Node} {parent n b : Nat} {slot : Field} {ts : List Tree}
    (h : AllAt nodes parent n ts) (hb : (slot, b) ∈ fieldNumbers n ts) :
    ∃ t ∈ ts, t.slot = some slot ∧ At nodes (some parent) b t := by
  induction ts generalizing n with
  | nil => cases hb
  | cons t ts ih =>
    rw [AllAt] at h
    rw [fieldNumbers] at hb
    split at hb
    · rename_i s hs
      rcases List.mem_cons.mp hb with heq | hb
      · cases heq
        exact ⟨t, List.mem_cons_self, hs, h.1⟩
      · obtain ⟨u, hu, hrest⟩ := ih h.2 hb
        exact ⟨u, List.mem_cons_of_mem t hu, hrest⟩
    · obtain ⟨u, hu, hrest⟩ := ih h.2 hb
      exact ⟨u, List.mem_cons_of_mem t hu, hrest⟩

/-- The number of a sibling is followed by the numbers of its subtree. -/
theorem exists_of_number {nodes : Array Node} {parent n i : Nat} {ts : List Tree}
    (h : AllAt nodes parent n ts) (hi : i ∈ numbers n ts) :
    ∃ t ∈ ts, At nodes (some parent) i t ∧ i + t.size ≤ n + Tree.sizeAll ts := by
  induction ts generalizing n with
  | nil => cases hi
  | cons t ts ih =>
    rw [AllAt] at h
    rw [Tree.sizeAll]
    rcases List.mem_cons.mp hi with rfl | hi
    · exact ⟨t, List.mem_cons_self, h.1, by omega⟩
    · obtain ⟨u, hu, hat, hsize⟩ := ih h.2 hi
      exact ⟨u, List.mem_cons_of_mem t hu, hat, by omega⟩

/-- What may stand only last under a field has the last number. -/
theorem getLast?_numbers {n b : Nat} {slot : Field} {ts : List Tree}
    (h : ∀ t ∈ ts.dropLast, t.slot ≠ some slot) (hb : (slot, b) ∈ fieldNumbers n ts) :
    (numbers n ts).getLast? = some b := by
  induction ts generalizing n with
  | nil => cases hb
  | cons t ts ih =>
    rw [fieldNumbers] at hb
    cases ts with
    | nil =>
      split at hb
      · cases List.mem_singleton.mp hb
        rfl
      · cases hb
    | cons u us =>
      have hne : t.slot ≠ some slot := h t List.mem_cons_self
      have hrest : (slot, b) ∈ fieldNumbers (n + t.size) (u :: us) := by
        split at hb
        · rename_i s hs
          rcases List.mem_cons.mp hb with heq | hb
          · cases heq
            exact absurd hs hne
          · exact hb
        · exact hb
      have hlast := ih (fun v hv => h v (List.mem_cons_of_mem t hv)) hrest
      rw [numbers] at hlast ⊢
      rw [numbers, List.getLast?_cons_cons]
      exact hlast

/-! ### A node of the table -/

/-- Node `n` of a file is what the tree `t` says. -/
structure Shows (f : File) (parent : Option Nat) (n : Nat) (t : Tree) : Prop where
  form : f.form n = t.form
  range : f.range n = rangeBetween t.start t.stop
  start : (f.node n).start = t.start.offset
  stop : (f.node n).stop = t.stop.offset
  parent : f.parent? n = parent
  children : f.children n = numbers (n + 1) t.children
  fields : (f.node n).fields = fieldNumbers (n + 1) t.children
  size : n < f.nodes.size
  inner : AllAt f.nodes n (n + 1) t.children
  word : f.word? n = t.word

theorem shows_of_at {f : File} {parent : Option Nat} {n : Nat} {t : Tree}
    (h : At f.nodes parent n t) : Shows f parent n t := by
  obtain ⟨form, slot, start, stop, word, children⟩ := t
  rw [At] at h
  obtain ⟨hnode, hinner⟩ := h
  have heq : f.node n = ⟨form, rangeBetween start stop, start.offset, stop.offset, parent,
      numbers (n + 1) children, fieldNumbers (n + 1) children, word⟩ := by
    unfold File.node
    rw [Array.getD_eq_getD_getElem?, hnode]
    rfl
  refine ⟨?_, ?_, ?_, ?_, ?_, ?_, ?_, (Array.getElem?_eq_some_iff.mp hnode).1, hinner, ?_⟩
  · unfold File.form
    rw [heq]
    rfl
  · unfold File.range
    rw [heq]
    rfl
  · rw [heq]
    rfl
  · rw [heq]
    rfl
  · unfold File.parent?
    rw [heq]
  · unfold File.children
    rw [heq]
    rfl
  · rw [heq]
    rfl
  · unfold File.word?
    rw [heq]
    rfl

theorem below_numbers {f : File} {parent : Option Nat} {n j : Nat} {t : Tree}
    (h : At f.nodes parent n t) (hj : f.Below n j) : j < n + t.size := by
  obtain ⟨_, u, _, hle⟩ : ∃ q u, At f.nodes q j u ∧ j + u.size ≤ n + t.size := by
    induction hj with
    | refl => exact ⟨parent, t, h, Nat.le_refl _⟩
    | @tail p c _ hc ih =>
      obtain ⟨q, u, hat, hle⟩ := ih
      have hshows := shows_of_at hat
      rw [hshows.children] at hc
      obtain ⟨v, _, hchild, hsize⟩ := exists_of_number hshows.inner hc
      obtain ⟨form, slot, start, stop, word, children⟩ := u
      rw [Tree.size] at hle
      exact ⟨_, v, hchild, Nat.le_trans hsize (by show p + 1 + Tree.sizeAll children ≤ _; omega)⟩
  have hpos := u.size_pos
  omega

/-! ### Trees that stand in order -/

theorem row_children {t : Tree} (h : t.Stands) : Row t.start t.stop t.children := by
  obtain ⟨form, slot, start, stop, word, children⟩ := t
  rw [Tree.Stands] at h
  exact h.2.2.1

/-- The children of every part of a tree stand in order when its own do. -/
theorem part_stands {t u : Tree} (hroomy : t.start.Roomy) (h : Row t.start t.stop t.children)
    (hu : Part u t) : u.start.Roomy ∧ Row u.start u.stop u.children := by
  induction hu with
  | self => exact ⟨hroomy, h⟩
  | child hc _ ih =>
    have hstands := (stands_of_mem h hc).1
    exact ih hstands.roomy (row_children hstands)

/-- So do the braces of every block in it. -/
theorem part_braced {t u : Tree} (h : Row t.start t.stop t.children)
    (hbraced : Braced t.form t.start t.stop t.children) (hu : Part u t) :
    Braced u.form u.start u.stop u.children := by
  induction hu with
  | self => exact hbraced
  | @child t c hc _ ih =>
    have hstands := (stands_of_mem h hc).1
    refine ih (row_children hstands) ?_
    obtain ⟨form, slot, start, stop, word, children⟩ := c
    rw [Tree.Stands] at hstands
    exact hstands.2.2.2

theorem pairwise_numbers {f : File} {parent n : Nat} {p q : Point} {ts : List Tree}
    (h : AllAt f.nodes parent n ts) (hrow : Row p q ts) :
    (numbers n ts).Pairwise fun a b => (f.range a).Before (f.range b) := by
  induction ts generalizing p n with
  | nil => exact List.Pairwise.nil
  | cons t ts ih =>
    rw [AllAt] at h
    rw [Row] at hrow
    obtain ⟨_, _, _, hrest⟩ := hrow
    refine List.pairwise_cons.mpr ⟨fun c hc => ?_, ih h.2 hrest⟩
    obtain ⟨u, hu, hat, _⟩ := exists_of_number h.2 hc
    obtain ⟨hstands, hle, _⟩ := stands_of_mem hrest hu
    rw [(shows_of_at h.1).range, (shows_of_at hat).range]
    exact Point.before_rangeBetween hstands.roomy hle

section Laid
variable {f : File} {root : Tree} (hat : At f.nodes none 0 root)
  (hsize : f.nodes.size = root.size)
include hat hsize

/-- A number of the table is the root's or that of the child of a node. -/
theorem spot {i : Nat} (hi : i < f.nodes.size) :
    i = 0 ∨ ∃ n parent v u, Part v root ∧ Shows f parent n v ∧ u ∈ v.children ∧
      Shows f (some n) i u ∧ i ∈ f.children n := by
  rcases exists_at hat (Nat.zero_le i) (by omega) with hzero | hinner
  · exact .inl hzero
  · obtain ⟨n, parent, v, u, hpart, hv, hu, hchild, hnumber⟩ := hinner
    have hshows := shows_of_at hv
    refine .inr ⟨n, parent, v, u, hpart, hshows, hu, shows_of_at hchild, ?_⟩
    rw [hshows.children]
    exact hnumber

/-- Every node of the table is a part of the tree. -/
theorem exists_part {i : Nat} (hi : i < f.nodes.size) :
    ∃ parent u, Part u root ∧ Shows f parent i u := by
  rcases spot hat hsize hi with rfl | ⟨_, _, v, u, hv, _, hu, hshows, _⟩
  · exact ⟨none, root, .self, shows_of_at hat⟩
  · have hpart : Part u root := by
      clear hat hsize
      induction hv with
      | self => exact .child hu .self
      | child hc _ ih => exact .child hc ih
    exact ⟨_, u, hpart, hshows⟩

omit hat hsize in
theorem lt_size_of_child {i c : Nat} (h : c ∈ f.children i) : i < f.nodes.size := by
  refine Nat.lt_of_not_le fun hle => ?_
  unfold File.children File.node at h
  rw [Array.getD_eq_getD_getElem?, Array.getElem?_eq_none hle] at h
  cases h

theorem shows_child {i c : Nat} (hc : c ∈ f.children i) :
    ∃ parent v u, Part v root ∧ Shows f parent i v ∧ u ∈ v.children ∧ Shows f (some i) c u := by
  obtain ⟨parent, v, hv, hshows⟩ := exists_part hat hsize (lt_size_of_child hc)
  rw [hshows.children] at hc
  obtain ⟨u, hu, hchild, _⟩ := exists_of_number hshows.inner hc
  exact ⟨parent, v, u, hv, hshows, hu, shows_of_at hchild⟩

theorem parent_iff {i c : Nat} : f.parent? c = some i ↔ c ∈ f.children i := by
  constructor
  · intro h
    have hc : c < f.nodes.size := by
      refine Nat.lt_of_not_le fun hle => ?_
      unfold File.parent? File.node at h
      rw [Array.getD_eq_getD_getElem?, Array.getElem?_eq_none hle] at h
      cases h
    rcases spot hat hsize hc with rfl | ⟨n, _, _, _, _, _, _, hshows, hmem⟩
    · rw [(shows_of_at hat).parent] at h
      cases h
    · rw [hshows.parent] at h
      cases h
      exact hmem
  · intro h
    obtain ⟨_, _, _, _, _, _, hshows⟩ := shows_child hat hsize h
    exact hshows.parent

omit hat hsize in
theorem eq_default_of_le {i : Nat} (h : f.nodes.size ≤ i) : f.node i = default := by
  unfold File.node
  rw [Array.getD_eq_getD_getElem?, Array.getElem?_eq_none h]
  rfl

/-- In the table of a tree, whatever is below a sibling is counted before the next one. -/
theorem counted_of_at : f.Counted := by
  have hall : ∀ {parent n : Nat} {ts : List Tree}, AllAt f.nodes parent n ts →
      (numbers n ts).Pairwise fun c d => ∀ j, f.Below c j → j < d := by
    intro parent n ts h
    induction ts generalizing n with
    | nil => exact List.Pairwise.nil
    | cons t ts ih =>
      rw [AllAt] at h
      refine List.pairwise_cons.mpr ⟨fun d hd j hj => ?_, ih h.2⟩
      exact Nat.lt_of_lt_of_le (below_numbers h.1 hj) (le_of_mem_numbers hd)
  intro i
  by_cases hi : i < f.nodes.size
  · obtain ⟨_, v, _, hshows⟩ := exists_part hat hsize hi
    rw [hshows.children]
    exact hall hshows.inner
  · unfold File.children
    rw [eq_default_of_le (Nat.le_of_not_lt hi)]
    exact List.Pairwise.nil

/-- The table of a tree that stands in order is in order. -/
theorem inOrder_of_row (hroomy : root.start.Roomy)
    (hrow : Row root.start root.stop root.children) : f.InOrder where
  ordered i := by
    by_cases hi : i < f.nodes.size
    · obtain ⟨parent, v, hv, hshows⟩ := exists_part hat hsize hi
      rw [hshows.children]
      exact pairwise_numbers hshows.inner (part_stands hroomy hrow hv).2
    · unfold File.children
      rw [eq_default_of_le (Nat.le_of_not_lt hi)]
      exact List.Pairwise.nil
  nested {i c} hc := by
    obtain ⟨_, v, u, hv, hshows, hu, hchild⟩ := shows_child hat hsize hc
    obtain ⟨hroomy', hinner⟩ := part_stands hroomy hrow hv
    obtain ⟨hstands, hle, hstop⟩ := stands_of_mem hinner hu
    rw [hshows.range, hchild.range]
    exact Point.contains_rangeBetween hroomy' hstands.roomy hle hstop
  proper {i} hpos hi := by
    rcases spot hat hsize hi with rfl | ⟨_, _, v, u, hv, _, hu, hshows, _⟩
    · exact absurd hpos (Nat.lt_irrefl 0)
    · have hstands := (stands_of_mem (part_stands hroomy hrow hv).2 hu).1
      rw [hshows.range]
      exact Point.proper_rangeBetween hstands.roomy hstands.lt

/-- The blocks of a tree that stands in order have braces around their children. -/
theorem braced_of_row (hroomy : root.start.Roomy)
    (hrow : Row root.start root.stop root.children) (hroot : root.form ≠ .block) : f.Braced := by
  intro i c hform hc
  obtain ⟨_, v, u, hv, hshows, hu, hchild⟩ := shows_child hat hsize hc
  rw [hshows.form] at hform
  have hbraced := part_braced hrow (fun heq => absurd heq hroot) hv
  obtain ⟨hstart, hstop⟩ := hbraced hform u hu
  obtain ⟨hroomy', hinner⟩ := part_stands hroomy hrow hv
  rw [hshows.range, hchild.range]
  exact Point.strictlyContains_rangeBetween hroomy' (stands_of_mem hinner hu).1.roomy hstart hstop

/-- In the table of a tree, parents and children agree. -/
theorem linked_of_words
    (hwords : ∀ u, Part u root → u.word ≠ none → u.form = .identifier ∧ u.children = []) :
    f.Linked where
  bounds {i c} hc := by
    obtain ⟨_, v, _, _, hshows, _, hchild⟩ := shows_child hat hsize hc
    rw [hshows.children] at hc
    exact ⟨le_of_mem_numbers hc, hchild.size⟩
  parents := parent_iff hat hsize
  rooted {c} hpos hc := by
    rcases spot hat hsize hc with rfl | ⟨n, _, _, _, _, _, _, _, hmem⟩
    · exact absurd hpos (Nat.lt_irrefl 0)
    · exact ⟨n, hmem⟩
  fields {i e} he := by
    by_cases hi : i < f.nodes.size
    · obtain ⟨_, v, _, hshows⟩ := exists_part hat hsize hi
      rw [hshows.fields] at he
      rw [hshows.children]
      exact (fieldNumbers_sublist _ _).subset (List.mem_map_of_mem he)
    · rw [eq_default_of_le (Nat.le_of_not_lt hi)] at he
      cases he
  single i := by
    by_cases hi : i < f.nodes.size
    · obtain ⟨_, v, _, hshows⟩ := exists_part hat hsize hi
      rw [hshows.fields]
      exact (nodup_numbers _ _).sublist (fieldNumbers_sublist _ _)
    · rw [eq_default_of_le (Nat.le_of_not_lt hi)]
      exact List.nodup_nil
  words {i} hi := by
    have hlt : i < f.nodes.size := by
      refine Nat.lt_of_not_le fun hle => hi ?_
      unfold File.word?
      rw [eq_default_of_le hle]
      rfl
    obtain ⟨_, u, hu, hshows⟩ := exists_part hat hsize hlt
    rw [hshows.word] at hi
    obtain ⟨hform, hnil⟩ := hwords u hu hi
    rw [hshows.form, hshows.children, hnil]
    exact ⟨hform, rfl⟩

omit hat hsize in
theorem lt_size_of_form {i : Nat} (h : f.form i ≠ .program) : i < f.nodes.size := by
  refine Nat.lt_of_not_le fun hle => h ?_
  unfold File.form
  rw [eq_default_of_le hle]
  rfl

theorem exists_shape {P : Form → List Tree → Prop}
    (h : ∀ u, Part u root → P u.form u.children) {i : Nat} {form : Form}
    (hform : f.form i = form) (hne : form ≠ .program) :
    ∃ parent v, Shows f parent i v ∧ P form v.children := by
  have hi : i < f.nodes.size := lt_size_of_form (by rwa [hform])
  obtain ⟨parent, v, hv, hshows⟩ := exists_part hat hsize hi
  refine ⟨parent, v, hshows, ?_⟩
  rw [← hform, hshows.form]
  exact h v hv

omit hat hsize in
theorem mem_fields_of_child? {i b : Nat} {slot : Field} (hb : f.child? i slot = some b) :
    (slot, b) ∈ (f.node i).fields := by
  obtain ⟨e, he, rfl⟩ := Option.map_eq_some_iff.mp hb
  have hslot : e.1 = slot := by simpa using List.find?_some he
  rw [← hslot]
  exact List.mem_of_find?_eq_some he

/-- A body that ends a form is its last child. -/
theorem getLast?_of_body (h : ∀ u, Part u root → Shape u.form u.children) {i b : Nat}
    (hform : File.endsWithBody (f.form i) = true) (hb : (.body, b) ∈ (f.node i).fields) :
    (f.children i).getLast? = some b := by
  have hlast : ∀ {parent : Option Nat} {v : Tree}, Shows f parent i v → EndsWithBody v.children →
      (f.children i).getLast? = some b := by
    intro parent v hshows hends
    rw [hshows.fields] at hb
    rw [hshows.children]
    exact getLast?_numbers hends hb
  cases hcase : f.form i with
  | methodDeclaration =>
    obtain ⟨_, v, hshows, hshape⟩ := exists_shape hat hsize h hcase (by decide)
    exact hlast hshows hshape
  | constructorDeclaration =>
    obtain ⟨_, v, hshows, hshape⟩ := exists_shape hat hsize h hcase (by decide)
    exact hlast hshows hshape.1
  | forStatement =>
    obtain ⟨_, v, hshows, hshape⟩ := exists_shape hat hsize h hcase (by decide)
    exact hlast hshows hshape.1
  | enhancedForStatement =>
    obtain ⟨_, v, hshows, hshape⟩ := exists_shape hat hsize h hcase (by decide)
    exact hlast hshows hshape.1
  | whileStatement =>
    obtain ⟨_, v, hshows, hshape⟩ := exists_shape hat hsize h hcase (by decide)
    exact hlast hshows hshape
  | _ =>
    rw [hcase] at hform
    cases hform

/-- A round and its condition are all that a `do` loop has. -/
theorem fields_of_round (h : ∀ u, Part u root → Shape u.form u.children) {i b : Nat}
    (hform : f.form i = .doStatement) (hb : (.body, b) ∈ (f.node i).fields) :
    ∃ c, (f.node i).fields = [(.body, b), (.condition, c)] ∧ f.children i = [b, c] := by
  obtain ⟨_, v, hshows, hshape⟩ := exists_shape hat hsize h hform (by decide)
  rw [hshows.fields] at hb
  obtain ⟨t, ht, hslot, _⟩ := exists_of_field hshows.inner hb
  obtain ⟨x, c, hchildren, hx, hc⟩ := hshape ⟨t, ht, hslot⟩
  have hfields : fieldNumbers (i + 1) v.children =
      [(.body, i + 1), (.condition, i + 1 + x.size)] := by
    rw [hchildren]
    simp [fieldNumbers, hx, hc]
  have hbody : b = i + 1 := by
    rw [hfields] at hb
    simpa using hb
  refine ⟨i + 1 + x.size, ?_, ?_⟩
  · rw [hshows.fields, hfields, hbody]
  · rw [hshows.children, hchildren, hbody]
    rfl

/-- Of each body there is one. -/
theorem oneBody_of_parts (h : ∀ u, Part u root → Shape u.form u.children) : f.OneBody := by
  intro i b hform hb
  obtain ⟨b', hb'⟩ : ∃ b', f.child? i .body = some b' := by
    refine Option.isSome_iff_exists.mp ?_
    unfold File.child?
    rw [Option.isSome_map, List.find?_isSome]
    exact ⟨_, hb, beq_self_eq_true _⟩
  rcases hform with hform | hform
  · have hlast := getLast?_of_body hat hsize h hform hb
    rw [getLast?_of_body hat hsize h hform (mem_fields_of_child? hb')] at hlast
    rw [hb', hlast]
  · obtain ⟨c, hfields, _⟩ := fields_of_round hat hsize h hform hb
    unfold File.child?
    rw [hfields]
    rfl

/-- The call of another constructor comes first. -/
theorem head?_of_invocation (h : ∀ u, Part u root → Shape u.form u.children) {i c : Nat}
    (hform : f.form i = .block ∨ f.form i = .constructorBody) (hc : c ∈ f.children i)
    (hcall : f.form c = .explicitConstructorInvocation) : (f.children i).head? = some c := by
  obtain ⟨_, v, hshows, htail⟩ : ∃ parent v, Shows f parent i v ∧
      ∀ t ∈ v.children.tail, t.form ≠ .explicitConstructorInvocation := by
    rcases hform with hform | hform
    · exact exists_shape hat hsize h hform (by decide)
    · exact exists_shape hat hsize h hform (by decide)
  have hinner := hshows.inner
  rw [hshows.children] at hc ⊢
  cases hchildren : v.children with
  | nil =>
    rw [hchildren] at hc
    cases hc
  | cons t ts =>
    rw [hchildren, numbers] at hc
    rw [hchildren, AllAt] at hinner
    rcases List.mem_cons.mp hc with rfl | hc
    · rfl
    · obtain ⟨u, hu, hat', _⟩ := exists_of_number hinner.2 hc
      rw [(shows_of_at hat').form] at hcall
      rw [hchildren] at htail
      exact absurd hcall (htail u hu)

/-- The name that a loop declares comes behind its type. -/
theorem children_of_declared (h : ∀ u, Part u root → Shape u.form u.children)
    {i type name : Nat} (hform : f.form i = .enhancedForStatement)
    (htype : f.child? i .type = some type) (hname : f.child? i .name = some name) :
    ∃ front back, f.children i = front ++ type :: name :: back := by
  obtain ⟨_, v, hshows, _, hshape, _⟩ := exists_shape hat hsize h hform (by decide)
  obtain ⟨front, t, n, back, hchildren, ht, hn, hfront⟩ := hshape
  have hfields : fieldNumbers (i + 1) v.children = fieldNumbers (i + 1) front ++
      (.type, i + 1 + Tree.sizeAll front) ::
        (.name, i + 1 + Tree.sizeAll front + t.size) ::
          fieldNumbers (i + 1 + Tree.sizeAll front + t.size + n.size) back := by
    rw [hchildren, fieldNumbers_append, fieldNumbers, fieldNumbers, ht, hn]
  unfold File.child? at htype hname
  rw [hshows.fields, hfields, List.find?_append,
    find?_fieldNumbers_eq_none fun u hu => (hfront u hu).1] at htype
  rw [hshows.fields, hfields, List.find?_append,
    find?_fieldNumbers_eq_none fun u hu => (hfront u hu).2] at hname
  refine ⟨numbers (i + 1) front,
    numbers (i + 1 + Tree.sizeAll front + t.size + n.size) back, ?_⟩
  rw [hshows.children, hchildren, numbers_append, numbers, numbers]
  cases htype
  cases hname
  rfl

/-- The table of a tree has the shapes of its parts. -/
theorem shaped_of_parts (h : ∀ u, Part u root → Shape u.form u.children) : f.Shaped where
  body hform hb := getLast?_of_body hat hsize h hform (mem_fields_of_child? hb)
  constructor {i b} hform hb := by
    obtain ⟨_, v, hshows, _, hshape⟩ := exists_shape hat hsize h hform (by decide)
    have hmem := mem_fields_of_child? hb
    rw [hshows.fields] at hmem
    obtain ⟨t, ht, hslot, hchild⟩ := exists_of_field hshows.inner hmem
    rw [(shows_of_at hchild).form]
    exact hshape t ht hslot
  round {i b} hform hb := by
    obtain ⟨c, hfields, hchildren⟩ :=
      fields_of_round hat hsize h hform (mem_fields_of_child? hb)
    refine ⟨c, ?_, hchildren⟩
    unfold File.child?
    rw [hfields]
    rfl
  initializer {i} hform := by
    obtain ⟨_, v, hshows, b, hb⟩ := exists_shape hat hsize h hform (by decide)
    rw [hshows.children, hb]
    exact ⟨_, rfl⟩
  invocation := head?_of_invocation hat hsize h
  declared := children_of_declared hat hsize h

/-- The fields of a table are in the order of its tree. -/
theorem sequenced_of_parts (h : ∀ u, Part u root → Shape u.form u.children) : f.Sequenced where
  listed i := by
    by_cases hi : i < f.nodes.size
    · obtain ⟨_, v, _, hshows⟩ := exists_part hat hsize hi
      rw [hshows.fields, hshows.children]
      exact fieldNumbers_sublist _ _
    · rw [eq_default_of_le (Nat.le_of_not_lt hi)]
      exact List.nil_sublist _
  header {i} hform := by
    obtain ⟨_, v, hshows, _, hturn⟩ := exists_shape hat hsize h hform (by decide)
    rw [hshows.fields]
    exact inTurn_fieldNumbers hturn
  element {i} hform := by
    obtain ⟨_, v, hshows, _, _, hturn⟩ := exists_shape hat hsize h hform (by decide)
    rw [hshows.fields]
    exact inTurn_fieldNumbers hturn

end Laid

end Retrace.Source
