import Retrace.Proofs.Json.Shapes
import Retrace.Trace.Record

/-! Trees that are written and read back.

Each part of a tree is read back from the outline of what is written of it, up to whole nodes
(`Node.ofOutline_toValue`), so a tree with a root above all other nodes comes back as it was
(`Tree.ofText_toValue`). Every tree that is read is of this kind (`Tree.rooted_of_ofText`). -/
namespace Retrace
open Json Shape

theorem natural_nat {k : Nat} (h : k < Limit.long) : (Value.nat k).Natural := ⟨k, h, rfl⟩

theorem natural_word (w : UInt32) : (Value.nat w.toNat).Natural :=
  natural_nat (Nat.lt_trans w.toNat_lt (by decide))

theorem natural_optional {α : Type} {f : α → Value} {o : Option α} (h : ∀ a ∈ o, (f a).Natural) :
    (Value.optional f o).Natural := by
  cases o with
  | none => trivial
  | some a => exact h a rfl

theorem natural_array {α : Type} {f : α → Value} {l : List α} (h : ∀ a ∈ l, (f a).Natural) :
    (Value.array (l.map f)).Natural :=
  Value.naturalItems_of_forall (List.forall_mem_map.mpr h)

/-! ### Ranges -/

namespace Source.Range

theorem natural_toValue (r : Range) : r.toValue.Natural :=
  ⟨natural_word _, natural_word _, natural_word _, natural_word _, trivial⟩

theorem ofOutline_toValue (r : Range) : ofOutline r.toValue.outline = .ok r := by
  rw [toValue, Value.outline, ofOutline, fold_fills (word32_outline r.beginLine) fun _ => rfl,
    fold_fills (word32_outline r.beginCol) fun _ => rfl,
    fold_fills (word32_outline r.endLine) fun _ => rfl,
    fold_fills (word32_outline r.endCol) fun _ => rfl]
  rfl

end Source.Range

/-! ### Values -/

namespace Trace
open Source

namespace SymbolicValue

theorem natural_toValue (v : SymbolicValue) : v.toValue.Natural :=
  ⟨trivial, natural_word _, trivial, trivial⟩

theorem ofOutline_toValue (v : SymbolicValue) : ofOutline v.toValue.outline = .ok v := by
  rw [toValue, Value.outline, ofOutline, fold_fills (string_outline v.traceId) fun _ => rfl,
    fold_fills (word32_outline v.iteration) fun _ => rfl,
    fold_fills (string_outline v.value) fun _ => rfl]
  rfl

end SymbolicValue

theorem natural_valuesRecord (t : ValueTable) : (valuesRecord t).Natural := by
  refine Value.naturalMembers_of_forall (List.forall_mem_map.mpr fun e _ => ?_)
  exact natural_array fun v _ => v.natural_toValue

theorem valuesOfOutline_valuesRecord (t : ValueTable) :
    valuesOfOutline (valuesRecord t).outline = .ok t := by
  rw [valuesRecord, Value.outline, valuesOfOutline]
  refine fold_table id (fun vs => .array (vs.map SymbolicValue.toValue)) (fun name vs known => ?_) t
  have hlist : list SymbolicValue.ofOutline
      (Value.array (vs.map SymbolicValue.toValue)).outline = .ok vs :=
    list_outline fun v _ => v.ofOutline_toValue
  unfold takeValues
  rw [hlist]
  rfl

/-! ### Links -/

namespace LinkParts

theorem take_bound (depth : Nat) {name : String} (hname : name ≠ "file") (w : UInt32)
    (l : LinkParts) : take depth name (Value.nat w.toNat).outline l =
      .ok {l with others := (name, .nat w.toNat) :: l.others} := by
  unfold take
  split
  · exact absurd rfl hname
  · rfl

theorem bound_of_filter {l : LinkParts} {name : String} {w : UInt32}
    (h : (l.others.filter fun m => m.1 == name) = [(name, .nat w.toNat)]) :
    l.bound name = .ok w := by
  have hlt : w.toNat < Limit.word := w.toNat_lt
  unfold bound
  rw [h]
  show (if 0 ≤ (w.toNat : Int) ∧ (w.toNat : Int) < Limit.word
    then Except.ok (w.toNat : Int).toNat.toUInt32 else .error JsonFault.shape) = _
  rw [if_pos ⟨Int.natCast_nonneg _, Int.ofNat_lt.mpr hlt⟩, Int.toNat_natCast]
  exact congrArg Except.ok UInt32.ofNat_toNat

end LinkParts

namespace Link

theorem natural_toValue (l : Link) : l.toValue.Natural :=
  ⟨natural_word _, natural_word _, natural_word _, natural_word _, trivial, trivial⟩

theorem complete_parts (l : Link) : LinkParts.complete ⟨some l.file,
    [("endCol", .nat l.range.endCol.toNat), ("endLine", .nat l.range.endLine.toNat),
      ("beginCol", .nat l.range.beginCol.toNat), ("beginLine", .nat l.range.beginLine.toNat)]⟩ =
        .ok l := by
  unfold LinkParts.complete
  rw [LinkParts.bound_of_filter (w := l.range.beginLine) rfl,
    LinkParts.bound_of_filter (w := l.range.beginCol) rfl,
    LinkParts.bound_of_filter (w := l.range.endLine) rfl,
    LinkParts.bound_of_filter (w := l.range.endCol) rfl]
  rfl

/-- A link is read through the values of its bounds. -/
theorem ofOutline_toValue (depth : Nat) (l : Link) : ofOutline depth l.toValue.outline = .ok l := by
  have hvalue : l.toValue = .object [
      ("beginLine", .nat l.range.beginLine.toNat), ("beginCol", .nat l.range.beginCol.toNat),
      ("endLine", .nat l.range.endLine.toNat), ("endCol", .nat l.range.endCol.toNat),
      ("file", .string l.file)] := rfl
  rw [hvalue, Value.outline, ofOutline, fold_cons (LinkParts.take_bound _ (by decide) _ _),
    fold_cons (LinkParts.take_bound _ (by decide) _ _),
    fold_cons (LinkParts.take_bound _ (by decide) _ _),
    fold_cons (LinkParts.take_bound _ (by decide) _ _),
    fold_fills (string_outline l.file) fun _ => rfl, fold_nil, Except.bind]
  exact l.complete_parts

end Link

/-! ### Nodes -/

namespace Node

/-- The indices of a node are long words. -/
structure Fits (n : Node) : Prop where
  parent : ∀ p ∈ n.parentIndex, p < Limit.long
  children : ∀ c ∈ n.children.toList, c < Limit.long
  out : ∀ o ∈ n.outIndex, o < Limit.long

theorem natural_toValue {n : Node} (h : n.Fits) : n.toValue.Natural :=
  ⟨natural_optional fun p hp => natural_nat (h.parent p hp), trivial,
    natural_array fun r _ => r.natural_toValue,
    natural_array fun c hc => natural_nat (h.children c hc),
    natural_optional fun l _ => l.natural_toValue, natural_array fun l _ => l.natural_toValue,
    natural_optional fun o ho => natural_nat (h.out o ho),
    natural_optional fun i _ => natural_word i, natural_optional fun _ _ => trivial,
    natural_valuesRecord n.values, trivial⟩

theorem ofOutline_toValue {n : Node} (h : n.Fits) : ofOutline n.toValue.outline = .ok n := by
  have hparent : optional index (Value.optional Value.nat n.parentIndex).outline =
      .ok n.parentIndex :=
    optional_outline (fun p hp => index_outline (h.parent p hp)) fun _ => nofun
  have hranges : list Range.ofOutline (Value.array (n.ranges.map Range.toValue)).outline =
      .ok n.ranges :=
    list_outline fun r _ => r.ofOutline_toValue
  have hchildren : list index (Value.array (n.children.toList.map Value.nat)).outline =
      .ok n.children.toList :=
    list_outline fun c hc => index_outline (h.children c hc)
  have hlink : linkOfOutline (Value.optional Link.toValue n.link).outline = .ok n.link :=
    optional_outline (fun l _ => l.ofOutline_toValue linkDepth) fun _ => nofun
  have houtLinks : outLinksOfOutline (Value.array (n.outLinks.map Link.toValue)).outline =
      .ok n.outLinks :=
    list_outline fun l _ => l.ofOutline_toValue (linkDepth + 1)
  have hout : optional index (Value.optional Value.nat n.outIndex).outline = .ok n.outIndex :=
    optional_outline (fun o ho => index_outline (h.out o ho)) fun _ => nofun
  have hiteration : optional word32
      (Value.optional (fun i => Value.nat i.toNat) n.iteration).outline = .ok n.iteration :=
    optional_outline (fun i _ => word32_outline i) fun _ => nofun
  have hmethodName : optional string (Value.optional Value.string n.methodName).outline =
      .ok n.methodName :=
    optional_outline (fun s _ => string_outline s) fun _ => nofun
  rw [toValue, Value.outline, ofOutline]
  rw [fold_fills hparent fun _ => rfl, fold_fills (string_outline n.traceId) fun _ => rfl,
    fold_fills hranges fun _ => rfl, fold_fills hchildren fun _ => rfl,
    fold_fills hlink fun _ => rfl, fold_fills houtLinks fun _ => rfl,
    fold_fills hout fun _ => rfl, fold_fills hiteration fun _ => rfl,
    fold_fills hmethodName fun _ => rfl,
    fold_fills (valuesOfOutline_valuesRecord n.values) fun _ => rfl]
  rfl

/-! What is read fits. -/

theorem fits_of_ofItems {items : Items} {n : Node} (h : ofItems items = .ok n) : n.Fits := by
  have hindex : ∀ {v : Outline} {k : Nat}, index v = .ok k → k < Limit.long := lt_of_natural
  unfold ofItems at h
  obtain ⟨⟨parent, items⟩, hparent, h⟩ := exists_of_bind h
  obtain ⟨⟨traceId, items⟩, _, h⟩ := exists_of_bind h
  obtain ⟨⟨ranges, items⟩, _, h⟩ := exists_of_bind h
  obtain ⟨⟨children, items⟩, hchildren, h⟩ := exists_of_bind h
  obtain ⟨⟨link, items⟩, _, h⟩ := exists_of_bind h
  obtain ⟨⟨outLinks, items⟩, _, h⟩ := exists_of_bind h
  obtain ⟨⟨out, items⟩, hout, h⟩ := exists_of_bind h
  obtain ⟨⟨iteration, items⟩, _, h⟩ := exists_of_bind h
  obtain ⟨⟨methodName, items⟩, _, h⟩ := exists_of_bind h
  obtain ⟨⟨values, items⟩, _, h⟩ := exists_of_bind h
  obtain ⟨_, _, h⟩ := exists_of_bind h
  cases h
  obtain ⟨_, hparent⟩ := exists_of_next hparent
  obtain ⟨_, hchildren⟩ := exists_of_next hchildren
  obtain ⟨_, hout⟩ := exists_of_next hout
  exact ⟨forall_of_optional hindex hparent, forall_of_list hindex hchildren,
    forall_of_optional hindex hout⟩

end Node

namespace NodeParts

/-- The indices that have been taken so far are long words. -/
structure Fits (p : NodeParts) : Prop where
  parent : ∀ o ∈ p.parentIndex, ∀ i ∈ o, i < Limit.long
  children : ∀ l ∈ p.children, ∀ c ∈ l, c < Limit.long
  out : ∀ o ∈ p.outIndex, ∀ i ∈ o, i < Limit.long

theorem fits_take {name : String} {v : Outline} {p q : NodeParts} (hp : p.Fits)
    (h : take name v p = .ok q) : q.Fits := by
  have hindex : ∀ {v : Outline} {k : Nat}, index v = .ok k → k < Limit.long := lt_of_natural
  unfold take at h
  split at h
  -- The three fields with indices come first, and the others leave these as they are.
  case h_1 =>
    obtain ⟨o, ho, h⟩ := exists_of_bind h
    cases h
    obtain ⟨i, hi, rfl⟩ := exists_of_once ho
    refine ⟨?_, hp.children, hp.out⟩
    rintro _ ⟨⟩
    exact forall_of_optional hindex hi
  case h_4 =>
    obtain ⟨o, ho, h⟩ := exists_of_bind h
    cases h
    obtain ⟨l, hl, rfl⟩ := exists_of_once ho
    refine ⟨hp.parent, ?_, hp.out⟩
    rintro _ ⟨⟩
    exact forall_of_list hindex hl
  case h_7 =>
    obtain ⟨o, ho, h⟩ := exists_of_bind h
    cases h
    obtain ⟨i, hi, rfl⟩ := exists_of_once ho
    refine ⟨hp.parent, hp.children, ?_⟩
    rintro _ ⟨⟩
    exact forall_of_optional hindex hi
  case h_11 =>
    obtain ⟨_, _, rfl⟩ := exists_of_map h
    exact hp
  all_goals
    obtain ⟨_, _, h⟩ := exists_of_bind h
    cases h
    exact ⟨hp.parent, hp.children, hp.out⟩

theorem fits_complete {p : NodeParts} {n : Node} (hp : p.Fits) (h : p.complete = .ok n) :
    n.Fits := by
  unfold complete at h
  obtain ⟨_, _, h⟩ := exists_of_bind h
  obtain ⟨_, _, h⟩ := exists_of_bind h
  obtain ⟨children, hchildren, h⟩ := exists_of_bind h
  obtain ⟨_, _, h⟩ := exists_of_bind h
  cases h
  refine ⟨?_, ?_, ?_⟩
  · show ∀ i ∈ p.parentIndex.getD none, i < Limit.long
    cases hparent : p.parentIndex with
    | none => exact fun _ hi => nomatch hi
    | some o => exact hp.parent o hparent
  · unfold required at hchildren
    split at hchildren
    · rename_i l hl
      cases hchildren
      exact hp.children _ hl
    · cases hchildren
  · show ∀ i ∈ p.outIndex.getD none, i < Limit.long
    cases hout : p.outIndex with
    | none => exact fun _ hi => nomatch hi
    | some o => exact hp.out o hout

end NodeParts

theorem Node.fits_of_ofOutline {v : Outline} {n : Node} (h : Node.ofOutline v = .ok n) :
    n.Fits := by
  unfold Node.ofOutline at h
  split at h
  · obtain ⟨p, hp, hcomplete⟩ := exists_of_bind h
    have hnothing : ({} : NodeParts).Fits := by
      refine ⟨?_, ?_, ?_⟩ <;> rintro _ ⟨⟩
    exact NodeParts.fits_complete (fold_induction NodeParts.fits_take hnothing hp) hcomplete
  · exact fits_of_ofItems h
  · cases h

/-! ### Trees -/

namespace Tree

/-- The first node is the root, and every other node has a parent in the tree. -/
structure Rooted (t : Tree) : Prop where
  root : ∃ n, t.get? 0 = some n ∧ n.parentIndex = none
  parents : ∀ {i n}, 0 < i → t.get? i = some n → ∃ p, n.parentIndex = some p ∧ p < t.size

theorem parentFault?_eq_none {size : Nat} {n : Node} {i : Nat} :
    parentFault? size n i = none ↔ ∃ p, n.parentIndex = some p ∧ p < size := by
  unfold parentFault?
  cases n.parentIndex with
  | none => exact ⟨(fun h => nomatch h), fun ⟨_, h, _⟩ => nomatch h⟩
  | some p => simp

theorem findSome?_parentFault? {size : Nat} {nodes : List Node} :
    ((nodes.zipIdx 1).findSome? fun (m, i) => parentFault? size m i) = none ↔
      ∀ m ∈ nodes, ∃ p, m.parentIndex = some p ∧ p < size := by
  rw [List.findSome?_eq_none_iff]
  constructor
  · intro h m hm
    obtain ⟨i, hi⟩ := List.mem_iff_getElem?.mp hm
    have hmem : (m, i + 1) ∈ nodes.zipIdx 1 :=
      List.mk_mem_zipIdx_iff_le_and_getElem?_sub.mpr ⟨Nat.le_add_left 1 i, hi⟩
    exact parentFault?_eq_none.mp (h _ hmem)
  · rintro h ⟨m, i⟩ hmem
    exact parentFault?_eq_none.mpr (h m (List.fst_mem_of_mem_zipIdx hmem))

theorem ofNodes_cons {n : Node} {rest : List Node} {t : Tree} :
    ofNodes (n :: rest) = .ok t ↔ n.parentIndex = none ∧
      (∀ m ∈ rest, ∃ p, m.parentIndex = some p ∧ p < rest.length + 1) ∧
        t = ⟨(n :: rest).toArray⟩ := by
  rw [← findSome?_parentFault?, ofNodes]
  cases hroot : n.parentIndex with
  | some p =>
    rw [if_pos (by simp [Node.isRoot, hroot])]
    exact ⟨(fun h => nomatch h), fun h => nomatch h.1⟩
  | none =>
    rw [if_neg (by simp [Node.isRoot, hroot])]
    cases (rest.zipIdx 1).findSome? fun (m, i) => parentFault? (rest.length + 1) m i with
    | some fault => exact ⟨(fun h => nomatch h), fun h => nomatch h.2.1⟩
    | none => exact ⟨fun h => ⟨rfl, rfl, (Except.ok.inj h).symm⟩, fun h => by rw [h.2.2]⟩

theorem rooted_cons {n : Node} {rest : List Node} : Rooted ⟨(n :: rest).toArray⟩ ↔
    n.parentIndex = none ∧ ∀ m ∈ rest, ∃ p, m.parentIndex = some p ∧ p < rest.length + 1 := by
  have hget : ∀ i, get? ⟨(n :: rest).toArray⟩ i = (n :: rest)[i]? := fun _ => List.getElem?_toArray
  constructor
  · rintro ⟨⟨_, hn, hroot⟩, hparents⟩
    cases hn
    refine ⟨hroot, fun m hm => ?_⟩
    obtain ⟨i, hi⟩ := List.mem_iff_getElem?.mp hm
    exact hparents (Nat.succ_pos i) ((hget (i + 1)).trans hi)
  · rintro ⟨hroot, hparents⟩
    refine ⟨⟨n, rfl, hroot⟩, fun {i m} hpos hm => ?_⟩
    obtain ⟨i, rfl⟩ := Nat.exists_eq_succ_of_ne_zero (Nat.ne_of_gt hpos)
    rw [hget, List.getElem?_cons_succ] at hm
    exact hparents m (List.mem_of_getElem? hm)

/-- Nodes are a tree when they are rooted. -/
theorem ofNodes_eq_ok {nodes : List Node} {t : Tree} :
    ofNodes nodes = .ok t ↔ t = ⟨nodes.toArray⟩ ∧ t.Rooted := by
  cases nodes with
  | nil =>
    refine ⟨(fun h => nomatch h), ?_⟩
    rintro ⟨rfl, ⟨_, hn, _⟩, _⟩
    cases hn
  | cons n rest =>
    rw [ofNodes_cons]
    constructor
    · rintro ⟨hroot, hparents, rfl⟩
      exact ⟨rfl, rooted_cons.mpr ⟨hroot, hparents⟩⟩
    · rintro ⟨rfl, hrooted⟩
      obtain ⟨hroot, hparents⟩ := rooted_cons.mp hrooted
      exact ⟨hroot, hparents, rfl⟩

/-- Long words can hold the indices of all nodes. -/
def Fits (t : Tree) : Prop := ∀ n ∈ t.nodes.toList, n.Fits

/-- A tree is read back as it was written. -/
theorem ofText_toValue {t : Tree} (hrooted : t.Rooted) (hfits : t.Fits) (pretty : Bool) :
    ofText (t.json pretty) = .ok t := by
  have hnatural : t.toValue.Natural :=
    natural_array fun n hn => Node.natural_toValue (hfits n hn)
  have hlist : list Node.ofOutline t.toValue.outline = .ok t.nodes.toList :=
    list_outline fun n hn => Node.ofOutline_toValue (hfits n hn)
  have hnodes : ofNodes t.nodes.toList = .ok t := ofNodes_eq_ok.mpr ⟨rfl, hrooted⟩
  have hread : ofOutline t.toValue.outline = .ok t := by
    unfold ofOutline
    rw [hlist]
    show (ofNodes t.nodes.toList).mapError _ = _
    rw [hnodes]
    rfl
  unfold ofText Json.parse json
  rw [ofText_write hnatural]
  dsimp only
  rw [hread]
  rfl

/-- What is read is a tree of this kind. -/
theorem rooted_of_ofText {text : String} {t : Tree} (h : ofText text = .ok t) :
    t.Rooted ∧ t.Fits := by
  obtain ⟨t', ht, hmore⟩ := exists_of_bind h
  split at hmore
  · cases hmore
  obtain rfl := Except.ok.inj hmore
  unfold ofOutline at ht
  split at ht
  · cases ht
  · rename_i nodes hnodes
    have hok : ofNodes nodes = .ok t' := by
      cases heq : ofNodes nodes with
      | error fault =>
        rw [heq] at ht
        cases ht
      | ok t =>
        rw [heq] at ht
        cases ht
        rfl
    obtain ⟨rfl, hrooted⟩ := ofNodes_eq_ok.mp hok
    exact ⟨hrooted, forall_of_list Node.fits_of_ofOutline hnodes⟩

end Tree

end Trace

end Retrace
