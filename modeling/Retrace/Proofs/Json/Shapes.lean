import Retrace.Json.Shape
import Retrace.Proofs.Json.Printing

/-! What is asked of the outline of a value.

Strings, numbers, lists and records give back what has been written. A number that is read is below
its bound, and what every member of a record keeps, the record has (`fold_induction`). -/
namespace Retrace

theorem exists_of_bind {ε α β : Type} {x : Except ε α} {f : α → Except ε β} {b : β}
    (h : x.bind f = .ok b) : ∃ a, x = .ok a ∧ f a = .ok b := by
  cases x with
  | error e => cases h
  | ok a => exact ⟨a, rfl, h⟩

theorem exists_of_map {ε α β : Type} {x : Except ε α} {f : α → β} {b : β}
    (h : x.map f = .ok b) : ∃ a, x = .ok a ∧ f a = b := by
  cases x with
  | error e => cases h
  | ok a => exact ⟨a, rfl, Except.ok.inj h⟩

namespace Json.Shape

/-! ### What has been written -/

theorem string_outline (s : String) : string (Value.string s).outline = .ok s := rfl

theorem natural_outline {limit k : Nat} (h : k < limit) :
    natural limit (Value.nat k).outline = .ok k := by
  show (if 0 ≤ (k : Int) ∧ (k : Int) < limit then Except.ok (k : Int).toNat
    else .error JsonFault.shape) = _
  rw [if_pos ⟨Int.natCast_nonneg k, Int.ofNat_lt.mpr h⟩]
  rfl

theorem index_outline {k : Nat} (h : k < Limit.long) : index (Value.nat k).outline = .ok k :=
  natural_outline h

theorem word32_outline (w : UInt32) : word32 (Value.nat w.toNat).outline = .ok w := by
  have hlt : w.toNat < Limit.word := w.toNat_lt
  unfold word32
  rw [natural_outline hlt]
  exact congrArg Except.ok (UInt32.ofNat_toNat)

section Written
variable {α : Type} {f : Outline → Except JsonFault α} {g : α → Value}

theorem optional_outline {o : Option α} (h : ∀ a ∈ o, f (g a).outline = .ok a)
    (hnull : ∀ a, (g a).outline ≠ .null) :
    optional f (Value.optional g o).outline = .ok o := by
  cases o with
  | none => rfl
  | some a =>
    show optional f (g a).outline = .ok (some a)
    unfold optional
    split
    · rename_i heq
      exact absurd heq (hnull a)
    · rw [h a rfl]
      rfl

theorem listItems_outline {l : List α} (h : ∀ a ∈ l, f (g a).outline = .ok a) (found : List α) :
    listItems f found (Value.itemOutlines (l.map g)) = .ok (found.reverse ++ l) := by
  induction l generalizing found with
  | nil => exact congrArg Except.ok (List.append_nil _).symm
  | cons a l ih =>
    obtain ⟨ha, hl⟩ := List.forall_mem_cons.mp h
    rw [List.map_cons, Value.itemOutlines, listItems, ha]
    show listItems f (a :: found) _ = _
    rw [ih hl, List.reverse_cons, List.append_assoc]
    rfl

theorem list_outline {l : List α} (h : ∀ a ∈ l, f (g a).outline = .ok a) :
    list f (Value.array (l.map g)).outline = .ok l :=
  listItems_outline h []

end Written

section Record
variable {α : Type} {f : String → Outline → α → Except JsonFault α}

theorem fold_nil (known : α) : fold f known (Value.memberOutlines []) = .ok known := rfl

theorem fold_cons {known next : α} {k : String} {v : Value} {rest : List (String × Value)}
    (h : f k v.outline known = .ok next) :
    fold f known (Value.memberOutlines ((k, v) :: rest)) =
      fold f next (Value.memberOutlines rest) := by
  rw [Value.memberOutlines, Value.outlineOfMember, fold]
  dsimp only
  rw [h]

/-- A member fills in its field. -/
theorem fold_fills {β : Type} {read : Outline → Except JsonFault β} {fill : Option β → α}
    {known : α} {x : β} {k : String} {v : Value} {rest : List (String × Value)}
    (hread : read v.outline = .ok x)
    (htake : ∀ w, f k w known = (once none (read w)).bind fun x => .ok (fill x)) :
    fold f known (Value.memberOutlines ((k, v) :: rest)) =
      fold f (fill (some x)) (Value.memberOutlines rest) := by
  refine fold_cons ?_
  rw [htake, hread]
  rfl

/-- Members that stand in the order of their keys fill a table one behind the other. -/
theorem fold_table {κ ν : Type} [Ord κ] [Std.TransOrd κ] [Std.LawfulEqOrd κ]
    {take : String → Outline → Table κ ν → Except JsonFault (Table κ ν)} (name : κ → String)
    (write : ν → Value)
    (htake : ∀ k v known, take (name k) (write v).outline known = .ok (known.put k v))
    (t : Table κ ν) :
    fold take Table.empty (Value.memberOutlines (t.entries.map fun e => (name e.1, write e.2))) =
      .ok t := by
  suffices hrest : ∀ (es : List (κ × ν)) (known : Table κ ν), known.entries ++ es = t.entries →
      fold take known (Value.memberOutlines (es.map fun e => (name e.1, write e.2))) = .ok t from
    hrest t.entries Table.empty rfl
  intro es
  induction es with
  | nil =>
    intro known h
    obtain ⟨entries, _⟩ := known
    obtain ⟨entries', _⟩ := t
    rw [List.append_nil] at h
    cases h
    rfl
  | cons e es ih =>
    intro known h
    have hlt : ∀ d ∈ known.entries, compare d.1 e.1 = .lt := by
      have hascending := t.ascending
      rw [← h] at hascending
      exact fun d hd => (List.pairwise_append.mp hascending).2.2 d hd e List.mem_cons_self
    rw [List.map_cons, fold_cons (htake e.1 e.2 known)]
    refine ih _ ?_
    show Entries.put e.1 e.2 known.entries ++ es = t.entries
    rw [Entries.put_of_lt hlt, List.append_assoc, ← h]
    rfl

/-- What each member that is taken keeps, holds of the record. -/
theorem fold_induction {P : α → Prop}
    (hstep : ∀ {k v known next}, P known → f k v known = .ok next → P next) {known result : α}
    (hknown : P known) {members : Members} (h : fold f known members = .ok result) : P result := by
  cases members with
  | done fault =>
    cases fault with
    | none =>
      cases h
      exact hknown
    | some fault => cases h
  | member name v rest =>
    rw [fold] at h
    split at h
    · cases h
    · split at h
      · cases h
      · rename_i htake
        exact fold_induction hstep (hstep hknown htake) h

end Record

/-! ### What has been read -/

theorem lt_of_natural {limit k : Nat} {v : Outline} (h : natural limit v = .ok k) : k < limit := by
  unfold natural at h
  split at h
  · rename_i n
    obtain ⟨m, _, hm⟩ := exists_of_bind h
    cases m with
    | double bits => cases hm
    | whole m =>
      dsimp only at hm
      split at hm
      · rename_i hbound
        cases hm
        omega
      · cases hm
  · cases h

section Read
variable {α : Type} {f : Outline → Except JsonFault α} {P : α → Prop}
  (hf : ∀ {v a}, f v = .ok a → P a)
include hf

theorem forall_of_optional {v : Outline} {o : Option α} (h : optional f v = .ok o) :
    ∀ a ∈ o, P a := by
  unfold optional at h
  split at h
  · cases h
    rintro _ ⟨⟩
  · obtain ⟨a, ha, rfl⟩ := exists_of_map h
    rintro _ ⟨⟩
    exact hf ha

theorem forall_of_listItems {items : Items} {found l : List α} (hfound : ∀ a ∈ found, P a)
    (h : listItems f found items = .ok l) : ∀ a ∈ l, P a := by
  cases items with
  | done fault =>
    cases fault with
    | none =>
      cases h
      exact fun a ha => hfound a (List.mem_reverse.mp ha)
    | some fault => cases h
  | item v rest =>
    rw [listItems] at h
    split at h
    · cases h
    · rename_i hv
      exact forall_of_listItems (List.forall_mem_cons.mpr ⟨hf hv, hfound⟩) h

theorem forall_of_list {v : Outline} {l : List α} (h : list f v = .ok l) : ∀ a ∈ l, P a := by
  unfold list at h
  split at h
  · exact forall_of_listItems hf (fun _ ha => absurd ha List.not_mem_nil) h
  · cases h

end Read

theorem exists_of_once {α : Type} {known : Option α} {read : Except JsonFault α} {o : Option α}
    (h : once known read = .ok o) : ∃ a, read = .ok a ∧ o = some a := by
  unfold once at h
  split at h
  · cases h
  · obtain ⟨a, ha, rfl⟩ := exists_of_map h
    exact ⟨a, ha, rfl⟩

theorem exists_of_next {α : Type} {f : Outline → Except JsonFault α} {items rest : Items} {a : α}
    (h : next f items = .ok (a, rest)) : ∃ v, f v = .ok a := by
  unfold next at h
  split at h
  · cases h
  · cases h
  · rename_i v _
    obtain ⟨b, hb, heq⟩ := exists_of_map h
    cases heq
    exact ⟨v, hb⟩

end Json.Shape

end Retrace
