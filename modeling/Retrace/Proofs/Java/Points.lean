import Retrace.Java.Lexeme
import Retrace.Proofs.Source.Ranges

/-! The points of a text in order.

Points are compared by line and column. `Sound limit p` says that the line and the column of a
point are no more than its offset accounts for, so that as long as a text has fewer bytes than
words can count, to go on in it is to go forward (`lt_advance`). The ranges between points then
lie to one another as the points do. -/
namespace Retrace.Java

def bytes : List Char → Nat
  | [] => 0
  | c :: cs => c.utf8Size + bytes cs

@[simp] theorem bytes_nil : bytes [] = 0 := rfl

@[simp] theorem bytes_cons (c : Char) (cs : List Char) :
    bytes (c :: cs) = c.utf8Size + bytes cs := rfl

theorem bytes_append (cs ds : List Char) : bytes (cs ++ ds) = bytes cs + bytes ds := by
  induction cs with
  | nil => simp
  | cons c cs ih => simp [ih, Nat.add_assoc]

theorem bytes_pos {cs : List Char} (h : cs ≠ []) : 0 < bytes cs := by
  obtain ⟨c, rest, rfl⟩ := List.exists_cons_of_ne_nil h
  rw [bytes_cons]
  exact Nat.add_pos_left c.utf8Size_pos _

namespace Point
open Source

def Le (p q : Point) : Prop :=
  p.line < q.line ∨ p.line = q.line ∧ p.column ≤ q.column

def Lt (p q : Point) : Prop :=
  p.line < q.line ∨ p.line = q.line ∧ p.column < q.column

theorem le_refl (p : Point) : p.Le p := .inr ⟨rfl, UInt32.le_refl _⟩

theorem le_of_lt {p q : Point} (h : p.Lt q) : p.Le q :=
  h.imp_right fun h => ⟨h.1, UInt32.le_of_lt h.2⟩

theorem Le.trans {p q r : Point} (hpq : p.Le q) (hqr : q.Le r) : p.Le r := by
  unfold Le at *
  grind

theorem Lt.trans_le {p q r : Point} (hpq : p.Lt q) (hqr : q.Le r) : p.Lt r := by
  unfold Le Lt at *
  grind

theorem Le.trans_lt {p q r : Point} (hpq : p.Le q) (hqr : q.Lt r) : p.Lt r := by
  unfold Le Lt at *
  grind

/-! ### Going on in a text -/

theorem offset_after (p : Point) (c : Char) : (p.after c).offset = p.offset + c.utf8Size := by
  unfold after
  split
  · rename_i hnewline
    rw [show c = '\n' by simpa using hnewline]
    rfl
  · rfl

theorem offset_advance (p : Point) (cs : List Char) :
    (p.advance cs).offset = p.offset + bytes cs := by
  induction cs generalizing p with
  | nil => rfl
  | cons c cs ih =>
    show ((p.after c).advance cs).offset = _
    rw [ih, offset_after, bytes_cons, Nat.add_assoc]

/-- There is room for a further column, and the offset accounts for the line and the column. -/
structure Sound (limit : Nat) (p : Point) : Prop where
  offset : p.offset ≤ limit
  line : p.line.toNat ≤ p.offset + 1
  column : p.column.toNat ≤ p.offset

theorem sound_origin (limit : Nat) : Sound limit origin :=
  ⟨Nat.zero_le limit, Nat.le_refl 1, Nat.le_refl 0⟩

section Advance
variable {limit : Nat} (hlimit : limit + 1 < 4294967296)
include hlimit

theorem after_sound {p : Point} {c : Char} (hp : Sound limit p)
    (hc : p.offset + c.utf8Size ≤ limit) : Sound limit (p.after c) ∧ p.Lt (p.after c) := by
  obtain ⟨hoffset, hline, hcolumn⟩ := hp
  unfold after
  split
  · rename_i hnewline
    rw [show c = '\n' by simpa using hnewline] at hc
    replace hc : p.offset + 1 ≤ limit := hc
    have hnext : (p.line + 1).toNat = p.line.toNat + 1 := by
      rw [UInt32.toNat_add, UInt32.toNat_one]
      omega
    refine ⟨⟨hc, ?_, Nat.zero_le _⟩, .inl ?_⟩
    · rw [hnext]
      show p.line.toNat + 1 ≤ p.offset + 1 + 1
      omega
    · rw [UInt32.lt_iff_toNat_lt, hnext]
      omega
  · have hpos : 0 < c.utf8Size := c.utf8Size_pos
    have hsize : c.utf8Size.toUInt32.toNat = c.utf8Size := by
      rw [Nat.toUInt32_eq, UInt32.toNat_ofNat_of_lt' (by
        show c.utf8Size < 4294967296
        omega)]
    have hnext : (p.column + c.utf8Size.toUInt32).toNat = p.column.toNat + c.utf8Size := by
      rw [UInt32.toNat_add, hsize]
      omega
    refine ⟨⟨hc, ?_, ?_⟩, .inr ⟨rfl, ?_⟩⟩
    · show p.line.toNat ≤ p.offset + c.utf8Size + 1
      omega
    · show (p.column + c.utf8Size.toUInt32).toNat ≤ p.offset + c.utf8Size
      omega
    · rw [UInt32.lt_iff_toNat_lt, hnext]
      omega

theorem advance_sound {p : Point} {cs : List Char} (hp : Sound limit p)
    (hcs : p.offset + bytes cs ≤ limit) : Sound limit (p.advance cs) ∧ p.Le (p.advance cs) := by
  induction cs generalizing p with
  | nil => exact ⟨hp, le_refl p⟩
  | cons c cs ih =>
    rw [bytes_cons] at hcs
    obtain ⟨hsound, hlt⟩ := after_sound hlimit hp (by omega : p.offset + c.utf8Size ≤ limit)
    obtain ⟨hsound', hle⟩ := ih hsound (by rw [offset_after]; omega)
    exact ⟨hsound', (le_of_lt hlt).trans hle⟩

theorem lt_advance {p : Point} {cs : List Char} (hne : cs ≠ []) (hp : Sound limit p)
    (hcs : p.offset + bytes cs ≤ limit) : p.Lt (p.advance cs) := by
  obtain ⟨c, cs, rfl⟩ := List.exists_cons_of_ne_nil hne
  rw [bytes_cons] at hcs
  obtain ⟨hsound, hlt⟩ := after_sound hlimit hp (by omega : p.offset + c.utf8Size ≤ limit)
  exact hlt.trans_le (advance_sound hlimit hsound (by rw [offset_after]; omega)).2

end Advance

theorem advance_append (p : Point) (cs ds : List Char) :
    p.advance (cs ++ ds) = (p.advance cs).advance ds :=
  List.foldl_append

/-! ### Ranges between points -/

/-- The next column is still a column. -/
def Roomy (p : Point) : Prop := p.column.toNat + 1 < 4294967296

theorem Sound.roomy {limit : Nat} {p : Point} (h : Sound limit p)
    (hlimit : limit + 1 < 4294967296) : p.Roomy := by
  have := h.offset
  have := h.column
  unfold Roomy
  omega

theorem Roomy.next {p : Point} (h : p.Roomy) : (p.column + 1).toNat = p.column.toNat + 1 := by
  unfold Roomy at h
  rw [UInt32.toNat_add, UInt32.toNat_one]
  omega

theorem proper_rangeBetween {p q : Point} (hp : p.Roomy) (h : p.Lt q) :
    (rangeBetween p q).Proper := by
  refine Position.le_iff.mpr (h.imp_right fun ⟨hline, hcolumn⟩ => ⟨hline, ?_⟩)
  show p.column + 1 ≤ q.column
  rw [UInt32.le_iff_toNat_le, hp.next]
  exact UInt32.lt_iff_toNat_lt.mp hcolumn

theorem before_rangeBetween {p q r t : Point} (hr : r.Roomy) (h : q.Le r) :
    (rangeBetween p q).Before (rangeBetween r t) := by
  refine Position.lt_iff.mpr (h.imp_right fun ⟨hline, hcolumn⟩ => ⟨hline, ?_⟩)
  show q.column < r.column + 1
  rw [UInt32.lt_iff_toNat_lt, hr.next]
  exact Nat.lt_succ_of_le (UInt32.le_iff_toNat_le.mp hcolumn)

theorem contains_rangeBetween {p q r t : Point} (hp : p.Roomy) (hr : r.Roomy) (hpr : p.Le r)
    (htq : t.Le q) : (rangeBetween p q).contains (rangeBetween r t) = true := by
  refine Range.contains_iff.mpr ⟨?_, Position.le_iff.mpr htq⟩
  refine Position.le_iff.mpr (hpr.imp_right fun ⟨hline, hcolumn⟩ => ⟨hline, ?_⟩)
  show p.column + 1 ≤ r.column + 1
  rw [UInt32.le_iff_toNat_le, hp.next, hr.next]
  exact Nat.succ_le_succ (UInt32.le_iff_toNat_le.mp hcolumn)

theorem strictlyContains_rangeBetween {p q r t : Point} (hp : p.Roomy) (hr : r.Roomy)
    (hpr : p.Lt r) (htq : t.Lt q) :
    (rangeBetween p q).strictlyContains (rangeBetween r t) = true := by
  unfold Range.strictlyContains
  rw [Bool.and_eq_true]
  refine ⟨?_, Position.lt_iff.mpr htq⟩
  refine Position.lt_iff.mpr (hpr.imp_right fun ⟨hline, hcolumn⟩ => ⟨hline, ?_⟩)
  show p.column + 1 < r.column + 1
  rw [UInt32.lt_iff_toNat_lt, hp.next, hr.next]
  exact Nat.succ_lt_succ (UInt32.lt_iff_toNat_lt.mp hcolumn)

end Point

end Retrace.Java
