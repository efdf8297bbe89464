/-! Tables in the order of their keys.

A table holds at most one value for a key, and its entries ascend, so two tables with the same
entries are the same table. `get?_put` says what storing a value does to a look-up. -/
namespace Retrace

variable {κ ν : Type} [Ord κ]

namespace Entries

/-- Stores a value in place of the one that has the same key, or where the order asks for it. -/
def put (k : κ) (v : ν) : List (κ × ν) → List (κ × ν)
  | [] => [(k, v)]
  | (a, b) :: rest =>
    match compare k a with
    | .lt => (k, v) :: (a, b) :: rest
    | .eq => (k, v) :: rest
    | .gt => (a, b) :: put k v rest

def get? (k : κ) : List (κ × ν) → Option ν
  | [] => none
  | (a, b) :: rest => if compare k a == .eq then some b else get? k rest

def Ascending (es : List (κ × ν)) : Prop :=
  es.Pairwise fun x y => compare x.1 y.1 = .lt

theorem mem_put {k : κ} {v : ν} {e : κ × ν} {es : List (κ × ν)} (h : e ∈ put k v es) :
    e = (k, v) ∨ e ∈ es := by
  induction es with
  | nil => simpa [put] using h
  | cons x xs ih =>
    obtain ⟨a, b⟩ := x
    unfold put at h
    split at h <;> simp only [List.mem_cons] at h ⊢
    · exact h
    · exact h.imp_right Or.inr
    · rcases h with h | h
      · exact .inr (.inl h)
      · exact (ih h).imp_right Or.inr

theorem ascending_put [Std.TransOrd κ] [Std.LawfulEqOrd κ] (k : κ) (v : ν) {es : List (κ × ν)}
    (h : Ascending es) : Ascending (put k v es) := by
  induction es with
  | nil => simp [put, Ascending]
  | cons x xs ih =>
    obtain ⟨a, b⟩ := x
    have hx := List.pairwise_cons.mp h
    unfold put
    split
    · rename_i hlt
      refine List.pairwise_cons.mpr ⟨fun e he => ?_, h⟩
      rcases List.mem_cons.mp he with rfl | he
      · exact hlt
      · exact Std.TransCmp.lt_trans hlt (hx.1 e he)
    · rename_i heq
      obtain rfl := Std.LawfulEqCmp.eq_of_compare heq
      exact List.pairwise_cons.mpr ⟨hx.1, hx.2⟩
    · rename_i hgt
      refine List.pairwise_cons.mpr ⟨fun e he => ?_, ih hx.2⟩
      rcases mem_put he with rfl | he
      · exact Std.OrientedCmp.lt_of_gt hgt
      · exact hx.1 e he

end Entries

structure Table (κ ν : Type) [Ord κ] where
  entries : List (κ × ν)
  ascending : Entries.Ascending entries

namespace Table

instance [DecidableEq κ] [DecidableEq ν] : DecidableEq (Table κ ν) := fun a b =>
  if h : a.entries = b.entries then isTrue (by cases a; cases b; cases h; rfl)
  else isFalse fun hab => h (congrArg entries hab)

def empty : Table κ ν := ⟨[], List.Pairwise.nil⟩

instance : Inhabited (Table κ ν) := ⟨empty⟩

instance [Repr κ] [Repr ν] : Repr (Table κ ν) := ⟨fun t => reprPrec t.entries⟩

def get? (t : Table κ ν) (k : κ) : Option ν := Entries.get? k t.entries

def isEmpty (t : Table κ ν) : Bool := t.entries.isEmpty

def size (t : Table κ ν) : Nat := t.entries.length

def keys (t : Table κ ν) : List κ := t.entries.map Prod.fst

variable [Std.TransOrd κ] [Std.LawfulEqOrd κ]

def put (t : Table κ ν) (k : κ) (v : ν) : Table κ ν :=
  ⟨Entries.put k v t.entries, Entries.ascending_put k v t.ascending⟩

/-- Replaces the value of a key by what `f` makes of it. -/
def alter (t : Table κ ν) (k : κ) (f : Option ν → ν) : Table κ ν :=
  t.put k (f (t.get? k))

def erase (t : Table κ ν) (k : κ) : Table κ ν :=
  ⟨t.entries.filter fun e => compare k e.1 != .eq, t.ascending.filter _⟩

def ofList (es : List (κ × ν)) : Table κ ν :=
  es.foldl (fun t e => t.put e.1 e.2) empty

end Table

namespace Entries

theorem get?_put [Std.LawfulEqOrd κ] (k j : κ) (v : ν) (es : List (κ × ν)) :
    get? j (put k v es) = if compare j k == .eq then some v else get? j es := by
  induction es with
  | nil => simp [put, get?]
  | cons x xs ih =>
    obtain ⟨a, b⟩ := x
    unfold put
    split
    · simp [get?]
    · rename_i heq
      obtain rfl := Std.LawfulEqCmp.eq_of_compare heq
      simp only [get?]
      split <;> simp_all
    · rename_i hgt
      simp only [get?, ih]
      by_cases hja : compare j a == .eq
      · have hja' := Std.LawfulEqCmp.eq_of_compare (eq_of_beq hja)
        subst hja'
        have hne : compare j k ≠ .eq := by
          intro h
          have := Std.LawfulEqCmp.eq_of_compare h
          subst this
          simp at hgt
        simp [hne]
      · simp [hja]

theorem get?_erase [Std.LawfulEqOrd κ] (k j : κ) (es : List (κ × ν)) :
    get? j (es.filter fun e => compare k e.1 != .eq) =
      if compare k j == .eq then none else get? j es := by
  induction es with
  | nil => simp [get?]
  | cons x xs ih =>
    obtain ⟨a, b⟩ := x
    by_cases hka : k = a
    · subst hka
      rw [List.filter_cons_of_neg (by simp), ih]
      by_cases hjk : j = k
      · simp [hjk]
      · simp [get?, hjk, Ne.symm hjk]
    · rw [List.filter_cons_of_pos (by simpa using hka)]
      by_cases hja : j = a
      · simp [get?, hja, hka]
      · simp [get?, hja, ih]

/-- A key above all others comes last. -/
theorem put_of_lt [Std.OrientedOrd κ] {k : κ} {v : ν} {es : List (κ × ν)}
    (h : ∀ e ∈ es, compare e.1 k = .lt) : put k v es = es ++ [(k, v)] := by
  induction es with
  | nil => rfl
  | cons e es ih =>
    obtain ⟨he, hes⟩ := List.forall_mem_cons.mp h
    rw [put, Std.OrientedCmp.gt_of_lt he]
    show e :: put k v es = _
    rw [ih hes]
    rfl

end Entries

namespace Table

variable [Std.TransOrd κ] [Std.LawfulEqOrd κ]

theorem get?_put (t : Table κ ν) (k j : κ) (v : ν) :
    (t.put k v).get? j = if compare j k == .eq then some v else t.get? j :=
  Entries.get?_put k j v t.entries

omit [Std.TransOrd κ] in
theorem get?_erase (t : Table κ ν) (k j : κ) :
    (t.erase k).get? j = if compare k j == .eq then none else t.get? j :=
  Entries.get?_erase k j t.entries

end Table

end Retrace
