import Retrace.Table

/-! What a table lists.

Each entry of a table may list several things. Where a value is stored of which more is listed than
of the value that it takes the place of, so much more is listed in all (`flatMap_put_perm`). -/
namespace Retrace.Entries
variable {κ ν α β : Type} [Ord κ]

theorem get?_of_lt {k : κ} {es : List (κ × ν)} (h : ∀ e ∈ es, compare k e.1 = .lt) :
    get? k es = none := by
  induction es with
  | nil => rfl
  | cons e es ih =>
    obtain ⟨he, hes⟩ := List.forall_mem_cons.mp h
    rw [get?, he]
    exact ih hes

variable [Std.TransOrd κ] [Std.LawfulEqOrd κ]

theorem flatMap_put_perm {g : κ × ν → List β} {k : κ} {v : ν} {more : List β}
    {es : List (κ × ν)} (hascending : Ascending es)
    (h : (g (k, v)).Perm (((get? k es).elim [] fun old => g (k, old)) ++ more)) :
    ((put k v es).flatMap g).Perm (es.flatMap g ++ more) := by
  induction es with
  | nil =>
    rw [put, List.flatMap_cons, List.flatMap_nil, List.append_nil]
    exact h
  | cons e es ih =>
    obtain ⟨a, old⟩ := e
    obtain ⟨habove, hrest⟩ := List.pairwise_cons.mp hascending
    rw [put]
    split
    · rename_i hlt
      have hnone : get? k ((a, old) :: es) = none :=
        get?_of_lt (List.forall_mem_cons.mpr
          ⟨hlt, fun e he => Std.TransCmp.lt_trans hlt (habove e he)⟩)
      rw [hnone] at h
      rw [List.flatMap_cons]
      exact (h.append_right _).trans List.perm_append_comm
    · rename_i heq
      obtain rfl := Std.LawfulEqCmp.eq_of_compare heq
      have hsome : get? k ((k, old) :: es) = some old := by
        rw [get?, heq]
        rfl
      rw [hsome] at h
      rw [List.flatMap_cons, List.flatMap_cons, List.append_assoc]
      refine (h.append_right _).trans ?_
      rw [List.append_assoc]
      exact List.perm_append_comm.append_left _
    · rename_i hgt
      have hlater : get? k ((a, old) :: es) = get? k es := by
        rw [get?, hgt]
        rfl
      rw [hlater] at h
      rw [List.flatMap_cons, List.flatMap_cons, List.append_assoc]
      exact (ih hrest h).append_left _

/-- A value put behind those of its key is one more of the values listed. -/
theorem flatMap_concat_perm (f : κ → α → β) (k : κ) (v : α) {es : List (κ × List α)}
    (h : Ascending es) :
    ((put k ((get? k es).getD [] ++ [v]) es).flatMap fun e => e.2.map (f e.1)).Perm
      ((es.flatMap fun e => e.2.map (f e.1)) ++ [f k v]) := by
  refine flatMap_put_perm h (.of_eq ?_)
  rw [List.map_append]
  cases get? k es <;> rfl

end Retrace.Entries
