/-! Texts cut at a mark.

`splitAt` gives the stretches of a text between the places where a character stands, at least one.
Every other character is in one of them (`eq_mark_or_mem`). -/
namespace Retrace.Text

def stretches (mark : Char) : List Char → List (List Char)
  | [] => [[]]
  | c :: cs =>
    if c == mark then [] :: stretches mark cs
    else
      match stretches mark cs with
      | [] => [[c]]
      | s :: rest => (c :: s) :: rest

def splitAt (mark : Char) (text : String) : List String :=
  (stretches mark text.toList).map String.ofList

theorem eq_mark_or_mem {mark c : Char} {cs : List Char} (h : c ∈ cs) :
    c = mark ∨ ∃ s ∈ stretches mark cs, c ∈ s := by
  induction cs with
  | nil => cases h
  | cons d cs ih =>
    rw [stretches]
    split
    · rename_i hmark
      rcases List.mem_cons.mp h with rfl | h
      · exact .inl (beq_iff_eq.mp hmark)
      · exact (ih h).imp_right fun ⟨s, hs, hc⟩ => ⟨s, List.mem_cons_of_mem [] hs, hc⟩
    · rcases List.mem_cons.mp h with rfl | h
      · right
        split <;> simp
      · refine (ih h).imp_right fun ⟨s, hs, hc⟩ => ?_
        split
        · rename_i hnil
          rw [hnil] at hs
          cases hs
        · rename_i s' rest hrest
          rw [hrest] at hs
          rcases List.mem_cons.mp hs with rfl | hs
          · exact ⟨_, List.mem_cons_self, List.mem_cons_of_mem d hc⟩
          · exact ⟨s, List.mem_cons_of_mem _ hs, hc⟩

end Retrace.Text
