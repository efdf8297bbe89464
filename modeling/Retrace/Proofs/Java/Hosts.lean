import Retrace.Proofs.Java.Branches

/-! Of each branch there is one.

A node has at most one tree under each field of a branch or a loop body (`soleBodies_grammar`). The
check `sole` tells from a rule that at most one tree stands under a field. -/
namespace Retrace.Java

namespace Rule
variable {C : Type} {grammar : C → Rule C}

/-- At most one tree stands under the field, if some categories give at most one tree. -/
def sole (slot : Field) (one : C → Bool) : Rule C → Bool
  | sequence first second =>
    (sole slot one first && !slots slot second) || (!slots slot first && sole slot one second)
  | either first second => sole slot one first && sole slot one second
  | many rule => !slots slot rule
  | under s rule => s != slot || single one rule
  | only _ rule => sole slot one rule
  | _ => true

theorem sole_of_gives (hslot : ∀ slot c, (grammar c).slots slot = false) {one : C → Bool}
    (hone : ∀ c, one c = true → (grammar c).single one = true) {slot : Field} {rule : Rule C}
    {left : Option Tree} {xs : List Tree} (h : Gives grammar rule left xs)
    (hrule : rule.sole slot one = true) : (allUnder slot xs).length ≤ 1 := by
  have hnone : ∀ {rule : Rule C} {left : Option Tree} {xs : List Tree},
      Gives grammar rule left xs → (!rule.slots slot) = true → allUnder slot xs = [] :=
    fun h hrule => List.filter_eq_nil_iff.mpr fun t ht => by
      simpa using slot_ne_of_gives (hslot slot) h (by simpa using hrule) t ht
  have hfew : ∀ {xs : List Tree}, xs.length ≤ 1 → (allUnder slot xs).length ≤ 1 :=
    fun h => Nat.le_trans (List.length_filter_le _ _) h
  induction h with
  | take _ _ | glued _ _ _ | nothing _ | none _ _ | ahead _ _ | notAhead _ _ => exact Nat.zero_le 1
  | leaf _ _ _ _ | node _ _ _ _ _ _ | base _ _ _ _ | link _ _ _ _ _ | grow _ _ _ _ =>
    exact hfew (Nat.le_refl 1)
  | call _ h _ =>
    rw [hnone h (by rw [hslot]; rfl)]
    exact Nat.zero_le 1
  | sequence _ hx hy ihx ihy =>
    rw [allUnder_append]
    rcases Bool.or_eq_true_iff.mp hrule with hrule | hrule
    · obtain ⟨hx', hy'⟩ := Bool.and_eq_true_iff.mp hrule
      rw [hnone hy hy', List.append_nil]
      exact ihx hx'
    · obtain ⟨hx', hy'⟩ := Bool.and_eq_true_iff.mp hrule
      rw [hnone hx hx', List.nil_append]
      exact ihy hy'
  | first _ _ ih => exact ih (Bool.and_eq_true_iff.mp hrule).1
  | second _ _ ih => exact ih (Bool.and_eq_true_iff.mp hrule).2
  | more left hx hy _ _ =>
    rw [hnone (.more left hx hy) hrule]
    exact Nat.zero_le 1
  | under s _ hinner _ =>
    rcases Bool.or_eq_true_iff.mp hrule with hs | hsingle
    · rw [hnone (.under s none hinner) hs]
      exact Nat.zero_le 1
    · refine hfew ?_
      rw [List.length_map]
      exact length_le_of_single hone hinner hsingle
  | only _ _ _ ih => exact ih hrule

end Rule

/-- There is at most one tree under each field of a branch or a body. -/
def SoleBodies (form : Form) (ts : List Tree) : Prop :=
  ∀ s, hosts form s = true → (allUnder s ts).length ≤ 1

theorem soleBodies_of_not_hosting (form : Form) (ts : List Tree)
    (h : Grammar.hosting form = false) : SoleBodies form ts := fun s hs => by
  rw [Grammar.hosts_of_not_hosting h s] at hs
  cases hs

theorem SoleBodies.eq {form : Form} {ts : List Tree} (h : SoleBodies form ts) {s : Field}
    (hs : hosts form s = true) {t u : Tree} (ht : t ∈ ts) (hu : u ∈ ts) (ht' : t.slot = some s)
    (hu' : u.slot = some s) : t = u := by
  have hle := h s hs
  rcases hall : allUnder s ts with _ | ⟨v, _ | ⟨w, vs⟩⟩
  · have hnone := mem_allUnder.mpr ⟨ht, ht'⟩
    rw [hall] at hnone
    cases hnone
  · have hone := mem_allUnder.mpr ⟨ht, ht'⟩
    have hone' := mem_allUnder.mpr ⟨hu, hu'⟩
    rw [hall] at hone hone'
    rw [List.mem_singleton.mp hone, List.mem_singleton.mp hone']
  · rw [hall, List.length_cons, List.length_cons] at hle
    omega

namespace Grammar
open Rule

theorem soleBodies {form : Form} {rule : R}
    (hrule : ∀ s, hosts form s = true → rule.sole s one = true) {xs : List Tree}
    (h : Gives grammar rule none xs) : SoleBodies form xs := fun s hs =>
  sole_of_gives slots_grammar single_one h (hrule s hs)

theorem sole_of_avoids {rule : R} (hrule : rule.avoids hosting = true) :
    rule.Obeys grammar SoleBodies :=
  obeys_of_avoids soleBodies_of_not_hosting hrule

theorem all_sole {rules : List R} (h : rules.all (avoids hosting) = true) :
    ∀ r ∈ rules, r.Obeys grammar SoleBodies :=
  fun r hr => sole_of_avoids (List.all_eq_true.mp h r hr)

theorem sole_host {form : Form} {rule : R}
    (hrule : ∀ s, hosts form s = true → rule.sole s one = true)
    (havoids : rule.avoids hosting = true) : (node form rule).Obeys grammar SoleBodies :=
  ⟨fun _ h => soleBodies hrule h, sole_of_avoids havoids⟩

theorem sole_statement : statementRule.Obeys grammar SoleBodies := by
  have hhosts : ∀ r ∈ [ifStatement, forStatement, enhancedForStatement, whileStatement,
      doStatement], r.Obeys grammar SoleBodies := by
    simp only [List.forall_mem_cons]
    refine ⟨?_, ?_, ?_, ?_, ?_, fun _ h => nomatch h⟩
    all_goals exact sole_host (fun s hs => by cases s <;> first | rfl | cases hs) rfl
  have hfirst : ∀ r ∈ [block, symbol ";"], r.Obeys grammar SoleBodies := all_sole rfl
  exact obeys_choice (List.forall_mem_append.mpr ⟨hfirst, List.forall_mem_append.mpr
    ⟨hhosts, all_sole rfl⟩⟩)

theorem soleBodies_grammar (c : Category) : (grammar c).Obeys grammar SoleBodies := by
  cases c with
  | level n label =>
    refine sole_of_avoids ?_
    show (level n label).avoids hosting = true
    unfold level levelLink
    split <;> split <;> rfl
  | operand label => cases label <;> exact sole_of_avoids rfl
  | statement => exact sole_statement
  | _ => exact sole_of_avoids rfl

end Grammar

end Retrace.Java
