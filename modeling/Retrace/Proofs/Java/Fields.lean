import Retrace.Proofs.Java.Shapes

/-! The fields of Java nodes.

`Fields` says under which fields the parts of some nodes stand: an object creation has a type and
arguments, the parts of a loop's header stand under fields that tell them apart, and the body of a
class is a class body. Two checks on rules settle this for all that the grammar gives: `fielded`
holds when every tree stands under an allowed field, `supplies` when some tree stands under a
given one. -/
namespace Retrace.Java

namespace Rule
variable {C : Type}

/-- Every tree stands under an allowed field. -/
def fielded (allowed : Field → Bool) : Rule C → Bool
  | take _ => true
  | glued _ _ => true
  | nothing => true
  | sequence first second => fielded allowed first && fielded allowed second
  | either first second => fielded allowed first && fielded allowed second
  | many rule => fielded allowed rule
  | under slot _ => allowed slot
  | only _ rule => fielded allowed rule
  | ahead _ => true
  | notAhead _ => true
  | _ => false

/-- Some tree stands under the field, if some categories give exactly one tree. -/
def supplies (slot : Field) (one : C → Bool) : Rule C → Bool
  | sequence first second => supplies slot one first || supplies slot one second
  | either first second => supplies slot one first && supplies slot one second
  | under s rule => s == slot && lone one rule
  | only _ rule => supplies slot one rule
  | _ => false

variable {grammar : C → Rule C}

theorem slot_of_fielded {allowed : Field → Bool} {rule : Rule C} {left : Option Tree}
    {xs : List Tree} (h : Gives grammar rule left xs) (hrule : rule.fielded allowed = true) :
    ∀ t ∈ xs, ∃ slot, t.slot = some slot ∧ allowed slot = true := by
  induction h with
  | take _ _ | glued _ _ _ | nothing _ | none _ _ | ahead _ _ | notAhead _ _ =>
    exact fun t ht => nomatch ht
  | leaf _ _ _ _ | call _ _ _ | node _ _ _ _ _ _ | base _ _ _ _ | link _ _ _ _ _
  | grow _ _ _ _ => cases hrule
  | sequence _ _ _ ihx ihy =>
    obtain ⟨hx, hy⟩ := Bool.and_eq_true_iff.mp hrule
    exact List.forall_mem_append.mpr ⟨ihx hx, ihy hy⟩
  | first _ _ ih => exact ih (Bool.and_eq_true_iff.mp hrule).1
  | second _ _ ih => exact ih (Bool.and_eq_true_iff.mp hrule).2
  | more _ _ _ ihx ihy => exact List.forall_mem_append.mpr ⟨ihx hrule, ihy hrule⟩
  | under slot _ _ _ =>
    intro t ht
    obtain ⟨u, _, rfl⟩ := List.mem_map.mp ht
    cases u
    exact ⟨slot, rfl, hrule⟩
  | only _ _ _ ih => exact ih hrule

theorem exists_of_supplies {slot : Field} {one : C → Bool}
    (hc : ∀ c, one c = true → (grammar c).lone one = true) {rule : Rule C} {left : Option Tree}
    {xs : List Tree} (h : Gives grammar rule left xs) (hrule : rule.supplies slot one = true) :
    ∃ t ∈ xs, t.slot = some slot := by
  induction h with
  | take _ _ | glued _ _ _ | nothing _ | none _ _ | ahead _ _ | notAhead _ _ => cases hrule
  | leaf _ _ _ _ | call _ _ _ | node _ _ _ _ _ _ | base _ _ _ _ | link _ _ _ _ _
  | grow _ _ _ _ | more _ _ _ _ _ => cases hrule
  | sequence _ _ _ ihx ihy =>
    rcases Bool.or_eq_true_iff.mp hrule with hrule | hrule
    · obtain ⟨t, ht, hslot⟩ := ihx hrule
      exact ⟨t, List.mem_append_left _ ht, hslot⟩
    · obtain ⟨t, ht, hslot⟩ := ihy hrule
      exact ⟨t, List.mem_append_right _ ht, hslot⟩
  | first _ _ ih => exact ih (Bool.and_eq_true_iff.mp hrule).1
  | second _ _ ih => exact ih (Bool.and_eq_true_iff.mp hrule).2
  | under s _ hinner _ =>
    obtain ⟨hs, hlone⟩ := Bool.and_eq_true_iff.mp hrule
    obtain ⟨t, rfl⟩ := eq_single_of_lone hc hinner hlone
    refine ⟨t.under (some s), List.mem_cons_self, ?_⟩
    cases t
    exact congrArg some (beq_iff_eq.mp hs)
  | only _ _ _ ih => exact ih hrule

end Rule

/-! ### The fields -/

/-- The fields of loops that repeat a test. -/
def loopField : Field → Bool
  | .init => true
  | .condition => true
  | .update => true
  | .body => true
  | _ => false

def Fields : Form → List Tree → Prop
  | .objectCreationExpression, ts =>
    (∃ t ∈ ts, t.slot = some .type) ∧ ∃ t ∈ ts, t.slot = some .arguments
  | .forStatement, ts => ∀ t ∈ ts, ∃ slot, t.slot = some slot ∧ loopField slot = true
  | .whileStatement, ts => ∀ t ∈ ts, ∃ slot, t.slot = some slot ∧ loopField slot = true
  | .doStatement, ts => ∀ t ∈ ts, ∃ slot, t.slot = some slot ∧ loopField slot = true
  | .classDeclaration, ts => ∀ t ∈ ts, t.slot = some .body → t.form = .classBody
  | _, _ => True

/-- The forms whose fields are known. -/
def hasFields : Form → Bool
  | .objectCreationExpression => true
  | .forStatement => true
  | .whileStatement => true
  | .doStatement => true
  | .classDeclaration => true
  | _ => false

theorem fields_of_not_hasFields (form : Form) (ts : List Tree) (h : hasFields form = false) :
    Fields form ts := by
  unfold Fields
  split <;> first | cases h | trivial

namespace Grammar
open Rule

/-- The parts of a creation that are exactly one node. -/
def creationPart : Category → Bool
  | .simpleType => true
  | .argumentList => true
  | _ => false

theorem lone_creationPart (c : Category) (h : creationPart c = true) :
    (grammar c).lone creationPart = true := by
  cases c <;> first | rfl | cases h

/-- A rule that makes no node whose fields are known. -/
theorem fields_of_avoids {rule : R} (hrule : rule.avoids hasFields = true) :
    rule.Obeys grammar Fields :=
  obeys_of_avoids fields_of_not_hasFields hrule

theorem all_fields {rules : List R} (h : rules.all (avoids hasFields) = true) :
    ∀ r ∈ rules, r.Obeys grammar Fields :=
  fun r hr => fields_of_avoids (List.all_eq_true.mp h r hr)

theorem supplied_by_creation {xs : List Tree} (h : Gives grammar objectCreation none xs) :
    (∃ t ∈ xs, t.slot = some .type) ∧ ∃ t ∈ xs, t.slot = some .arguments :=
  ⟨exists_of_supplies lone_creationPart h rfl, exists_of_supplies lone_creationPart h rfl⟩

theorem fields_creation : creation.Obeys grammar Fields :=
  ⟨⟨fun _ h => supplied_by_creation h, fields_of_avoids rfl⟩, fields_of_avoids rfl⟩

/-- A creation may also be qualified by the expression in front of it. -/
theorem fields_qualified :
    (grow .objectCreationExpression none isPrimary (symbol "." >> objectCreation) : R).Obeys
      grammar Fields := by
  refine ⟨fun t xs h => ?_, fields_of_avoids rfl⟩
  obtain ⟨⟨u, hu, htype⟩, v, hv, harguments⟩ :=
    supplied_by_creation (gives_of_silent_first h rfl)
  exact ⟨⟨u, List.mem_cons_of_mem _ hu, htype⟩, v, List.mem_cons_of_mem _ hv, harguments⟩

theorem fields_primary : (chain primaryBase primaryLink : R).Obeys grammar Fields := by
  refine ⟨fields_of_avoids rfl, obeys_choice ?_⟩
  simp only [List.forall_mem_cons]
  exact ⟨fields_of_avoids rfl, fields_of_avoids rfl, fields_of_avoids rfl, fields_qualified,
    fields_of_avoids rfl, fields_of_avoids rfl, fields_of_avoids rfl, fields_of_avoids rfl,
    fields_of_avoids rfl, fun _ h => nomatch h⟩

theorem fields_statement : statementRule.Obeys grammar Fields := by
  have hloops : ∀ r ∈ [forStatement, enhancedForStatement, whileStatement, doStatement],
      r.Obeys grammar Fields := by
    simp only [List.forall_mem_cons]
    exact ⟨⟨fun _ h => slot_of_fielded h rfl, fields_of_avoids rfl⟩, fields_of_avoids rfl,
      ⟨fun _ h => slot_of_fielded h rfl, fields_of_avoids rfl⟩,
      ⟨fun _ h => slot_of_fielded h rfl, fields_of_avoids rfl⟩, fun _ h => nomatch h⟩
  have hrest : ∀ r ∈ [block, symbol ";", ifStatement], r.Obeys grammar Fields := all_fields rfl
  exact obeys_choice (List.forall_mem_append.mpr ⟨hrest, List.forall_mem_append.mpr
    ⟨hloops, all_fields rfl⟩⟩)

theorem fields_class : classDeclaration.Obeys grammar Fields := by
  refine ⟨fun xs h t ht hslot => ?_, fields_of_avoids rfl⟩
  obtain ⟨_, h, ht⟩ := of_second h rfl ht hslot
  obtain ⟨_, h, ht⟩ := of_second h rfl ht hslot
  obtain ⟨_, h, ht⟩ := of_second h rfl ht hslot
  obtain ⟨_, h, ht⟩ := of_second h rfl ht hslot
  obtain ⟨_, h, ht⟩ := of_second h rfl ht hslot
  obtain ⟨_, h, ht⟩ := of_second h rfl ht hslot
  obtain ⟨_, h, ht⟩ := of_second h rfl ht hslot
  cases h with
  | under _ _ hinner =>
    cases hinner with
    | call _ hinner =>
      cases hinner with
      | node _ _ _ _ _ =>
        rw [List.mem_singleton.mp ht]
        rfl

theorem fields_typeDeclaration : typeDeclaration.Obeys grammar Fields := by
  refine obeys_choice ?_
  simp only [List.forall_mem_cons]
  exact ⟨fields_class, fields_of_avoids rfl, fields_of_avoids rfl, fields_of_avoids rfl,
    fields_of_avoids rfl, fun _ h => nomatch h⟩

theorem fields_level (n : Nat) (label : Bool) : (level n label).Obeys grammar Fields := by
  refine fields_of_avoids ?_
  unfold level levelLink
  split <;> split <;> rfl

theorem fields_grammar (c : Category) : (grammar c).Obeys grammar Fields := by
  cases c with
  | level n label => exact fields_level n label
  | operand label => cases label <;> exact fields_of_avoids rfl
  | primary => exact fields_primary
  | creation => exact fields_creation
  | statement => exact fields_statement
  | typeDeclaration => exact fields_typeDeclaration
  | _ => exact fields_of_avoids rfl

theorem fields_compilationUnit : compilationUnit.Obeys grammar Fields :=
  fields_of_avoids rfl

end Grammar

end Retrace.Java
