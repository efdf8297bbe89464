import Retrace.Java.Parse
import Retrace.Proofs.Java.Shapes

/-! Where the bodies of constructors stand.

Trees of one form may be allowed in nodes of one other form only, and there under one field. The
check `houses` tells that a rule keeps to this, and `housed_of_gives` that then everything does that
the grammar gives. The bodies of constructors stand in constructors this way (`houses_grammar`). -/
namespace Retrace.Java

/-- Trees of the form are children of `owner` nodes, under the field. -/
def Housed (form owner : Form) (slot : Field) (t : Tree) : Prop :=
  ∀ c ∈ t.children, c.form = form → t.form = owner ∧ c.slot = some slot

namespace Rule
variable {C : Type} {grammar : C → Rule C} {form owner : Form} {slot : Field}

/-- Trees of the form stand under the field. -/
def slotted (form : Form) (slot : Field) : Rule C → Bool
  | sequence first second => slotted form slot first && slotted form slot second
  | either first second => slotted form slot first && slotted form slot second
  | many rule => slotted form slot rule
  | under s rule => s == slot || !forms form rule
  | only _ rule => slotted form slot rule
  | rule => !forms form rule

/-- The nodes that the rule makes itself hold trees of the form only where these belong. Nothing
grows around such a tree. -/
def houses (form owner : Form) (slot : Field) : Rule C → Bool
  | sequence first second => houses form owner slot first && houses form owner slot second
  | either first second => houses form owner slot first && houses form owner slot second
  | many rule => houses form owner slot rule
  | under _ rule => houses form owner slot rule
  | node f rule =>
    (!forms form rule || f == owner && slotted form slot rule) && houses form owner slot rule
  | only _ rule => houses form owner slot rule
  | chain base link =>
    !forms form (chain base link) && houses form owner slot base && houses form owner slot link
  | grow _ _ _ rule => !forms form rule && houses form owner slot rule
  | _ => true

theorem slot_of_slotted (hc : ∀ c, (grammar c).forms form = false) {rule : Rule C}
    {left : Option Tree} {xs : List Tree} (h : Gives grammar rule left xs)
    (hrule : rule.slotted form slot = true) : ∀ t ∈ xs, t.form = form → t.slot = some slot := by
  have hfree : ∀ {rule : Rule C} {left : Option Tree} {xs : List Tree},
      Gives grammar rule left xs → (!rule.forms form) = true →
      ∀ t ∈ xs, t.form = form → t.slot = some slot :=
    fun h hrule t ht hform => absurd hform (form_ne_of_gives hc h (by simpa using hrule) t ht)
  induction h with
  | none _ _ => exact fun t ht => nomatch ht
  | sequence _ _ _ ihx ihy =>
    obtain ⟨hx, hy⟩ := Bool.and_eq_true_iff.mp hrule
    exact List.forall_mem_append.mpr ⟨ihx hx, ihy hy⟩
  | first _ _ ih => exact ih (Bool.and_eq_true_iff.mp hrule).1
  | second _ _ ih => exact ih (Bool.and_eq_true_iff.mp hrule).2
  | more _ _ _ ihx ihy => exact List.forall_mem_append.mpr ⟨ihx hrule, ihy hrule⟩
  | under s _ hinner _ =>
    intro t ht hform
    obtain ⟨u, hu, rfl⟩ := List.mem_map.mp ht
    rcases Bool.or_eq_true_iff.mp hrule with hslot | hnone
    · obtain rfl : s = slot := by simpa using hslot
      cases u
      rfl
    · refine absurd ?_ (form_ne_of_gives hc hinner (by simpa using hnone) u hu)
      cases u
      exact hform
  | only _ _ _ ih => exact ih hrule
  | take accepts left => exact hfree (.take accepts left) hrule
  | glued texts notBefore left => exact hfree (.glued texts notBefore left) hrule
  | leaf f accepts left l => exact hfree (.leaf f accepts left l) hrule
  | nothing left => exact hfree (.nothing left) hrule
  | call left h _ => exact hfree (.call left h) hrule
  | node f left start stop h _ => exact hfree (.node f left start stop h) hrule
  | ahead rule left => exact hfree (.ahead rule left) hrule
  | notAhead rule left => exact hfree (.notAhead rule left) hrule
  | base link left h _ => exact hfree (.base link left h) hrule
  | link left h h' _ _ => exact hfree (.link left h h') hrule
  | grow stop haccepts h _ => exact hfree (.grow stop haccepts h) hrule

/-- All parts of the tree keep to this. -/
def AllHoused (form owner : Form) (slot : Field) (t : Tree) : Prop :=
  ∀ u, Part u t → Housed form owner slot u

theorem AllHoused.under {t : Tree} (h : AllHoused form owner slot t) (s : Option Field) :
    AllHoused form owner slot (t.under s) := by
  obtain ⟨f, s', start, stop, word, children⟩ := t
  intro u hu
  cases hu with
  | self => exact h (.node f s' start stop word children) .self
  | child hc hu => exact h u (.child hc hu)

/-- A node keeps to this when it does itself, and its children do. -/
theorem AllHoused.node {f : Form} {s : Option Field} {start stop : Point} {word : Option String}
    {xs : List Tree} (hself : ∀ c ∈ xs, c.form = form → f = owner ∧ c.slot = some slot)
    (hxs : ∀ t ∈ xs, AllHoused form owner slot t) :
    AllHoused form owner slot (.node f s start stop word xs) := by
  intro u hu
  cases hu with
  | self => exact hself
  | child hc hu => exact hxs _ hc u hu

theorem housed_of_gives (hforms : ∀ c, (grammar c).forms form = false)
    (hc : ∀ c, (grammar c).houses form owner slot = true) {rule : Rule C} {left : Option Tree}
    {xs : List Tree} (h : Gives grammar rule left xs) (hrule : rule.houses form owner slot = true)
    (hleft : ∀ t, left = some t → t.form ≠ form ∧ AllHoused form owner slot t) :
    ∀ t ∈ xs, AllHoused form owner slot t := by
  have hbare : ∀ t : Tree, none = some t → t.form ≠ form ∧ AllHoused form owner slot t :=
    fun _ ht => nomatch ht
  induction h with
  | take _ _ | glued _ _ _ | nothing _ | none _ _ | ahead _ _ | notAhead _ _ =>
    exact fun t ht => nomatch ht
  | leaf f _ _ l =>
    exact List.forall_mem_singleton.mpr (.node (fun c hc => nomatch hc) fun t ht => nomatch ht)
  | call _ _ ih => exact ih (hc _) hbare
  | sequence _ _ _ ihx ihy =>
    obtain ⟨hx, hy⟩ := Bool.and_eq_true_iff.mp hrule
    exact List.forall_mem_append.mpr ⟨ihx hx hbare, ihy hy hbare⟩
  | first _ _ ih => exact ih (Bool.and_eq_true_iff.mp hrule).1 hleft
  | second _ _ ih => exact ih (Bool.and_eq_true_iff.mp hrule).2 hleft
  | more _ _ _ ihx ihy =>
    exact List.forall_mem_append.mpr ⟨ihx hrule hbare, ihy hrule hbare⟩
  | under s _ _ ih =>
    intro t ht
    obtain ⟨u, hu, rfl⟩ := List.mem_map.mp ht
    exact (ih hrule hbare u hu).under _
  | node f _ _ _ hinner ih =>
    obtain ⟨hself, hrest⟩ := Bool.and_eq_true_iff.mp hrule
    refine List.forall_mem_singleton.mpr (.node (fun c hmem hform => ?_) (ih hrest hbare))
    rcases Bool.or_eq_true_iff.mp hself with hnone | howner
    · exact absurd hform (form_ne_of_gives hforms hinner (by simpa using hnone) c hmem)
    · obtain ⟨hf, hslotted⟩ := Bool.and_eq_true_iff.mp howner
      exact ⟨beq_iff_eq.mp hf, slot_of_slotted hforms hinner hslotted c hmem hform⟩
  | only _ _ _ ih => exact ih hrule hbare
  | base _ _ _ ih =>
    exact ih (Bool.and_eq_true_iff.mp (Bool.and_eq_true_iff.mp hrule).1).2 hbare
  | link _ ht _ iht ihu =>
    obtain ⟨hforms', hlink⟩ := Bool.and_eq_true_iff.mp hrule
    refine ihu hlink fun t heq => ?_
    cases heq
    refine ⟨form_ne_of_gives hforms ht ?_ _ List.mem_cons_self,
      iht hrule hbare _ List.mem_cons_self⟩
    simpa using (Bool.and_eq_true_iff.mp hforms').1
  | @grow f s accepts rule t xs stop _ hinner ih =>
    obtain ⟨hnone, hrest⟩ := Bool.and_eq_true_iff.mp hrule
    obtain ⟨hne, ht⟩ := hleft t rfl
    refine List.forall_mem_singleton.mpr (.node (fun c hmem hform => ?_) ?_)
    · rcases List.mem_cons.mp hmem with rfl | hmem
      · refine absurd ?_ hne
        cases t
        exact hform
      · exact absurd hform (form_ne_of_gives hforms hinner (by simpa using hnone) c hmem)
    · exact List.forall_mem_cons.mpr ⟨ht.under s, ih hrest hbare⟩

end Rule

namespace Grammar
open Rule

theorem forms_constructorBody (c : Category) : (grammar c).forms .constructorBody = false := by
  cases c with
  | level n label =>
    show (level n label).forms _ = false
    unfold level levelLink
    split <;> split <;> rfl
  | operand label => cases label <;> rfl
  | _ => rfl

/-- The bodies of constructors stand in constructors. -/
theorem houses_grammar (c : Category) :
    (grammar c).houses .constructorBody .constructorDeclaration .body = true := by
  cases c with
  | level n label =>
    show (level n label).houses _ _ _ = true
    unfold level levelLink
    split <;> split <;> rfl
  | operand label => cases label <;> rfl
  | _ => rfl

/-- The bodies of constructors stand in constructors throughout a text. -/
theorem housed_rootOf {cs : List Char} {ts : List Tree}
    (h : readAll grammar compilationUnit (Lexer.lex cs) = some ts) :
    AllHoused .constructorBody .constructorDeclaration .body (rootOf cs ts) :=
  housed_of_gives forms_constructorBody houses_grammar
    (.node .program none (Lexer.firstPoint cs) (Point.origin.advance cs) (gives_readAll h)) rfl
    (fun _ ht => nomatch ht) _ List.mem_cons_self

end Grammar

end Retrace.Java
