import Mathlib.Data.List.Pairwise
import Mathlib.Logic.Relation
import Retrace.Proofs.Source.Ranges
import Retrace.Source.File

/-! How the nodes of a file lie to one another.

`File.Laid` says what a syntax tree gives: children come after their parent, and every node but the
first has one (`Linked`); children stand inside of it, one after the other (`InOrder`).
`File.Shaped` says of the constructs that run as activations where their bodies stand. Under the
first, of two nodes one lies below the other or their ranges lie apart (`below_or_apart`), so the
ranges tell who is below whom. -/
namespace Retrace.Source.File
open Java

/-- `j` is `i` or lies below it. -/
def Below (f : File) : Nat → Nat → Prop :=
  Relation.ReflTransGen fun i c => c ∈ f.children i

/-- Children stand inside of their parent, one after the other, and take up text. -/
structure InOrder (f : File) : Prop where
  ordered : ∀ i, (f.children i).Pairwise fun a b => (f.range a).Before (f.range b)
  nested : ∀ {i c}, c ∈ f.children i → (f.range i).contains (f.range c) = true
  proper : ∀ {i}, 0 < i → i < f.nodes.size → (f.range i).Proper

/-- A block has its braces around what is in it. -/
def Braced (f : File) : Prop :=
  ∀ {i c}, f.form i = .block → c ∈ f.children i →
    (f.range i).strictlyContains (f.range c) = true

/-- Parents and children agree, and the children under a field are children. -/
structure Linked (f : File) : Prop where
  bounds : ∀ {i c}, c ∈ f.children i → i < c ∧ c < f.nodes.size
  parents : ∀ {i c}, f.parent? c = some i ↔ c ∈ f.children i
  rooted : ∀ {c}, 0 < c → c < f.nodes.size → ∃ i, c ∈ f.children i
  fields : ∀ {i e}, e ∈ (f.node i).fields → e.2 ∈ f.children i
  single : ∀ i, ((f.node i).fields.map Prod.snd).Nodup
  words : ∀ {i}, f.word? i ≠ none → f.form i = .identifier ∧ f.children i = []

structure Laid (f : File) : Prop extends InOrder f, Linked f

/-- The forms whose body ends them. -/
def endsWithBody : Form → Bool
  | .methodDeclaration => true
  | .constructorDeclaration => true
  | .forStatement => true
  | .enhancedForStatement => true
  | .whileStatement => true
  | _ => false

structure Shaped (f : File) : Prop where
  body : ∀ {i b}, endsWithBody (f.form i) = true → f.child? i .body = some b →
    (f.children i).getLast? = some b
  constructor : ∀ {i b}, f.form i = .constructorDeclaration → f.child? i .body = some b →
    f.form b = .constructorBody
  round : ∀ {i b}, f.form i = .doStatement → f.child? i .body = some b →
    ∃ c, f.child? i .condition = some c ∧ f.children i = [b, c]
  initializer : ∀ {i}, f.form i = .staticInitializer → ∃ b, f.children i = [b]
  invocation : ∀ {i c}, f.form i = .block ∨ f.form i = .constructorBody → c ∈ f.children i →
    f.form c = .explicitConstructorInvocation → (f.children i).head? = some c
  declared : ∀ {i type name}, f.form i = .enhancedForStatement → f.child? i .type = some type →
    f.child? i .name = some name → ∃ front back, f.children i = front ++ type :: name :: back

/-- No entry of the second field comes before one of the first. -/
def InTurn (first second : Field) (fields : List (Field × Nat)) : Prop :=
  fields.Pairwise fun d e => d.1 = second → e.1 ≠ first

/-- Fields are listed as the children are, those in the header of a loop in the order in which they
are evaluated. -/
structure Sequenced (f : File) : Prop where
  listed : ∀ i, ((f.node i).fields.map Prod.snd).Sublist (f.children i)
  header : ∀ {i}, f.form i = .forStatement → InTurn .init .condition (f.node i).fields
  element : ∀ {i}, f.form i = .enhancedForStatement → InTurn .name .value (f.node i).fields

/-- Whatever lies below a sibling comes before the next one. -/
def Counted (f : File) : Prop :=
  ∀ i, (f.children i).Pairwise fun c d => ∀ j, f.Below c j → j < d

/-- A body is found under its field, because there is no other one. -/
def OneBody (f : File) : Prop :=
  ∀ {i b}, endsWithBody (f.form i) = true ∨ f.form i = .doStatement →
    (.body, b) ∈ (f.node i).fields → f.child? i .body = some b

variable {f : File}

/-- Of two members of a list one comes before the other. -/
theorem either_of_pairwise {α : Type} {R : α → α → Prop} {l : List α} (h : l.Pairwise R) {a b : α}
    (ha : a ∈ l) (hb : b ∈ l) (hne : a ≠ b) : R a b ∨ R b a := by
  have hsymm : Std.Symm fun a b => R a b ∨ R b a := ⟨fun _ _ h => h.symm⟩
  have heither : l.Pairwise fun a b => R a b ∨ R b a := h.imp Or.inl
  exact heither.forall ha hb hne

/-! ### Who is below whom -/

theorem below_refl (f : File) (i : Nat) : f.Below i i := .refl

theorem Below.trans {i j k : Nat} (hij : f.Below i j) (hjk : f.Below j k) : f.Below i k :=
  Relation.ReflTransGen.trans hij hjk

theorem below_child {i c : Nat} (h : c ∈ f.children i) : f.Below i c := .single h

/-- What lies below a node is the node or lies below one of its children. -/
theorem Below.cases {i j : Nat} (h : f.Below i j) : i = j ∨ ∃ c ∈ f.children i, f.Below c j :=
  Relation.ReflTransGen.cases_head h

section Linked
variable (h : f.Linked)
include h

theorem Linked.child_of_child? {i c : Nat} {slot : Field} (hc : f.child? i slot = some c) :
    c ∈ f.children i := by
  obtain ⟨e, he, rfl⟩ := Option.map_eq_some_iff.mp hc
  exact h.fields (List.mem_of_find?_eq_some he)

theorem Linked.parent_unique {i j c : Nat} (hi : c ∈ f.children i) (hj : c ∈ f.children j) :
    i = j :=
  Option.some.inj ((h.parents.mpr hi).symm.trans (h.parents.mpr hj))

theorem Linked.child_of_childrenUnder {i c : Nat} {slot : Field}
    (hc : c ∈ f.childrenUnder i slot) : c ∈ f.children i := by
  obtain ⟨e, he, rfl⟩ := List.mem_map.mp hc
  exact h.fields (List.mem_filter.mp he).1

/-- The field under which a child is found is its slot. -/
theorem Linked.slot_of_child? {i c : Nat} {slot : Field} (hc : f.child? i slot = some c) :
    f.slot? c = some slot := by
  have hparent := h.parents.mpr (h.child_of_child? hc)
  obtain ⟨e, he, rfl⟩ := Option.map_eq_some_iff.mp hc
  have hslot : e.1 = slot := by simpa using List.find?_some he
  obtain ⟨front, back, hfields, hfront⟩ := (List.find?_eq_some_iff_append.mp he).2
  have hnodup := h.single i
  rw [hfields, List.map_append, List.map_cons] at hnodup
  have hnone : front.find? (fun d => d.2 == e.2) = none := by
    rw [List.find?_eq_none]
    intro d hd heq
    have hmem : e.2 ∈ front.map Prod.snd := List.mem_map.mpr ⟨d, hd, by simpa using heq⟩
    exact (List.nodup_append.mp hnodup).2.2 e.2 hmem e.2 List.mem_cons_self rfl
  unfold slot?
  rw [hparent, Option.bind_some, hfields, List.find?_append, hnone, Option.none_or,
    List.find?_cons_of_pos (by simp), Option.map_some, hslot]

theorem Linked.le_of_below {i j : Nat} (hij : f.Below i j) : i ≤ j := by
  induction hij with
  | refl => exact Nat.le_refl i
  | tail _ hc ih => exact Nat.le_trans ih (Nat.le_of_lt (h.bounds hc).1)

theorem Linked.lt_size_of_below {i j : Nat} (hij : f.Below i j) (hi : i < f.nodes.size) :
    j < f.nodes.size := by
  induction hij with
  | refl => exact hi
  | tail _ hc _ => exact (h.bounds hc).2

theorem Linked.ancestors_child {i c : Nat} (hc : c ∈ f.children i) :
    f.ancestors c = i :: f.ancestors i := by
  rw [ancestors, h.parents.mpr hc]
  exact if_pos (h.bounds hc).1

theorem Linked.mem_ancestors {i j : Nat} (hij : f.Below i j) : i ∈ j :: f.ancestors j := by
  induction hij with
  | refl => exact List.mem_cons_self
  | @tail p c _ hc ih =>
    rw [h.ancestors_child hc]
    exact List.mem_cons_of_mem c ih

/-- What is above a child is the child or is above the parent. -/
theorem Linked.below_parent {p c x : Nat} (hc : c ∈ f.children p) (hx : f.Below x c) :
    x = c ∨ f.Below x p := by
  rcases Relation.ReflTransGen.cases_tail hx with heq | ⟨q, hq, hedge⟩
  · exact .inl heq.symm
  · rw [h.parent_unique hc hedge]
    exact .inr hq

/-- Of two nodes above a third one is above the other. -/
theorem Linked.below_or_below {a b x : Nat} (ha : f.Below a x) (hb : f.Below b x) :
    f.Below a b ∨ f.Below b a := by
  induction ha using Relation.ReflTransGen.head_induction_on with
  | refl => exact .inr hb
  | @head a c hc hcx ih =>
    rcases ih with hcb | hbc
    · exact .inl ((below_child hc).trans hcb)
    · rcases h.below_parent hc hbc with rfl | hba
      · exact .inl (below_child hc)
      · exact .inr hba

/-- Only one child of a node is above another node. -/
theorem Linked.eq_of_below {i c d x : Nat} (hc : c ∈ f.children i) (hd : d ∈ f.children i)
    (hcx : f.Below c x) (hdx : f.Below d x) : c = d := by
  have hup : ∀ {a b : Nat}, a ∈ f.children i → b ∈ f.children i → f.Below a b → a = b := by
    intro a b ha hb hab
    refine (h.below_parent hb hab).resolve_right fun hai => ?_
    exact absurd (h.le_of_below hai) (Nat.not_le_of_lt (h.bounds ha).1)
  rcases h.below_or_below hcx hdx with hcd | hdc
  · exact hup hc hd hcd
  · exact (hup hd hc hdc).symm

theorem Linked.depth_child {i c : Nat} (hc : c ∈ f.children i) : f.depth c = f.depth i + 1 := by
  unfold depth
  rw [h.ancestors_child hc]
  rfl

theorem Linked.below_root {i : Nat} (hi : i < f.nodes.size) : f.Below 0 i := by
  induction i using Nat.strongRecOn with
  | ind i ih =>
    rcases Nat.eq_zero_or_pos i with rfl | hpos
    · exact below_refl f 0
    · obtain ⟨p, hp⟩ := h.rooted hpos hi
      have hlt := (h.bounds hp).1
      exact (ih p hlt (Nat.lt_trans hlt hi)).trans (below_child hp)

end Linked

section Laid
variable (h : f.Laid)
include h

theorem Laid.contains_of_below {i j : Nat} (hij : f.Below i j) :
    (f.range i).contains (f.range j) = true := by
  induction hij with
  | refl => exact Range.contains_refl _
  | tail _ hc ih => exact Range.contains_trans ih (h.nested hc)

theorem Laid.proper_child {i c : Nat} (hc : c ∈ f.children i) : (f.range c).Proper :=
  h.proper (Nat.lt_of_le_of_lt (Nat.zero_le i) (h.bounds hc).1) (h.bounds hc).2

/-- Siblings lie apart. -/
theorem Laid.siblings {i c d : Nat} (hc : c ∈ f.children i) (hd : d ∈ f.children i)
    (hne : c ≠ d) : (f.range c).Apart (f.range d) :=
  either_of_pairwise (h.ordered i) hc hd hne

theorem Laid.before_last {i b c : Nat} {l : List Nat} (hl : l.Sublist (f.children i))
    (hb : l.getLast? = some b) (hc : c ∈ l) : c = b ∨ (f.range c).Before (f.range b) := by
  have hordered := (h.ordered i).sublist hl
  obtain ⟨front, rfl⟩ := List.getLast?_eq_some_iff.mp hb
  rcases List.mem_append.mp hc with hc | hc
  · exact .inr ((List.pairwise_append.mp hordered).2.2 c hc b List.mem_cons_self)
  · exact .inl (List.mem_singleton.mp hc)

theorem Laid.before_of_head {i a c : Nat} (ha : (f.children i).head? = some a)
    (hc : c ∈ f.children i) : c = a ∨ (f.range a).Before (f.range c) := by
  have hordered := h.ordered i
  obtain ⟨rest, hrest⟩ := List.head?_eq_some_iff.mp ha
  rw [hrest] at hordered hc
  rcases List.mem_cons.mp hc with hc | hc
  · exact .inl hc
  · exact .inr ((List.pairwise_cons.mp hordered).1 c hc)

/-- Two nodes are one below the other, or one in front of the other. -/
theorem Laid.below_or_apart_within {r i j : Nat} (hi : f.Below r i) (hj : f.Below r j) :
    f.Below i j ∨ f.Below j i ∨ (f.range i).Apart (f.range j) := by
  induction hi using Relation.ReflTransGen.head_induction_on with
  | refl => exact .inl hj
  | @head r c hc hi ih =>
    rcases hj.cases with rfl | ⟨d, hd, hj⟩
    · exact .inr (.inl ((below_child hc).trans hi))
    · by_cases hcd : c = d
      · subst hcd
        exact ih hj
      · have hapart := h.siblings hc hd hcd
        exact .inr (.inr (hapart.mono (h.contains_of_below hi) (h.contains_of_below hj)))

theorem Laid.below_or_apart {i j : Nat} (hi : i < f.nodes.size) (hj : j < f.nodes.size) :
    f.Below i j ∨ f.Below j i ∨ (f.range i).Apart (f.range j) :=
  h.below_or_apart_within (h.below_root hi) (h.below_root hj)

/-- What lies strictly inside of the range of a node lies below it. -/
theorem Laid.below_of_strictlyContains {i j : Nat} (hi : i < f.nodes.size) (hj : j < f.nodes.size)
    (hij : (f.range i).strictlyContains (f.range j) = true) : f.Below i j ∧ j ≠ i := by
  have hnot : ¬f.Below j i := by
    intro hji
    have hback := Range.contains_of_strictlyContains hij
    rw [Range.contains_antisymm hback (h.contains_of_below hji),
      Range.strictlyContains_irrefl] at hij
    cases hij
  have hne : j ≠ i := fun heq => hnot (heq ▸ below_refl f j)
  rcases h.below_or_apart hi hj with hbelow | hbelow | hapart
  · exact ⟨hbelow, hne⟩
  · exact absurd hbelow hnot
  · have hpos : 0 < j := by
      rcases Nat.eq_zero_or_pos j with rfl | hpos
      · exact absurd (h.below_root hi) hnot
      · exact hpos
    have hback := Range.contains_of_strictlyContains hij
    exact absurd hapart (Range.not_apart_of_contains (h.proper hpos hj) hback)

end Laid

/-! ### Fields in order -/

/-- The entries of the first field and those of the second stand in the list in that order. -/
theorem InTurn.sublist {first second : Field} {fields : List (Field × Nat)}
    (h : InTurn first second fields) (hne : first ≠ second) :
    (fields.filter (fun e => e.1 == first) ++ fields.filter fun e => e.1 == second).Sublist
      fields := by
  induction fields with
  | nil => exact .slnil
  | cons d fields ih =>
    obtain ⟨hd, hfields⟩ := List.pairwise_cons.mp h
    by_cases hfirst : d.1 = first
    · have hsecond : d.1 ≠ second := fun heq => hne (hfirst.symm.trans heq)
      simpa [hfirst, hsecond, hne] using (ih hfields).cons_cons d
    · by_cases hsecond : d.1 = second
      · have hnone : fields.filter (fun e => e.1 == first) = [] :=
          List.filter_eq_nil_iff.mpr fun e he => by simpa using hd e he hsecond
        simp [hnone, hsecond, Ne.symm hne]
      · simpa [hfirst, hsecond] using (ih hfields).cons d

theorem child?_sublist (f : File) (i : Nat) (slot : Field) :
    (f.child? i slot).toList.Sublist (f.childrenUnder i slot) := by
  unfold child? childrenUnder
  rw [← List.head?_filter]
  cases (f.node i).fields.filter fun e => e.1 == slot with
  | nil => exact .slnil
  | cons e rest => exact (List.nil_sublist _).cons_cons e.2

section Sequenced
variable (h : f.Sequenced)
include h

theorem Sequenced.childrenUnder (i : Nat) (slot : Field) :
    (f.childrenUnder i slot).Sublist (f.children i) :=
  (List.filter_sublist.map Prod.snd).trans (h.listed i)

theorem Sequenced.inTurn {i : Nat} {first second : Field}
    (hturn : InTurn first second (f.node i).fields) (hne : first ≠ second) :
    (f.childrenUnder i first ++ (f.child? i second).toList).Sublist (f.children i) := by
  refine ((List.Sublist.refl _).append (f.child?_sublist i second)).trans ?_
  unfold File.childrenUnder
  rw [← List.map_append]
  exact ((hturn.sublist hne).map Prod.snd).trans (h.listed i)

end Sequenced

end Retrace.Source.File
