import Retrace.Proofs.Java.Shapes

/-! What holds of every node and of the lexemes of the text.

Where `Obeys` looks at the trees of a node alone, `Keeps` also looks at the lexemes that the node is
made of. What more lexemes around it do not change then holds of every node among all the lexemes
(`parts_of_makes`). -/
namespace Retrace.Java

/-- All parts of the trees are as told, with these lexemes. -/
def AllParts (P : List Lexeme → Tree → Prop) (ls : List Lexeme) (xs : List Tree) : Prop :=
  ∀ x ∈ xs, ∀ u, Part u x → P ls u

/-- More lexemes around a node and another field for it change nothing. -/
structure Stable (P : List Lexeme → Tree → Prop) : Prop where
  around : ∀ {ls u}, P ls u → ∀ front back, P (front ++ (ls ++ back)) u
  under : ∀ {ls u}, P ls u → ∀ slot, P ls (u.under slot)

section AllParts
variable {P : List Lexeme → Tree → Prop} {ls ms : List Lexeme} {xs ys : List Tree}

theorem allParts_nil (P : List Lexeme → Tree → Prop) (ls : List Lexeme) : AllParts P ls [] :=
  fun _ hx => nomatch hx

/-- A node is as told when it is itself, and its children are. -/
theorem AllParts.node {form : Form} {slot : Option Field} {start stop : Point}
    {word : Option String} (hself : P ls (.node form slot start stop word xs))
    (h : AllParts P ls xs) : AllParts P ls [.node form slot start stop word xs] := by
  intro x hx u hu
  obtain rfl := List.mem_singleton.mp hx
  cases hu with
  | self => exact hself
  | child hc hu => exact h _ hc u hu

section Stable
variable (hP : Stable P)
include hP

theorem AllParts.back (h : AllParts P ms xs) (ls : List Lexeme) : AllParts P (ls ++ ms) xs :=
  fun x hx u hu => by
    have hall := hP.around (h x hx u hu) ls []
    rwa [List.append_nil] at hall

theorem AllParts.append (hx : AllParts P ls xs) (hy : AllParts P ms ys) :
    AllParts P (ls ++ ms) (xs ++ ys) := by
  intro x hmem u hu
  rcases List.mem_append.mp hmem with hmem | hmem
  · exact hP.around (hx x hmem u hu) [] ms
  · exact hy.back hP ls x hmem u hu

theorem AllParts.under (h : AllParts P ls xs) (slot : Option Field) :
    AllParts P ls (xs.map (Tree.under slot)) := by
  intro x hx u hu
  obtain ⟨y, hy, rfl⟩ := List.mem_map.mp hx
  obtain ⟨form, slot', start, stop, word, children⟩ := y
  cases hu with
  | self => exact hP.under (h _ hy _ .self) slot
  | child hc hu => exact h _ hy u (.child hc hu)

end Stable

end AllParts

namespace Rule
variable {C : Type} {grammar : C → Rule C} {P : List Lexeme → Tree → Prop}

/-- The nodes that the rule makes itself are as told, with the lexemes they are made of. A node that
grows is as told whatever it is made of. -/
def Keeps (grammar : C → Rule C) (P : List Lexeme → Tree → Prop) : Rule C → Prop
  | leaf form _ => ∀ l, P [l] (leafOf form l)
  | sequence first second => Keeps grammar P first ∧ Keeps grammar P second
  | either first second => Keeps grammar P first ∧ Keeps grammar P second
  | many rule => Keeps grammar P rule
  | under _ rule => Keeps grammar P rule
  | node form rule =>
    (∀ ls xs start stop, Makes grammar rule none ls xs →
      (∀ l, ls.head? = some l → start = l.start) → P ls (.node form none start stop none xs)) ∧
      Keeps grammar P rule
  | only _ rule => Keeps grammar P rule
  | chain base link => Keeps grammar P base ∧ Keeps grammar P link
  | grow form _ _ rule =>
    (∀ ls start stop xs, P ls (.node form none start stop none xs)) ∧ Keeps grammar P rule
  | _ => True

theorem keeps_of_avoids {some : Form → Bool} (h : ∀ ls u, some u.form = false → P ls u)
    {rule : Rule C} (hrule : rule.avoids some = true) : rule.Keeps grammar P := by
  induction rule with
  | take _ | glued _ _ | nothing | call _ | ahead _ _ | notAhead _ _ => trivial
  | leaf form _ => exact fun _ => h _ _ (show some form = false by simpa [avoids] using hrule)
  | sequence _ _ iha ihb | either _ _ iha ihb | chain _ _ iha ihb =>
    obtain ⟨ha, hb⟩ := Bool.and_eq_true_iff.mp hrule
    exact ⟨iha ha, ihb hb⟩
  | many _ ih | under _ _ ih | only _ _ ih => exact ih hrule
  | node form _ ih =>
    obtain ⟨hform, hinner⟩ := Bool.and_eq_true_iff.mp hrule
    exact ⟨fun _ _ _ _ _ _ => h _ _ (show some form = false by simpa using hform), ih hinner⟩
  | grow form _ _ _ ih =>
    obtain ⟨hform, hinner⟩ := Bool.and_eq_true_iff.mp hrule
    exact ⟨fun _ _ _ _ => h _ _ (show some form = false by simpa using hform), ih hinner⟩

theorem keeps_choice {rules : List (Rule C)} (h : ∀ r ∈ rules, r.Keeps grammar P) :
    (choice rules).Keeps grammar P := by
  induction rules with
  | nil => trivial
  | cons r rs ih =>
    obtain ⟨hr, hrs⟩ := List.forall_mem_cons.mp h
    cases rs with
    | nil => exact hr
    | cons r' rs => exact ⟨hr, ih hrs⟩

/-- Every node made of the lexemes is as told, if the rules keep to it. The tree that a link grows is
made of the lexemes in front. -/
theorem parts_of_makes (hP : Stable P) (hc : ∀ c, (grammar c).Keeps grammar P) {rule : Rule C}
    {left : Option Tree} {ls : List Lexeme} {xs : List Tree} (h : Makes grammar rule left ls xs)
    (hrule : rule.Keeps grammar P) (front : List Lexeme)
    (hleft : ∀ t, left = some t → AllParts P front [t]) : AllParts P (front ++ ls) xs := by
  have hbare : ∀ t : Tree, none = some t → AllParts P [] [t] := fun _ ht => nomatch ht
  induction h generalizing front with
  | take _ _ | glued _ _ _ | nothing _ | none _ _ | ahead _ _ | notAhead _ _ =>
    exact allParts_nil P _
  | leaf _ _ _ => exact (AllParts.node (hrule _) (allParts_nil P _)).back hP front
  | call _ _ ih => exact (ih (hc _) [] hbare).back hP front
  | sequence _ _ _ ihx ihy =>
    exact ((ihx hrule.1 [] hbare).append hP (ihy hrule.2 [] hbare)).back hP front
  | first _ _ ih => exact ih hrule.1 front hleft
  | second _ _ ih => exact ih hrule.2 front hleft
  | more _ _ _ ihx ihy =>
    exact ((ihx hrule [] hbare).append hP (ihy hrule [] hbare)).back hP front
  | under _ _ _ ih => exact ((ih hrule [] hbare).under hP _).back hP front
  | node _ _ hmakes hstart _ ih =>
    exact (AllParts.node (hrule.1 _ _ _ _ hmakes hstart) (ih hrule.2 [] hbare)).back hP front
  | only _ _ _ ih => exact (ih hrule [] hbare).back hP front
  | base _ _ _ ih => exact (ih hrule.1 [] hbare).back hP front
  | link _ _ _ iht ihu =>
    refine AllParts.back hP (ihu hrule.2 _ fun t ht => ?_) front
    cases ht
    exact iht hrule [] hbare
  | @grow _ slot _ _ _ _ _ _ _ _ _ ih =>
    exact .node (hrule.1 _ _ _ _)
      (((hleft _ rfl).under hP slot).append hP (ih hrule.2 [] hbare))

end Rule

end Retrace.Java
