import Retrace.Proofs.Java.Making

/-! What a rule can give.

`Gives` says which trees a rule can give, whatever the lexemes are: it is `Makes` without the
lexemes. What is shown by induction on it holds of every tree that a grammar reads
(`gives_readAll`). The checks of the second part can be computed from a rule: under which fields
and in which forms it may give trees, and whether it gives more than one. -/
namespace Retrace.Java.Rule
variable {C : Type}

/-- A rule may give these trees; a link of a chain grows the tree in front of them. -/
inductive Gives (grammar : C → Rule C) : Rule C → Option Tree → List Tree → Prop
  | take (accepts : Lexeme → Bool) (left : Option Tree) : Gives grammar (take accepts) left []
  | glued (texts notBefore : List String) (left : Option Tree) :
    Gives grammar (glued texts notBefore) left []
  | leaf (form : Form) (accepts : Lexeme → Bool) (left : Option Tree) (l : Lexeme) :
    Gives grammar (leaf form accepts) left [leafOf form l]
  | nothing (left : Option Tree) : Gives grammar nothing left []
  | call {category : C} (left : Option Tree) {xs : List Tree} :
    Gives grammar (grammar category) none xs → Gives grammar (call category) left xs
  | sequence {first second : Rule C} (left : Option Tree) {xs ys : List Tree} :
    Gives grammar first none xs → Gives grammar second none ys →
    Gives grammar (sequence first second) left (xs ++ ys)
  | first {first : Rule C} (second : Rule C) {left : Option Tree} {xs : List Tree} :
    Gives grammar first left xs → Gives grammar (either first second) left xs
  | second (first : Rule C) {second : Rule C} {left : Option Tree} {xs : List Tree} :
    Gives grammar second left xs → Gives grammar (either first second) left xs
  | none (rule : Rule C) (left : Option Tree) : Gives grammar (many rule) left []
  | more {rule : Rule C} (left : Option Tree) {xs ys : List Tree} :
    Gives grammar rule none xs → Gives grammar (many rule) none ys →
    Gives grammar (many rule) left (xs ++ ys)
  | under (slot : Field) {rule : Rule C} (left : Option Tree) {xs : List Tree} :
    Gives grammar rule none xs →
    Gives grammar (under slot rule) left (xs.map (Tree.under (some slot)))
  | node (form : Form) {rule : Rule C} (left : Option Tree) {xs : List Tree} (start stop : Point) :
    Gives grammar rule none xs →
    Gives grammar (node form rule) left [.node form none start stop none xs]
  | only {accepts : Form → Bool} {rule : Rule C} (left : Option Tree) {xs : List Tree} :
    Gives grammar rule none xs → (∀ t ∈ xs, accepts t.form = true) →
    Gives grammar (only accepts rule) left xs
  | ahead (rule : Rule C) (left : Option Tree) : Gives grammar (ahead rule) left []
  | notAhead (rule : Rule C) (left : Option Tree) : Gives grammar (notAhead rule) left []
  | base {base : Rule C} (link : Rule C) (left : Option Tree) {t : Tree} :
    Gives grammar base none [t] → Gives grammar (chain base link) left [t]
  | link {base link : Rule C} (left : Option Tree) {t u : Tree} :
    Gives grammar (chain base link) none [t] → Gives grammar link (some t) [u] →
    Gives grammar (chain base link) left [u]
  | grow {form : Form} {slot : Option Field} {accepts : Form → Bool} {rule : Rule C} {t : Tree}
    {xs : List Tree} (stop : Point) : accepts t.form = true → Gives grammar rule none xs →
    Gives grammar (grow form slot accepts rule) (some t)
      [.node form none t.start stop none (t.under slot :: xs)]

variable {grammar : C → Rule C}

/-- What is made of lexemes is given. -/
theorem Makes.gives {rule : Rule C} {left : Option Tree} {ls : List Lexeme} {xs : List Tree}
    (h : Makes grammar rule left ls xs) : Gives grammar rule left xs := by
  induction h with
  | take left _ => exact .take _ left
  | glued notBefore left _ => exact .glued _ notBefore left
  | leaf form left _ => exact .leaf form _ left _
  | nothing left => exact .nothing left
  | call left _ ih => exact .call left ih
  | sequence left _ _ ihx ihy => exact .sequence left ihx ihy
  | first second _ ih => exact .first second ih
  | second first _ ih => exact .second first ih
  | none rule left => exact .none rule left
  | more left _ _ ihx ihy => exact .more left ihx ihy
  | under slot left _ ih => exact .under slot left ih
  | node form left _ _ _ ih => exact .node form left _ _ ih
  | only left _ hall ih => exact .only left ih hall
  | ahead rule left => exact .ahead rule left
  | notAhead rule left => exact .notAhead rule left
  | base link left _ ih => exact .base link left ih
  | link left _ _ iht ihu => exact .link left iht ihu
  | grow haccepts _ _ ih => exact .grow _ haccepts ih

theorem gives_readAll {rule : Rule C} {ls : List Lexeme} {ts : List Tree}
    (h : readAll grammar rule ls = some ts) : Gives grammar rule none ts :=
  (makes_readAll h).gives

/-! ### Checks -/

/-- Some tree may stand under the field. -/
def slots (slot : Field) : Rule C → Bool
  | sequence first second => slots slot first || slots slot second
  | either first second => slots slot first || slots slot second
  | many rule => slots slot rule
  | under s _ => s == slot
  | only _ rule => slots slot rule
  | chain base link => slots slot base || slots slot link
  | _ => false

/-- Some tree may have the form. -/
def forms (form : Form) : Rule C → Bool
  | leaf f _ => f == form
  | sequence first second => forms form first || forms form second
  | either first second => forms form first || forms form second
  | many rule => forms form rule
  | under _ rule => forms form rule
  | node f _ => f == form
  | only _ rule => forms form rule
  | chain base link => forms form base || forms form link
  | grow f _ _ _ => f == form
  | _ => false

/-- No tree is given. -/
def silent : Rule C → Bool
  | take _ => true
  | glued _ _ => true
  | nothing => true
  | sequence first second => silent first && silent second
  | either first second => silent first && silent second
  | many rule => silent rule
  | under _ rule => silent rule
  | only _ rule => silent rule
  | ahead _ => true
  | notAhead _ => true
  | _ => false

/-- At most one tree is given, if that holds of some categories. -/
def single (one : C → Bool) : Rule C → Bool
  | call category => one category
  | sequence first second =>
    (silent first && single one second) || (single one first && silent second)
  | either first second => single one first && single one second
  | many rule => silent rule
  | under _ rule => single one rule
  | only _ rule => single one rule
  | _ => true

theorem slot_ne_of_gives {slot : Field} (hc : ∀ c, (grammar c).slots slot = false)
    {rule : Rule C} {left : Option Tree} {xs : List Tree} (h : Gives grammar rule left xs)
    (hrule : rule.slots slot = false) : ∀ t ∈ xs, t.slot ≠ some slot := by
  induction h with
  | take _ _ | glued _ _ _ | nothing _ | none _ _ | ahead _ _ | notAhead _ _ =>
    exact fun t ht => nomatch ht
  | leaf form _ _ l =>
    refine List.forall_mem_singleton.mpr ?_
    exact fun h => nomatch h
  | call _ _ ih => exact ih (hc _)
  | sequence _ _ _ ihx ihy =>
    obtain ⟨hx, hy⟩ := Bool.or_eq_false_iff.mp hrule
    exact List.forall_mem_append.mpr ⟨ihx hx, ihy hy⟩
  | first _ _ ih => exact ih (Bool.or_eq_false_iff.mp hrule).1
  | second _ _ ih => exact ih (Bool.or_eq_false_iff.mp hrule).2
  | more _ _ _ ihx ihy => exact List.forall_mem_append.mpr ⟨ihx hrule, ihy hrule⟩
  | under s _ _ _ =>
    intro t ht
    obtain ⟨u, _, rfl⟩ := List.mem_map.mp ht
    cases u
    intro heq
    rw [slots, Option.some.inj heq] at hrule
    simp at hrule
  | node _ _ _ _ _ _ =>
    refine List.forall_mem_singleton.mpr ?_
    exact fun h => nomatch h
  | only _ _ _ ih => exact ih hrule
  | base _ _ _ ih => exact ih (Bool.or_eq_false_iff.mp hrule).1
  | link _ _ _ _ ih => exact ih (Bool.or_eq_false_iff.mp hrule).2
  | grow _ _ _ _ =>
    refine List.forall_mem_singleton.mpr ?_
    exact fun h => nomatch h

theorem form_ne_of_gives {form : Form} (hc : ∀ c, (grammar c).forms form = false)
    {rule : Rule C} {left : Option Tree} {xs : List Tree} (h : Gives grammar rule left xs)
    (hrule : rule.forms form = false) : ∀ t ∈ xs, t.form ≠ form := by
  induction h with
  | take _ _ | glued _ _ _ | nothing _ | none _ _ | ahead _ _ | notAhead _ _ =>
    exact fun t ht => nomatch ht
  | leaf f _ _ l =>
    refine List.forall_mem_singleton.mpr ?_
    show f ≠ form
    simpa [forms] using hrule
  | call _ _ ih => exact ih (hc _)
  | sequence _ _ _ ihx ihy =>
    obtain ⟨hx, hy⟩ := Bool.or_eq_false_iff.mp hrule
    exact List.forall_mem_append.mpr ⟨ihx hx, ihy hy⟩
  | first _ _ ih => exact ih (Bool.or_eq_false_iff.mp hrule).1
  | second _ _ ih => exact ih (Bool.or_eq_false_iff.mp hrule).2
  | more _ _ _ ihx ihy => exact List.forall_mem_append.mpr ⟨ihx hrule, ihy hrule⟩
  | under s _ _ ih =>
    intro t ht
    obtain ⟨u, hu, rfl⟩ := List.mem_map.mp ht
    have hform := ih hrule u hu
    cases u
    exact hform
  | node f _ _ _ _ _ =>
    refine List.forall_mem_singleton.mpr ?_
    show f ≠ form
    simpa [forms] using hrule
  | only _ _ _ ih => exact ih hrule
  | base _ _ _ ih => exact ih (Bool.or_eq_false_iff.mp hrule).1
  | link _ _ _ _ ih => exact ih (Bool.or_eq_false_iff.mp hrule).2
  | @grow f _ _ _ _ _ _ _ _ _ =>
    refine List.forall_mem_singleton.mpr ?_
    show f ≠ form
    simpa [forms] using hrule

theorem nil_of_silent {rule : Rule C} {left : Option Tree} {xs : List Tree}
    (h : Gives grammar rule left xs) (hrule : rule.silent = true) : xs = [] := by
  induction h with
  | take _ _ | glued _ _ _ | nothing _ | none _ _ | ahead _ _ | notAhead _ _ => rfl
  | leaf _ _ _ _ | call _ _ _ | node _ _ _ _ _ _ => cases hrule
  | base _ _ _ _ | link _ _ _ _ _ | grow _ _ _ _ => cases hrule
  | sequence _ _ _ ihx ihy =>
    obtain ⟨hx, hy⟩ := Bool.and_eq_true_iff.mp hrule
    rw [ihx hx, ihy hy, List.append_nil]
  | first _ _ ih => exact ih (Bool.and_eq_true_iff.mp hrule).1
  | second _ _ ih => exact ih (Bool.and_eq_true_iff.mp hrule).2
  | more _ _ _ ihx ihy => rw [ihx hrule, ihy hrule, List.append_nil]
  | under _ _ _ ih => rw [ih hrule, List.map_nil]
  | only _ _ _ ih => exact ih hrule

theorem length_le_of_single {one : C → Bool}
    (hc : ∀ c, one c = true → (grammar c).single one = true) {rule : Rule C}
    {left : Option Tree} {xs : List Tree} (h : Gives grammar rule left xs)
    (hrule : rule.single one = true) : xs.length ≤ 1 := by
  induction h with
  | take _ _ | glued _ _ _ | nothing _ | none _ _ | ahead _ _ | notAhead _ _ =>
    exact Nat.zero_le 1
  | leaf _ _ _ _ | node _ _ _ _ _ _ | base _ _ _ _ | link _ _ _ _ _ | grow _ _ _ _ =>
    exact Nat.le_refl 1
  | call _ _ ih => exact ih (hc _ hrule)
  | sequence _ hx hy ihx ihy =>
    rw [List.length_append]
    rcases Bool.or_eq_true_iff.mp hrule with hrule | hrule
    · obtain ⟨hsilent, hsingle⟩ := Bool.and_eq_true_iff.mp hrule
      rw [nil_of_silent hx hsilent, List.length_nil, Nat.zero_add]
      exact ihy hsingle
    · obtain ⟨hsingle, hsilent⟩ := Bool.and_eq_true_iff.mp hrule
      rw [nil_of_silent hy hsilent, List.length_nil]
      exact ihx hsingle
  | first _ _ ih => exact ih (Bool.and_eq_true_iff.mp hrule).1
  | second _ _ ih => exact ih (Bool.and_eq_true_iff.mp hrule).2
  | more _ hx hy _ _ =>
    rw [nil_of_silent hx hrule, nil_of_silent hy hrule]
    exact Nat.zero_le 1
  | under _ _ _ ih =>
    rw [List.length_map]
    exact ih hrule
  | only _ _ _ ih => exact ih hrule

/-- Exactly one tree is given, if that holds of some categories. -/
def lone (one : C → Bool) : Rule C → Bool
  | leaf _ _ => true
  | call category => one category
  | sequence first second =>
    (silent first && lone one second) || (lone one first && silent second)
  | either first second => lone one first && lone one second
  | under _ rule => lone one rule
  | node _ _ => true
  | only _ rule => lone one rule
  | chain _ _ => true
  | grow _ _ _ _ => true
  | _ => false

theorem eq_single_of_lone {one : C → Bool} (hc : ∀ c, one c = true → (grammar c).lone one = true)
    {rule : Rule C} {left : Option Tree} {xs : List Tree} (h : Gives grammar rule left xs)
    (hrule : rule.lone one = true) : ∃ t, xs = [t] := by
  induction h with
  | take _ _ | glued _ _ _ | nothing _ | none _ _ | ahead _ _ | notAhead _ _ => cases hrule
  | more _ _ _ _ _ => cases hrule
  | leaf _ _ _ _ | node _ _ _ _ _ _ | base _ _ _ _ | link _ _ _ _ _ | grow _ _ _ _ =>
    exact ⟨_, rfl⟩
  | call _ _ ih => exact ih (hc _ hrule)
  | sequence _ hx hy ihx ihy =>
    rcases Bool.or_eq_true_iff.mp hrule with hrule | hrule
    · obtain ⟨hsilent, hlone⟩ := Bool.and_eq_true_iff.mp hrule
      rw [nil_of_silent hx hsilent, List.nil_append]
      exact ihy hlone
    · obtain ⟨hlone, hsilent⟩ := Bool.and_eq_true_iff.mp hrule
      rw [nil_of_silent hy hsilent, List.append_nil]
      exact ihx hlone
  | first _ _ ih => exact ih (Bool.and_eq_true_iff.mp hrule).1
  | second _ _ ih => exact ih (Bool.and_eq_true_iff.mp hrule).2
  | under s _ _ ih =>
    obtain ⟨t, rfl⟩ := ih hrule
    exact ⟨t.under (some s), rfl⟩
  | only _ _ _ ih => exact ih hrule

/-! ### Parts of a sequence -/

theorem gives_of_silent_first {first second : Rule C} {left : Option Tree} {xs : List Tree}
    (h : Gives grammar (sequence first second) left xs) (hfirst : first.silent = true) :
    Gives grammar second none xs := by
  cases h with
  | sequence _ hx hy =>
    rw [nil_of_silent hx hfirst, List.nil_append]
    exact hy

theorem gives_of_silent_second {first second : Rule C} {left : Option Tree} {xs : List Tree}
    (h : Gives grammar (sequence first second) left xs) (hsecond : second.silent = true) :
    Gives grammar first none xs := by
  cases h with
  | sequence _ hx hy =>
    rw [nil_of_silent hy hsecond, List.append_nil]
    exact hx

theorem gives_enclosed {opening closing : String} {rule : Rule C} {left : Option Tree}
    {xs : List Tree} (h : Gives grammar (enclosed opening closing rule) left xs) :
    Gives grammar rule none xs :=
  gives_of_silent_second (gives_of_silent_first h rfl) rfl

end Retrace.Java.Rule
