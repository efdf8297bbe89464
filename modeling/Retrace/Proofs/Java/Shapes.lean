import Retrace.Java.Grammar
import Retrace.Proofs.Java.Giving
import Retrace.Proofs.Java.Spans

/-! The shapes of Java nodes.

`Shape` says how the constructs that run as activations hold their parts: bodies end them, the
header of a loop is in the order in which it runs, the round of a `do` loop stands in front of its
condition, and the call of another constructor comes first in its body. Every node that the grammar
gives has its shape (`parts_of_gives`). Most rules have nothing to say about these forms, which a
check of the rule tells; the others are looked at one by one. -/
namespace Retrace.Java

def Tree.word : Tree → Option String
  | node _ _ _ _ w _ => w

/-- `u` is `t` or stands somewhere inside of it. -/
inductive Part (u : Tree) : Tree → Prop
  | self : Part u u
  | child {t c : Tree} : c ∈ t.children → Part u c → Part u t

namespace Rule
variable {C : Type}

/-! ### What holds of every node -/

/-- Every node that the rule makes itself satisfies `P`. -/
def Obeys (grammar : C → Rule C) (P : Form → List Tree → Prop) : Rule C → Prop
  | leaf form _ => P form []
  | sequence first second => Obeys grammar P first ∧ Obeys grammar P second
  | either first second => Obeys grammar P first ∧ Obeys grammar P second
  | many rule => Obeys grammar P rule
  | under _ rule => Obeys grammar P rule
  | node form rule => (∀ xs, Gives grammar rule none xs → P form xs) ∧ Obeys grammar P rule
  | only _ rule => Obeys grammar P rule
  | chain base link => Obeys grammar P base ∧ Obeys grammar P link
  | grow form slot _ rule =>
    (∀ (t : Tree) xs, Gives grammar rule none xs → P form (t.under slot :: xs)) ∧
      Obeys grammar P rule
  | _ => True

/-- None of the nodes that the rule makes itself has such a form. -/
def avoids (some : Form → Bool) : Rule C → Bool
  | leaf form _ => !some form
  | sequence first second => avoids some first && avoids some second
  | either first second => avoids some first && avoids some second
  | many rule => avoids some rule
  | under _ rule => avoids some rule
  | node form rule => !some form && avoids some rule
  | only _ rule => avoids some rule
  | chain base link => avoids some base && avoids some link
  | grow form _ _ rule => !some form && avoids some rule
  | _ => true

variable {grammar : C → Rule C} {P : Form → List Tree → Prop}

theorem obeys_of_avoids {some : Form → Bool} (h : ∀ form xs, some form = false → P form xs)
    {rule : Rule C} (hrule : rule.avoids some = true) : rule.Obeys grammar P := by
  induction rule with
  | take _ | glued _ _ | nothing | call _ | ahead _ _ | notAhead _ _ => trivial
  | leaf form _ => exact h form [] (by simpa [avoids] using hrule)
  | sequence _ _ iha ihb =>
    obtain ⟨ha, hb⟩ := Bool.and_eq_true_iff.mp hrule
    exact ⟨iha ha, ihb hb⟩
  | either _ _ iha ihb =>
    obtain ⟨ha, hb⟩ := Bool.and_eq_true_iff.mp hrule
    exact ⟨iha ha, ihb hb⟩
  | many _ ih => exact ih hrule
  | under _ _ ih => exact ih hrule
  | node form _ ih =>
    obtain ⟨hform, hinner⟩ := Bool.and_eq_true_iff.mp hrule
    exact ⟨fun xs _ => h form xs (by simpa using hform), ih hinner⟩
  | only _ _ ih => exact ih hrule
  | chain _ _ iha ihb =>
    obtain ⟨ha, hb⟩ := Bool.and_eq_true_iff.mp hrule
    exact ⟨iha ha, ihb hb⟩
  | grow form _ _ _ ih =>
    obtain ⟨hform, hinner⟩ := Bool.and_eq_true_iff.mp hrule
    exact ⟨fun t xs _ => h form _ (by simpa using hform), ih hinner⟩

theorem fences_of_avoids {rule : Rule C} (hrule : rule.avoids fenced = true) : rule.Fences := by
  induction rule with
  | take _ | glued _ _ | nothing | call _ | ahead _ _ | notAhead _ _ => trivial
  | leaf form _ => simpa [avoids, Fences] using hrule
  | sequence _ _ iha ihb =>
    obtain ⟨ha, hb⟩ := Bool.and_eq_true_iff.mp hrule
    exact ⟨iha ha, ihb hb⟩
  | either _ _ iha ihb =>
    obtain ⟨ha, hb⟩ := Bool.and_eq_true_iff.mp hrule
    exact ⟨iha ha, ihb hb⟩
  | many _ ih => exact ih hrule
  | under _ _ ih => exact ih hrule
  | node form _ ih =>
    obtain ⟨hform, hinner⟩ := Bool.and_eq_true_iff.mp hrule
    refine ⟨fun h => ?_, ih hinner⟩
    rw [h] at hform
    cases hform
  | only _ _ ih => exact ih hrule
  | chain _ _ iha ihb =>
    obtain ⟨ha, hb⟩ := Bool.and_eq_true_iff.mp hrule
    exact ⟨iha ha, ihb hb⟩
  | grow form _ _ _ ih =>
    obtain ⟨hform, hinner⟩ := Bool.and_eq_true_iff.mp hrule
    exact ⟨by simpa using hform, ih hinner⟩

theorem fences_choice {rules : List (Rule C)} (h : ∀ r ∈ rules, r.Fences) :
    (choice rules).Fences := by
  induction rules with
  | nil => trivial
  | cons r rs ih =>
    obtain ⟨hr, hrs⟩ := List.forall_mem_cons.mp h
    cases rs with
    | nil => exact hr
    | cons r' rs => exact ⟨hr, ih hrs⟩

theorem obeys_choice {rules : List (Rule C)} (h : ∀ r ∈ rules, r.Obeys grammar P) :
    (choice rules).Obeys grammar P := by
  induction rules with
  | nil => trivial
  | cons r rs ih =>
    obtain ⟨hr, hrs⟩ := List.forall_mem_cons.mp h
    cases rs with
    | nil => exact hr
    | cons r' rs => exact ⟨hr, ih hrs⟩

/-- The node satisfies `P` and has a word only as an identifier. -/
structure Sound (P : Form → List Tree → Prop) (t : Tree) : Prop where
  shape : P t.form t.children
  word : t.word ≠ none → t.form = .identifier ∧ t.children = []

theorem word_leafOf {form : Form} {l : Lexeme} (h : (leafOf form l).word ≠ none) :
    form = .identifier := by
  unfold leafOf Tree.word wordOf at h
  dsimp only at h
  split at h
  · rename_i heq
    simpa using heq
  · exact absurd rfl h

/-- In a grammar that obeys, every node of what it gives satisfies `P`. -/
theorem parts_of_gives (hc : ∀ c, (grammar c).Obeys grammar P) {rule : Rule C}
    {left : Option Tree} {xs : List Tree} (h : Gives grammar rule left xs)
    (hrule : rule.Obeys grammar P)
    (hleft : ∀ t, left = some t → ∀ u, Part u t → Sound P u) :
    ∀ t ∈ xs, ∀ u, Part u t → Sound P u := by
  have hbare : ∀ t : Tree, none = some t → ∀ u, Part u t → Sound P u :=
    fun _ ht => nomatch ht
  have hunder : ∀ {slot : Option Field} {t : Tree}, (∀ u, Part u t → Sound P u) →
      ∀ u, Part u (t.under slot) → Sound P u := by
    intro slot t ht u hu
    obtain ⟨form, s, start, stop, word, children⟩ := t
    cases hu with
    | self =>
      obtain ⟨hshape, hword⟩ := ht (.node form s start stop word children) .self
      exact ⟨hshape, hword⟩
    | child hc hu => exact ht u (.child hc hu)
  induction h with
  | take _ _ | glued _ _ _ | nothing _ | none _ _ | ahead _ _ | notAhead _ _ =>
    exact fun t ht => nomatch ht
  | leaf form _ _ l =>
    refine List.forall_mem_singleton.mpr fun u hu => ?_
    cases hu with
    | self => exact ⟨hrule, fun h => ⟨word_leafOf h, rfl⟩⟩
    | child hc _ => cases hc
  | call _ _ ih => exact ih (hc _) hbare
  | sequence _ _ _ ihx ihy =>
    exact List.forall_mem_append.mpr ⟨ihx hrule.1 hbare, ihy hrule.2 hbare⟩
  | first _ _ ih => exact ih hrule.1 hleft
  | second _ _ ih => exact ih hrule.2 hleft
  | more _ _ _ ihx ihy =>
    exact List.forall_mem_append.mpr ⟨ihx hrule hbare, ihy hrule hbare⟩
  | under s _ _ ih =>
    intro t ht
    obtain ⟨t', ht', rfl⟩ := List.mem_map.mp ht
    exact hunder (ih hrule hbare t' ht')
  | node form _ _ _ hinner ih =>
    refine List.forall_mem_singleton.mpr fun u hu => ?_
    cases hu with
    | self => exact ⟨hrule.1 _ hinner, fun h => absurd rfl h⟩
    | child hc hu => exact ih hrule.2 hbare _ hc u hu
  | only _ _ _ ih => exact ih hrule hbare
  | base _ _ _ ih => exact ih hrule.1 hbare
  | link _ _ _ iht ihu =>
    exact ihu hrule.2 fun t ht => by
      cases ht
      exact iht hrule hbare _ List.mem_cons_self
  | @grow form slot accepts rule t xs stop _ hinner ih =>
    refine List.forall_mem_singleton.mpr fun u hu => ?_
    cases hu with
    | self => exact ⟨hrule.1 t _ hinner, fun h => absurd rfl h⟩
    | child hc hu =>
      rcases List.mem_cons.mp hc with rfl | hc
      · exact hunder (hleft t rfl) u hu
      · exact ih hrule.2 hbare _ hc u hu

/-! ### What comes last -/

/-- Only the last tree can stand under the field. -/
def lastOnly (slot : Field) (one : C → Bool) : Rule C → Bool
  | sequence first second =>
    (!slots slot first && lastOnly slot one second) ||
      (lastOnly slot one first && silent second)
  | either first second => lastOnly slot one first && lastOnly slot one second
  | rule => !slots slot rule || single one rule

theorem dropLast_of_lastOnly {slot : Field} {one : C → Bool}
    (hslot : ∀ c, (grammar c).slots slot = false)
    (hone : ∀ c, one c = true → (grammar c).single one = true) {rule : Rule C}
    {xs : List Tree} (h : Gives grammar rule none xs) (hrule : rule.lastOnly slot one = true) :
    ∀ t ∈ xs.dropLast, t.slot ≠ some slot := by
  have hbase : ∀ {rule : Rule C} {xs : List Tree}, Gives grammar rule none xs →
      (!rule.slots slot || rule.single one) = true → ∀ t ∈ xs.dropLast, t.slot ≠ some slot := by
    intro rule xs h hrule
    rcases Bool.or_eq_true_iff.mp hrule with hfree | hsingle
    · intro t ht
      exact slot_ne_of_gives hslot h (by simpa using hfree) t (List.dropLast_subset xs ht)
    · have hlength := length_le_of_single hone h hsingle
      intro t ht
      have hpos := List.length_pos_of_mem ht
      rw [List.length_dropLast] at hpos
      omega
  induction rule generalizing xs with
  | sequence first second iha ihb =>
    cases h with
    | sequence _ hx hy =>
      rcases Bool.or_eq_true_iff.mp hrule with hrule | hrule
      · obtain ⟨hfree, hlast⟩ := Bool.and_eq_true_iff.mp hrule
        rename_i xs ys
        have hfront := slot_ne_of_gives hslot hx (by simpa using hfree)
        by_cases hnil : ys = []
        · rw [hnil, List.append_nil]
          exact fun t ht => hfront t (List.dropLast_subset xs ht)
        · rw [List.dropLast_append_of_ne_nil hnil]
          exact List.forall_mem_append.mpr ⟨hfront, ihb hy hlast⟩
      · obtain ⟨hlast, hsilent⟩ := Bool.and_eq_true_iff.mp hrule
        rw [nil_of_silent hy hsilent, List.append_nil]
        exact iha hx hlast
  | either first second iha ihb =>
    obtain ⟨ha, hb⟩ := Bool.and_eq_true_iff.mp hrule
    cases h with
    | first _ h => exact iha h ha
    | second _ h => exact ihb h hb
  | _ => exact hbase h hrule

/-! ### What comes first -/

/-- No tree under the second field comes before one under the first. -/
def InTurn (a b : Field) (ts : List Tree) : Prop :=
  ts.Pairwise fun t u => t.slot = some b → u.slot ≠ some a

/-- Trees under the second field can only come behind those under the first. -/
def inTurn (a b : Field) : Rule C → Bool
  | sequence first second =>
    (!slots b first || !slots a second) && inTurn a b first && inTurn a b second
  | either first second => inTurn a b first && inTurn a b second
  | rule => !slots a rule || !slots b rule

theorem inTurn_of_gives (hslot : ∀ slot c, (grammar c).slots slot = false) {a b : Field}
    {rule : Rule C} {xs : List Tree} (h : Gives grammar rule none xs)
    (hrule : rule.inTurn a b = true) : InTurn a b xs := by
  have hfree : ∀ {rule : Rule C} {slot : Field} {xs : List Tree}, Gives grammar rule none xs →
      (!rule.slots slot) = true → ∀ t ∈ xs, t.slot ≠ some slot :=
    fun h hfree => slot_ne_of_gives (hslot _) h (by simpa using hfree)
  have hbase : ∀ {rule : Rule C} {xs : List Tree}, Gives grammar rule none xs →
      (!rule.slots a || !rule.slots b) = true → InTurn a b xs := by
    intro rule xs h hrule
    refine List.pairwise_of_forall_mem_list fun t ht u hu hb => ?_
    rcases Bool.or_eq_true_iff.mp hrule with ha | hb'
    · exact hfree h ha u hu
    · exact absurd hb (hfree h hb' t ht)
  induction rule generalizing xs with
  | sequence first second iha ihb =>
    obtain ⟨hrule, hsecond⟩ := Bool.and_eq_true_iff.mp hrule
    obtain ⟨hbetween, hfirst⟩ := Bool.and_eq_true_iff.mp hrule
    cases h with
    | sequence _ hx hy =>
      refine List.pairwise_append.mpr ⟨iha hx hfirst, ihb hy hsecond, fun t ht u hu hb => ?_⟩
      rcases Bool.or_eq_true_iff.mp hbetween with hb' | ha
      · exact absurd hb (hfree hx hb' t ht)
      · exact hfree hy ha u hu
  | either first second iha ihb =>
    obtain ⟨ha, hb⟩ := Bool.and_eq_true_iff.mp hrule
    cases h with
    | first _ h => exact iha h ha
    | second _ h => exact ihb h hb
  | _ => exact hbase h hrule

end Rule

/-! ### The shapes -/

/-- Whatever stands under the field of a body comes last. -/
def EndsWithBody (ts : List Tree) : Prop := ∀ t ∈ ts.dropLast, t.slot ≠ some .body

/-- The type of a loop variable stands right in front of its name. -/
def DeclaresVariable (ts : List Tree) : Prop :=
  ∃ front type name back, ts = front ++ type :: name :: back ∧ type.slot = some .type ∧
    name.slot = some .name ∧ ∀ t ∈ front, t.slot ≠ some .type ∧ t.slot ≠ some .name

/-- A round is followed by its condition only. -/
def IsRound (ts : List Tree) : Prop :=
  (∃ t ∈ ts, t.slot = some .body) →
    ∃ b c, ts = [b, c] ∧ b.slot = some .body ∧ c.slot = some .condition

def Shape : Form → List Tree → Prop
  | .methodDeclaration, ts => EndsWithBody ts
  | .constructorDeclaration, ts =>
    EndsWithBody ts ∧ ∀ t ∈ ts, t.slot = some .body → t.form = .constructorBody
  | .forStatement, ts => EndsWithBody ts ∧ Rule.InTurn .init .condition ts
  | .enhancedForStatement, ts =>
    EndsWithBody ts ∧ DeclaresVariable ts ∧ Rule.InTurn .name .value ts
  | .whileStatement, ts => EndsWithBody ts
  | .doStatement, ts => IsRound ts
  | .staticInitializer, ts => ∃ b, ts = [b]
  | .block, ts => ∀ t ∈ ts.tail, t.form ≠ .explicitConstructorInvocation
  | .constructorBody, ts => ∀ t ∈ ts.tail, t.form ≠ .explicitConstructorInvocation
  | _, _ => True

/-- The forms that have a shape. -/
def shaped : Form → Bool
  | .methodDeclaration => true
  | .constructorDeclaration => true
  | .forStatement => true
  | .enhancedForStatement => true
  | .whileStatement => true
  | .doStatement => true
  | .staticInitializer => true
  | .block => true
  | .constructorBody => true
  | _ => false

theorem shape_of_not_shaped (form : Form) (ts : List Tree) (h : shaped form = false) :
    Shape form ts := by
  unfold Shape
  split <;> first | cases h | trivial

namespace Grammar
open Rule

/-- The categories of at most one node. -/
def one : Category → Bool
  | .block => true
  | .switch => true
  | .statement => true
  | .typeDeclaration => true
  | _ => false

/-- The categories of exactly one node. -/
def lones : Category → Bool
  | .block => true
  | .parenthesized => true
  | .plainType => true
  | _ => false

theorem lone_lones (c : Category) (h : lones c = true) : (grammar c).lone lones = true := by
  cases c <;> first | rfl | cases h

theorem single_one (c : Category) (h : one c = true) : (grammar c).single one = true := by
  cases c <;> first | rfl | cases h

/-- A check that fails on calls and on grown nodes fails on every level of precedence. -/
theorem slots_level (slot : Field) (n : Nat) (label : Bool) :
    (level n label).slots slot = false := by
  unfold level levelLink
  split <;> split <;> rfl

theorem slots_grammar (slot : Field) (c : Category) : (grammar c).slots slot = false := by
  cases c with
  | level n label => exact slots_level slot n label
  | operand label => cases label <;> rfl
  | _ => rfl

theorem forms_grammar (c : Category) :
    (grammar c).forms .explicitConstructorInvocation = false := by
  cases c with
  | level n label =>
    show (level n label).forms _ = false
    unfold level levelLink
    split <;> split <;> rfl
  | operand label => cases label <;> rfl
  | _ => rfl

/-- Each node takes at least one lexeme. -/
theorem solid_grammar (c : Category) : (grammar c).solid = true ∧ (grammar c).eats = true := by
  cases c with
  | level n label =>
    show (level n label).solid = true ∧ (level n label).eats = true
    unfold level levelLink
    split <;> split <;> exact ⟨rfl, rfl⟩
  | operand label => cases label <;> exact ⟨rfl, rfl⟩
  | _ => exact ⟨rfl, rfl⟩

/-! ### Braces -/

theorem fences_constructor : constructorDeclaration.Fences :=
  ⟨fun h => (nomatch h), fences_of_avoids rfl, fences_of_avoids rfl, fences_of_avoids rfl,
    fences_of_avoids rfl, fences_of_avoids rfl, fun _ => ⟨_, rfl⟩, fences_of_avoids rfl⟩

theorem fences_classMember : classMember.Fences := by
  refine fences_choice ?_
  simp only [List.forall_mem_cons]
  exact ⟨trivial, trivial, fences_of_avoids rfl, trivial, fences_constructor, fences_of_avoids rfl,
    fences_of_avoids rfl, fences_of_avoids rfl, fun _ h => nomatch h⟩

theorem fences_enum : enumDeclaration.Fences :=
  ⟨fun h => (nomatch h), fences_of_avoids rfl, fences_of_avoids rfl, fences_of_avoids rfl,
    fences_of_avoids rfl, fun h => (nomatch h), fences_of_avoids rfl,
    ⟨fences_of_avoids rfl, fences_of_avoids rfl,
      ⟨fun h => (nomatch h), fences_of_avoids rfl, fences_classMember⟩, trivial⟩, trivial⟩

theorem fences_typeDeclaration : typeDeclaration.Fences := by
  refine fences_choice ?_
  simp only [List.forall_mem_cons]
  exact ⟨fences_of_avoids rfl, fences_of_avoids rfl, fences_enum, fences_of_avoids rfl,
    fences_of_avoids rfl, fun _ h => nomatch h⟩

theorem fences_level (n : Nat) (label : Bool) : (level n label).Fences := by
  refine fences_of_avoids ?_
  unfold level levelLink
  split <;> split <;> rfl

theorem fences_grammar (c : Category) : (grammar c).Fences := by
  cases c with
  | level n label => exact fences_level n label
  | operand label => cases label <;> exact fences_of_avoids rfl
  | block => exact ⟨fun _ => ⟨_, rfl⟩, fences_of_avoids rfl⟩
  | classBody => exact ⟨fun h => (nomatch h), trivial, fences_classMember, trivial⟩
  | typeDeclaration => exact fences_typeDeclaration
  | _ => exact fences_of_avoids rfl

/-- The trees of a whole text span its lexemes. -/
theorem allSpan_of_readAll {ls : List Lexeme} {ts : List Tree}
    (h : readAll grammar compilationUnit ls = some ts) : AllSpan ts ls :=
  allSpan_readAll solid_grammar fences_grammar rfl (fences_of_avoids rfl) h

/-! ### Every rule gives them -/

theorem endsWithBody {rule : R} (hrule : rule.lastOnly .body one = true) {xs : List Tree}
    (h : Gives grammar rule none xs) : EndsWithBody xs :=
  dropLast_of_lastOnly (slots_grammar .body) single_one h hrule

theorem no_invocation {rule : R} (hrule : rule.forms .explicitConstructorInvocation = false)
    {xs : List Tree} (h : Gives grammar rule none xs) :
    ∀ t ∈ xs, t.form ≠ .explicitConstructorInvocation :=
  form_ne_of_gives forms_grammar h hrule

/-- A rule that makes no node of a form that has a shape. -/
theorem obeys_of_unshaped {rule : R} (hrule : rule.avoids shaped = true) :
    rule.Obeys grammar Shape :=
  obeys_of_avoids shape_of_not_shaped hrule

theorem obeys_while : whileStatement.Obeys grammar Shape :=
  ⟨fun _ h => endsWithBody rfl h, obeys_of_unshaped rfl⟩

theorem obeys_for : forStatement.Obeys grammar Shape :=
  ⟨fun _ h => ⟨endsWithBody rfl h, inTurn_of_gives slots_grammar h rfl⟩, obeys_of_unshaped rfl⟩

/-- Trees under one field. -/
theorem slot_of_under {slot : Field} {rule : R} {left : Option Tree} {xs : List Tree}
    (h : Gives grammar (under slot rule) left xs) : ∀ t ∈ xs, t.slot = some slot := by
  cases h with
  | under _ _ _ =>
    intro t ht
    obtain ⟨u, _, rfl⟩ := List.mem_map.mp ht
    cases u
    rfl

theorem obeys_enhancedFor : enhancedForStatement.Obeys grammar Shape := by
  refine ⟨fun xs h => ⟨endsWithBody rfl h, ?_, inTurn_of_gives slots_grammar h rfl⟩,
    obeys_of_unshaped rfl⟩
  cases gives_of_silent_first h rfl with
  | @sequence _ _ _ _ body hhead _ =>
    cases gives_enclosed hhead with
    | @sequence _ _ _ modifiers _ hmodifiers hrest =>
      cases hrest with
      | @sequence _ _ _ type _ htype hrest =>
        cases hrest with
        | @sequence _ _ _ _ value hdeclarator _ =>
          cases hdeclarator with
          | @sequence _ _ _ name dimensions hname _ =>
            obtain ⟨t, rfl⟩ := eq_single_of_lone lone_lones htype rfl
            obtain ⟨n, rfl⟩ := eq_single_of_lone lone_lones hname rfl
            refine ⟨modifiers, t, n, dimensions ++ value ++ body, by simp,
              slot_of_under htype t List.mem_cons_self, slot_of_under hname n List.mem_cons_self,
              fun u hu => ⟨?_, ?_⟩⟩
            · exact slot_ne_of_gives (slots_grammar .type) hmodifiers rfl u hu
            · exact slot_ne_of_gives (slots_grammar .name) hmodifiers rfl u hu

theorem obeys_do : doStatement.Obeys grammar Shape := by
  refine ⟨fun xs h => ?_, obeys_of_unshaped rfl⟩
  cases gives_of_silent_first h rfl with
  | @sequence _ _ _ round condition hround hrest =>
    have hcondition := gives_of_silent_second (gives_of_silent_first hrest rfl) rfl
    have hlength := length_le_of_single single_one hround rfl
    obtain ⟨c, rfl⟩ := eq_single_of_lone lone_lones hcondition rfl
    have hc := slot_of_under hcondition c List.mem_cons_self
    rintro ⟨t, ht, hslot⟩
    rcases List.mem_append.mp ht with ht | ht
    · obtain ⟨b, rfl⟩ : ∃ b, round = [b] :=
        List.length_eq_one_iff.mp (Nat.le_antisymm hlength (List.length_pos_of_mem ht))
      exact ⟨b, c, rfl, slot_of_under hround b List.mem_cons_self, hc⟩
    · rw [List.mem_singleton.mp ht, hc] at hslot
      cases hslot

theorem obeys_initializer :
    (node .staticInitializer (keyword "static" >> block) : R).Obeys grammar Shape :=
  ⟨fun _ h => eq_single_of_lone lone_lones (gives_of_silent_first h rfl) rfl,
    obeys_of_unshaped rfl⟩

theorem obeys_block : (node .block (braces (many statement)) : R).Obeys grammar Shape :=
  ⟨fun _ h t ht => no_invocation rfl h t (List.mem_of_mem_tail ht), obeys_of_unshaped rfl⟩

theorem obeys_constructorBody : constructorBody.Obeys grammar Shape := by
  refine ⟨fun xs h => ?_, obeys_of_unshaped rfl⟩
  have h := gives_enclosed h
  cases h with
  | @sequence _ _ _ call rest hcall hrest =>
    have hlength := length_le_of_single single_one hcall rfl
    intro t ht
    refine no_invocation rfl hrest t ?_
    cases call with
    | nil => exact List.mem_of_mem_tail ht
    | cons c cs =>
      have hnil : cs = [] := List.length_eq_zero_iff.mp (by simpa using hlength)
      rw [hnil] at ht
      exact ht

theorem obeys_method : methodDeclaration.Obeys grammar Shape :=
  ⟨fun _ h => endsWithBody rfl h, obeys_of_unshaped rfl⟩

/-- A tree under a field that the first part of a sequence does not use is from the second. -/
theorem of_second {slot : Field} {first second : R} {left : Option Tree} {xs : List Tree}
    {t : Tree} (h : Gives grammar (sequence first second) left xs)
    (hfirst : first.slots slot = false) (ht : t ∈ xs) (hslot : t.slot = some slot) :
    ∃ ys, Gives grammar second none ys ∧ t ∈ ys := by
  cases h with
  | @sequence _ _ _ _ ys hx hy =>
    rcases List.mem_append.mp ht with ht | ht
    · exact absurd hslot (slot_ne_of_gives (slots_grammar slot) hx hfirst t ht)
    · exact ⟨ys, hy, ht⟩

theorem obeys_constructor : constructorDeclaration.Obeys grammar Shape := by
  refine ⟨fun xs h => ⟨endsWithBody rfl h, fun t ht hslot => ?_⟩, obeys_of_unshaped rfl,
    obeys_of_unshaped rfl, obeys_of_unshaped rfl, obeys_of_unshaped rfl, obeys_of_unshaped rfl,
    obeys_constructorBody⟩
  obtain ⟨_, h, ht⟩ := of_second h rfl ht hslot
  obtain ⟨_, h, ht⟩ := of_second h rfl ht hslot
  obtain ⟨_, h, ht⟩ := of_second h rfl ht hslot
  obtain ⟨_, h, ht⟩ := of_second h rfl ht hslot
  obtain ⟨_, h, ht⟩ := of_second h rfl ht hslot
  cases h with
  | under _ _ hinner =>
    cases hinner with
    | node _ _ _ _ _ =>
      rw [List.mem_singleton.mp ht]
      rfl

/-! ### Every category -/

theorem all_obey {rules : List R} (h : rules.all (avoids shaped) = true) :
    ∀ r ∈ rules, r.Obeys grammar Shape :=
  fun r hr => obeys_of_unshaped (List.all_eq_true.mp h r hr)

theorem obeys_statement : statementRule.Obeys grammar Shape := by
  have hloops : ∀ r ∈ [forStatement, enhancedForStatement, whileStatement, doStatement],
      r.Obeys grammar Shape := by
    simp only [List.forall_mem_cons]
    exact ⟨obeys_for, obeys_enhancedFor, obeys_while, obeys_do, fun _ h => nomatch h⟩
  have hrest : ∀ r ∈ [block, symbol ";", ifStatement], r.Obeys grammar Shape := all_obey rfl
  exact obeys_choice (List.forall_mem_append.mpr ⟨hrest, List.forall_mem_append.mpr
    ⟨hloops, all_obey rfl⟩⟩)

theorem obeys_classMember : classMember.Obeys grammar Shape := by
  have hfront : ∀ r ∈ [symbol ";", block], r.Obeys grammar Shape := all_obey rfl
  have hunits : ∀ r ∈ [node .staticInitializer (keyword "static" >> block), nestedTypes,
      constructorDeclaration, methodDeclaration], r.Obeys grammar Shape := by
    simp only [List.forall_mem_cons]
    exact ⟨obeys_initializer, obeys_of_unshaped rfl, obeys_constructor, obeys_method,
      fun _ h => nomatch h⟩
  exact obeys_choice (List.forall_mem_append.mpr ⟨hfront, List.forall_mem_append.mpr
    ⟨hunits, all_obey rfl⟩⟩)

theorem obeys_typeDeclaration : typeDeclaration.Obeys grammar Shape := by
  have hinterface : interfaceBody.Obeys grammar Shape := by
    refine ⟨fun _ _ => trivial, trivial, obeys_choice ?_, trivial⟩
    simp only [List.forall_mem_cons]
    exact ⟨trivial, trivial, obeys_method, obeys_of_unshaped rfl, fun _ h => nomatch h⟩
  have henum : enumBody.Obeys grammar Shape :=
    ⟨fun _ _ => trivial, trivial,
      ⟨obeys_of_unshaped rfl, obeys_of_unshaped rfl,
        ⟨fun _ _ => trivial, trivial, obeys_classMember⟩, trivial⟩, trivial⟩
  refine obeys_choice ?_
  simp only [List.forall_mem_cons]
  refine ⟨obeys_of_unshaped rfl, ?_, ?_, obeys_of_unshaped rfl, obeys_of_unshaped rfl,
    fun _ h => nomatch h⟩
  · exact ⟨fun _ _ => trivial, obeys_of_unshaped rfl, trivial, obeys_of_unshaped rfl,
      obeys_of_unshaped rfl, obeys_of_unshaped rfl, obeys_of_unshaped rfl, hinterface⟩
  · exact ⟨fun _ _ => trivial, obeys_of_unshaped rfl, trivial, obeys_of_unshaped rfl,
      obeys_of_unshaped rfl, henum⟩

theorem obeys_level (n : Nat) (label : Bool) : (level n label).Obeys grammar Shape := by
  refine obeys_of_unshaped ?_
  unfold level levelLink
  split <;> split <;> rfl

theorem obeys_grammar (c : Category) : (grammar c).Obeys grammar Shape := by
  cases c with
  | level n label => exact obeys_level n label
  | operand label => cases label <;> exact obeys_of_unshaped rfl
  | block => exact obeys_block
  | statement => exact obeys_statement
  | classBody => exact ⟨fun _ _ => trivial, trivial, obeys_classMember, trivial⟩
  | typeDeclaration => exact obeys_typeDeclaration
  | _ => exact obeys_of_unshaped rfl

theorem obeys_compilationUnit : compilationUnit.Obeys grammar Shape := by
  refine obeys_choice ?_
  simp only [List.forall_mem_cons]
  exact ⟨obeys_of_unshaped rfl, obeys_of_unshaped rfl, obeys_of_unshaped rfl, trivial,
    obeys_method, fun _ h => nomatch h⟩

end Grammar

end Retrace.Java
