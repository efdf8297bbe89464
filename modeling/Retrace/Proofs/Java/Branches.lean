import Retrace.Proofs.Java.Headers
import Retrace.Proofs.Java.Parts

/-! Behind which words branches and loop bodies stand.

Each branch and each body of a loop is the tree of a statement that some word of the text leads in
(`bodies_led`), the other way round from `led_of_lead`. A loop begins with the word that leads in
its body, and lacks a body only where the statement behind that word has no tree (`loops_led`). -/
namespace Retrace.Java

/-- The trees that stand under the field. -/
def allUnder (slot : Field) (xs : List Tree) : List Tree :=
  xs.filter fun t => t.slot == some slot

theorem mem_allUnder {slot : Field} {xs : List Tree} {t : Tree} :
    t ∈ allUnder slot xs ↔ t ∈ xs ∧ t.slot = some slot := by
  rw [allUnder, List.mem_filter, beq_iff_eq]

theorem allUnder_append (slot : Field) (xs ys : List Tree) :
    allUnder slot (xs ++ ys) = allUnder slot xs ++ allUnder slot ys :=
  List.filter_append xs ys

theorem allUnder_map_under (slot : Field) (xs : List Tree) :
    allUnder slot (xs.map (Tree.under (some slot))) = xs.map (Tree.under (some slot)) :=
  List.filter_eq_self.mpr fun t ht => by
    obtain ⟨u, _, rfl⟩ := List.mem_map.mp ht
    cases u
    exact beq_self_eq_true _

namespace Grammar
open Rule

/-- The tree is that of a statement that some word among the lexemes leads in. -/
def BodyOf (ls : List Lexeme) (b : Tree) : Prop :=
  ∃ pre k group body rest t s, ls = pre ++ k :: (group ++ (body ++ rest)) ∧ Lead (k :: group) ∧
    Makes grammar statement none body [t] ∧ b = t.under (some s)

/-- The branches and bodies among the trees stand behind words that lead. -/
def BodiesIn (ls : List Lexeme) (xs : List Tree) : Prop :=
  ∀ x ∈ xs, ∀ u, Part u x → ∀ b ∈ u.children, ∀ s, b.slot = some s → hosts u.form s = true →
    BodyOf ls b

/-- The loop begins with a word that leads in a statement, the trees of which are its body. -/
def LoopOf (ls : List Lexeme) (u : Tree) : Prop :=
  ∃ pre k group body rest ys, ls = pre ++ k :: (group ++ (body ++ rest)) ∧ Lead (k :: group) ∧
    u.start = k.start ∧ Makes grammar statement none body ys ∧
    allUnder .body u.children = ys.map (Tree.under (some .body))

/-- Words lead in the branches of the node, or its body. -/
structure Headed (ls : List Lexeme) (u : Tree) : Prop where
  branch : u.form = .ifStatement → ∀ b ∈ u.children, ∀ s, b.slot = some s →
    hosts u.form s = true → BodyOf ls b
  loop : u.form.isLoop = true → LoopOf ls u

section BodyOf
variable {ls ms : List Lexeme} {b u : Tree}

theorem BodyOf.append (h : BodyOf ms b) (ls more : List Lexeme) :
    BodyOf (ls ++ (ms ++ more)) b := by
  obtain ⟨pre, k, group, body, rest, t, s, rfl, hlead, hmakes, rfl⟩ := h
  exact ⟨ls ++ pre, k, group, body, rest ++ more, t, s, by simp, hlead, hmakes, rfl⟩

theorem BodyOf.back (h : BodyOf ms b) (ls : List Lexeme) : BodyOf (ls ++ ms) b := by
  have happend := h.append ls []
  rwa [List.append_nil] at happend

theorem LoopOf.append (h : LoopOf ms u) (ls more : List Lexeme) :
    LoopOf (ls ++ (ms ++ more)) u := by
  obtain ⟨pre, k, group, body, rest, ys, rfl, hrest⟩ := h
  exact ⟨ls ++ pre, k, group, body, rest ++ more, ys, by simp, hrest⟩

theorem bodyOf_of_mem {k : Lexeme} {group body : List Lexeme} {ys : List Tree} {t : Tree}
    (hlead : Lead (k :: group)) (hmakes : Makes grammar statement none body ys) (ht : t ∈ ys)
    (pre rest : List Lexeme) (slot : Field) :
    BodyOf (pre ++ k :: (group ++ (body ++ rest))) (t.under (some slot)) := by
  have hlength := length_le_of_single single_one hmakes.gives rfl
  obtain ⟨u, rfl⟩ : ∃ u, ys = [u] :=
    List.length_eq_one_iff.mp (Nat.le_antisymm hlength (List.length_pos_of_mem ht))
  obtain rfl := List.mem_singleton.mp ht
  exact ⟨pre, k, group, body, rest, t, slot, rfl, hlead, hmakes, rfl⟩

theorem bodyOf_under {slot : Field} {xs : List Tree}
    (h : Makes grammar (under slot statement) none ls xs) (hb : b ∈ xs) {k : Lexeme}
    {group : List Lexeme} (hlead : Lead (k :: group)) (rest : List Lexeme) :
    BodyOf (k :: (group ++ (ls ++ rest))) b := by
  obtain ⟨ys, hmakes, rfl⟩ := makes_under h
  obtain ⟨t, ht, rfl⟩ := List.mem_map.mp hb
  exact bodyOf_of_mem hlead hmakes ht [] rest slot

theorem LoopOf.bodyOf (h : LoopOf ls u) (hb : b ∈ u.children) (hs : b.slot = some .body) :
    BodyOf ls b := by
  obtain ⟨pre, k, group, body, rest, ys, rfl, hlead, _, hmakes, hunder⟩ := h
  have hmem := mem_allUnder.mpr ⟨hb, hs⟩
  rw [hunder] at hmem
  obtain ⟨t, ht, rfl⟩ := List.mem_map.mp hmem
  exact bodyOf_of_mem hlead hmakes ht pre rest .body

theorem stable_headed : Stable Headed where
  around h front back :=
    ⟨fun hif b hb s hs hhost => (h.branch hif b hb s hs hhost).append front back,
      fun hloop => (h.loop hloop).append front back⟩
  under {ls u} h slot := by
    cases u
    exact ⟨h.branch, h.loop⟩

end BodyOf

/-- The forms that have branches or bodies. -/
def hosting (form : Form) : Bool := form == .ifStatement || form.isLoop

theorem hosts_of_not_hosting {form : Form} (h : hosting form = false) (s : Field) :
    hosts form s = false := by
  obtain ⟨hif, hloop⟩ := Bool.or_eq_false_iff.mp h
  unfold hosts
  rw [hif, hloop]
  rfl

theorem headed_of_avoids {rule : R} (hrule : rule.avoids hosting = true) :
    rule.Keeps grammar Headed := by
  refine keeps_of_avoids (fun ls u h => ⟨fun _ _ _ s _ hhost => ?_, fun hloop => ?_⟩) hrule
  · rw [hosts_of_not_hosting h s] at hhost
    cases hhost
  · rw [(Bool.or_eq_false_iff.mp h).2] at hloop
    cases hloop

/-! ### Every rule keeps to it -/

/-- A tree of a rule that has no tree under such a field is neither a branch nor a body. -/
theorem not_hosted {form : Form} {rule : R} {ls : List Lexeme} {xs : List Tree} {b : Tree}
    {s : Field} (h : Makes grammar rule none ls xs) (hb : b ∈ xs)
    (hrule : ∀ s, hosts form s = true → rule.slots s = false) (hs : b.slot = some s) :
    ¬hosts form s = true := fun hhost =>
  slot_ne_of_gives (slots_grammar s) h.gives (hrule s hhost) b hb hs

theorem allUnder_of_makes {slot : Field} {rule : R} {ls : List Lexeme} {xs : List Tree}
    (h : Makes grammar rule none ls xs) (hrule : rule.slots slot = false) :
    allUnder slot xs = [] :=
  List.filter_eq_nil_iff.mpr fun t ht => by
    simpa using slot_ne_of_gives (slots_grammar slot) h.gives hrule t ht

section Loops
variable {form : Form} (hform : form ≠ .ifStatement)
include hform

theorem headed_of_loop {ls : List Lexeme} {start stop : Point} {xs : List Tree}
    (h : LoopOf ls (.node form none start stop none xs)) :
    Headed ls (.node form none start stop none xs) :=
  ⟨fun hif => absurd hif hform, fun _ => h⟩

theorem headed_header {word : String} (hword : word = "for" ∨ word = "while") {header : R}
    (hheader : ∀ {ls xs}, Makes grammar header none ls xs → Group ls)
    (hfree : header.slots .body = false) (havoids : header.avoids hosting = true) :
    (node form (sequence (keyword word) (sequence header body))).Keeps grammar Headed := by
  refine ⟨fun ls xs start stop h hstart => headed_of_loop hform ?_,
    trivial, headed_of_avoids havoids, trivial⟩
  cases h with
  | sequence _ hkeyword hrest =>
    obtain ⟨rfl, k, rfl, hk⟩ := makes_keyword hkeyword
    cases hrest with
    | @sequence _ _ _ group ms zs _ hgroup hbody =>
      obtain ⟨ys, hmakes, rfl⟩ := makes_under hbody
      refine ⟨[], k, group, ms, [], ys, by simp, .header ?_ (hheader hgroup), hstart k rfl, hmakes,
        ?_⟩
      · rcases hword with rfl | rfl
        · exact .inr (.inl hk)
        · exact .inr (.inr hk)
      · show allUnder .body (zs ++ _) = _
        rw [allUnder_append, allUnder_of_makes hgroup hfree, allUnder_map_under, List.nil_append]

end Loops

theorem headed_while : whileStatement.Keeps grammar Headed :=
  headed_header (by decide) (.inr rfl) group_of_condition rfl rfl

theorem headed_for : forStatement.Keeps grammar Headed :=
  headed_header (by decide) (.inl rfl)
    (group_of_parens fun _ => climbs_flat fun _ _ _ => rfl) rfl rfl

theorem headed_enhancedFor : enhancedForStatement.Keeps grammar Headed :=
  headed_header (by decide) (.inl rfl)
    (group_of_parens fun _ => climbs_flat fun _ _ _ => rfl) rfl rfl

theorem headed_do : doStatement.Keeps grammar Headed := by
  refine ⟨fun ls xs start stop h hstart => headed_of_loop (by decide) ?_,
    headed_of_avoids rfl⟩
  cases h with
  | sequence _ hkeyword hrest =>
    obtain ⟨rfl, k, rfl, hk⟩ := makes_keyword hkeyword
    cases hrest with
    | @sequence _ _ _ ms back _ zs hbody htail =>
      obtain ⟨ys, hmakes, rfl⟩ := makes_under hbody
      refine ⟨[], k, [], ms, back, ys, rfl, .word (.inr hk), hstart k rfl, hmakes, ?_⟩
      show allUnder .body (_ ++ zs) = _
      rw [allUnder_append, allUnder_of_makes htail rfl, allUnder_map_under, List.append_nil]

theorem headed_if : ifStatement.Keeps grammar Headed := by
  refine ⟨fun ls xs _ _ h _ => ⟨fun _ b hb s hs hhost => ?_, fun hloop => nomatch hloop⟩,
    headed_of_avoids rfl⟩
  change b ∈ xs at hb
  cases h with
  | sequence _ hkeyword hrest =>
    obtain ⟨rfl, l, rfl, hl⟩ := makes_keyword hkeyword
    rw [List.nil_append] at hb
    cases hrest with
    | sequence _ hcondition hrest =>
      rcases List.mem_append.mp hb with hb | hb
      · refine absurd hhost (not_hosted hcondition hb (fun s hs => ?_) hs)
        cases s <;> first | rfl | cases hs
      · cases hrest with
        | sequence _ hconsequence halternative =>
          rcases List.mem_append.mp hb with hb | hb
          · exact bodyOf_under hconsequence hb (.header (.inl hl) (group_of_condition hcondition)) _
          · refine BodyOf.back (BodyOf.back (BodyOf.back ?_ _) _) [l]
            cases halternative with
            | first _ helse =>
              cases helse with
              | sequence _ hkeyword hbranch =>
                obtain ⟨rfl, k, rfl, hk⟩ := makes_keyword hkeyword
                have hbodyOf := bodyOf_under hbranch hb (.word (.inl hk)) []
                rwa [List.append_nil] at hbodyOf
            | second _ hnothing =>
              cases hnothing
              cases hb

theorem headed_statement : statementRule.Keeps grammar Headed := by
  refine keeps_choice ?_
  simp only [List.forall_mem_cons]
  refine ⟨?_, ?_, headed_if, headed_for, headed_enhancedFor, headed_while, headed_do, ?_, ?_,
    ?_, ?_, ?_, ?_, ?_, ?_, ?_, ?_, ?_, ?_, ?_, ?_, fun _ h => nomatch h⟩
  all_goals exact headed_of_avoids rfl

theorem headed_grammar (c : Category) : (grammar c).Keeps grammar Headed := by
  cases c with
  | level n label =>
    show (level n label).Keeps grammar Headed
    unfold level levelLink
    split <;> split <;> exact headed_of_avoids rfl
  | operand label => cases label <;> exact headed_of_avoids rfl
  | statement => exact headed_statement
  | _ => exact headed_of_avoids rfl

section Text
variable {ls : List Lexeme} {xs : List Tree} (h : Makes grammar compilationUnit none ls xs)
include h

theorem headed_parts : AllParts Headed ls xs :=
  parts_of_makes stable_headed headed_grammar h (headed_of_avoids rfl) [] fun _ ht => nomatch ht

/-- Every loop of a text begins with the word that leads in its body. -/
theorem loops_led : ∀ x ∈ xs, ∀ u, Part u x → u.form.isLoop = true → LoopOf ls u :=
  fun x hx u hu => (headed_parts h x hx u hu).loop

/-- Every branch and every body of a loop in a text stands behind a word that leads. -/
theorem bodies_led : BodiesIn ls xs := by
  intro x hx u hu b hb s hs hhost
  by_cases hif : u.form = .ifStatement
  · exact (headed_parts h x hx u hu).branch hif b hb s hs hhost
  · unfold hosts at hhost
    rw [if_neg (by simpa using hif), Bool.and_eq_true, beq_iff_eq] at hhost
    obtain ⟨hloop, rfl⟩ := hhost
    exact (loops_led h x hx u hu hloop).bodyOf hb hs

end Text

end Grammar

end Retrace.Java
