import Retrace.Proofs.Java.Branches
import Retrace.Proofs.Java.Frames

/-! Statements and the lexemes they are made of.

A statement that is neither a block nor empty is a node that reaches from its first lexeme to its
last (`ends_of_single`). Each begins with a lexeme of code (`ofCode_of_statement`), ends with a
semicolon or a closing brace and leaves no bracket open. -/
namespace Retrace.Java

namespace Rule
variable {C : Type} {grammar : C → Rule C}

/-- The rule makes a node of an accepted form of all that it takes, if that holds of some
categories. -/
def nodes (some : C → Bool) (accepts : Form → Bool) : Rule C → Bool
  | call category => some category
  | either first second => nodes some accepts first && nodes some accepts second
  | node form _ => accepts form
  | _ => false

theorem node_of_makes {some : C → Bool} {accepts : Form → Bool}
    (hc : ∀ c, some c = true → (grammar c).nodes some accepts = true) {rule : Rule C}
    {left : Option Tree} {ls : List Lexeme} {xs : List Tree} (h : Makes grammar rule left ls xs)
    (hrule : rule.nodes some accepts = true) : ∃ t, xs = [t] ∧ accepts t.form = true ∧
      (∀ l, ls.head? = .some l → t.start = l.start) ∧
      ∀ l, ls.getLast? = .some l → t.stop = l.stop := by
  induction h with
  | call _ _ ih => exact ih (hc _ hrule)
  | first _ _ ih => exact ih (Bool.and_eq_true_iff.mp hrule).1
  | second _ _ ih => exact ih (Bool.and_eq_true_iff.mp hrule).2
  | node _ _ _ hstart hstop _ => exact ⟨_, rfl, hrule, hstart, hstop⟩
  | _ => cases hrule

end Rule

theorem Lead.isLead {k : Lexeme} {group : List Lexeme} (h : Lead (k :: group)) :
    k.isLead = true := by
  unfold Lexeme.isLead leadWords
  cases h with
  | word h => rcases h with h | h <;> simp [h]
  | header h _ => rcases h with h | h | h <;> simp [h]

/-- A word alone, or a closing parenthesis. -/
theorem Lead.last {ls : List Lexeme} (h : Lead ls) : ∃ l, ls.getLast? = some l ∧
    (l.isSymbol ")" = true ∨ l.isWord "else" = true ∨ l.isWord "do" = true) := by
  cases h with
  | word h => exact ⟨_, rfl, .inr h⟩
  | header _ hgroup =>
    obtain ⟨o, inner, c, rfl, _, hc, _⟩ := hgroup
    refine ⟨c, ?_, .inl hc⟩
    show ([_, o] ++ inner ++ [c]).getLast? = some c
    exact List.getLast?_concat

namespace Grammar
open Rule

/-- The categories that make one node of all they take. -/
def noded : Category → Bool
  | .switch => true
  | .typeDeclaration => true
  | _ => false

theorem nodes_noded (c : Category) (h : noded c = true) :
    (grammar c).nodes noded (· != .block) = true := by
  cases c <;> first | rfl | cases h

/-- A statement is a block, a semicolon, or a node of all its lexemes. -/
theorem cases_of_statement {ls : List Lexeme} {xs : List Tree}
    (h : Makes grammar statement none ls xs) :
    Makes grammar block none ls xs ∨ Makes grammar (symbol ";") none ls xs ∨
      ∃ t, xs = [t] ∧ t.form ≠ .block ∧ (∀ l, ls.head? = some l → t.start = l.start) ∧
        ∀ l, ls.getLast? = some l → t.stop = l.stop := by
  cases h with
  | call _ h =>
    change Makes grammar (either block (either (symbol ";") _)) none ls xs at h
    cases h with
    | first _ h => exact .inl h
    | second _ h =>
      cases h with
      | first _ h => exact .inr (.inl h)
      | second _ h =>
        obtain ⟨t, rfl, hform, hends⟩ := node_of_makes nodes_noded h rfl
        exact .inr (.inr ⟨t, rfl, by simpa using hform, hends⟩)

/-- A statement without a tree is a semicolon. -/
theorem semicolon_of_nil {ls : List Lexeme} (h : Makes grammar statement none ls []) :
    ∃ l, ls = [l] ∧ l.isSymbol ";" = true := by
  rcases cases_of_statement h with hblock | hempty | ⟨_, ht, _⟩
  · obtain ⟨_, _, ht, _⟩ := makes_block hblock
    cases ht
  · exact (makes_symbol hempty).2
  · cases ht

/-- A single statement reaches from its first lexeme to its last. -/
theorem ends_of_single {ls : List Lexeme} {t : Tree} (h : Makes grammar statement none ls [t])
    (hform : t.form ≠ .block) : (∀ l, ls.head? = some l → t.start = l.start) ∧
      ∀ l, ls.getLast? = some l → t.stop = l.stop := by
  rcases cases_of_statement h with h | h | ⟨u, hu, _, hends⟩
  · obtain ⟨_, u, hu, hblock⟩ := makes_block h
    cases hu
    exact absurd hblock hform
  · cases (makes_symbol h).1
  · cases hu
    exact hends

theorem bars_strings {l : Lexeme} (h : Lexer.ofCode l.kind = false) (c : Category) :
    (grammar c).bars (fun _ => true) l = true := by
  obtain ⟨kind, text, p, q⟩ := l
  cases c with
  | level n label =>
    show (level n label).bars _ _ = true
    unfold level levelLink
    split <;> split <;> rfl
  | operand label => cases label <;> cases kind <;> first | rfl | cases h
  | _ => cases kind <;> first | rfl | cases h

/-- A statement begins with a lexeme of code. -/
theorem ofCode_of_statement {l : Lexeme} {ls : List Lexeme} {xs : List Tree}
    (h : Makes grammar statement none (l :: ls) xs) : Lexer.ofCode l.kind = true := by
  by_contra hcode
  exact head_ne_of_bars (fun c => (solid_grammar c).2)
    (fun c _ => bars_strings (by simpa using hcode) c) h rfl rfl

/-! ### Whole texts -/

/-- A text leaves no brace open. -/
theorem braces_compilationUnit (d : Nat) : compilationUnit.Climbs .curly d d :=
  ⟨⟨climbs_flat fun _ _ _ => rfl, climbs_flat fun _ _ _ => rfl,
    ⟨d, climbs_flat fun _ _ _ => rfl, d, climbs_flat fun _ _ _ => rfl, d,
      climbs_flat fun _ _ _ => rfl, d, climbs_flat fun _ _ _ => rfl,
      climbs_braces (climbs_flat fun _ _ _ => rfl)⟩,
    rfl, climbs_flat fun _ _ _ => rfl⟩, rfl⟩

theorem rejects_stray {l : Lexeme} (hl : l.kind = .stray) (c : Category) :
    (grammar c).rejects l = true ∧ chained (grammar c) = true := by
  obtain ⟨kind, text, p, q⟩ := l
  obtain rfl : kind = .stray := hl
  cases c with
  | level n label =>
    show (level n label).rejects _ = true ∧ chained (level n label) = true
    unfold level levelLink
    split <;> split <;> exact ⟨rfl, rfl⟩
  | operand label => cases label <;> exact ⟨rfl, rfl⟩
  | _ => exact ⟨rfl, rfl⟩

theorem not_stray {ls : List Lexeme} {xs : List Tree}
    (h : Makes grammar compilationUnit none ls xs) : ∀ l ∈ ls, l.kind ≠ .stray := by
  intro l hl hstray
  obtain ⟨pre, post, hls⟩ := List.append_of_mem hl
  have hrejects : compilationUnit.rejects l = true := by
    obtain ⟨kind, text, p, q⟩ := l
    obtain rfl : kind = .stray := hstray
    rfl
  have htame : Tame l settled compilationUnit := tame_of_rejects hrejects rfl settled
  -- A stray character would be a word that leads something in.
  obtain ⟨_, _, _, _, _, hlead, _⟩ := led_of_tame
    (fun c => tame_of_rejects (rejects_stray hstray c).1 (rejects_stray hstray c).2 settled) h
    htame hls
  have hword := hlead.isLead
  obtain ⟨w, _, hword⟩ := List.any_eq_true.mp hword
  rw [eq_wordAt hword] at hstray
  cases hstray

end Grammar

end Retrace.Java
