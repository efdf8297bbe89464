import Retrace.Proofs.Java.Ends

/-! Brackets that match.

Going along lexemes, `Bracket.depth?` counts how many brackets of a kind are open and gives up when
one is closed that is not. Whatever the grammar makes is made of lexemes that leave no bracket open
and close none but their own (`level_of_makes`). -/
namespace Retrace.Java

/-- Parentheses, and braces together with the holes of strings. -/
inductive Bracket
  | round
  | curly

namespace Bracket

def opens : Bracket → Lexeme → Bool
  | round, l => l.isSymbol "("
  | curly, l => l.isSymbol "\x7b" || l.kind == .openHole

def closes : Bracket → Lexeme → Bool
  | round, l => l.isSymbol ")"
  | curly, l => l.isSymbol "\x7d" || l.kind == .closeHole

/-- How many brackets are open behind a lexeme. -/
def after (k : Bracket) (d : Nat) (l : Lexeme) : Option Nat :=
  if k.opens l then some (d + 1)
  else if k.closes l then
    match d with
    | 0 => none
    | d + 1 => some d
  else some d

def depth? (k : Bracket) (d : Nat) (ls : List Lexeme) : Option Nat :=
  ls.foldlM k.after d

/-- Whatever is opened is closed, and nothing else. -/
def Level (k : Bracket) (ls : List Lexeme) : Prop := ∀ d, k.depth? d ls = some d

variable {k : Bracket} {d e : Nat} {l : Lexeme} {ls ms : List Lexeme}

theorem depth?_cons : k.depth? d (l :: ls) = (k.after d l).bind fun e => k.depth? e ls := rfl

theorem depth?_append : k.depth? d (ls ++ ms) = (k.depth? d ls).bind fun e => k.depth? e ms :=
  List.foldlM_append

/-- More open brackets around the lexemes do not matter to them. -/
theorem after_add (n : Nat) (h : k.after d l = some e) : k.after (d + n) l = some (e + n) := by
  unfold after at h ⊢
  split at h
  · rename_i hopens
    cases h
    rw [if_pos hopens, Nat.add_right_comm]
  · rename_i hopens
    rw [if_neg hopens]
    split at h
    · rename_i hcloses
      rw [if_pos hcloses]
      cases d with
      | zero => cases h
      | succ d =>
        cases h
        rw [Nat.add_right_comm]
    · rename_i hcloses
      cases h
      rw [if_neg hcloses]

theorem depth?_add (n : Nat) (h : k.depth? d ls = some e) :
    k.depth? (d + n) ls = some (e + n) := by
  induction ls generalizing d with
  | nil =>
    cases h
    rfl
  | cons l ls ih =>
    obtain ⟨m, hl, hls⟩ := Option.bind_eq_some_iff.mp h
    rw [depth?_cons, after_add n hl]
    exact ih hls

theorem Level.append (h : k.Level ls) (h' : k.Level ms) : k.Level (ls ++ ms) := fun d => by
  rw [depth?_append, h d]
  exact h' d

/-- The lexemes that the bracket counts, by what they say. -/
def probes (text : String) (p q : Point) : Bracket → List Lexeme
  | round => [⟨.symbol, "(", p, q⟩, ⟨.symbol, ")", p, q⟩]
  | curly => [⟨.symbol, "\x7b", p, q⟩, ⟨.symbol, "\x7d", p, q⟩, ⟨.openHole, text, p, q⟩,
      ⟨.closeHole, text, p, q⟩]

theorem mem_probes (h : k.opens l = true ∨ k.closes l = true) :
    l ∈ k.probes l.text l.start l.stop := by
  have hkind : ∀ {kind : LexemeKind}, (l.kind == kind) = true →
      l = ⟨kind, l.text, l.start, l.stop⟩ := by
    intro kind hkind
    obtain ⟨kind', _, _, _⟩ := l
    obtain rfl : kind' = kind := beq_iff_eq.mp hkind
    rfl
  cases k with
  | round =>
    simp only [probes, List.mem_cons, List.not_mem_nil, or_false]
    exact h.imp Grammar.eq_symbolAt Grammar.eq_symbolAt
  | curly =>
    simp only [probes, List.mem_cons, List.not_mem_nil, or_false]
    rcases h with h | h <;> rcases Bool.or_eq_true_iff.mp h with h | h
    · exact .inl (Grammar.eq_symbolAt h)
    · exact .inr (.inr (.inl (hkind h)))
    · exact .inr (.inl (Grammar.eq_symbolAt h))
    · exact .inr (.inr (.inr (hkind h)))

end Bracket

namespace Rule
variable {C : Type} {grammar : C → Rule C} {k : Bracket}

/-- Where a rule itself takes a lexeme, it does not take this one. -/
def rejects (l : Lexeme) : Rule C → Bool
  | take accepts => !accepts l
  | glued texts _ => !texts.any fun t => l.isSymbol t
  | leaf _ accepts => !accepts l
  | sequence first second => rejects l first && rejects l second
  | either first second => rejects l first && rejects l second
  | many rule => rejects l rule
  | under _ rule => rejects l rule
  | node _ rule => rejects l rule
  | only _ rule => rejects l rule
  | chain base link => rejects l base && rejects l link
  | grow _ _ _ rule => rejects l rule
  | _ => true

/-- A rule leads from one number of open brackets to another, if each category leaves it alone. -/
def Climbs (k : Bracket) : Rule C → Nat → Nat → Prop
  | take accepts, d, e => ∀ l, accepts l = true → k.after d l = some e
  | glued texts _, d, e => (∀ t ∈ texts, ∀ l, l.isSymbol t = true → k.after d l = some d) ∧ d = e
  | leaf _ accepts, d, e => ∀ l, accepts l = true → k.after d l = some e
  | sequence first second, d, e => ∃ m, Climbs k first d m ∧ Climbs k second m e
  | either first second, d, e => Climbs k first d e ∧ Climbs k second d e
  | many rule, d, e => Climbs k rule d d ∧ d = e
  | under _ rule, d, e => Climbs k rule d e
  | node _ rule, d, e => Climbs k rule d e
  | only _ rule, d, e => Climbs k rule d e
  | chain base link, d, e => Climbs k base d e ∧ Climbs k link e e
  | grow _ _ _ rule, d, e => Climbs k rule d e
  | _, d, e => d = e

theorem climbs_of_rejects {rule : Rule C}
    (h : ∀ text p q, ((k.probes text p q).all fun l => rule.rejects l) = true) (d : Nat) :
    rule.Climbs k d d := by
  have hreject : ∀ {l : Lexeme}, k.after d l ≠ some d → rule.rejects l = true := by
    intro l hl
    refine List.all_eq_true.mp (h l.text l.start l.stop) l (Bracket.mem_probes ?_)
    by_contra hnone
    obtain ⟨hopens, hcloses⟩ := not_or.mp hnone
    refine hl ?_
    unfold Bracket.after
    rw [if_neg hopens, if_neg hcloses]
  clear h
  induction rule with
  | take _ | leaf _ _ =>
    intro l haccepts
    by_contra hl
    have hrejects := hreject hl
    rw [rejects, haccepts] at hrejects
    cases hrejects
  | glued texts _ =>
    refine ⟨fun t ht l hsymbol => ?_, rfl⟩
    by_contra hl
    have hrejects := hreject hl
    rw [rejects, List.any_eq_true.mpr ⟨t, ht, hsymbol⟩] at hrejects
    cases hrejects
  | sequence _ _ iha ihb =>
    exact ⟨d, iha fun hl => (Bool.and_eq_true_iff.mp (hreject hl)).1,
      ihb fun hl => (Bool.and_eq_true_iff.mp (hreject hl)).2⟩
  | either _ _ iha ihb | chain _ _ iha ihb =>
    exact ⟨iha fun hl => (Bool.and_eq_true_iff.mp (hreject hl)).1,
      ihb fun hl => (Bool.and_eq_true_iff.mp (hreject hl)).2⟩
  | many _ ih => exact ⟨ih hreject, rfl⟩
  | under _ _ ih | node _ _ ih | only _ _ ih | grow _ _ _ _ ih => exact ih hreject
  | nothing | call _ | ahead _ _ | notAhead _ _ => rfl

/-- What is made of the lexemes leaves as many brackets open as the rule says. -/
theorem depth_of_makes (hc : ∀ c d, (grammar c).Climbs k d d) {rule : Rule C}
    {left : Option Tree} {ls : List Lexeme} {xs : List Tree} (h : Makes grammar rule left ls xs)
    {d e : Nat} (hrule : rule.Climbs k d e) : k.depth? d ls = some e := by
  induction h generalizing d e with
  | take _ haccepts | leaf _ _ haccepts =>
    rw [Bracket.depth?_cons, hrule _ haccepts]
    rfl
  | @glued texts _ _ ls htexts =>
    obtain ⟨hflat, rfl⟩ := hrule
    induction htexts with
    | nil => rfl
    | cons hsymbol _ ih =>
      obtain ⟨hfirst, hrest⟩ := List.forall_mem_cons.mp hflat
      rw [Bracket.depth?_cons, hfirst _ hsymbol]
      exact ih hrest
  | nothing _ | ahead _ _ | notAhead _ _ => exact congrArg some hrule
  | none _ _ => exact congrArg some hrule.2
  | call _ _ ih =>
    obtain rfl := hrule
    exact ih (hc _ _)
  | sequence _ _ _ ihx ihy =>
    obtain ⟨m, hx, hy⟩ := hrule
    rw [Bracket.depth?_append, ihx hx]
    exact ihy hy
  | first _ _ ih => exact ih hrule.1
  | second _ _ ih => exact ih hrule.2
  | more _ _ _ ihx ihy =>
    obtain ⟨hinner, rfl⟩ := hrule
    rw [Bracket.depth?_append, ihx hinner]
    exact ihy ⟨hinner, rfl⟩
  | under _ _ _ ih | node _ _ _ _ _ ih | only _ _ _ ih | grow _ _ _ ih => exact ih hrule
  | base _ _ _ ih => exact ih hrule.1
  | link _ _ _ iht ihu =>
    rw [Bracket.depth?_append, iht hrule]
    exact ihu hrule.2

end Rule

namespace Grammar
open Rule

variable {k : Bracket} {d : Nat}

theorem climbs_opening {text : String}
    (h : ∀ d p q, k.after d (symbolAt text p q) = some (d + 1)) :
    (symbol text : R).Climbs k d (d + 1) := fun l hl => by
  rw [eq_symbolAt hl]
  exact h _ _ _

theorem climbs_closing {text : String}
    (h : ∀ d p q, k.after (d + 1) (symbolAt text p q) = some d) :
    (symbol text : R).Climbs k (d + 1) d := fun l hl => by
  rw [eq_symbolAt hl]
  exact h _ _ _

theorem climbs_parens {r : R} (h : r.Climbs .round (d + 1) (d + 1)) :
    (enclosed "(" ")" r).Climbs .round d d :=
  ⟨d + 1, climbs_opening fun _ _ _ => rfl, d + 1, h, climbs_closing fun _ _ _ => rfl⟩

theorem climbs_braces {r : R} (h : r.Climbs .curly (d + 1) (d + 1)) :
    (braces r).Climbs .curly d d :=
  ⟨d + 1, climbs_opening fun _ _ _ => rfl, d + 1, h, climbs_closing fun _ _ _ => rfl⟩

/-- A rule that takes no bracket itself. -/
theorem climbs_flat {r : R}
    (h : ∀ text p q, ((k.probes text p q).all fun l => r.rejects l) = true) :
    r.Climbs k d d := climbs_of_rejects h d

theorem climbs_choice {rules : List R} (hne : rules ≠ []) (h : ∀ r ∈ rules, r.Climbs k d d) :
    (choice rules).Climbs k d d := by
  induction rules with
  | nil => exact absurd rfl hne
  | cons r rs ih =>
    obtain ⟨hr, hrs⟩ := List.forall_mem_cons.mp h
    cases rs with
    | nil => exact hr
    | cons r' rs => exact ⟨hr, ih (List.cons_ne_nil _ _) hrs⟩

theorem climbs_level (n : Nat) (label : Bool) : (level n label).Climbs k d d := by
  refine climbs_flat fun text p q => ?_
  unfold level levelLink
  cases k <;> split <;> split <;> rfl

/-! ### Parentheses -/

theorem parens_annotation : annotationRule.Climbs .round d d :=
  ⟨⟨d, climbs_flat fun _ _ _ => rfl, d, climbs_flat fun _ _ _ => rfl,
    climbs_parens (climbs_flat fun _ _ _ => rfl), climbs_parens (climbs_flat fun _ _ _ => rfl)⟩,
    climbs_flat fun _ _ _ => rfl⟩

theorem parens_lambda : lambda.Climbs .round d d :=
  ⟨d, ⟨climbs_flat fun _ _ _ => rfl, climbs_parens (climbs_flat fun _ _ _ => rfl), rfl⟩,
    climbs_flat fun _ _ _ => rfl⟩

theorem parens_cast (label : Bool) : (cast label).Climbs .round d d :=
  ⟨⟨d, climbs_parens (climbs_flat fun _ _ _ => rfl), climbs_flat fun _ _ _ => rfl⟩,
    ⟨d, climbs_parens (climbs_flat fun _ _ _ => rfl), climbs_flat fun _ _ _ => rfl⟩,
    d, climbs_parens (climbs_flat fun _ _ _ => rfl), parens_lambda, rfl⟩

theorem parens_operand (label : Bool) : (operand label).Climbs .round d d := by
  have hrest : ∀ r ∈ [cast label, node .unaryExpression
      (choice [symbol "+", symbol "-", symbol "!", symbol "~"] >>
        under .operand (call (.operand label))),
      node .updateExpression ((symbol "++" <|> symbol "--") >> call (.operand label)),
      Grammar.switch, primary], r.Climbs .round d d := by
    simp only [List.forall_mem_cons]
    exact ⟨parens_cast label, climbs_flat fun _ _ _ => rfl, climbs_flat fun _ _ _ => rfl, rfl, rfl,
      fun _ h => nomatch h⟩
  cases label with
  | true => exact climbs_choice (List.cons_ne_nil _ _) hrest
  | false =>
    exact climbs_choice (List.cons_ne_nil _ _) (List.forall_mem_cons.mpr ⟨parens_lambda, hrest⟩)

theorem parens_recordPattern : recordPattern.Climbs .round d d :=
  ⟨d, climbs_flat fun _ _ _ => rfl, climbs_parens (climbs_flat fun _ _ _ => rfl)⟩

theorem parens_for : forStatement.Climbs .round d d :=
  ⟨d, climbs_flat fun _ _ _ => rfl, d, climbs_parens (climbs_flat fun _ _ _ => rfl), rfl⟩

theorem parens_enhancedFor : enhancedForStatement.Climbs .round d d :=
  ⟨d, climbs_flat fun _ _ _ => rfl, d, climbs_parens (climbs_flat fun _ _ _ => rfl), rfl⟩

theorem parens_catch : catchClause.Climbs .round d d :=
  ⟨d, climbs_flat fun _ _ _ => rfl, d, climbs_parens (climbs_flat fun _ _ _ => rfl), rfl⟩

theorem parens_tryWithResources : tryWithResources.Climbs .round d d :=
  ⟨d, climbs_flat fun _ _ _ => rfl, d, climbs_parens (climbs_flat fun _ _ _ => rfl), d, rfl, d,
    ⟨parens_catch, rfl⟩, climbs_flat fun _ _ _ => rfl⟩

theorem parens_try : tryStatement.Climbs .round d d :=
  ⟨d, climbs_flat fun _ _ _ => rfl, d, rfl,
    ⟨d, ⟨parens_catch, rfl⟩, climbs_flat fun _ _ _ => rfl⟩, d, parens_catch, parens_catch, rfl⟩

theorem parens_statement : statementRule.Climbs .round d d := by
  refine climbs_choice (List.cons_ne_nil _ _) ?_
  simp only [List.forall_mem_cons]
  refine ⟨?_, ?_, ?_, parens_for, parens_enhancedFor, ?_, ?_, parens_tryWithResources, parens_try,
    ?_⟩
  any_goals exact climbs_flat fun _ _ _ => rfl
  refine ⟨?_, ?_, ?_, ?_, ?_, ?_, ?_, ?_, ?_, ?_, ?_, ?_, fun _ h => nomatch h⟩
  all_goals exact climbs_flat fun _ _ _ => rfl

theorem parens_annotationElement : annotationElement.Climbs .round d d :=
  ⟨d, climbs_flat fun _ _ _ => rfl, d, climbs_flat fun _ _ _ => rfl, d,
    climbs_flat fun _ _ _ => rfl, d + 1, climbs_opening fun _ _ _ => rfl, d,
    climbs_closing fun _ _ _ => rfl, climbs_flat fun _ _ _ => rfl⟩

theorem parens_annotationType : annotationTypeDeclaration.Climbs .round d d :=
  ⟨d, climbs_flat fun _ _ _ => rfl, d, climbs_flat fun _ _ _ => rfl, d,
    climbs_flat fun _ _ _ => rfl, d, climbs_flat fun _ _ _ => rfl, d, climbs_flat fun _ _ _ => rfl,
    d, ⟨⟨climbs_flat fun _ _ _ => rfl, rfl, parens_annotationElement,
      climbs_flat fun _ _ _ => rfl⟩, rfl⟩, climbs_flat fun _ _ _ => rfl⟩

theorem parens_grammar (c : Category) (d : Nat) : (grammar c).Climbs .round d d := by
  cases c with
  | level n label => exact climbs_level n label
  | operand label => exact parens_operand label
  | parenthesized | argumentList | formalParameters =>
    exact climbs_parens (climbs_flat fun _ _ _ => rfl)
  | recordPattern => exact parens_recordPattern
  | annotationUse => exact parens_annotation
  | statement => exact parens_statement
  | typeDeclaration =>
    exact ⟨climbs_flat fun _ _ _ => rfl, climbs_flat fun _ _ _ => rfl, climbs_flat fun _ _ _ => rfl,
      climbs_flat fun _ _ _ => rfl, parens_annotationType⟩
  | _ => exact climbs_flat fun _ _ _ => rfl

/-! ### Braces -/

theorem braces_stringLiteral : stringLiteral.Climbs .curly d d := by
  have hhole : stringHole.Climbs .curly d d := by
    refine ⟨d + 1, fun l hl => ?_, d + 1, rfl, fun l hl => ?_⟩
    · obtain ⟨kind, text, p, q⟩ := l
      obtain rfl : kind = .openHole := beq_iff_eq.mp hl
      rfl
    · obtain ⟨kind, text, p, q⟩ := l
      obtain rfl : kind = .closeHole := beq_iff_eq.mp hl
      rfl
  exact ⟨⟨d, climbs_flat fun _ _ _ => rfl, d, ⟨⟨climbs_flat fun _ _ _ => rfl,
    climbs_flat fun _ _ _ => rfl, hhole⟩, rfl⟩, climbs_flat fun _ _ _ => rfl⟩,
    climbs_flat fun _ _ _ => rfl⟩

theorem braces_arrayInitializer : arrayInitializer.Climbs .curly d d :=
  climbs_braces (climbs_flat fun _ _ _ => rfl)

theorem braces_creation : creation.Climbs .curly d d :=
  ⟨climbs_flat fun _ _ _ => rfl, d, climbs_flat fun _ _ _ => rfl, d, climbs_flat fun _ _ _ => rfl,
    d, rfl, climbs_flat fun _ _ _ => rfl, d, climbs_flat fun _ _ _ => rfl, braces_arrayInitializer⟩

theorem braces_elementValue : elementValue.Climbs .curly d d :=
  ⟨climbs_braces (climbs_flat fun _ _ _ => rfl), rfl, rfl⟩

theorem braces_switch : switchExpression.Climbs .curly d d :=
  ⟨d, climbs_flat fun _ _ _ => rfl, d, rfl, climbs_braces (climbs_flat fun _ _ _ => rfl),
    climbs_braces (climbs_flat fun _ _ _ => rfl)⟩

theorem braces_constructor : constructorDeclaration.Climbs .curly d d :=
  ⟨d, climbs_flat fun _ _ _ => rfl, d, climbs_flat fun _ _ _ => rfl, d,
    climbs_flat fun _ _ _ => rfl, d, rfl, d, climbs_flat fun _ _ _ => rfl,
    climbs_braces (climbs_flat fun _ _ _ => rfl)⟩

theorem braces_classMember : classMember.Climbs .curly d d :=
  ⟨climbs_flat fun _ _ _ => rfl, rfl, climbs_flat fun _ _ _ => rfl, rfl, braces_constructor,
    climbs_flat fun _ _ _ => rfl, climbs_flat fun _ _ _ => rfl, climbs_flat fun _ _ _ => rfl⟩

theorem braces_interface : interfaceDeclaration.Climbs .curly d d :=
  ⟨d, climbs_flat fun _ _ _ => rfl, d, climbs_flat fun _ _ _ => rfl, d,
    climbs_flat fun _ _ _ => rfl, d, climbs_flat fun _ _ _ => rfl, d, climbs_flat fun _ _ _ => rfl,
    d, climbs_flat fun _ _ _ => rfl, climbs_braces (climbs_flat fun _ _ _ => rfl)⟩

theorem braces_enum : enumDeclaration.Climbs .curly d d :=
  ⟨d, climbs_flat fun _ _ _ => rfl, d, climbs_flat fun _ _ _ => rfl, d,
    climbs_flat fun _ _ _ => rfl, d, climbs_flat fun _ _ _ => rfl,
    climbs_braces ⟨d + 1, climbs_flat fun _ _ _ => rfl, d + 1, climbs_flat fun _ _ _ => rfl,
      ⟨d + 1, climbs_flat fun _ _ _ => rfl, braces_classMember, rfl⟩, rfl⟩⟩

theorem braces_annotationType : annotationTypeDeclaration.Climbs .curly d d :=
  ⟨d, climbs_flat fun _ _ _ => rfl, d, climbs_flat fun _ _ _ => rfl, d,
    climbs_flat fun _ _ _ => rfl, d, climbs_flat fun _ _ _ => rfl,
    climbs_braces (climbs_flat fun _ _ _ => rfl)⟩

theorem braces_grammar (c : Category) (d : Nat) : (grammar c).Climbs .curly d d := by
  cases c with
  | level n label => exact climbs_level n label
  | operand label => cases label <;> exact climbs_flat fun _ _ _ => rfl
  | stringLiteral => exact braces_stringLiteral
  | creation => exact braces_creation
  | «switch» => exact braces_switch
  | elementValue => exact braces_elementValue
  | variableInitializer => exact ⟨braces_arrayInitializer, rfl⟩
  | block => exact climbs_braces (climbs_flat fun _ _ _ => rfl)
  | classBody => exact climbs_braces ⟨braces_classMember, rfl⟩
  | typeDeclaration =>
    exact ⟨climbs_flat fun _ _ _ => rfl, braces_interface, braces_enum,
      climbs_flat fun _ _ _ => rfl, braces_annotationType⟩
  | _ => exact climbs_flat fun _ _ _ => rfl

/-- What a category makes leaves no bracket open. -/
theorem level_of_makes (k : Bracket) {c : Category} {left : Option Tree} {ls : List Lexeme}
    {xs : List Tree} (h : Makes grammar (call c) left ls xs) : k.Level ls := by
  intro d
  cases k with
  | round => exact depth_of_makes parens_grammar h rfl
  | curly => exact depth_of_makes braces_grammar h rfl

end Grammar

end Retrace.Java
