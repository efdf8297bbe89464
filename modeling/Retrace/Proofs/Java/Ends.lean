import Retrace.Proofs.Java.Shapes

/-! What a rule begins and ends with.

The check `bars` tells from a rule that nothing it makes begins with a given lexeme, and `Ends`
that all it makes ends with one of a kind, if that holds of some categories. So a statement that
begins with a brace is a block, one that begins with a semicolon is empty, and each ends with a
semicolon or a closing brace (`block_of_brace`, `nil_of_semicolon`, `last_of_statement`). -/
namespace Retrace.Java

namespace Rule
variable {C : Type} {grammar : C → Rule C}

theorem ne_nil_of_eats (heats : ∀ c, (grammar c).eats = true) {rule : Rule C}
    {left : Option Tree} {ls : List Lexeme} {xs : List Tree} (h : Makes grammar rule left ls xs)
    (hrule : rule.eats = true) : ls ≠ [] := by
  induction h with
  | take _ _ | leaf _ _ _ => exact List.cons_ne_nil _ _
  | glued _ _ htexts =>
    cases htexts with
    | nil => cases hrule
    | cons _ _ => exact List.cons_ne_nil _ _
  | nothing _ | none _ _ | more _ _ _ _ _ | ahead _ _ | notAhead _ _ => cases hrule
  | call _ _ ih => exact ih (heats _)
  | sequence _ _ _ ihx ihy =>
    rcases Bool.or_eq_true_iff.mp hrule with hx | hy
    · exact List.append_ne_nil_of_left_ne_nil (ihx hx) _
    · exact List.append_ne_nil_of_right_ne_nil _ (ihy hy)
  | first _ _ ih => exact ih (Bool.and_eq_true_iff.mp hrule).1
  | second _ _ ih => exact ih (Bool.and_eq_true_iff.mp hrule).2
  | under _ _ _ ih | node _ _ _ _ _ ih | only _ _ _ ih | base _ _ _ ih => exact ih hrule
  | grow _ _ _ ih => exact ih hrule
  | link _ _ _ iht _ => exact List.append_ne_nil_of_left_ne_nil (iht hrule) _

/-- Nothing begins with the lexeme, if that holds of some categories. -/
def bars (barred : C → Bool) (l : Lexeme) : Rule C → Bool
  | take accepts => !accepts l
  | glued texts _ => !(texts.head?.any fun t => l.isSymbol t)
  | leaf _ accepts => !accepts l
  | nothing => true
  | call category => barred category
  | sequence first second => bars barred l first && (first.eats || bars barred l second)
  | either first second => bars barred l first && bars barred l second
  | many rule => bars barred l rule
  | under _ rule => bars barred l rule
  | node _ rule => bars barred l rule
  | only _ rule => bars barred l rule
  | ahead _ => true
  | notAhead _ => true
  | chain base link => bars barred l base && (base.eats || bars barred l link)
  | grow _ _ _ rule => bars barred l rule

theorem head_ne_of_append {ls ms : List Lexeme} {l : Lexeme} (hls : ls.head? ≠ some l)
    (hms : ls = [] → ms.head? ≠ some l) : (ls ++ ms).head? ≠ some l := by
  cases ls with
  | nil => exact hms rfl
  | cons k ls => exact hls

theorem head_ne_of_bars (heats : ∀ c, (grammar c).eats = true) {barred : C → Bool} {l : Lexeme}
    (hc : ∀ c, barred c = true → (grammar c).bars barred l = true) {rule : Rule C}
    {left : Option Tree} {ls : List Lexeme} {xs : List Tree} (h : Makes grammar rule left ls xs)
    (hrule : rule.bars barred l = true) : ls.head? ≠ some l := by
  induction h with
  | take _ haccepts | leaf _ _ haccepts =>
    rintro ⟨⟩
    rw [bars, haccepts] at hrule
    cases hrule
  | glued _ _ htexts =>
    cases htexts with
    | nil => exact fun h => nomatch h
    | cons hsymbol _ =>
      rintro ⟨⟩
      rw [bars, List.head?_cons, Option.any_some, hsymbol] at hrule
      cases hrule
  | nothing _ | none _ _ | ahead _ _ | notAhead _ _ => exact fun h => nomatch h
  | call _ _ ih => exact ih (hc _ hrule)
  | sequence _ hx _ ihx ihy =>
    obtain ⟨hfirst, hsecond⟩ := Bool.and_eq_true_iff.mp hrule
    refine head_ne_of_append (ihx hfirst) fun hnil => ihy ?_
    rcases Bool.or_eq_true_iff.mp hsecond with heaten | hsecond
    · exact absurd hnil (ne_nil_of_eats heats hx heaten)
    · exact hsecond
  | first _ _ ih => exact ih (Bool.and_eq_true_iff.mp hrule).1
  | second _ _ ih => exact ih (Bool.and_eq_true_iff.mp hrule).2
  | more _ _ _ ihx ihy => exact head_ne_of_append (ihx hrule) fun _ => ihy hrule
  | under _ _ _ ih | node _ _ _ _ _ ih | only _ _ _ ih | grow _ _ _ ih => exact ih hrule
  | base _ _ _ ih => exact ih (Bool.and_eq_true_iff.mp hrule).1
  | link _ ht _ iht ihu =>
    refine head_ne_of_append (iht hrule) fun hnil => ihu ?_
    rcases Bool.or_eq_true_iff.mp (Bool.and_eq_true_iff.mp hrule).2 with heaten | hlink
    · exact absurd hnil (ne_nil_of_eats heats ht heaten)
    · exact hlink

/-- Whatever is made ends with such a lexeme, if that holds of some categories. -/
def Ends (last : Lexeme → Prop) (ended : C → Prop) : Rule C → Prop
  | take accepts => ∀ l, accepts l = true → last l
  | glued texts _ => texts = []
  | leaf _ accepts => ∀ l, accepts l = true → last l
  | nothing => True
  | call category => ended category
  | sequence first second => Ends last ended second ∧ (second.eats = true ∨ Ends last ended first)
  | either first second => Ends last ended first ∧ Ends last ended second
  | many rule => Ends last ended rule
  | under _ rule => Ends last ended rule
  | node _ rule => Ends last ended rule
  | only _ rule => Ends last ended rule
  | ahead _ => True
  | notAhead _ => True
  | chain base link => Ends last ended base ∧ Ends last ended link
  | grow _ _ _ rule => Ends last ended rule

theorem ends_choice {last : Lexeme → Prop} {ended : C → Prop} {rules : List (Rule C)}
    (h : ∀ r ∈ rules, r.Ends last ended) : (choice rules).Ends last ended := by
  induction rules with
  | nil => trivial
  | cons r rs ih =>
    obtain ⟨hr, hrs⟩ := List.forall_mem_cons.mp h
    cases rs with
    | nil => exact hr
    | cons r' rs => exact ⟨hr, ih hrs⟩

/-- What holds of the ends of two runs holds of the end of both together. -/
theorem last_of_append {last : Lexeme → Prop} {ls ms : List Lexeme}
    (hms : ∀ l, ms.getLast? = some l → last l)
    (hls : ms = [] → ∀ l, ls.getLast? = some l → last l) :
    ∀ l, (ls ++ ms).getLast? = some l → last l := by
  intro l hl
  by_cases hnil : ms = []
  · rw [hnil, List.append_nil] at hl
    exact hls hnil l hl
  · rw [List.getLast?_append_of_ne_nil _ hnil] at hl
    exact hms l hl

theorem last_of_ends (heats : ∀ c, (grammar c).eats = true) {last : Lexeme → Prop}
    {ended : C → Prop} (hc : ∀ c, ended c → (grammar c).Ends last ended) {rule : Rule C}
    {left : Option Tree} {ls : List Lexeme} {xs : List Tree} (h : Makes grammar rule left ls xs)
    (hrule : rule.Ends last ended) : ∀ l, ls.getLast? = some l → last l := by
  induction h with
  | take _ haccepts | leaf _ _ haccepts =>
    rintro l ⟨⟩
    exact hrule _ haccepts
  | glued _ _ htexts =>
    obtain rfl := hrule
    cases htexts
    exact fun l hl => nomatch hl
  | nothing _ | none _ _ | ahead _ _ | notAhead _ _ => exact fun l hl => nomatch hl
  | call _ _ ih => exact ih (hc _ hrule)
  | sequence _ _ hy ihx ihy =>
    obtain ⟨hsecond, hfirst⟩ := hrule
    refine last_of_append (ihy hsecond) fun hnil => ?_
    rcases hfirst with heaten | hfirst
    · exact absurd hnil (ne_nil_of_eats heats hy heaten)
    · exact ihx hfirst
  | first _ _ ih => exact ih hrule.1
  | second _ _ ih => exact ih hrule.2
  | more _ _ _ ihx ihy => exact last_of_append (ihy hrule) fun _ => ihx hrule
  | under _ _ _ ih | node _ _ _ _ _ ih | only _ _ _ ih | grow _ _ _ ih => exact ih hrule
  | base _ _ _ ih => exact ih hrule.1
  | link _ _ _ iht ihu => exact last_of_append (ihu hrule.2) fun _ => iht hrule

end Rule

namespace Grammar
open Rule

/-- The categories that begin with no brace, no closing brace and no semicolon. -/
def barred : Category → Bool
  | .elementValue => false
  | .variableInitializer => false
  | .block => false
  | .statement => false
  | .classBody => false
  | _ => true

def symbolAt (text : String) (p q : Point) : Lexeme := ⟨.symbol, text, p, q⟩

theorem eq_symbolAt {text : String} {l : Lexeme} (h : l.isSymbol text = true) :
    l = symbolAt text l.start l.stop := by
  obtain ⟨kind, text', p, q⟩ := l
  obtain ⟨hkind, htext⟩ := Bool.and_eq_true_iff.mp h
  obtain rfl : kind = .symbol := beq_iff_eq.mp hkind
  obtain rfl : text' = text := beq_iff_eq.mp htext
  rfl

theorem bars_level (l : Lexeme) (n : Nat) (label : Bool) :
    (level n label).bars barred l = true := by
  unfold level levelLink
  split <;> split <;> rfl

theorem bars_barred {text : String} (htext : text ∈ ["\x7b", "\x7d", ";"]) (p q : Point)
    (c : Category) (h : barred c = true) :
    (grammar c).bars barred (symbolAt text p q) = true := by
  simp only [List.mem_cons, List.not_mem_nil, or_false] at htext
  rcases htext with rfl | rfl | rfl <;> cases c with
  | operand label => cases label <;> rfl
  | level n label => exact bars_level _ n label
  | _ => first | rfl | cases h

/-- Nothing of a rule that bars a symbol begins with it. -/
theorem not_makes_of_bars {text : String} (htext : text ∈ ["\x7b", "\x7d", ";"]) {rule : R}
    {left : Option Tree} {l : Lexeme} {ls : List Lexeme} {xs : List Tree}
    (hl : l.isSymbol text = true)
    (hrule : rule.bars barred (symbolAt text l.start l.stop) = true) :
    ¬Makes grammar rule left (l :: ls) xs := by
  intro h
  refine head_ne_of_bars (fun c => (solid_grammar c).2) (bars_barred htext l.start l.stop) h hrule ?_
  rw [List.head?_cons, ← eq_symbolAt hl]

/-- A statement is a block, a semicolon, or something that begins otherwise. -/
theorem makes_statement {ls : List Lexeme} {xs : List Tree}
    (h : Makes grammar statement none ls xs) :
    Makes grammar block none ls xs ∨ Makes grammar (symbol ";") none ls xs ∨
      ∃ rule : R, Makes grammar rule none ls xs ∧ ∀ p q, ∀ text ∈ ["\x7b", "\x7d", ";"],
        rule.bars barred (symbolAt text p q) = true := by
  cases h with
  | call _ h =>
    change Makes grammar (either block (either (symbol ";") _)) none ls xs at h
    cases h with
    | first _ h => exact .inl h
    | second _ h =>
      cases h with
      | first _ h => exact .inr (.inl h)
      | second _ h =>
        refine .inr (.inr ⟨_, h, fun p q => ?_⟩)
        simp only [List.forall_mem_cons]
        exact ⟨rfl, rfl, rfl, fun _ h => nomatch h⟩

theorem makes_symbol {text : String} {ls : List Lexeme} {xs : List Tree}
    (h : Makes grammar (symbol text) none ls xs) :
    xs = [] ∧ ∃ l, ls = [l] ∧ l.isSymbol text = true := by
  cases h with
  | take _ haccepts => exact ⟨rfl, _, rfl, haccepts⟩

/-- A block begins with a brace. -/
theorem makes_block {ls : List Lexeme} {xs : List Tree} (h : Makes grammar block none ls xs) :
    (∃ l rest, ls = l :: rest ∧ l.isSymbol "\x7b" = true) ∧ ∃ t, xs = [t] ∧ t.form = .block := by
  cases h with
  | call _ h =>
    change Makes grammar (node .block (sequence (symbol "\x7b") _)) none ls xs at h
    cases h with
    | node _ _ h _ _ =>
      cases h with
      | sequence _ hopen _ =>
        obtain ⟨rfl, l, rfl, hl⟩ := makes_symbol hopen
        exact ⟨⟨l, _, rfl, hl⟩, _, rfl, rfl⟩

/-- A statement that begins with a brace is a block. -/
theorem block_of_brace {l : Lexeme} {ls : List Lexeme} {xs : List Tree}
    (h : Makes grammar statement none (l :: ls) xs) (hl : l.isSymbol "\x7b" = true) :
    ∃ t, xs = [t] ∧ t.form = .block := by
  rcases makes_statement h with h | h | ⟨rule, h, hbars⟩
  · exact (makes_block h).2
  · exact absurd h (not_makes_of_bars List.mem_cons_self hl rfl)
  · exact absurd h (not_makes_of_bars List.mem_cons_self hl (hbars _ _ _ List.mem_cons_self))

/-- A statement that begins with a semicolon is empty. -/
theorem nil_of_semicolon {l : Lexeme} {ls : List Lexeme} {xs : List Tree}
    (h : Makes grammar statement none (l :: ls) xs) (hl : l.isSymbol ";" = true) : xs = [] := by
  have hmem : ";" ∈ ["\x7b", "\x7d", ";"] := by decide
  rcases makes_statement h with h | h | ⟨rule, h, hbars⟩
  · cases h with
    | call _ h => exact absurd h (not_makes_of_bars hmem hl rfl)
  · exact (makes_symbol h).1
  · exact absurd h (not_makes_of_bars hmem hl (hbars _ _ _ hmem))

/-- No statement begins with a closing brace. -/
theorem not_statement_of_closing {l : Lexeme} {ls : List Lexeme} {xs : List Tree}
    (hl : l.isSymbol "\x7d" = true) : ¬Makes grammar statement none (l :: ls) xs := by
  have hmem : "\x7d" ∈ ["\x7b", "\x7d", ";"] := by decide
  intro h
  rcases makes_statement h with h | h | ⟨rule, h, hbars⟩
  · cases h with
    | call _ h => exact absurd h (not_makes_of_bars hmem hl rfl)
  · exact absurd h (not_makes_of_bars hmem hl rfl)
  · exact absurd h (not_makes_of_bars hmem hl (hbars _ _ _ hmem))

/-! ### How statements end -/

/-- The categories that end with a semicolon or a closing brace. -/
def closed : Category → Prop
  | .block => True
  | .switch => True
  | .statement => True
  | .classBody => True
  | .typeDeclaration => True
  | _ => False

def Closing (l : Lexeme) : Prop := l.isSymbol ";" = true ∨ l.isSymbol "\x7d" = true

theorem ends_semicolon : (symbol ";" : R).Ends Closing closed := fun _ h => .inl h

theorem ends_braces (r : R) : (braces r).Ends Closing closed :=
  ⟨⟨fun _ h => .inr h, .inl rfl⟩, .inl (Bool.or_true _)⟩

theorem ends_simple (form : Form) (word : String) (rest : R) :
    (simple form word rest).Ends Closing closed :=
  ⟨⟨ends_semicolon, .inl rfl⟩, .inl (Bool.or_true _)⟩

theorem ends_catches : (many catchClause : R).Ends Closing closed :=
  ⟨⟨trivial, .inl rfl⟩, .inl rfl⟩

theorem ends_finally : finallyClause.Ends Closing closed := ⟨trivial, .inl rfl⟩

theorem ends_try : tryStatement.Ends Closing closed :=
  ⟨⟨⟨⟨ends_finally, .inl rfl⟩, ends_catches, .inr ends_catches⟩, .inl rfl⟩, .inl rfl⟩

theorem ends_tryWithResources : tryWithResources.Ends Closing closed :=
  ⟨⟨⟨⟨⟨ends_finally, trivial⟩, .inr ends_catches⟩, .inr trivial⟩, .inl rfl⟩, .inl rfl⟩

theorem ends_if : ifStatement.Ends Closing closed :=
  ⟨⟨⟨⟨⟨trivial, .inl rfl⟩, trivial⟩, .inr trivial⟩, .inl rfl⟩, .inl rfl⟩

theorem ends_statement : statementRule.Ends Closing closed := by
  refine ends_choice ?_
  simp only [List.forall_mem_cons]
  exact ⟨trivial, ends_semicolon, ends_if, ⟨⟨trivial, .inl rfl⟩, .inl rfl⟩,
    ⟨⟨trivial, .inl rfl⟩, .inl rfl⟩, ⟨⟨trivial, .inl rfl⟩, .inl rfl⟩,
    ⟨⟨⟨⟨ends_semicolon, .inl rfl⟩, .inl rfl⟩, .inl rfl⟩, .inl rfl⟩, ends_tryWithResources,
    ends_try, ends_simple _ _ _, trivial, ⟨⟨trivial, .inl rfl⟩, .inl rfl⟩,
    ⟨⟨ends_semicolon, .inl rfl⟩, .inl rfl⟩, ends_simple _ _ _, ends_simple _ _ _,
    ends_simple _ _ _, ends_simple _ _ _, ⟨⟨trivial, .inl rfl⟩, .inl rfl⟩, trivial,
    ⟨⟨⟨ends_semicolon, .inl rfl⟩, .inl rfl⟩, .inl rfl⟩, ⟨ends_semicolon, .inl rfl⟩,
    fun _ h => nomatch h⟩

theorem ends_typeDeclaration : typeDeclaration.Ends Closing closed := by
  have hbraces : ∀ form r, (under .body (node form (braces r)) : R).Ends Closing closed :=
    fun _ r => ends_braces r
  refine ends_choice ?_
  simp only [List.forall_mem_cons]
  refine ⟨?_, ?_, ?_, ?_, ?_, fun _ h => nomatch h⟩
  · exact ⟨⟨⟨⟨⟨⟨⟨trivial, .inl rfl⟩, .inl rfl⟩, .inl rfl⟩, .inl rfl⟩, .inl rfl⟩, .inl rfl⟩, .inl rfl⟩
  · exact ⟨⟨⟨⟨⟨⟨hbraces _ _, .inl rfl⟩, .inl rfl⟩, .inl rfl⟩, .inl rfl⟩, .inl rfl⟩, .inl rfl⟩
  · exact ⟨⟨⟨⟨hbraces _ _, .inl rfl⟩, .inl rfl⟩, .inl rfl⟩, .inl rfl⟩
  · exact ⟨⟨⟨⟨⟨⟨trivial, .inl rfl⟩, .inl rfl⟩, .inl rfl⟩, .inl rfl⟩, .inl rfl⟩, .inl rfl⟩
  · exact ⟨⟨⟨⟨hbraces _ _, .inl rfl⟩, .inl rfl⟩, .inl rfl⟩, .inl rfl⟩

theorem ends_switch : switchExpression.Ends Closing closed :=
  ⟨⟨⟨ends_braces _, ends_braces _⟩, .inl rfl⟩, .inl rfl⟩

theorem ends_closed (c : Category) (h : closed c) : (grammar c).Ends Closing closed := by
  cases c with
  | block => exact ends_braces _
  | «switch» => exact ends_switch
  | statement => exact ends_statement
  | classBody => exact ends_braces _
  | typeDeclaration => exact ends_typeDeclaration
  | _ => exact h.elim

theorem last_of_statement {ls : List Lexeme} {xs : List Tree}
    (h : Makes grammar statement none ls xs) : ∃ l, ls.getLast? = some l ∧ Closing l := by
  have heats : ∀ c, (grammar c).eats = true := fun c => (solid_grammar c).2
  have hne := ne_nil_of_eats heats h rfl
  exact ⟨ls.getLast hne, List.getLast?_eq_some_getLast hne,
    last_of_ends heats ends_closed h trivial _ (List.getLast?_eq_some_getLast hne)⟩

end Grammar

end Retrace.Java
