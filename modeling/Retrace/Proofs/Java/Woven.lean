import Retrace.Proofs.Java.Spots

/-! Lexemes with braces woven among them.

`Woven` says that lexemes are those of another text with braces among them, some of which stand
wherever one of the offsets of the other text is that a statement begins at. If these are the
branches and loop bodies of the other text that are no blocks, all branches and loop bodies are
blocks (`blocks_of_woven`). -/
namespace Retrace.Java

namespace Lexeme

/-- The same wherever they stand. -/
def Same (l l' : Lexeme) : Prop := l'.kind = l.kind ∧ l'.text = l.text

def isBrace (l : Lexeme) : Bool := l.isSymbol "\x7b" || l.isSymbol "\x7d"

section Same
variable {l l' : Lexeme}

theorem Same.isSymbol (h : Same l l') (text : String) : l'.isSymbol text = l.isSymbol text := by
  unfold Lexeme.isSymbol
  rw [h.1, h.2]

theorem Same.isWord (h : Same l l') (text : String) : l'.isWord text = l.isWord text := by
  unfold Lexeme.isWord
  rw [h.1, h.2]

theorem Same.after (h : Same l l') (d : Nat) :
    Bracket.round.after d l' = Bracket.round.after d l := by
  unfold Bracket.after Bracket.opens Bracket.closes
  simp only [h.isSymbol]

theorem not_brace_of_symbol {text : String} (h : l.isSymbol text = true)
    (htext : text ≠ "\x7b" ∧ text ≠ "\x7d") : l.isBrace = false := by
  rw [Grammar.eq_symbolAt h]
  unfold isBrace Lexeme.isSymbol Grammar.symbolAt
  simp [htext.1, htext.2]

theorem not_brace_of_word {text : String} (h : l.isWord text = true) : l.isBrace = false := by
  rw [Grammar.eq_wordAt h]
  rfl

end Same

end Lexeme

/-- The second lexemes are the first ones with braces among them. Where one of the first begins at
such an offset, a brace stands in front of it; `added` says that one stands in front of them all. -/
inductive Woven (opens : Nat → Prop) : Bool → List Lexeme → List Lexeme → Prop
  | nil (added : Bool) : Woven opens added [] []
  | kept {added : Bool} {l l' : Lexeme} {ls ls' : List Lexeme} :
    (opens l.start.offset → added = true) → l.Same l' → Woven opens false ls ls' →
    Woven opens added (l :: ls) (l' :: ls')
  | brace (added : Bool) {l : Lexeme} {ls ls' : List Lexeme} : l.isBrace = true →
    Woven opens true ls ls' → Woven opens added ls (l :: ls')

section Woven
variable {opens : Nat → Prop} {added : Bool} {ls ls' ms ms' : List Lexeme} {l' : Lexeme}

theorem Woven.cons (h : Woven opens added ls (l' :: ls')) (hl : l'.isBrace = false) :
    ∃ l rest, ls = l :: rest ∧ l.Same l' ∧ (opens l.start.offset → added = true) ∧
      Woven opens false rest ls' := by
  cases h with
  | kept hopens hsame h => exact ⟨_, _, rfl, hsame, hopens, h⟩
  | brace _ hbrace _ =>
    rw [hl] at hbrace
    cases hbrace

theorem Woven.append (h : Woven opens added ls (ls' ++ ms')) :
    ∃ front back behind, ls = front ++ back ∧ Woven opens added front ls' ∧
      Woven opens behind back ms' ∧ (ls' = [] → behind = added) ∧
      ∀ l, ls'.getLast? = some l → l.isBrace = false → behind = false := by
  induction ls' generalizing added ls with
  | nil => exact ⟨[], ls, added, rfl, .nil added, h, fun _ => rfl, fun _ hl => nomatch hl⟩
  | cons l' ls' ih =>
    have hlast : ∀ {behind : Bool}, (ls' = [] → l'.isBrace = false → behind = false) →
        (∀ l, ls'.getLast? = some l → l.isBrace = false → behind = false) →
        ∀ l, (l' :: ls').getLast? = some l → l.isBrace = false → behind = false := by
      intro behind hnil hne l hl hbrace
      cases ls' with
      | nil =>
        cases hl
        exact hnil rfl hbrace
      | cons j ls' =>
        rw [List.getLast?_cons_cons] at hl
        exact hne l hl hbrace
    cases h with
    | @kept _ l _ rest _ hopens hsame h =>
      obtain ⟨front, back, behind, rfl, hfront, hback, hnil, hne⟩ := ih h
      exact ⟨l :: front, back, behind, rfl, .kept hopens hsame hfront, hback, (fun h => nomatch h),
        hlast (fun h _ => hnil h) hne⟩
    | brace _ hbrace h =>
      obtain ⟨front, back, behind, rfl, hfront, hback, hnil, hne⟩ := ih h
      refine ⟨front, back, behind, rfl, .brace _ hbrace hfront, hback, (fun h => nomatch h),
        hlast (fun _ h => ?_) hne⟩
      rw [h] at hbrace
      cases hbrace

/-- Braces are no parentheses. -/
theorem Woven.depth (h : Woven opens added ls ls') (d : Nat) :
    Bracket.round.depth? d ls' = Bracket.round.depth? d ls := by
  induction h generalizing d with
  | nil => rfl
  | kept _ hsame _ ih =>
    rw [Bracket.depth?_cons, Bracket.depth?_cons]
    rw [hsame.after]
    exact congrArg _ (funext ih)
  | @brace _ l _ _ hbrace _ ih =>
    rw [Bracket.depth?_cons]
    have hafter : Bracket.round.after d l = some d := by
      rcases Bool.or_eq_true_iff.mp hbrace with h | h
      · rw [Grammar.eq_symbolAt h]
        rfl
      · rw [Grammar.eq_symbolAt h]
        rfl
    rw [hafter]
    exact ih d

theorem Woven.group (h : Woven opens added ls ls') (hgroup : Group ls') : Group ls := by
  obtain ⟨o, inner, c, rfl, ho, hc, hlevel⟩ := hgroup
  obtain ⟨o', rest, rfl, hsame, _, h⟩ := h.cons (Lexeme.not_brace_of_symbol ho (by decide))
  obtain ⟨inner', back, _, rfl, hinner, hback, _⟩ := h.append
  obtain ⟨c', last, rfl, hsame', _, hnil⟩ := hback.cons (Lexeme.not_brace_of_symbol hc (by decide))
  cases hnil
  refine ⟨o', inner', c', rfl, ?_, ?_, fun d => ?_⟩
  · rw [← hsame.isSymbol]
    exact ho
  · rw [← hsame'.isSymbol]
    exact hc
  · rw [← hinner.depth]
    exact hlevel d

end Woven

/-! ### The lexemes of a woven text -/

namespace Lexer

/-- A brace stands directly in front of every lexeme that begins at such an offset. -/
def Marked (opens : Nat → Prop) (p : Point) (all : List Item) : Prop :=
  ∀ a k b, all = a ++ .kept k :: b → k.kind ≠ none →
    opens (p.offset + width (source a)) → ∃ a' i, a = a' ++ [i] ∧ i.kept? = none

theorem woven_locate {opens : Nat → Prop} {p : Point} {all : List Item} (h : Marked opens p all)
    {a is : List Item} (hall : all = a ++ is) {added : Bool}
    (hadded : (∃ a' i, a = a' ++ [i] ∧ i.kept? = none) → added = true) (q : Point) :
    Woven opens added (locate (p.advance (chars (source a))) (source is))
      (locate q (woven is)) := by
  induction is generalizing a added q with
  | nil => exact .nil added
  | cons i is ih =>
    have hrest := @ih (a ++ [i]) (by rw [hall, List.append_assoc]; rfl)
    rw [source_append] at hrest
    cases i with
    | opening =>
      rw [source_opening, source_nil, List.append_nil] at hrest
      exact .brace added rfl (hrest (fun _ => rfl) _)
    | closing =>
      rw [source_closing, source_nil, List.append_nil] at hrest
      exact .brace added rfl (hrest (fun _ => rfl) _)
    | kept k =>
      have hlast : ¬∃ a' i, a ++ [.kept k] = a' ++ [i] ∧ i.kept? = none := by
        rintro ⟨a', i, heq, hi⟩
        obtain ⟨_, heq⟩ := List.append_inj' heq rfl
        cases heq
        cases hi
      rw [source_kept, source_nil, chars_append, Point.advance_append, chars_cons, chars_nil,
        List.append_nil] at hrest
      rw [source_kept, woven_kept]
      cases hk : k.kind with
      | none =>
        rw [locate_gap hk, locate_gap hk]
        exact hrest (fun hbrace => absurd hbrace hlast) _
      | some kind =>
        rw [locate_kept hk, locate_kept hk]
        refine .kept (fun hopens => ?_) ⟨rfl, rfl⟩ (hrest (fun hbrace => absurd hbrace hlast) _)
        rw [offset_chars] at hopens
        exact hadded (h a k is hall (by rw [hk]; exact fun h => nomatch h) hopens)

end Lexer

/-! ### What leads in a statement -/

theorem not_brace_of_isLead {l : Lexeme} (h : l.isLead = true) : l.isBrace = false := by
  obtain ⟨_, _, hword⟩ := List.any_eq_true.mp h
  exact Lexeme.not_brace_of_word hword

theorem Woven.lead {opens : Nat → Prop} {added : Bool} {ls : List Lexeme} {k' : Lexeme}
    {group' : List Lexeme} (h : Woven opens added ls (k' :: group')) (hlead : Lead (k' :: group')) :
    ∃ k group, ls = k :: group ∧ Lead (k :: group) := by
  obtain ⟨k, group, rfl, hsame, _, h⟩ := h.cons (not_brace_of_isLead hlead.isLead)
  refine ⟨k, group, rfl, ?_⟩
  cases hlead with
  | word hword =>
    cases h
    simp only [hsame.isWord] at hword
    exact .word hword
  | header hword hgroup =>
    simp only [hsame.isWord] at hword
    exact .header hword (h.group hgroup)

/-- Parentheses end where they are closed. -/
theorem Group.eq {ls ls' more more' : List Lexeme} (h : Group ls) (h' : Group ls')
    (heq : ls ++ more = ls' ++ more') : ls = ls' := by
  have hclosed : ∀ {inner : List Lexeme} {c : Lexeme} (back : List Lexeme),
      Bracket.round.Level inner → c.isSymbol ")" = true →
      ¬Bracket.round.Level (inner ++ c :: back) := fun {inner c} back hinner hc h => by
    have hdepth := h 0
    rw [Bracket.depth?_append, hinner 0, Option.bind_some, Bracket.depth?_cons,
      Grammar.eq_symbolAt hc] at hdepth
    cases hdepth
  obtain ⟨o, inner, c, rfl, _, hc, hinner⟩ := h
  obtain ⟨o', inner', c', rfl, _, hc', hinner'⟩ := h'
  simp only [List.cons_append, List.append_assoc, List.nil_append, List.cons.injEq] at heq
  obtain ⟨rfl, heq⟩ := heq
  rcases List.append_eq_append_iff.mp heq with ⟨x, rfl, hx⟩ | ⟨x, rfl, hx⟩ <;> cases x with
  | nil =>
    cases hx
    rw [List.append_nil]
  | cons y x =>
    cases hx
    first
    | exact absurd hinner' (hclosed x hinner hc)
    | exact absurd hinner (hclosed x hinner' hc')

theorem Lead.eq {k : Lexeme} {group group' more more' : List Lexeme} (h : Lead (k :: group))
    (h' : Lead (k :: group')) (heq : group ++ more = group' ++ more') : group = group' := by
  have hword : ∀ {v w : String}, k.isWord v = true → k.isWord w = true → v = w :=
    fun hv hw => by
      rw [← beq_iff_eq.mp (Bool.and_eq_true_iff.mp hv).2,
        beq_iff_eq.mp (Bool.and_eq_true_iff.mp hw).2]
  have hother : (k.isWord "else" = true ∨ k.isWord "do" = true) →
      ¬(k.isWord "if" = true ∨ k.isWord "for" = true ∨ k.isWord "while" = true) := by
    rintro (h | h) (h' | h' | h') <;> exact absurd (hword h h') (by decide)
  cases h with
  | word h =>
    cases h' with
    | word _ => rfl
    | header h' _ => exact absurd h' (hother h)
  | header h hgroup =>
    cases h' with
    | word h' => exact absurd h (hother h')
    | header _ hgroup' => exact hgroup.eq hgroup' heq

/-! ### Branches and loop bodies -/

namespace Grammar
open Rule

section Blocks
variable {opens : Nat → Prop} {added : Bool} {ls ls' : List Lexeme} {xs : List Tree}
  (h : Makes grammar compilationUnit none ls xs)
  (hopens : ∀ t, Hosted settled xs t → t.form ≠ .block → opens t.start.offset)
include h hopens

/-- What is led in begins with an inserted brace, unless it is a block or empty. -/
theorem opens_of_lead {pre group back : List Lexeme} {k l : Lexeme}
    (hls : ls = pre ++ k :: (group ++ l :: back)) (hlead : Lead (k :: group)) :
    l.isSymbol "\x7b" = true ∨ l.isSymbol ";" = true ∨ opens l.start.offset := by
  obtain ⟨group', body, rest, ys, hpost, hlead', hmakes, hhosted⟩ :=
    led_of_lead hlead.isLead h hls
  obtain rfl := hlead.eq hlead' hpost
  have hbody := List.append_cancel_left hpost
  have hne := ne_nil_of_eats (fun c => (solid_grammar c).2) hmakes rfl
  obtain ⟨m, body, rfl⟩ := List.exists_cons_of_ne_nil hne
  obtain rfl : l = m := (List.cons.inj hbody).1
  rcases cases_of_statement hmakes with hblock | hempty | ⟨t, rfl, hform, hstart, _⟩
  · obtain ⟨⟨_, _, heq, hbrace⟩, _⟩ := makes_block hblock
    cases heq
    exact .inl hbrace
  · obtain ⟨_, _, heq, hsemicolon⟩ := makes_symbol hempty
    cases heq
    exact .inr (.inl hsemicolon)
  · have hoffset := hopens t (hhosted t List.mem_cons_self) hform
    rw [hstart l rfl] at hoffset
    exact .inr (.inr hoffset)

theorem block_of_bodyOf (hwoven : Woven opens added ls ls') {b : Tree} (hb : BodyOf ls' b) :
    b.form = .block := by
  obtain ⟨pre, k, group, body, rest, t, s, rfl, hlead, hmakes, rfl⟩ := hb
  have hform : ∀ t : Tree, (t.under (some s)).form = t.form := fun t => by cases t; rfl
  rw [hform]
  have hne := ne_nil_of_eats (fun c => (solid_grammar c).2) hmakes rfl
  obtain ⟨l', body, rfl⟩ := List.exists_cons_of_ne_nil hne
  by_cases hopen : l'.isSymbol "\x7b" = true
  · obtain ⟨u, hu, hblock⟩ := block_of_brace hmakes hopen
    cases hu
    exact hblock
  exfalso
  have hclose : l'.isSymbol "\x7d" = false := by
    by_contra hclose
    exact not_statement_of_closing (by simpa using hclose) hmakes
  have hbrace : l'.isBrace = false := by
    unfold Lexeme.isBrace
    rw [hclose, Bool.or_false]
    simpa using hopen
  -- Without the braces, the same words lead in the same lexeme.
  obtain ⟨front, back, _, rfl, _, hback, _⟩ := hwoven.append
  rw [← List.cons_append] at hback
  obtain ⟨head, tail, behind, rfl, hhead, htail, _, hbehind⟩ := hback.append
  obtain ⟨k₀, group₀, rfl, hlead₀⟩ := hhead.lead hlead
  obtain ⟨l, back, rfl, hsame, hadded, _⟩ := htail.cons hbrace
  obtain ⟨last, hlast, hmark⟩ := hlead.last
  have hnone : behind = false := hbehind last hlast <| by
    rcases hmark with h | h | h
    · exact Lexeme.not_brace_of_symbol h (by decide)
    · exact Lexeme.not_brace_of_word h
    · exact Lexeme.not_brace_of_word h
  rcases opens_of_lead h hopens rfl hlead₀ with hl | hl | hl
  · exact hopen (by rw [hsame.isSymbol]; exact hl)
  · cases nil_of_semicolon hmakes (by rw [hsame.isSymbol]; exact hl)
  · rw [hadded hl] at hnone
    cases hnone

/-- If an opening brace stands in front of every branch and loop body that is no block, all branches
and loop bodies are blocks. -/
theorem blocks_of_woven (hwoven : Woven opens added ls ls') {xs' : List Tree}
    (h' : Makes grammar compilationUnit none ls' xs') :
    ∀ x ∈ xs', ∀ u, Part u x → ∀ b ∈ u.children, ∀ s, b.slot = some s → hosts u.form s = true →
      b.form = .block := fun x hx u hu b hb s hs hhost =>
  block_of_bodyOf h hopens hwoven (bodies_led h' x hx u hu b hb s hs hhost)

end Blocks

end Grammar

end Retrace.Java
