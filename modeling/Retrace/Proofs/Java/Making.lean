import Mathlib.Data.List.Forall2
import Retrace.Java.Rule

/-! What a rule makes of lexemes.

`Makes` says which trees a rule can make of a run of lexemes: it is `Rule.read` without its fuel,
without what stands behind the lexemes, and without the order of alternatives. What is shown by
induction on it holds of whatever a grammar reads (`makes_readAll`). -/
namespace Retrace.Java.Rule
variable {C : Type}

/-- A rule may make these trees of these lexemes; a link of a chain grows the tree in front of
them. -/
inductive Makes (grammar : C → Rule C) : Rule C → Option Tree → List Lexeme → List Tree → Prop
  | take {accepts : Lexeme → Bool} (left : Option Tree) {l : Lexeme} : accepts l = true →
    Makes grammar (take accepts) left [l] []
  | glued {texts : List String} (notBefore : List String) (left : Option Tree)
      {ls : List Lexeme} : List.Forall₂ (fun t l => Lexeme.isSymbol t l = true) texts ls →
    Makes grammar (glued texts notBefore) left ls []
  | leaf (form : Form) {accepts : Lexeme → Bool} (left : Option Tree) {l : Lexeme} :
    accepts l = true → Makes grammar (leaf form accepts) left [l] [leafOf form l]
  | nothing (left : Option Tree) : Makes grammar nothing left [] []
  | call {category : C} (left : Option Tree) {ls : List Lexeme} {xs : List Tree} :
    Makes grammar (grammar category) none ls xs → Makes grammar (call category) left ls xs
  | sequence {first second : Rule C} (left : Option Tree) {ls ms : List Lexeme}
      {xs ys : List Tree} :
    Makes grammar first none ls xs → Makes grammar second none ms ys →
    Makes grammar (sequence first second) left (ls ++ ms) (xs ++ ys)
  | first {first : Rule C} (second : Rule C) {left : Option Tree} {ls : List Lexeme}
      {xs : List Tree} :
    Makes grammar first left ls xs → Makes grammar (either first second) left ls xs
  | second (first : Rule C) {second : Rule C} {left : Option Tree} {ls : List Lexeme}
      {xs : List Tree} :
    Makes grammar second left ls xs → Makes grammar (either first second) left ls xs
  | none (rule : Rule C) (left : Option Tree) : Makes grammar (many rule) left [] []
  | more {rule : Rule C} (left : Option Tree) {ls ms : List Lexeme} {xs ys : List Tree} :
    Makes grammar rule none ls xs → Makes grammar (many rule) none ms ys →
    Makes grammar (many rule) left (ls ++ ms) (xs ++ ys)
  | under (slot : Field) {rule : Rule C} (left : Option Tree) {ls : List Lexeme}
      {xs : List Tree} :
    Makes grammar rule none ls xs →
    Makes grammar (under slot rule) left ls (xs.map (Tree.under (some slot)))
  | node (form : Form) {rule : Rule C} (left : Option Tree) {ls : List Lexeme} {xs : List Tree}
      {start stop : Point} :
    Makes grammar rule none ls xs → (∀ l, ls.head? = some l → start = l.start) →
    (∀ l, ls.getLast? = some l → stop = l.stop) →
    Makes grammar (node form rule) left ls [.node form none start stop none xs]
  | only {accepts : Form → Bool} {rule : Rule C} (left : Option Tree) {ls : List Lexeme}
      {xs : List Tree} :
    Makes grammar rule none ls xs → (∀ t ∈ xs, accepts t.form = true) →
    Makes grammar (only accepts rule) left ls xs
  | ahead (rule : Rule C) (left : Option Tree) : Makes grammar (ahead rule) left [] []
  | notAhead (rule : Rule C) (left : Option Tree) : Makes grammar (notAhead rule) left [] []
  | base {base : Rule C} (link : Rule C) (left : Option Tree) {ls : List Lexeme} {t : Tree} :
    Makes grammar base none ls [t] → Makes grammar (chain base link) left ls [t]
  | link {base link : Rule C} (left : Option Tree) {ls ms : List Lexeme} {t u : Tree} :
    Makes grammar (chain base link) none ls [t] → Makes grammar link (some t) ms [u] →
    Makes grammar (chain base link) left (ls ++ ms) [u]
  | grow {form : Form} {slot : Option Field} {accepts : Form → Bool} {rule : Rule C} {t : Tree}
      {ls : List Lexeme} {xs : List Tree} {stop : Point} :
    accepts t.form = true → Makes grammar rule none ls xs →
    (∀ l, ls.getLast? = some l → stop = l.stop) →
    Makes grammar (grow form slot accepts rule) (some t) ls
      [.node form none t.start stop none (t.under slot :: xs)]

variable {grammar : C → Rule C}

theorem Makes.relax {base link : Rule C} {ls : List Lexeme} {xs : List Tree} {left : Option Tree}
    (h : Makes grammar (chain base link) left ls xs) (left' : Option Tree) :
    Makes grammar (chain base link) left' ls xs := by
  cases h with
  | base _ _ h => exact .base _ _ h
  | link _ h h' => exact .link _ h h'

/-! ### Taking lexemes -/

/-- Taking the lexemes leads from one input to another. -/
structure Moves (i : Input) (ls : List Lexeme) (j : Input) : Prop where
  rest : i.rest = ls ++ j.rest
  reached : j.reached = (ls.getLast?.map Lexeme.stop).getD i.reached

section Moves
variable {i j k : Input} {ls ms : List Lexeme}

theorem moves_nil (i : Input) : Moves i [] i := ⟨rfl, rfl⟩

theorem Moves.trans (h : Moves i ls j) (h' : Moves j ms k) : Moves i (ls ++ ms) k := by
  refine ⟨by rw [h.rest, h'.rest, List.append_assoc], ?_⟩
  rw [h'.reached, h.reached, List.getLast?_append]
  cases ms.getLast? <;> rfl

theorem Moves.start (h : Moves i ls j) {l : Lexeme} (hl : ls.head? = some l) :
    i.start = l.start := by
  obtain ⟨rest, rfl⟩ := List.head?_eq_some_iff.mp hl
  unfold Input.start
  rw [h.rest]
  rfl

theorem Moves.stop (h : Moves i ls j) {l : Lexeme} (hl : ls.getLast? = some l) :
    j.reached = l.stop := by
  rw [h.reached, hl]
  rfl

theorem moves_next {accepts : Lexeme → Bool} {l : Lexeme} (h : next accepts i = some (l, j)) :
    Moves i [l] j ∧ accepts l = true := by
  unfold next at h
  split at h
  · rename_i k rest hrest
    split at h
    · rename_i haccepts
      cases h
      exact ⟨⟨hrest, rfl⟩, haccepts⟩
    · cases h
  · cases h

theorem moves_takeGlued {notBefore : List String} {before : Option Lexeme} {texts : List String}
    (h : takeGlued notBefore before texts i = some j) :
    ∃ ls, Moves i ls j ∧ List.Forall₂ (fun t l => Lexeme.isSymbol t l = true) texts ls := by
  induction texts generalizing before i with
  | nil =>
    unfold takeGlued at h
    split at h
    · split at h
      · cases h
      · cases h
        exact ⟨[], moves_nil _, .nil⟩
    · cases h
      exact ⟨[], moves_nil _, .nil⟩
  | cons t ts ih =>
    unfold takeGlued at h
    split at h
    · rename_i l k hnext
      split at h
      · obtain ⟨ls, hls, htexts⟩ := ih h
        obtain ⟨hmoves, haccepts⟩ := moves_next hnext
        exact ⟨l :: ls, hmoves.trans hls, .cons haccepts htexts⟩
      · cases h
    · cases h

end Moves

/-! ### Reading -/

/-- What a unit of fuel allows to be read is made of the lexemes that it takes. -/
structure Made (grammar : C → Rule C) (fuel : Nat) : Prop where
  rule : ∀ {rule : Rule C} {left i xs j}, read grammar fuel rule left i = some (xs, j) →
    ∃ ls, Moves i ls j ∧ Makes grammar rule left ls xs
  many : ∀ {rule : Rule C} {found i xs j}, readMany grammar fuel rule found i = some (xs, j) →
    ∃ ls ys, xs = found.reverse ++ ys ∧ Moves i ls j ∧ Makes grammar (many rule) none ls ys
  chain : ∀ {base link : Rule C} {t front i xs j},
    Makes grammar (chain base link) none front [t] →
    readChain grammar fuel link t i = some (xs, j) →
    ∃ ls, Moves i ls j ∧ Makes grammar (chain base link) none (front ++ ls) xs

theorem made_rule {fuel : Nat} (ih : Made grammar fuel) {rule : Rule C} {left : Option Tree}
    {i j : Input} {xs : List Tree} (h : read grammar (fuel + 1) rule left i = some (xs, j)) :
    ∃ ls, Moves i ls j ∧ Makes grammar rule left ls xs := by
  cases rule <;> rw [read.eq_def] at h <;> dsimp only at h
  case take accepts =>
    obtain ⟨⟨l, _⟩, hnext, hpair⟩ := Option.map_eq_some_iff.mp h
    cases hpair
    obtain ⟨hmoves, haccepts⟩ := moves_next hnext
    exact ⟨[l], hmoves, .take left haccepts⟩
  case glued texts notBefore =>
    obtain ⟨_, hglued, hpair⟩ := Option.map_eq_some_iff.mp h
    cases hpair
    obtain ⟨ls, hmoves, htexts⟩ := moves_takeGlued hglued
    exact ⟨ls, hmoves, .glued notBefore left htexts⟩
  case leaf form accepts =>
    obtain ⟨⟨l, _⟩, hnext, hpair⟩ := Option.map_eq_some_iff.mp h
    cases hpair
    obtain ⟨hmoves, haccepts⟩ := moves_next hnext
    exact ⟨[l], hmoves, .leaf form left haccepts⟩
  case nothing =>
    cases h
    exact ⟨[], moves_nil i, .nothing left⟩
  case call category =>
    obtain ⟨ls, hmoves, hmakes⟩ := ih.rule h
    exact ⟨ls, hmoves, .call left hmakes⟩
  case sequence first second =>
    split at h
    · cases h
    · rename_i hfirst
      split at h
      · cases h
      · rename_i hsecond
        cases h
        obtain ⟨ls, hmoves, hmakes⟩ := ih.rule hfirst
        obtain ⟨ms, hmoves', hmakes'⟩ := ih.rule hsecond
        exact ⟨ls ++ ms, hmoves.trans hmoves', .sequence left hmakes hmakes'⟩
  case either first second =>
    split at h
    · rename_i hfirst
      cases h
      obtain ⟨ls, hmoves, hmakes⟩ := ih.rule hfirst
      exact ⟨ls, hmoves, .first second hmakes⟩
    · obtain ⟨ls, hmoves, hmakes⟩ := ih.rule h
      exact ⟨ls, hmoves, .second first hmakes⟩
  case many rule =>
    obtain ⟨ls, ys, rfl, hmoves, hmakes⟩ := ih.many h
    refine ⟨ls, hmoves, ?_⟩
    cases hmakes with
    | none => exact .none rule left
    | more _ hx hy => exact .more left hx hy
  case under slot rule =>
    obtain ⟨⟨ys, _⟩, hread, hpair⟩ := Option.map_eq_some_iff.mp h
    cases hpair
    obtain ⟨ls, hmoves, hmakes⟩ := ih.rule hread
    exact ⟨ls, hmoves, .under slot left hmakes⟩
  case node form rule =>
    obtain ⟨⟨ys, _⟩, hread, hpair⟩ := Option.map_eq_some_iff.mp h
    cases hpair
    obtain ⟨ls, hmoves, hmakes⟩ := ih.rule hread
    exact ⟨ls, hmoves, .node form left hmakes (fun _ hl => hmoves.start hl)
      fun _ hl => hmoves.stop hl⟩
  case only accepts rule =>
    split at h
    · rename_i hread
      split at h
      · rename_i hall
        cases h
        obtain ⟨ls, hmoves, hmakes⟩ := ih.rule hread
        exact ⟨ls, hmoves, .only left hmakes (List.all_eq_true.mp hall)⟩
      · cases h
    · cases h
  case ahead rule =>
    obtain ⟨_, _, hpair⟩ := Option.map_eq_some_iff.mp h
    cases hpair
    exact ⟨[], moves_nil i, .ahead rule left⟩
  case notAhead rule =>
    split at h
    · cases h
    · cases h
      exact ⟨[], moves_nil i, .notAhead rule left⟩
  case chain base link =>
    split at h
    · rename_i hread
      obtain ⟨ls, hmoves, hmakes⟩ := ih.rule hread
      obtain ⟨ms, hmoves', hmakes'⟩ := ih.chain (.base link none hmakes) h
      exact ⟨ls ++ ms, hmoves.trans hmoves', hmakes'.relax left⟩
    · cases h
  case grow form slot accepts rule =>
    split at h
    · split at h
      · rename_i haccepts
        obtain ⟨⟨ys, _⟩, hread, hpair⟩ := Option.map_eq_some_iff.mp h
        cases hpair
        obtain ⟨ls, hmoves, hmakes⟩ := ih.rule hread
        exact ⟨ls, hmoves, .grow haccepts hmakes fun _ hl => hmoves.stop hl⟩
      · cases h
    · cases h

theorem made (fuel : Nat) : Made grammar fuel := by
  induction fuel with
  | zero =>
    refine ⟨fun h => ?_, fun h => ?_, fun _ h => ?_⟩
    · rw [read] at h
      cases h
    · rw [readMany] at h
      cases h
    · rw [readChain] at h
      cases h
  | succ fuel ih =>
    refine ⟨made_rule ih, fun {rule found i xs j} h => ?_, fun {base link t front i xs j} ht h => ?_⟩
    · rw [readMany] at h
      split at h
      · cases h
        exact ⟨[], [], (List.append_nil _).symm, moves_nil i, .none rule none⟩
      · rename_i hread
        split at h
        · cases h
          exact ⟨[], [], (List.append_nil _).symm, moves_nil i, .none rule none⟩
        · obtain ⟨ls, hmoves, hmakes⟩ := ih.rule hread
          obtain ⟨ms, zs, rfl, hmoves', hmakes'⟩ := ih.many h
          exact ⟨ls ++ ms, _ ++ zs, by simp, hmoves.trans hmoves', .more none hmakes hmakes'⟩
    · rw [readChain] at h
      split at h
      · rename_i hread
        obtain ⟨ls, hmoves, hmakes⟩ := ih.rule hread
        obtain ⟨ms, hmoves', hmakes'⟩ := ih.chain (.link none ht hmakes) h
        exact ⟨ls ++ ms, hmoves.trans hmoves', by rwa [← List.append_assoc]⟩
      · cases h
        exact ⟨[], moves_nil i, by rwa [List.append_nil]⟩

/-- What is read of a whole text is made of all its lexemes. -/
theorem makes_readAll {rule : Rule C} {ls : List Lexeme} {ts : List Tree}
    (h : readAll grammar rule ls = some ts) : Makes grammar rule none ls ts := by
  unfold readAll at h
  split at h
  · rename_i hread
    cases h
    obtain ⟨ms, hmoves, hmakes⟩ := (made _).rule hread
    obtain rfl : ls = ms := hmoves.rest.trans (List.append_nil ms)
    exact hmakes
  · cases h

end Retrace.Java.Rule
