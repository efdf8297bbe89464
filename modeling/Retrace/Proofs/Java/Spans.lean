import Retrace.Java.Rule
import Retrace.Proofs.Java.Lexing

/-! Which lexemes the nodes take up that a rule gives.

`Tree.Spans` says that a node reaches from the first of some lexemes to the last one and has its
children on parts of them, one after the other; where a form has braces, the children stand between
them. What a rule reads spans the lexemes that it takes (`allSpan_readAll`), as long as each node
takes at least one (`Rule.solid`) and braces are written around whatever has them
(`Rule.Fences`). Where a node stands in its text then follows from where the lexemes do. -/
namespace Retrace.Java

/-- The forms that have braces around their children. -/
def fenced : Form → Bool
  | .block => true
  | .constructorBody => true
  | _ => false

/-- The lexemes without the braces around them. -/
def InBraces (ls inner : List Lexeme) : Prop :=
  ∃ o c, ls = o :: (inner ++ [c]) ∧ o.isSymbol "\x7b" = true ∧ c.isSymbol "\x7d" = true

/-- The lexemes of a node among which its children stand. -/
def Content (form : Form) (ls inner : List Lexeme) : Prop :=
  match fenced form with
  | true => InBraces ls inner
  | false => inner = ls

theorem Content.part {form : Form} {ls inner : List Lexeme} (h : Content form ls inner) :
    inner <:+: ls := by
  unfold Content at h
  split at h
  · obtain ⟨o, c, rfl, _⟩ := h
    exact ⟨[o], [c], rfl⟩
  · subst h
    exact List.infix_rfl

mutual

/-- The node takes up the lexemes. -/
def Tree.Spans : Tree → List Lexeme → Prop
  | .node form _ start stop _ children, ls =>
    (∃ l, ls.head? = some l ∧ l.start = start) ∧ (∃ l, ls.getLast? = some l ∧ l.stop = stop) ∧
      ∃ inner, Content form ls inner ∧ AllSpan children inner

/-- The trees take up parts of the lexemes, one after the other. -/
def AllSpan : List Tree → List Lexeme → Prop
  | [], _ => True
  | t :: ts, ls => ∃ gap own rest, ls = gap ++ (own ++ rest) ∧ t.Spans own ∧ AllSpan ts rest

end

theorem Tree.Spans.start {t : Tree} {ls : List Lexeme} (h : t.Spans ls) :
    ∃ l, ls.head? = some l ∧ l.start = t.start := by
  cases t
  rw [Tree.Spans] at h
  exact h.1

theorem Tree.Spans.stop {t : Tree} {ls : List Lexeme} (h : t.Spans ls) :
    ∃ l, ls.getLast? = some l ∧ l.stop = t.stop := by
  cases t
  rw [Tree.Spans] at h
  exact h.2.1

theorem Tree.Spans.children {t : Tree} {ls : List Lexeme} (h : t.Spans ls) :
    ∃ inner, Content t.form ls inner ∧ AllSpan t.children inner := by
  cases t
  rw [Tree.Spans] at h
  exact h.2.2

theorem Tree.spans_under {t : Tree} {ls : List Lexeme} (slot : Option Field) (h : t.Spans ls) :
    (t.under slot).Spans ls := by
  cases t
  rw [Tree.Spans] at h
  rw [Tree.under, Tree.Spans]
  exact h

theorem allSpan_nil (ls : List Lexeme) : AllSpan [] ls := by
  rw [AllSpan]
  trivial

theorem AllSpan.skip {ts : List Tree} {ls : List Lexeme} (h : AllSpan ts ls)
    (front : List Lexeme) : AllSpan ts (front ++ ls) := by
  cases ts with
  | nil => exact allSpan_nil _
  | cons t ts =>
    rw [AllSpan] at h ⊢
    obtain ⟨gap, own, rest, rfl, ht, hts⟩ := h
    exact ⟨front ++ gap, own, rest, by rw [List.append_assoc], ht, hts⟩

theorem AllSpan.append {xs ys : List Tree} {ls ms : List Lexeme} (hx : AllSpan xs ls)
    (hy : AllSpan ys ms) : AllSpan (xs ++ ys) (ls ++ ms) := by
  induction xs generalizing ls with
  | nil => exact hy.skip ls
  | cons t ts ih =>
    rw [AllSpan] at hx
    rw [List.cons_append, AllSpan]
    obtain ⟨gap, own, rest, rfl, ht, hts⟩ := hx
    exact ⟨gap, own, rest ++ ms, by simp, ht, ih hts⟩

theorem AllSpan.under {ts : List Tree} {ls : List Lexeme} (slot : Option Field)
    (h : AllSpan ts ls) : AllSpan (ts.map (Tree.under slot)) ls := by
  induction ts generalizing ls with
  | nil => exact h
  | cons t ts ih =>
    rw [AllSpan] at h
    rw [List.map_cons, AllSpan]
    obtain ⟨gap, own, rest, hls, ht, hts⟩ := h
    exact ⟨gap, own, rest, hls, Tree.spans_under slot ht, ih hts⟩

theorem allSpan_single {t : Tree} {ls : List Lexeme} (h : t.Spans ls) : AllSpan [t] ls := by
  rw [AllSpan]
  exact ⟨[], ls, [], by simp, h, allSpan_nil _⟩

/-- Each of the trees has lexemes of its own. -/
theorem spans_of_mem {ts : List Tree} {ls : List Lexeme} (h : AllSpan ts ls) {t : Tree}
    (ht : t ∈ ts) : ∃ own, own <:+: ls ∧ t.Spans own := by
  induction ts generalizing ls with
  | nil => cases ht
  | cons u us ih =>
    rw [AllSpan] at h
    obtain ⟨gap, own, rest, rfl, hu, hus⟩ := h
    rcases List.mem_cons.mp ht with rfl | ht
    · exact ⟨own, ⟨gap, rest, by simp⟩, hu⟩
    · obtain ⟨own', ⟨front, back, hown⟩, hspans⟩ := ih hus ht
      exact ⟨own', ⟨gap ++ own ++ front, back, by simp [← hown]⟩, hspans⟩

namespace Rule
variable {C : Type}

/-- A match takes at least one lexeme. -/
def eats : Rule C → Bool
  | take _ => true
  | glued texts _ => !texts.isEmpty
  | leaf _ _ => true
  | nothing => false
  | call _ => true
  | sequence first second => eats first || eats second
  | either first second => eats first && eats second
  | many _ => false
  | under _ rule => eats rule
  | node _ rule => eats rule
  | only _ rule => eats rule
  | ahead _ => false
  | notAhead _ => false
  | chain base _ => eats base
  | grow _ _ _ rule => eats rule

/-- Each node that a match makes takes at least one lexeme. -/
def solid : Rule C → Bool
  | sequence first second => solid first && solid second
  | either first second => solid first && solid second
  | many rule => solid rule
  | under _ rule => solid rule
  | node _ rule => eats rule && solid rule
  | only _ rule => solid rule
  | chain base link => solid base && solid link
  | grow _ _ _ rule => eats rule && solid rule
  | _ => true

/-- A node of a form with braces is made of what stands between braces. -/
def Fences : Rule C → Prop
  | leaf form _ => fenced form = false
  | sequence first second => Fences first ∧ Fences second
  | either first second => Fences first ∧ Fences second
  | many rule => Fences rule
  | under _ rule => Fences rule
  | node form rule =>
    (fenced form = true → ∃ r, rule = enclosed "\x7b" "\x7d" r) ∧ Fences rule
  | only _ rule => Fences rule
  | chain base link => Fences base ∧ Fences link
  | grow form _ _ rule => fenced form = false ∧ Fences rule
  | _ => True

/-! ### What a match takes -/

/-- A match takes the lexemes, and what it gives spans them, together with those in front of them
that the node to grow spans. -/
structure Takes (eaten : Bool) (left : Option Tree) (i : Input) (ls : List Lexeme)
    (xs : List Tree) (j : Input) : Prop where
  rest : i.rest = ls ++ j.rest
  reached : j.reached = (ls.getLast?.map Lexeme.stop).getD i.reached
  eaten : eaten = true → ls ≠ []
  spans : ∀ front, (∀ t, left = some t → AllSpan [t] front) → AllSpan xs (front ++ ls)

theorem takes_nothing (left : Option Tree) (i : Input) : Takes false left i [] [] i :=
  ⟨rfl, rfl, (fun heats => nomatch heats), fun _ _ => allSpan_nil _⟩

section Takes
variable {first second : Bool} {left : Option Tree} {i j k : Input} {ls ms : List Lexeme}
  {xs ys : List Tree}

theorem reached_append (hx : j.reached = (ls.getLast?.map Lexeme.stop).getD i.reached)
    (hy : k.reached = (ms.getLast?.map Lexeme.stop).getD j.reached) :
    k.reached = ((ls ++ ms).getLast?.map Lexeme.stop).getD i.reached := by
  rw [hy, hx, List.getLast?_append]
  cases ms.getLast? <;> rfl

/-- One match after another. -/
theorem Takes.andThen (hx : Takes first none i ls xs j) (hy : Takes second none j ms ys k) :
    Takes (first || second) none i (ls ++ ms) (xs ++ ys) k := by
  refine ⟨by rw [hx.rest, hy.rest, List.append_assoc], reached_append hx.reached hy.reached,
    fun heats => ?_, fun front _ => ?_⟩
  · rcases Bool.or_eq_true_iff.mp heats with heats | heats
    · exact List.append_ne_nil_of_left_ne_nil (hx.eaten heats) ms
    · exact List.append_ne_nil_of_right_ne_nil ls (hy.eaten heats)
  · rw [← List.append_assoc]
    exact (hx.spans front fun _ ht => nomatch ht).append (hy.spans [] fun _ ht => nomatch ht)

/-- The match of a link behind that of the node it grows. -/
theorem Takes.grown {t : Tree} (hx : Takes first left i ls [t] j)
    (hy : Takes second (some t) j ms ys k) : Takes first left i (ls ++ ms) ys k := by
  refine ⟨by rw [hx.rest, hy.rest, List.append_assoc], reached_append hx.reached hy.reached,
    fun heats => List.append_ne_nil_of_left_ne_nil (hx.eaten heats) ms, fun front hfront => ?_⟩
  rw [← List.append_assoc]
  refine hy.spans (front ++ ls) fun u hu => ?_
  cases hu
  exact hx.spans front hfront

theorem Takes.relax (h : Takes first none i ls xs j) (left : Option Tree) :
    Takes first left i ls xs j :=
  ⟨h.rest, h.reached, h.eaten, fun front _ => h.spans front fun _ ht => nomatch ht⟩

theorem Takes.weaken (h : Takes first left i ls xs j) (hle : second = true → first = true) :
    Takes second left i ls xs j :=
  ⟨h.rest, h.reached, fun heats => h.eaten (hle heats), h.spans⟩

theorem takes_next {accepts : Lexeme → Bool} {l : Lexeme} (h : next accepts i = some (l, j)) :
    Takes true left i [l] [] j ∧ accepts l = true := by
  unfold next at h
  split at h
  · rename_i k rest hrest
    split at h
    · rename_i haccepts
      cases h
      exact ⟨⟨hrest, rfl, fun _ => List.cons_ne_nil _ _, fun _ _ => allSpan_nil _⟩, haccepts⟩
    · cases h
  · cases h

theorem takes_glued {notBefore : List String} {before : Option Lexeme} {texts : List String}
    (h : takeGlued notBefore before texts i = some j) :
    ∃ ls, Takes (!texts.isEmpty) none i ls [] j := by
  induction texts generalizing before i with
  | nil =>
    unfold takeGlued at h
    split at h
    · split at h
      · cases h
      · cases h
        exact ⟨[], takes_nothing none _⟩
    · cases h
      exact ⟨[], takes_nothing none _⟩
  | cons t ts ih =>
    unfold takeGlued at h
    split at h
    · rename_i l k hnext
      split at h
      · obtain ⟨ls, hls⟩ := ih h
        exact ⟨[l] ++ ls, (takes_next hnext).1.andThen hls⟩
      · cases h
    · cases h

/-- The lexemes that a node takes up when it is made of them. -/
theorem Takes.ends (h : Takes first none i ls xs j) (hne : ls ≠ []) :
    (∃ l, ls.head? = some l ∧ l.start = i.start) ∧
      ∃ l, ls.getLast? = some l ∧ l.stop = j.reached := by
  refine ⟨⟨ls.head hne, List.head?_eq_some_head hne, ?_⟩,
    ls.getLast hne, List.getLast?_eq_some_getLast hne, ?_⟩
  · unfold Input.start
    obtain ⟨l, rest, rfl⟩ := List.exists_cons_of_ne_nil hne
    rw [h.rest]
    rfl
  · rw [h.reached, List.getLast?_eq_some_getLast hne]
    rfl

theorem takes_leaf {form : Form} {accepts : Lexeme → Bool} {l : Lexeme}
    (hform : fenced form = false) (h : next accepts i = some (l, j)) :
    Takes true left i [l] [leafOf form l] j := by
  obtain ⟨⟨hrest, hreached, heaten, _⟩, _⟩ : Takes true left i [l] [] j ∧ _ := takes_next h
  refine ⟨hrest, hreached, heaten, fun front _ => (allSpan_single ?_).skip front⟩
  unfold leafOf
  rw [Tree.Spans]
  refine ⟨⟨l, rfl, rfl⟩, ⟨l, rfl, rfl⟩, [l], ?_, allSpan_nil _⟩
  unfold Content
  rw [hform]

theorem Takes.node {form : Form} (h : Takes first none i ls xs j) (hfirst : first = true)
    (hcontent : ∃ inner, Content form ls inner ∧ AllSpan xs inner) :
    Takes first left i ls [.node form none i.start j.reached none xs] j := by
  obtain ⟨hstart, hstop⟩ := h.ends (h.eaten hfirst)
  refine ⟨h.rest, h.reached, h.eaten, fun front _ => (allSpan_single ?_).skip front⟩
  rw [Tree.Spans]
  exact ⟨hstart, hstop, hcontent⟩

theorem Takes.grow {t : Tree} {form : Form} {slot : Option Field} (hform : fenced form = false)
    (h : Takes first none i ls xs j) (hfirst : first = true) :
    Takes first (some t) i ls [.node form none t.start j.reached none (t.under slot :: xs)] j := by
  refine ⟨h.rest, h.reached, h.eaten, fun front hfront => ?_⟩
  have hleft := hfront t rfl
  rw [AllSpan] at hleft
  obtain ⟨gap, own, rest, rfl, ht, _⟩ := hleft
  obtain ⟨_, l, hlast, hstop⟩ := h.ends (h.eaten hfirst)
  obtain ⟨o, hhead, hstart⟩ := ht.start
  rw [List.append_assoc]
  refine (allSpan_single ?_).skip gap
  rw [Tree.Spans]
  refine ⟨⟨o, ?_, hstart⟩, ⟨l, ?_, hstop⟩, own ++ rest ++ ls, ?_, ?_⟩
  · rw [List.append_assoc, List.head?_append, hhead]
    rfl
  · rw [List.getLast?_append, hlast]
    rfl
  · unfold Content
    rw [hform]
  · have hxs := h.spans rest fun _ ht => nomatch ht
    rw [AllSpan]
    exact ⟨[], own, rest ++ ls, by simp, Tree.spans_under slot ht, hxs⟩

end Takes

/-! ### What is read -/

section Read
variable {grammar : C → Rule C}

/-- What a unit of fuel allows to be read spans the lexemes that it takes. -/
structure Reads (grammar : C → Rule C) (fuel : Nat) : Prop where
  rule : ∀ {rule : Rule C} {left i xs j}, rule.solid = true → rule.Fences →
    read grammar fuel rule left i = some (xs, j) → ∃ ls, Takes rule.eats left i ls xs j
  many : ∀ {rule : Rule C} {found i xs j}, rule.solid = true → rule.Fences →
    readMany grammar fuel rule found i = some (xs, j) →
    ∃ ls ys, xs = found.reverse ++ ys ∧ Takes false none i ls ys j
  chain : ∀ {link : Rule C} {t i xs j}, link.solid = true → link.Fences →
    readChain grammar fuel link t i = some (xs, j) →
    ∃ ls, Takes false (some t) i ls xs j

theorem reads_many {fuel : Nat} (ih : Reads grammar fuel) {rule : Rule C} {found : List Tree}
    {i j : Input} {xs : List Tree} (hsolid : rule.solid = true) (hfences : rule.Fences)
    (h : readMany grammar (fuel + 1) rule found i = some (xs, j)) :
    ∃ ls ys, xs = found.reverse ++ ys ∧ Takes false none i ls ys j := by
  have hnone : ∃ ls ys, found.reverse = found.reverse ++ ys ∧ Takes false none i ls ys i :=
    ⟨[], [], (List.append_nil _).symm, takes_nothing none i⟩
  rw [readMany] at h
  split at h
  · cases h
    exact hnone
  · rename_i ys k hread
    split at h
    · cases h
      exact hnone
    · obtain ⟨ls, hfirst⟩ := ih.rule hsolid hfences hread
      obtain ⟨ms, zs, rfl, hrest⟩ := ih.many hsolid hfences h
      exact ⟨ls ++ ms, ys ++ zs, by simp,
        (hfirst.andThen hrest).weaken fun heats => nomatch heats⟩

theorem reads_chain {fuel : Nat} (ih : Reads grammar fuel) {link : Rule C} {t : Tree}
    {i j : Input} {xs : List Tree} (hsolid : link.solid = true) (hfences : link.Fences)
    (h : readChain grammar (fuel + 1) link t i = some (xs, j)) :
    ∃ ls, Takes false (some t) i ls xs j := by
  rw [readChain] at h
  split at h
  · rename_i u k hread
    obtain ⟨ls, hfirst⟩ := ih.rule hsolid hfences hread
    obtain ⟨ms, hrest⟩ := ih.chain hsolid hfences h
    exact ⟨ls ++ ms, (hfirst.grown hrest).weaken fun heats => nomatch heats⟩
  · cases h
    refine ⟨[], rfl, rfl, (fun heats => nomatch heats), fun front hfront => ?_⟩
    rw [List.append_nil]
    exact hfront t rfl

theorem read_take {fuel : Nat} {accepts : Lexeme → Bool} {i j : Input} {xs : List Tree}
    (h : read grammar fuel (take accepts) none i = some (xs, j)) :
    xs = [] ∧ ∃ l, next accepts i = some (l, j) := by
  cases fuel with
  | zero =>
    rw [read] at h
    cases h
  | succ fuel =>
    rw [read.eq_def] at h
    obtain ⟨⟨l, k⟩, hnext, hpair⟩ := Option.map_eq_some_iff.mp h
    cases hpair
    exact ⟨rfl, l, hnext⟩

theorem read_sequence {fuel : Nat} {first second : Rule C} {i j : Input} {zs : List Tree}
    (h : read grammar fuel (sequence first second) none i = some (zs, j)) :
    ∃ k < fuel, ∃ xs ys m, read grammar k first none i = some (xs, m) ∧
      read grammar k second none m = some (ys, j) ∧ zs = xs ++ ys := by
  cases fuel with
  | zero =>
    rw [read] at h
    cases h
  | succ fuel =>
    rw [read.eq_def] at h
    dsimp only at h
    split at h
    · cases h
    · rename_i xs m hfirst
      split at h
      · cases h
      · rename_i ys k hsecond
        cases h
        exact ⟨fuel, Nat.lt_succ_self fuel, xs, ys, m, hfirst, hsecond, rfl⟩

/-- What stands between braces spans the lexemes between them. -/
theorem reads_enclosed {fuel : Nat} (hall : ∀ k ≤ fuel, Reads grammar k) {rule : Rule C}
    {i j : Input} {zs : List Tree} (hsolid : rule.solid = true) (hfences : rule.Fences)
    (h : read grammar fuel (enclosed "\x7b" "\x7d" rule) none i = some (zs, j)) :
    ∃ ls inner, Takes true none i ls zs j ∧ InBraces ls inner ∧ AllSpan zs inner := by
  obtain ⟨k, hk, xs, ys, m, hopen, hrest, rfl⟩ := read_sequence h
  obtain ⟨k', hk', ys, ws, n, hread, hclose, rfl⟩ := read_sequence hrest
  obtain ⟨rfl, o, ho⟩ := read_take hopen
  obtain ⟨rfl, c, hc⟩ := read_take hclose
  obtain ⟨inner, hinner⟩ := (hall k' (by omega)).rule hsolid hfences hread
  obtain ⟨hfirst, hleft⟩ : Takes true none i [o] [] m ∧ _ := takes_next ho
  obtain ⟨hlast, hright⟩ : Takes true none n [c] [] j ∧ _ := takes_next hc
  refine ⟨[o] ++ (inner ++ [c]), inner, hfirst.andThen (hinner.andThen hlast),
    ⟨o, c, rfl, hleft, hright⟩, ?_⟩
  rw [List.nil_append, List.append_nil]
  exact hinner.spans [] fun _ ht => nomatch ht

/-- The children of a node span what stands between its braces, if it has braces. -/
theorem reads_content {fuel : Nat} (hall : ∀ k ≤ fuel, Reads grammar k) {form : Form}
    {rule : Rule C} {i j : Input} {xs : List Tree} (hsolid : rule.solid = true)
    (hfences : (node form rule).Fences) (h : read grammar fuel rule none i = some (xs, j)) :
    ∃ ls, Takes rule.eats none i ls xs j ∧ ∃ inner, Content form ls inner ∧ AllSpan xs inner := by
  obtain ⟨hbraces, hfence⟩ := hfences
  unfold Content
  cases hform : fenced form with
  | false =>
    obtain ⟨ls, hls⟩ := (hall fuel (Nat.le_refl fuel)).rule hsolid hfence h
    exact ⟨ls, hls, ls, rfl, hls.spans [] fun _ ht => nomatch ht⟩
  | true =>
    obtain ⟨r, rfl⟩ := hbraces hform
    have hinner : r.solid = true :=
      (Bool.and_eq_true_iff.mp (Bool.and_eq_true_iff.mp hsolid).2).1
    obtain ⟨ls, inner, hls, hcontent, hspans⟩ := reads_enclosed hall hinner hfence.2.1 h
    exact ⟨ls, hls, inner, hcontent, hspans⟩

variable (hsolid : ∀ c, (grammar c).solid = true ∧ (grammar c).eats = true)
  (hfences : ∀ c, (grammar c).Fences)
include hsolid hfences

theorem reads_rule {fuel : Nat} (hall : ∀ k ≤ fuel, Reads grammar k) {rule : Rule C}
    {left : Option Tree} {i j : Input} {xs : List Tree} (hrule : rule.solid = true)
    (hfence : rule.Fences) (h : read grammar (fuel + 1) rule left i = some (xs, j)) :
    ∃ ls, Takes rule.eats left i ls xs j := by
  have ih := hall fuel (Nat.le_refl fuel)
  cases rule <;> rw [read.eq_def] at h <;> dsimp only at h
  case take accepts =>
    obtain ⟨⟨l, k⟩, hnext, hpair⟩ := Option.map_eq_some_iff.mp h
    cases hpair
    exact ⟨[l], (takes_next hnext).1⟩
  case glued texts notBefore =>
    obtain ⟨k, hglued, hpair⟩ := Option.map_eq_some_iff.mp h
    cases hpair
    obtain ⟨ls, hls⟩ := takes_glued hglued
    exact ⟨ls, hls.relax left⟩
  case leaf form accepts =>
    obtain ⟨⟨l, k⟩, hnext, hpair⟩ := Option.map_eq_some_iff.mp h
    cases hpair
    exact ⟨[l], takes_leaf hfence hnext⟩
  case nothing =>
    cases h
    exact ⟨[], takes_nothing left i⟩
  case call category =>
    obtain ⟨ls, hls⟩ := ih.rule (hsolid category).1 (hfences category) h
    rw [(hsolid category).2] at hls
    exact ⟨ls, hls.relax left⟩
  case sequence first second =>
    obtain ⟨hfirst, hsecond⟩ := Bool.and_eq_true_iff.mp hrule
    split at h
    · cases h
    · rename_i ys k hread
      split at h
      · cases h
      · rename_i zs k' hread'
        cases h
        obtain ⟨ls, hls⟩ := ih.rule hfirst hfence.1 hread
        obtain ⟨ms, hms⟩ := ih.rule hsecond hfence.2 hread'
        exact ⟨ls ++ ms, (hls.andThen hms).relax left⟩
  case either first second =>
    obtain ⟨hfirst, hsecond⟩ := Bool.and_eq_true_iff.mp hrule
    split at h
    · rename_i found hread
      cases h
      obtain ⟨ls, hls⟩ := ih.rule hfirst hfence.1 hread
      exact ⟨ls, hls.weaken fun heats => (Bool.and_eq_true_iff.mp heats).1⟩
    · obtain ⟨ls, hls⟩ := ih.rule hsecond hfence.2 h
      exact ⟨ls, hls.weaken fun heats => (Bool.and_eq_true_iff.mp heats).2⟩
  case many rule =>
    have hinner : rule.solid = true := hrule
    obtain ⟨ls, ys, rfl, hls⟩ := ih.many hinner hfence h
    exact ⟨ls, hls.relax left⟩
  case under slot rule =>
    obtain ⟨⟨ys, k⟩, hread, hpair⟩ := Option.map_eq_some_iff.mp h
    cases hpair
    have hinner : rule.solid = true := hrule
    obtain ⟨ls, hls⟩ := ih.rule hinner hfence hread
    exact ⟨ls, hls.rest, hls.reached, hls.eaten,
      fun front _ => (hls.spans front fun _ ht => nomatch ht).under _⟩
  case node form rule =>
    obtain ⟨heats, hinner⟩ := Bool.and_eq_true_iff.mp hrule
    obtain ⟨⟨ys, k⟩, hread, hpair⟩ := Option.map_eq_some_iff.mp h
    cases hpair
    obtain ⟨ls, hls, hcontent⟩ := reads_content hall hinner hfence hread
    exact ⟨ls, hls.node heats hcontent⟩
  case only accepts rule =>
    have hinner : rule.solid = true := hrule
    split at h
    · rename_i ys k hread
      split at h
      · cases h
        obtain ⟨ls, hls⟩ := ih.rule hinner hfence hread
        exact ⟨ls, hls.relax left⟩
      · cases h
    · cases h
  case ahead rule =>
    obtain ⟨_, _, hpair⟩ := Option.map_eq_some_iff.mp h
    cases hpair
    exact ⟨[], takes_nothing left i⟩
  case notAhead rule =>
    split at h
    · cases h
    · cases h
      exact ⟨[], takes_nothing left i⟩
  case chain base link =>
    obtain ⟨hbase, hlink⟩ := Bool.and_eq_true_iff.mp hrule
    split at h
    · rename_i t k hread
      obtain ⟨ls, hls⟩ := ih.rule hbase hfence.1 hread
      obtain ⟨ms, hms⟩ := ih.chain hlink hfence.2 h
      exact ⟨ls ++ ms, (hls.grown hms).relax left⟩
    · cases h
  case grow form slot accepts rule =>
    obtain ⟨heats, hinner⟩ := Bool.and_eq_true_iff.mp hrule
    split at h
    · rename_i t
      split at h
      · obtain ⟨⟨ys, k⟩, hread, hpair⟩ := Option.map_eq_some_iff.mp h
        cases hpair
        obtain ⟨ls, hls⟩ := ih.rule hinner hfence.2 hread
        exact ⟨ls, hls.grow hfence.1 heats⟩
      · cases h
    · cases h

theorem reads (fuel : Nat) : Reads grammar fuel := by
  induction fuel using Nat.strongRecOn with
  | ind fuel ih =>
    cases fuel with
    | zero =>
      refine ⟨fun _ _ h => ?_, fun _ _ h => ?_, fun _ _ h => ?_⟩
      · rw [read] at h
        cases h
      · rw [readMany] at h
        cases h
      · rw [readChain] at h
        cases h
    | succ fuel =>
      have hlast := ih fuel (Nat.lt_succ_self fuel)
      have hall : ∀ k ≤ fuel, Reads grammar k := fun k hk => ih k (Nat.lt_succ_of_le hk)
      exact ⟨fun hrule hfence h => reads_rule hsolid hfences hall hrule hfence h,
        fun hrule hfence h => reads_many hlast hrule hfence h,
        fun hlink hfence h => reads_chain hlast hlink hfence h⟩

/-- The trees that a whole text gives span its lexemes. -/
theorem allSpan_readAll {rule : Rule C} (hrule : rule.solid = true) (hfence : rule.Fences)
    {ls : List Lexeme} {ts : List Tree} (h : readAll grammar rule ls = some ts) :
    AllSpan ts ls := by
  unfold readAll at h
  split at h
  · rename_i trees reached hread
    cases h
    obtain ⟨ms, hms⟩ := (reads hsolid hfences _).rule hrule hfence hread
    have hrest : ls = ms ++ [] := hms.rest
    rw [hrest, List.append_nil]
    exact hms.spans [] fun _ ht => nomatch ht
  · cases h

end Read

end Rule

end Retrace.Java
