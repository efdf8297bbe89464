import Retrace.Proofs.Java.Brackets

/-! What stands in front of branches and loop bodies.

A word that leads in a branch or the body of a loop, together with the parentheses that belong to
it, is followed by a statement wherever it stands in a text (`led_of_lead`): the text has no such
word outside of these constructs. -/
namespace Retrace.Java

/-- What stands between parentheses that belong together. -/
def Group (ls : List Lexeme) : Prop :=
  ∃ o inner c, ls = o :: (inner ++ [c]) ∧ o.isSymbol "(" = true ∧ c.isSymbol ")" = true ∧
    Bracket.round.Level inner

/-- What leads in a statement: a word alone, or with its parentheses. -/
inductive Lead : List Lexeme → Prop
  | word {l : Lexeme} : l.isWord "else" = true ∨ l.isWord "do" = true → Lead [l]
  | header {l : Lexeme} {group : List Lexeme} :
    l.isWord "if" = true ∨ l.isWord "for" = true ∨ l.isWord "while" = true → Group group →
    Lead (l :: group)

def leadWords : List String := ["if", "else", "for", "while", "do"]

def Lexeme.isLead (l : Lexeme) : Bool := leadWords.any fun w => l.isWord w

/-- The fields under which a node has its branches or its body. -/
def hosts (form : Form) (slot : Field) : Bool :=
  if form == .ifStatement then slot == .consequence || slot == .alternative
  else form.isLoop && slot == .body

/-- A node among the trees or inside of them has the tree for a branch or a body, or will have it
once the trees are put into a node. -/
def Hosted (pending : Field → Bool) (xs : List Tree) (t : Tree) : Prop :=
  (∃ s, pending s = true ∧ t.under (some s) ∈ xs) ∨
    ∃ x ∈ xs, ∃ u, Part u x ∧ ∃ s, hosts u.form s = true ∧ t.under (some s) ∈ u.children

section Hosted
variable {pending pending' : Field → Bool} {xs ys : List Tree} {t : Tree}

theorem Hosted.mono (h : Hosted pending xs t) (hp : ∀ s, pending s = true → pending' s = true)
    (hsub : ∀ x ∈ xs, x ∈ ys) : Hosted pending' ys t := by
  rcases h with ⟨s, hs, hmem⟩ | ⟨x, hx, hpart⟩
  · exact .inl ⟨s, hp s hs, hsub _ hmem⟩
  · exact .inr ⟨x, hsub x hx, hpart⟩

/-- Nothing is pending. -/
def settled (_ : Field) : Bool := false

theorem Hosted.settle (h : Hosted settled xs t) (pending : Field → Bool) :
    Hosted pending xs t :=
  h.mono (fun _ hs => nomatch hs) fun _ hx => hx

theorem Hosted.node {form : Form} {slot : Option Field} {start stop : Point}
    {word : Option String} (h : Hosted (hosts form) xs t) (pending : Field → Bool) :
    Hosted pending [.node form slot start stop word xs] t := by
  rcases h with ⟨s, hs, hmem⟩ | ⟨x, hx, u, hu, hpart⟩
  · exact .inr ⟨_, List.mem_cons_self, _, .self, s, hs, hmem⟩
  · exact .inr ⟨_, List.mem_cons_self, u, .child hx hu, hpart⟩

theorem Hosted.under (h : Hosted settled xs t) (slot : Option Field) (pending : Field → Bool) :
    Hosted pending (xs.map (Tree.under slot)) t := by
  rcases h with ⟨_, hs, _⟩ | ⟨x, hx, u, hu, s, hs, hmem⟩
  · cases hs
  · refine .inr ⟨_, List.mem_map_of_mem hx, ?_⟩
    obtain ⟨form, slot', start, stop, word, children⟩ := x
    cases hu with
    | self => exact ⟨_, .self, s, hs, hmem⟩
    | child hc hu => exact ⟨u, .child hc hu, s, hs, hmem⟩

end Hosted

namespace Grammar
open Rule

/-- The lexemes behind a word that leads are its parentheses, if it has some, and a statement. -/
def Led (k : Lexeme) (post : List Lexeme) (host : Tree → Prop) : Prop :=
  ∃ group body rest ys, post = group ++ (body ++ rest) ∧ Lead (k :: group) ∧
    Makes grammar statement none body ys ∧ ∀ t ∈ ys, host t

section Led
variable {k : Lexeme} {post : List Lexeme} {host host' : Tree → Prop}

theorem Led.mono (h : Led k post host) (himp : ∀ t, host t → host' t) : Led k post host' := by
  obtain ⟨group, body, rest, ys, hpost, hlead, hmakes, hall⟩ := h
  exact ⟨group, body, rest, ys, hpost, hlead, hmakes, fun t ht => himp t (hall t ht)⟩

theorem Led.extend (h : Led k post host) (more : List Lexeme) : Led k (post ++ more) host := by
  obtain ⟨group, body, rest, ys, rfl, hlead, hmakes, hall⟩ := h
  exact ⟨group, body, rest ++ more, ys, by simp, hlead, hmakes, hall⟩

end Led

/-- The first rule takes a word that leads in what the second makes. -/
def LeadsIn (pending : Field → Bool) (first second : R) : Prop :=
  ∀ {ls ms xs ys}, Makes grammar first none ls xs → Makes grammar second none ms ys →
    xs = [] ∧ ∃ l, ls = [l] ∧ Led l ms (Hosted pending ys)

/-- The links of the chain put the node that they grow into the one that they make. -/
def growing : R → Bool
  | grow _ _ _ _ => true
  | either first second => growing first && growing second
  | _ => false

/-- Wherever the rule takes this lexeme, it leads in a statement, if that holds of each category. -/
def Tame (k : Lexeme) : (Field → Bool) → R → Prop
  | _, take accepts => accepts k = false
  | _, glued texts _ => (texts.any fun t => k.isSymbol t) = false
  | _, leaf _ accepts => accepts k = false
  | pending, .sequence first second =>
    (Tame k pending first ∨ LeadsIn pending first second) ∧ Tame k pending second
  | pending, either first second => Tame k pending first ∧ Tame k pending second
  | pending, many rule => Tame k pending rule
  | _, under _ rule => Tame k settled rule
  | _, node form rule => Tame k (hosts form) rule
  | pending, only _ rule => Tame k pending rule
  | _, chain base link => Tame k settled base ∧ growing link = true ∧ Tame k settled link
  | _, grow _ _ _ rule => Tame k settled rule
  | _, _ => True

/-- The links of all chains are growing. -/
def chained : R → Bool
  | .sequence first second => chained first && chained second
  | either first second => chained first && chained second
  | many rule => chained rule
  | under _ rule => chained rule
  | node _ rule => chained rule
  | only _ rule => chained rule
  | chain base link => chained base && (growing link && chained link)
  | grow _ _ _ rule => chained rule
  | _ => true

theorem tame_of_rejects {k : Lexeme} {rule : R} (hrule : rule.rejects k = true)
    (hchained : chained rule = true) (pending : Field → Bool) : Tame k pending rule := by
  induction rule generalizing pending with
  | take _ | leaf _ _ | glued _ _ => simpa [rejects, Tame] using hrule
  | nothing | call _ | ahead _ _ | notAhead _ _ => trivial
  | sequence _ _ iha ihb =>
    obtain ⟨ha, hb⟩ := Bool.and_eq_true_iff.mp hrule
    obtain ⟨ha', hb'⟩ := Bool.and_eq_true_iff.mp hchained
    exact ⟨.inl (iha ha ha' pending), ihb hb hb' pending⟩
  | either _ _ iha ihb =>
    obtain ⟨ha, hb⟩ := Bool.and_eq_true_iff.mp hrule
    obtain ⟨ha', hb'⟩ := Bool.and_eq_true_iff.mp hchained
    exact ⟨iha ha ha' pending, ihb hb hb' pending⟩
  | many _ ih | under _ _ ih | node _ _ ih | only _ _ ih | grow _ _ _ _ ih =>
    exact ih hrule hchained _
  | chain _ _ iha ihb =>
    obtain ⟨ha, hb⟩ := Bool.and_eq_true_iff.mp hrule
    obtain ⟨ha', hb'⟩ := Bool.and_eq_true_iff.mp hchained
    obtain ⟨hgrowing, hb'⟩ := Bool.and_eq_true_iff.mp hb'
    exact ⟨iha ha ha' settled, hgrowing, ihb hb hb' settled⟩

/-- A growing link puts the node it grows in front of what it makes. -/
theorem eq_of_growing {link : R} {t : Tree} {ls : List Lexeme} {xs : List Tree}
    (h : Makes grammar link (some t) ls xs) (hlink : growing link = true) :
    ∃ form slot start stop ys, xs = [.node form none start stop none (t.under slot :: ys)] := by
  generalize hleft : some t = left at h
  induction h with
  | first _ _ ih => exact ih (Bool.and_eq_true_iff.mp hlink).1 hleft
  | second _ _ ih => exact ih (Bool.and_eq_true_iff.mp hlink).2 hleft
  | grow _ _ _ _ =>
    cases hleft
    exact ⟨_, _, _, _, _, rfl⟩
  | _ => cases hlink

/-- A lexeme of two runs stands in the first or in the second. -/
theorem split_of_append {ls ms pre post : List Lexeme} {k : Lexeme}
    (h : ls ++ ms = pre ++ k :: post) :
    (∃ mid, ls = pre ++ k :: mid ∧ post = mid ++ ms) ∨ ∃ mid, ms = mid ++ k :: post := by
  rcases List.append_eq_append_iff.mp h with ⟨mid, hpre, hms⟩ | ⟨mid, hls, hpost⟩
  · exact .inr ⟨mid, hms⟩
  · cases mid with
    | nil => exact .inr ⟨[], hpost.symm⟩
    | cons l mid =>
      cases hpost
      exact .inl ⟨mid, hls, rfl⟩

theorem led_of_tame {k : Lexeme} (hc : ∀ c, Tame k settled (grammar c)) {rule : R}
    {left : Option Tree} {ls : List Lexeme} {xs : List Tree} (h : Makes grammar rule left ls xs)
    {pending : Field → Bool} (hrule : Tame k pending rule) {pre post : List Lexeme}
    (hk : ls = pre ++ k :: post) : Led k post (Hosted pending xs) := by
  have hmem : ∀ {ls pre post : List Lexeme}, ls = pre ++ k :: post → k ∈ ls := by
    rintro _ _ _ rfl
    exact List.mem_append_right _ List.mem_cons_self
  induction h generalizing pending pre post with
  | take _ haccepts | leaf _ _ haccepts =>
    obtain rfl := List.mem_singleton.mp (hmem hk)
    rw [Tame, haccepts] at hrule
    cases hrule
  | glued _ _ htexts =>
    have htaken := hmem hk
    clear hk hmem
    exfalso
    induction htexts with
    | nil => cases htaken
    | cons hsymbol _ ih =>
      obtain ⟨hfirst, hrest⟩ := Bool.or_eq_false_iff.mp hrule
      rcases List.mem_cons.mp htaken with rfl | htaken
      · exact Bool.false_ne_true (hfirst.symm.trans hsymbol)
      · exact ih hrest htaken
  | nothing _ | none _ _ | ahead _ _ | notAhead _ _ => cases hmem hk
  | call _ _ ih => exact (ih (hc _) hk).mono fun _ ht => ht.settle pending
  | sequence _ hx hy ihx ihy =>
    obtain ⟨hfirst, hsecond⟩ := hrule
    rcases split_of_append hk with ⟨mid, hls, rfl⟩ | ⟨mid, hms⟩
    · rcases hfirst with hfirst | hleads
      · exact ((ihx hfirst hls).extend _).mono fun _ ht =>
          ht.mono (fun _ hs => hs) fun _ => List.mem_append_left _
      · obtain ⟨rfl, l, hl, hled⟩ := hleads hx hy
        rw [hl] at hls
        obtain ⟨rfl, rfl, rfl⟩ : pre = [] ∧ l = k ∧ mid = [] := by
          cases pre with
          | nil =>
            cases hls
            exact ⟨rfl, rfl, rfl⟩
          | cons _ pre => cases pre <;> cases hls
        exact hled
    · exact (ihy hsecond hms).mono fun _ ht =>
        ht.mono (fun _ hs => hs) fun _ => List.mem_append_right _
  | first _ _ ih => exact ih hrule.1 hk
  | second _ _ ih => exact ih hrule.2 hk
  | more _ _ _ ihx ihy =>
    rcases split_of_append hk with ⟨mid, hls, rfl⟩ | ⟨mid, hms⟩
    · exact ((ihx hrule hls).extend _).mono fun _ ht =>
        ht.mono (fun _ hs => hs) fun _ => List.mem_append_left _
    · exact (ihy hrule hms).mono fun _ ht =>
        ht.mono (fun _ hs => hs) fun _ => List.mem_append_right _
  | under _ _ _ ih => exact (ih hrule hk).mono fun _ ht => ht.under _ pending
  | node _ _ _ _ _ ih => exact (ih hrule hk).mono fun _ ht => ht.node pending
  | only _ _ _ ih => exact ih hrule hk
  | base _ _ _ ih => exact (ih hrule.1 hk).mono fun _ ht => ht.settle pending
  | link _ _ hu iht ihu =>
    obtain ⟨hbase, hgrowing, hlink⟩ := hrule
    rcases split_of_append hk with ⟨mid, hls, rfl⟩ | ⟨mid, hms⟩
    · obtain ⟨form, slot, start, stop, ys, heq⟩ := eq_of_growing hu hgrowing
      rw [heq]
      refine ((@iht settled ⟨hbase, hgrowing, hlink⟩ _ _ hls).extend _).mono fun _ ht => ?_
      exact ((ht.under slot _).mono (fun _ hs => hs) fun x hx =>
        List.mem_cons.mpr (.inl (List.mem_singleton.mp hx))).node pending
    · exact (ihu hlink hms).mono fun _ ht => ht.settle pending
  | grow _ _ _ ih =>
    exact (ih hrule hk).mono fun _ ht =>
      ((ht.settle _).mono (fun _ hs => hs) fun _ => List.mem_cons_of_mem _).node pending

/-! ### The words that lead -/

def wordAt (text : String) (p q : Point) : Lexeme := ⟨.word, text, p, q⟩

theorem eq_wordAt {text : String} {l : Lexeme} (h : l.isWord text = true) :
    l = wordAt text l.start l.stop := by
  obtain ⟨kind, text', p, q⟩ := l
  obtain ⟨hkind, htext⟩ := Bool.and_eq_true_iff.mp h
  obtain rfl : kind = .word := beq_iff_eq.mp hkind
  obtain rfl : text' = text := beq_iff_eq.mp htext
  rfl

theorem makes_keyword {text : String} {ls : List Lexeme} {xs : List Tree}
    (h : Makes grammar (keyword text) none ls xs) :
    xs = [] ∧ ∃ l, ls = [l] ∧ l.isWord text = true := by
  cases h with
  | take _ haccepts => exact ⟨rfl, _, rfl, haccepts⟩

theorem makes_under {slot : Field} {rule : R} {left : Option Tree} {ls : List Lexeme}
    {xs : List Tree} (h : Makes grammar (under slot rule) left ls xs) :
    ∃ ys, Makes grammar rule none ls ys ∧ xs = ys.map (Tree.under (some slot)) := by
  cases h with
  | under _ _ h => exact ⟨_, h, rfl⟩

/-- What the rule makes begins with a statement, the tree of which it gives. -/
def StartsBody (pending : Field → Bool) (rule : R) : Prop :=
  ∀ {ls xs}, Makes grammar rule none ls xs → ∃ body rest ys, ls = body ++ rest ∧
    Makes grammar statement none body ys ∧ ∀ t ∈ ys, Hosted pending xs t

section Words
variable {pending : Field → Bool} {slot : Field} {word : String}

theorem startsBody_under (hslot : pending slot = true) :
    StartsBody pending (under slot statement) := fun h => by
  obtain ⟨ys, hmakes, rfl⟩ := makes_under h
  exact ⟨_, [], ys, (List.append_nil _).symm, hmakes, fun t ht =>
    .inl ⟨slot, hslot, List.mem_map_of_mem ht⟩⟩

theorem startsBody_semicolon : StartsBody pending (symbol ";") := fun h => by
  obtain ⟨rfl, l, rfl, hl⟩ := makes_symbol h
  have hmakes : Makes grammar statement none [l] [] := .call none (.second _ (.first _ (.take none hl)))
  exact ⟨[l], [], [], rfl, hmakes, fun _ ht => nomatch ht⟩

theorem startsBody_sequence {rule : R} (h : StartsBody pending rule) (more : R) :
    StartsBody pending (sequence rule more) := fun hmakes => by
  cases hmakes with
  | sequence _ hx _ =>
    obtain ⟨body, rest, ys, rfl, hmakes, hall⟩ := h hx
    exact ⟨body, rest ++ _, ys, List.append_assoc _ _ _, hmakes, fun t ht =>
      (hall t ht).mono (fun _ hs => hs) fun _ => List.mem_append_left _⟩

theorem leads_word (hword : word = "else" ∨ word = "do") {rule : R}
    (hrule : StartsBody pending rule) : LeadsIn pending (keyword word) rule := fun hx hy => by
  obtain ⟨rfl, l, rfl, hl⟩ := makes_keyword hx
  obtain ⟨body, rest, ys, rfl, hmakes, hall⟩ := hrule hy
  refine ⟨rfl, l, rfl, [], body, rest, ys, rfl, .word ?_, hmakes, hall⟩
  rcases hword with rfl | rfl
  · exact .inl hl
  · exact .inr hl

theorem leads_header (hword : word = "if" ∨ word = "for" ∨ word = "while") {header rule : R}
    (hheader : ∀ {ls xs}, Makes grammar header none ls xs → Group ls)
    (hrule : StartsBody pending rule) :
    LeadsIn pending (keyword word) (sequence header rule) := fun hx hy => by
  obtain ⟨rfl, l, rfl, hl⟩ := makes_keyword hx
  cases hy with
  | sequence _ hgroup hrest =>
    obtain ⟨body, rest, ys, rfl, hmakes, hall⟩ := hrule hrest
    refine ⟨rfl, l, rfl, _, body, rest, ys, rfl, .header ?_ (hheader hgroup), hmakes, fun t ht =>
      (hall t ht).mono (fun _ hs => hs) fun _ => List.mem_append_right _⟩
    rcases hword with rfl | rfl | rfl
    · exact .inl hl
    · exact .inr (.inl hl)
    · exact .inr (.inr hl)

end Words

theorem group_of_parens {r : R} (hr : ∀ d, r.Climbs .round d d) {ls : List Lexeme}
    {xs : List Tree} (h : Makes grammar (enclosed "(" ")" r) none ls xs) : Group ls := by
  cases h with
  | sequence _ hopen hrest =>
    cases hrest with
    | sequence _ hinner hclose =>
      obtain ⟨_, o, rfl, ho⟩ := makes_symbol hopen
      obtain ⟨_, c, rfl, hc⟩ := makes_symbol hclose
      exact ⟨o, _, c, rfl, ho, hc, fun d => depth_of_makes parens_grammar hinner (hr d)⟩

theorem group_of_condition {ls : List Lexeme} {xs : List Tree}
    (h : Makes grammar condition none ls xs) : Group ls := by
  obtain ⟨_, h, _⟩ := makes_under h
  cases h with
  | call _ h =>
    change Makes grammar (node .parenthesizedExpression (enclosed "(" ")" expression)) none ls _ at h
    cases h with
    | node _ _ h _ _ => exact group_of_parens (r := expression) (fun _ => rfl) h

section Tame
variable {k : Lexeme}

theorem tame_choice {pending : Field → Bool} {rules : List R}
    (h : ∀ r ∈ rules, Tame k pending r) : Tame k pending (choice rules) := by
  induction rules with
  | nil => trivial
  | cons r rs ih =>
    obtain ⟨hr, hrs⟩ := List.forall_mem_cons.mp h
    cases rs with
    | nil => exact hr
    | cons r' rs => exact ⟨hr, ih hrs⟩

theorem tame_if (pending : Field → Bool) : Tame k pending ifStatement :=
  ⟨.inr (leads_header (.inl rfl) group_of_condition
    (startsBody_sequence (startsBody_under rfl) _)), .inl trivial, .inl trivial,
    ⟨.inr (leads_word (.inl rfl) (startsBody_under rfl)), trivial⟩, trivial⟩

theorem tame_while (pending : Field → Bool) : Tame k pending whileStatement :=
  ⟨.inr (leads_header (.inr (.inr rfl)) group_of_condition (startsBody_under rfl)), .inl trivial,
    trivial⟩

variable (hk : k.isLead = true)
include hk

theorem tame_flat {rule : R}
    (h : ∀ p q, (leadWords.all fun w => rule.rejects (wordAt w p q)) = true)
    (hchained : chained rule = true) (pending : Field → Bool) : Tame k pending rule := by
  obtain ⟨w, hw, hword⟩ := List.any_eq_true.mp hk
  have hrejects := List.all_eq_true.mp (h k.start k.stop) w hw
  rw [← eq_wordAt hword] at hrejects
  exact tame_of_rejects hrejects hchained pending

theorem tame_do (pending : Field → Bool) : Tame k pending doStatement :=
  ⟨.inr (leads_word (.inr rfl) (startsBody_sequence (startsBody_under rfl) _)), .inl trivial,
    .inr (leads_header (.inr (.inr rfl)) group_of_condition startsBody_semicolon), .inl trivial,
    tame_flat hk (fun _ _ => rfl) rfl _⟩

theorem tame_for (pending : Field → Bool) : Tame k pending forStatement :=
  ⟨.inr (leads_header (.inr (.inl rfl)) (group_of_parens fun _ => climbs_flat fun _ _ _ => rfl)
    (startsBody_under rfl)), .inl (tame_flat hk (fun _ _ => rfl) rfl _), trivial⟩

theorem tame_enhancedFor (pending : Field → Bool) : Tame k pending enhancedForStatement :=
  ⟨.inr (leads_header (.inr (.inl rfl)) (group_of_parens fun _ => climbs_flat fun _ _ _ => rfl)
    (startsBody_under rfl)), .inl (tame_flat hk (fun _ _ => rfl) rfl _), trivial⟩

theorem tame_statement (pending : Field → Bool) : Tame k pending statementRule := by
  refine tame_choice ?_
  simp only [List.forall_mem_cons]
  refine ⟨?_, ?_, tame_if _, tame_for hk _, tame_enhancedFor hk _, tame_while _,
    tame_do hk _, ?_, ?_, ?_, ?_, ?_, ?_, ?_, ?_, ?_, ?_, ?_, ?_, ?_, ?_, fun _ h => nomatch h⟩
  all_goals exact tame_flat hk (fun _ _ => rfl) rfl _

theorem tame_grammar (c : Category) : Tame k settled (grammar c) := by
  cases c with
  | level n label =>
    show Tame k settled (level n label)
    unfold level levelLink
    split <;> split <;> exact tame_flat hk (fun _ _ => rfl) rfl _
  | operand label => cases label <;> exact tame_flat hk (fun _ _ => rfl) rfl _
  | statement => exact tame_statement hk _
  | _ => exact tame_flat hk (fun _ _ => rfl) rfl _

/-- Wherever a word that leads stands in a text, it leads in a statement, the tree of which is a
branch or the body of a loop. -/
theorem led_of_lead {ls : List Lexeme} {xs : List Tree}
    (h : Makes grammar compilationUnit none ls xs) {pre post : List Lexeme}
    (hls : ls = pre ++ k :: post) : Led k post (Hosted settled xs) :=
  led_of_tame (tame_grammar hk) h (tame_flat hk (fun _ _ => rfl) rfl settled) hls

end Tame

end Grammar

end Retrace.Java
