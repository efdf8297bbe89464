import Retrace.Proofs.Reconstruct.Innermost
import Retrace.Proofs.Reconstruct.Online
import Retrace.Proofs.Reconstruct.Record
import Retrace.Proofs.Reconstruct.Sources

/-! The numbers of rounds.

A node of a loop has its number from its beginning on: one more than there are siblings of its
trace id. The trace ids of a run are fewer than a word counts, so the numbers are those of the
naturals (`rounds_count_up`). When the round ends, its siblings of that id may be counted as well,
itself included, with the same result: whatever has begun since lies below it
(`number_of_open_round`). -/
namespace Retrace.Trace.Tree

/-- The number of a round. -/
def number? (t : Tree) (i : Nat) : Option Nat :=
  ((t.get? i).bind Node.iteration).map UInt32.toNat

/-- The children of a node that carry a trace id. -/
def carriers (t : Tree) (i : Nat) (traceId : String) : List Nat :=
  (t.children i).filter fun c => t.traceId? c == some traceId

/-! ### Checked rounds -/

/-- When no round is out of place, the carriers of a trace id that are all counted are numbered
from the seen ones on. -/
theorem numbers_of_roundViolations {t : Tree} {w : String} {seen : List String} {l : List Nat}
    (h : roundViolations seen (l.filterMap t.countedChild?) = [])
    (hfew : seen.count w + l.length < Limit.word)
    (hcounted : ∀ c ∈ l, ∀ n, t.get? c = some n → n.traceId = w → n.iteration.isSome = true) :
    let own := l.filter fun c => t.traceId? c == some w
    own.map t.number? = (List.range' (seen.count w + 1) own.length).map some := by
  dsimp only
  induction l generalizing seen with
  | nil => rfl
  | cons c l ih =>
    have hlater : ∀ d ∈ l, ∀ n, t.get? d = some n → n.traceId = w → n.iteration.isSome = true :=
      fun d hd => hcounted d (List.mem_cons_of_mem c hd)
    rw [List.length_cons] at hfew
    cases hchild : t.countedChild? c with
    | none =>
      -- a node without a number is no carrier
      have hother : (t.traceId? c == some w) = false := by
        refine beq_false_of_ne fun hid => ?_
        obtain ⟨n, hn, hw⟩ := Option.map_eq_some_iff.mp hid
        obtain ⟨round, hround⟩ := Option.isSome_iff_exists.mp
          (hcounted c List.mem_cons_self n hn hw)
        simp [countedChild?, hn, hround] at hchild
      rw [List.filterMap_cons_none hchild] at h
      rw [List.filter_cons_of_neg (by simp [hother])]
      exact ih h (by omega) hlater
    | some x =>
      obtain ⟨n, hn, hround⟩ := Option.bind_eq_some_iff.mp hchild
      obtain ⟨round, hsome, rfl⟩ := Option.map_eq_some_iff.mp hround
      have hnumber : t.number? c = some round.toNat := by simp [number?, hn, hsome]
      have hid : t.traceId? c = some n.traceId := by simp [traceId?, hn]
      rw [List.filterMap_cons_some hchild] at h
      simp only [roundViolations] at h
      split at h
      · rename_i hplace
        by_cases hw : n.traceId = w
        · subst hw
          have hrest := ih h (by rw [List.count_cons_self]; omega) hlater
          rw [List.count_cons_self] at hrest
          rw [List.filter_cons_of_pos (by simp [hid]), List.map_cons, List.length_cons,
            List.range'_succ, List.map_cons, hrest, hnumber, hplace, Nat.toUInt32_eq,
            UInt32.toNat_ofNat_of_lt' (show _ < Limit.word by omega)]
        · have hcount : (n.traceId :: seen).count w = seen.count w := List.count_cons_of_ne hw
          have hrest := ih h (by rw [hcount]; omega) hlater
          rw [hcount] at hrest
          rw [List.filter_cons_of_neg (by simpa [hid] using hw)]
          exact hrest
      · cases h

/-- What begins between a node and one below it lies below it as well. -/
theorem above_between {t : Tree}
    (hnested : ∀ i, i + 1 < t.size → ∃ p, t.parent? (i + 1) = some p ∧ t.Above p i) {i c j : Nat}
    (h : t.Above i j) (hic : i ≤ c) (hcj : c ≤ j) : t.Above i c := by
  induction j with
  | zero =>
    obtain rfl : c = i := by omega
    exact .refl
  | succ j ih =>
    rcases Nat.lt_or_ge j c with hc | hc
    · obtain rfl : c = j + 1 := by omega
      exact h
    rcases Relation.ReflTransGen.cases_tail h with heq | ⟨p, hp, hedge⟩
    · omega
    · obtain ⟨q, hq, hbefore⟩ := hnested j (lt_size_of_parent? hedge)
      rw [hedge] at hq
      cases hq
      exact ih (hp.trans hbefore) hc

end Retrace.Trace.Tree

namespace Retrace.Reconstruct.Machine
open Source Instrument Trace

/-- The node is a round of a loop. -/
def IsRound (s : Setting) (t : Tree) (i : Nat) : Prop :=
  ∃ point, Bears s t i point ∧ point.kind.isLoop = true

section Placed
variable {s : Setting} {taken : List Nat} {m : Machine} (hp : Placed s taken m)
include hp

theorem pos_of_parent? {i c : Nat} (h : m.tree.parent? c = some i) : 0 < c :=
  Nat.lt_of_le_of_lt (Nat.zero_le i) (hp.earlier i c h)

theorem length_children_le (i : Nat) : (m.tree.children i).length ≤ taken.length := by
  have hroot : 0 ∈ List.range m.tree.size := List.mem_range.mpr (by rw [hp.size]; omega)
  have hlt : (m.tree.children i).length < (List.range m.tree.size).length := by
    rw [hp.listed i]
    refine List.length_filter_lt_length_iff_exists.mpr ⟨0, hroot, ?_⟩
    simp [hp.rootless]
  rw [List.length_range, hp.size] at hlt
  omega

/-- At every moment of a run the carriers of a loop's trace id are numbered from one on. -/
theorem numbers_of_placed (htallied : Tallied s m.tree) (hfew : taken.length < Limit.word) (i : Nat)
    {id : Nat} {point : TracePoint} (hpoint : s.points.get? id = some point)
    (hloop : point.kind.isLoop = true) :
    let rounds := m.tree.carriers i (toString id)
    rounds.map m.tree.number? = (List.range' 1 rounds.length).map some := by
  have hlength := length_children_le hp i
  refine Tree.numbers_of_roundViolations (htallied.counted i) (by rw [List.count_nil]; omega) ?_
  intro c hc n hn htrace
  rw [hp.listed i] at hc
  have hparent : m.tree.parent? c = some i := by simpa using (List.mem_filter.mp hc).2
  exact counted_of_loop htallied hpoint hloop hn (pos_of_parent? hp hparent) htrace

end Placed

/-- Nothing but rounds of loops is numbered. -/
theorem isRound_of_number? {s : Setting} {t : Tree} (htallied : Tallied s t)
    (hroot : t.core? 0 = some Node.root.core) {i : Nat} (h : t.number? i ≠ none) :
    IsRound s t i := by
  obtain ⟨number, hnumber⟩ := Option.ne_none_iff_exists'.mp h
  obtain ⟨round, hround, _⟩ := Option.map_eq_some_iff.mp hnumber
  obtain ⟨n, hn, hiteration⟩ := Option.bind_eq_some_iff.mp hround
  rcases Nat.eq_zero_or_pos i with rfl | hpos
  · rw [Tree.core?, hn] at hroot
    have hnone : n.iteration = none := congrArg Trace.Node.iteration (Option.some.inj hroot)
    rw [hiteration] at hnone
    cases hnone
  · obtain ⟨id, point, htrace, hpoint, hcounted⟩ := htallied.standing i n hn hpos
    rw [hiteration] at hcounted
    refine ⟨point, ⟨id, ?_, hpoint⟩, hcounted.symm⟩
    rw [Tree.traceId?, hn, Option.map_some, htrace]

/-! ### Whole runs -/

/-- What the start of a run and every move of it keep holds of each of its states. -/
theorem forall_states {s : Setting} {P : Machine → Prop}
    (hmoves : ∀ m n, P m → Moves s m n → P n) {m : Machine} (hm : P m) :
    ∀ n ∈ states s m, P n := by
  induction m using states.induct s with
  | case1 m k hstep ih =>
    rw [states]
    split
    · rename_i k' hk
      rw [hstep] at hk
      cases hk
      exact List.forall_mem_cons.mpr ⟨hm, ih (hmoves m k hm (moves_of_step hstep))⟩
    · rename_i hstop
      exact absurd hstep (hstop k)
  | case2 m hstop =>
    rw [states]
    split
    · rename_i k hstep
      exact absurd hstep (hstop k)
    · exact List.forall_mem_singleton.mpr hm

/-- What the rounds are told by. -/
structure Rounded (s : Setting) (tokens : List Nat) (m : Machine) : Prop where
  placed : ∃ taken, tokens = taken ++ m.rest ∧ Placed s taken m
  tallied : Tallied s m.tree
  named : Named s m
  root : m.tree.core? 0 = some Node.root.core

theorem rounded_ofTokens (s : Setting) (tokens : List Nat) :
    Rounded s tokens (ofTokens tokens) where
  placed := ⟨[], rfl, placed_ofTokens s tokens⟩
  tallied := tallied_bare s
  named := named_ofTokens s tokens
  root := rfl

theorem rounded_of_moves {s : Setting} {tokens : List Nat} {m n : Machine}
    (h : Rounded s tokens m) (hmoves : Moves s m n) : Rounded s tokens n where
  placed := placed_of_grows (grows_of_moves hmoves) h.placed
  tallied := by
    obtain ⟨_, _, hp⟩ := h.placed
    exact tallied_of_grows hp h.tallied (grows_of_moves hmoves)
  named := named_of_moves hmoves h.named
  root := by rw [(grown_of_moves hmoves).1.2 0 h.named.inhabited, h.root]

theorem getLast?_of_le {l : List Nat} (hl : l.Pairwise (· < ·)) {i : Nat} (hi : i ∈ l)
    (hle : ∀ c ∈ l, c ≤ i) : l.getLast? = some i := by
  obtain ⟨last, hlast⟩ := Option.ne_none_iff_exists'.mp
    (mt List.getLast?_eq_none_iff.mp (List.ne_nil_of_mem hi))
  obtain ⟨front, rfl⟩ := List.getLast?_eq_some_iff.mp hlast
  rcases List.mem_append.mp hi with hi | hi
  · have hlt := (List.pairwise_append.mp hl).2.2 i hi last List.mem_cons_self
    have hback := hle last List.mem_concat_self
    omega
  · rw [hlast, List.mem_singleton.mp hi]

/-- The node of an open activation is the last child of its parent. -/
theorem le_of_sibling {s : Setting} {taken : List Nat} {m : Machine} (hp : Placed s taken m)
    {i p c : Nat} (hopen : i ∈ m.indices) (hparent : m.tree.parent? i = some p)
    (hchild : m.tree.parent? c = some p) : c ≤ i := by
  refine Nat.le_of_not_lt fun hlt => ?_
  have hsize := Tree.lt_size_of_parent? hchild
  have habove := Tree.above_between hp.nested (hp.open_above i hopen).2.2 (Nat.le_of_lt hlt)
    (by omega)
  rcases Relation.ReflTransGen.cases_tail habove with heq | ⟨q, hq, hedge⟩
  · omega
  · rw [hchild] at hedge
    cases hedge
    have hback := Tree.Earlier.le_of_above (fun c p => hp.earlier p c) hq
    have hfront := hp.earlier p i hparent
    omega

/-- While a round is open, and so when it ends, its number is that of the nodes of its loop below
its parent: itself and those before it. -/
theorem number_of_open_round {s : Setting} {tokens : List Nat} (hfew : tokens.length < Limit.word)
    {m : Machine} (hm : m ∈ states s (ofTokens tokens)) {a : Activation} (ha : a ∈ m.stack)
    (hloop : a.point.kind.isLoop = true) :
    ∃ p id : Nat, m.tree.parent? a.index = some p ∧ m.tree.traceId? a.index = some (toString id) ∧
      m.tree.number? a.index = some (m.tree.carriers p (toString id)).length := by
  obtain ⟨⟨taken, htokens, hp⟩, htallied, hnamed, _⟩ :=
    forall_states (fun _ _ => rounded_of_moves) (rounded_ofTokens s tokens) m hm
  obtain ⟨hpos, id, htrace, hpoint⟩ := hnamed.named a ha
  have hopen : a.index ∈ m.indices := List.mem_map_of_mem ha
  obtain ⟨p, hparent, _⟩ := hp.nested (a.index - 1) (by have := hp.open_above _ hopen; omega)
  rw [show a.index - 1 + 1 = a.index by omega] at hparent
  refine ⟨p, id, hparent, htrace, ?_⟩
  have hlength : taken.length ≤ tokens.length := by rw [htokens, List.length_append]; omega
  have hnumbers := numbers_of_placed hp htallied (by omega) p hpoint hloop
  have hlast : (m.tree.carriers p (toString id)).getLast? = some a.index := by
    have hlisted : ∀ {c}, c ∈ m.tree.children p ↔ m.tree.parent? c = some p := by
      intro c
      rw [hp.listed p, List.mem_filter, beq_iff_eq, and_iff_right_iff_imp]
      exact fun hc => List.mem_range.mpr (Tree.lt_size_of_parent? hc)
    refine getLast?_of_le ((Tree.pairwise_children hp.listed p).filter _)
      (List.mem_filter.mpr ⟨hlisted.mpr hparent, beq_iff_eq.mpr htrace⟩) fun c hc => ?_
    exact le_of_sibling hp hopen hparent (hlisted.mp (List.mem_filter.mp hc).1)
  have hnumber := congrArg List.getLast? hnumbers
  rw [List.getLast?_map, hlast, List.getLast?_map, List.getLast?_range'] at hnumber
  split at hnumber
  · cases hnumber
  · rw [Option.map_some, Option.map_some, Option.some.injEq] at hnumber
    rw [hnumber]
    congr 1
    omega

/-- Among the children of a node those of one loop are numbered `1, 2, …` in their order, whatever
lies between them, and nothing else is numbered. -/
theorem rounds_count_up (s : Setting) (partially : Bool) (tokens : List Nat)
    (hfew : tokens.length < Limit.word) (r : Reconstruction)
    (h : reconstruct s partially (Stream.ofTokens tokens) = .ok r) :
    (∀ i id point, s.points.get? id = some point → point.kind.isLoop = true →
      let rounds := r.tree.carriers i (toString id)
      rounds.map r.tree.number? = (List.range' 1 rounds.length).map some) ∧
    ∀ i, ¬IsRound s r.tree i → r.tree.number? i = none := by
  obtain ⟨k, htree, ⟨taken, htokens, hp⟩, htallied, _, hroot⟩ :=
    reconstruct_keeps (fun _ _ => rounded_of_moves) h (rounded_ofTokens s tokens)
  have hlength : taken.length ≤ tokens.length := by rw [htokens, List.length_append]; omega
  rw [htree]
  refine ⟨fun i id point hpoint hloop => ?_, fun i hround => ?_⟩
  · exact numbers_of_placed hp htallied (by omega) i hpoint hloop
  · exact Classical.byContradiction fun h => hround (isRound_of_number? htallied hroot h)

/-- The method `f` runs anew in the first round of its loop, and the condition calls `g` around
each round. -/
theorem numbers_of_rounds_around_recursion :
    let s := Setting.ofSources
      [("A.java", "class A{void f(){while(g()){f();}}boolean g(){return p;}boolean p;}")]
    ∃ r, reconstruct s false (Stream.ofTokens [1, 3, 2, 1, 3, 3, 2, 3]) = .ok r ∧
      r.tree.children 1 = [2, 3, 6, 7, 8] ∧ r.tree.children 3 = [4] ∧
      r.tree.carriers 1 "2" = [3, 7] ∧ [3, 7].map r.tree.number? = [some 1, some 2] ∧
      r.tree.number? 4 = none := by
  intro s
  have hrun : ((outcome? s 200 [1, 3, 2, 1, 3, 3, 2, 3]).any fun r =>
      decide (r.unconsumed = 0 ∧ r.tree.children 1 = [2, 3, 6, 7, 8] ∧ r.tree.children 3 = [4] ∧
        r.tree.carriers 1 "2" = [3, 7] ∧ r.tree.traceId? 4 = some (toString 1))) = true := by
    decide +kernel
  have hloop : (s.points.get? 2).any fun point => point.kind.isLoop := by decide +kernel
  have hmethod : (s.points.get? 1).any fun point => !point.kind.isLoop := by decide +kernel
  obtain ⟨r, hok, hconsumed, houter, hround, hrounds, hinner⟩ := exists_reconstruct hrun
  obtain ⟨loop, hpoint, hkind⟩ := (Option.any_eq_true _ _).mp hloop
  obtain ⟨method, hmethod, hother⟩ := (Option.any_eq_true _ _).mp hmethod
  have hwhole := reconstruct_wholly hok hconsumed
  obtain ⟨hnumbers, hnone⟩ := rounds_count_up s false _ (by decide) r hwhole
  refine ⟨r, hwhole, houter, hround, hrounds, ?_, hnone 4 ?_⟩
  · have hone := hnumbers 1 2 loop hpoint hkind
    dsimp only at hone
    rw [show toString 2 = "2" from rfl, hrounds] at hone
    exact hone
  · rintro ⟨point, ⟨id, hid, hpoint⟩, hkind⟩
    rw [hinner] at hid
    rw [← Text.toString_injective (Option.some.inj hid), hmethod] at hpoint
    cases hpoint
    rw [hkind] at hother
    cases hother

end Retrace.Reconstruct.Machine
