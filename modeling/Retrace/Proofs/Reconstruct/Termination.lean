import Mathlib.Algebra.GroupWithZero.Nat
import Mathlib.Data.List.MinMax
import Retrace.Proofs.Reconstruct.Failures

/-! How long a reconstruction takes.

A run takes a number of steps that the trace and the code bound in advance (`after_eq_run`): a step
that takes a token may begin another scan and go on with one afresh, and every other step lowers a
potential made of what is left to scan and of the activations that may still ask. A scan that goes
back to a piece takes a token for its activation or never asks again (`taken_or_exhausted`), so it
goes back no more often than its activation has children (`Paid`). Hierarchies of classes
that go round in a circle are no exception, for nothing is assumed of the setting. -/
namespace Retrace.Reconstruct
open Source Instrument Trace Activation

theorem Setting.length_ancestryWithin_le (s : Setting) (limit : Nat) (name : String) :
    (s.ancestryWithin limit name).length ≤ limit := by
  induction limit generalizing name with
  | zero => exact Nat.le_refl 0
  | succ limit ih =>
    unfold ancestryWithin
    split
    · exact Nat.zero_le _
    · refine Nat.succ_le_succ ?_
      split
      · exact ih _
      · exact Nat.zero_le _

namespace Scan

/-- The scan has come to the end of a piece, or of a guard, and goes back to where it began: there
may be another child in it, or one in front of it. -/
def rescans (cursor : Cursor) (s : Scan) : Bool :=
  match s.todo, s.place with
  | p :: _, .after => verdict cursor p.range != .settled
  | _ :: _, .inGuards (g :: _) true _ => verdict cursor g != .settled
  | _, _ => false

theorem cursor_of_rescans {cursor : Cursor} {s : Scan} (h : rescans cursor s = true) :
    cursor ≠ .exhausted ∧ s.place ≠ .before := by
  unfold rescans at h
  split at h
  · rename_i hplace
    refine ⟨?_, by rw [hplace]; exact nofun⟩
    rintro rfl
    cases h
  · rename_i hplace
    refine ⟨?_, by rw [hplace]; exact nofun⟩
    rintro rfl
    cases h
  · cases h

/-- Going back means to ask. -/
theorem ask_of_rescans {cursor : Cursor} {s : Scan} (h : rescans cursor s = true) :
    ∃ t, step cursor s = .ask t := by
  cases hstep : step cursor s with
  | ask t => exact ⟨t, rfl⟩
  | done =>
    cases steps_of_eq hstep
    cases h
  | go t own =>
    cases steps_of_eq hstep with
    | guardSettled hverdict | settled hverdict => simp [rescans, hverdict] at h
    | _ => cases h

theorem cursor_of_ask {cursor : Cursor} {s t : Scan} (h : step cursor s = .ask t) :
    cursor ≠ .exhausted := by
  rintro rfl
  exact absurd (rank_pos_of_ask h) (Nat.lt_irrefl 0)

theorem place_of_ask {cursor : Cursor} {s t : Scan} (h : step cursor s = .ask t) :
    t.place ≠ .before := by
  cases steps_of_eq h <;> exact nofun

theorem weightAll_le_of_suffix {xs ys : List Piece} (h : xs <:+ ys) :
    weightAll xs ≤ weightAll ys := by
  obtain ⟨front, rfl⟩ := h
  induction front with
  | nil => exact Nat.le_refl _
  | cons p front ih => exact Nat.le_trans ih (Nat.le_add_left _ _)

/-- The scan of all pieces takes longest. -/
theorem weight_le_of_within {pieces : List Piece} {s : Scan} (h : Within pieces s) :
    s.weight ≤ weightAll pieces := by
  refine Nat.le_trans ?_ (weightAll_le_of_suffix h.1)
  unfold weight
  split
  · exact Nat.zero_le _
  · rename_i p rest htodo
    rw [htodo]
    refine Nat.add_le_add_right ?_ _
    cases hplace : s.place with
    | before => exact Nat.le_refl _
    | atGuards => simp [placeWeight, pieceWeight]
    | after => simp [placeWeight, pieceWeight]
    | inGuards gs entered skip =>
      have hlength := (h.2 p rest htodo gs entered skip hplace).length_le
      simp only [placeWeight, pieceWeight]
      split <;> omega

end Scan

/-! ### The potential -/

/-- How long the scan of a trace point's scope takes without children. -/
def scopeWeight (s : Setting) (point : TracePoint) : Nat :=
  let f := s.file point.ref
  Scan.weightAll ((scopeStatements f point.ref.node point.kind).map (piece f))

/-- The longest scan of a scope. -/
def Setting.longest (s : Setting) : Nat := (s.points.points.toList.map (scopeWeight s)).foldr max 0

theorem scopeWeight_le_longest {s : Setting} {id : Nat} {point : TracePoint}
    (h : s.points.get? id = some point) : scopeWeight s point ≤ s.longest := by
  unfold PointMap.get? at h
  split at h
  · cases h
  · have hmem := Array.mem_toList_iff.mpr (Array.mem_of_getElem? h)
    exact List.le_max_of_le' 0 (List.mem_map_of_mem hmem) (Nat.le_refl _)

theorem weight_le_longest {s : Setting} {a : Activation} (ha : Coherent s a) :
    a.scan.weight ≤ s.longest := by
  obtain ⟨id, hpoint⟩ := ha.traced
  exact Nat.le_trans (Scan.weight_le_of_within ha.within) (scopeWeight_le_longest hpoint)

/-- What an activation can still do without a token: scan, ask in vain and scan again, and end. -/
def Activation.potential (s : Setting) (a : Activation) : Nat :=
  a.scan.weight + (if a.cursor = .exhausted then 0 else s.longest + 1) + 1

theorem potential_le {s : Setting} {a : Activation} (ha : Coherent s a) :
    a.potential s ≤ 2 * (s.longest + 1) := by
  have hweight := weight_le_longest ha
  unfold Activation.potential
  split <;> omega

/-- It waits for a child that runs. -/
def Activation.Waits (a : Activation) : Prop := a.cursor = .unset ∧ a.scan.place ≠ .before

theorem cursor_resume (a : Activation) (e : Entrance) :
    (a.resume e).cursor ≠ .exhausted := by
  unfold resume
  cases e.marker? with
  | none => exact nofun
  | some marker => exact nofun

theorem potential_resume (s : Setting) {b : Activation} (hb : b.Waits) (e : Entrance) :
    (b.resume e).potential s = b.potential s := by
  have hscan : (b.resume e).scan = b.scan := by
    obtain ⟨_, _, _, hresume⟩ := resume_eq b e
    rw [hresume]
  have hcursor : b.cursor ≠ .exhausted := by
    rw [hb.1]
    exact nofun
  unfold Activation.potential
  rw [hscan, if_neg (cursor_resume b e), if_neg hcursor]

namespace Machine

/-- All activations but the innermost one wait. -/
def Waiting (m : Machine) : Prop := ∀ a ∈ m.stack.tail, a.Waits

theorem waiting_of_moves {s : Setting} {m n : Machine} (hm : m.Waiting) (h : Moves s m n) :
    n.Waiting := by
  unfold Waiting at hm
  cases h with
  | root hstack _ _ _ =>
    intro a ha
    rw [show (start s m _ 0 _ _ .root).stack.tail = m.stack from rfl, hstack] at ha
    cases ha
  | @close a below hstack _ =>
    rw [hstack] at hm
    cases below with
    | nil => exact fun a ha => nomatch ha
    | cons b below => exact fun a ha => hm a (List.mem_cons_of_mem b ha)
  | go hstack _ | ended hstack _ _ | refuse hstack _ _ _ _ =>
    rw [hstack] at hm
    exact hm
  | enter hstack hscan _ _ henter =>
    obtain ⟨_, _, _, rfl⟩ := rebound_enter? henter
    rw [hstack] at hm
    exact List.forall_mem_cons.mpr ⟨⟨rfl, Scan.place_of_ask hscan⟩, hm⟩

def potential (s : Setting) (m : Machine) : Nat :=
  3 * (s.longest + 1) * m.rest.length + (m.stack.map (Activation.potential s)).sum

/-- Every move lowers the potential. -/
theorem potential_lt_of_moves {s : Setting} {m n : Machine} (hm : ∀ a ∈ m.stack, Coherent s a)
    (hwaiting : m.Waiting) (h : Moves s m n) : n.potential s < m.potential s := by
  have hn := coherent_of_moves h hm
  unfold potential
  cases h with
  | @root id rest point hstack _ hrest hpoint =>
    have hnew := potential_le (coherent_start hpoint m.tree.size .root)
    simp only [start, hstack, hrest, List.map_cons, List.map_nil, List.sum_cons, List.sum_nil,
      List.length_cons, Nat.mul_succ]
    omega
  | @close a below hstack _ =>
    have hpos : 0 < a.potential s := Nat.succ_pos _
    unfold Waiting at hwaiting
    rw [hstack] at hwaiting ⊢
    cases below with
    | nil =>
      simp only [close, List.map_cons, List.map_nil, List.sum_cons, List.sum_nil]
      omega
    | cons b below =>
      have hb := potential_resume s (hwaiting b List.mem_cons_self) (a.finish s).entrance
      simp only [close, List.map_cons, List.sum_cons, hb]
      omega
  | @go a below scan own hstack hscan =>
    have hweight := Scan.weight_lt_of_go hscan
    obtain ⟨_, hown⟩ := addOwn_eq {a with scan := scan} own
    rw [hown, hstack]
    simp only [List.map_cons, List.sum_cons, Activation.potential]
    omega
  | @ended a below scan hstack hscan _ | @refuse a below scan _ _ _ hstack hscan _ _ _ =>
    have hweight := weight_le_longest (hn _ List.mem_cons_self)
    have hcursor : a.cursor ≠ .exhausted := Scan.cursor_of_ask hscan
    dsimp only at hweight
    rw [hstack]
    simp only [List.map_cons, List.sum_cons, Activation.potential, if_true, if_neg hcursor]
    omega
  | @enter a b below scan id rest point e hstack hscan hrest hpoint henter =>
    have hcursor : a.cursor ≠ .exhausted := Scan.cursor_of_ask hscan
    have hnew := potential_le (coherent_start hpoint m.tree.size e)
    have hparent := potential_le (hn _ (List.mem_cons_of_mem _ List.mem_cons_self))
    rw [hstack]
    simp only [start, hrest, List.map_cons, List.sum_cons, List.length_cons, Nat.mul_succ]
    rw [show a.potential s = a.scan.weight + (s.longest + 1) + 1 by
      rw [Activation.potential, if_neg hcursor]]
    omega

/-- A trace is read in so many steps. -/
theorem after_eq_run {s : Setting} {count : Nat} {m : Machine}
    (hm : ∀ a ∈ m.stack, Coherent s a) (hwaiting : m.Waiting) (hcount : m.potential s ≤ count) :
    after s count m = run s m := by
  induction count generalizing m with
  | zero =>
    rw [run_eq]
    cases hstep : step s m with
    | error fault =>
      obtain ⟨id, rest, hrest, _⟩ := step_error hstep
      unfold potential at hcount
      rw [hrest, List.length_cons, Nat.mul_succ] at hcount
      omega
    | ok next =>
      cases next with
      | none => rfl
      | some n => exact absurd (potential_lt_of_moves hm hwaiting (moves_of_step hstep)) (by omega)
  | succ count ih =>
    rw [run_eq]
    unfold after
    cases hstep : step s m with
    | error fault => rfl
    | ok next =>
      cases next with
      | none => rfl
      | some n =>
        have hmoves := moves_of_step hstep
        have hlt := potential_lt_of_moves hm hwaiting hmoves
        exact ih (coherent_of_moves hmoves hm) (waiting_of_moves hwaiting hmoves) (by omega)

/-! ### Going back -/

/-- The activation that has this index does not ask again, and takes no token before it ends. -/
def Spent (index : Nat) (rest : List Nat) (m : Machine) : Prop :=
  (∃ a below, m.stack = a :: below ∧ a.index = index ∧ a.cursor = .exhausted ∧ m.rest = rest ∧
    index ∉ below.map Activation.index) ∨ index ∉ m.indices

theorem spent_of_moves {s : Setting} {index : Nat} {rest : List Nat} {m n : Machine}
    (hsize : index < m.tree.size) (hm : Spent index rest m) (h : Moves s m n) :
    Spent index rest n := by
  have hask : ∀ {a : Activation} {scan : Scan}, a.cursor = .exhausted →
      a.scan.step a.cursor ≠ .ask scan :=
    fun hcursor hscan => Scan.cursor_of_ask hscan hcursor
  rcases hm with ⟨a, below, hstack, hindex, hcursor, hrest, hbelow⟩ | hgone
  · cases h with
    | root hempty _ _ _ => rw [hstack] at hempty; cases hempty
    | ended hstack' hscan _ | refuse hstack' hscan _ _ _ | enter hstack' hscan _ _ _ =>
      rw [hstack] at hstack'
      cases hstack'
      exact absurd hscan (hask hcursor)
    | go hstack' hscan =>
      rw [hstack] at hstack'
      cases hstack'
      obtain ⟨_, hown⟩ := addOwn_eq {a with scan := _} _
      rw [hown]
      exact .inl ⟨_, below, rfl, hindex, hcursor, hrest, hbelow⟩
    | close hstack' hscan =>
      rw [hstack] at hstack'
      cases hstack'
      right
      rw [indices_close]
      exact hbelow
  · right
    cases grows_of_moves h with
    | still _ _ _ hindices => rwa [hindices]
    | ends _ _ _ hindices =>
      rw [hindices] at hgone
      exact fun hmem => hgone (List.mem_cons_of_mem _ hmem)
    | begins _ _ _ hindices _ =>
      rw [hindices]
      exact fun hmem => (List.mem_cons.mp hmem).elim (Nat.ne_of_lt hsize) hgone

/-- A spent activation stays so until it has ended. -/
theorem exhausted_of_spent {s : Setting} {index : Nat} {rest : List Nat} {m : Machine}
    (hsize : index < m.tree.size) (hm : Spent index rest m) :
    ∀ k ∈ states s m, ∀ b ∈ k.stack, b.index = index → b.cursor = .exhausted ∧ k.rest = rest := by
  intro k hk b hb hindex
  have hspent := forall_states (P := fun k => index < k.tree.size ∧ Spent index rest k)
    (fun x y hx hmoves => ⟨Nat.lt_of_lt_of_le hx.1 (grown_of_moves hmoves).1.1,
      spent_of_moves hx.1 hx.2 hmoves⟩) ⟨hsize, hm⟩ k hk
  have hopen : index ∈ k.indices := hindex ▸ List.mem_map_of_mem hb
  rcases hspent.2 with ⟨a, below, hstack, _, hcursor, hrest, hbelow⟩ | hgone
  · rw [hstack] at hb
    rcases List.mem_cons.mp hb with rfl | hb
    · exact ⟨hcursor, hrest⟩
    · exact absurd (hindex ▸ List.mem_map_of_mem hb) hbelow
  · exact absurd hopen hgone

/-- A scan that goes back takes the next token for its activation, or the activation never asks
again and takes no token before it ends. -/
theorem taken_or_exhausted {s : Setting} {taken : List Nat} {m : Machine} {a : Activation}
    {below : List Activation} (hplaced : Placed s taken m) (hstack : m.stack = a :: below)
    (h : a.scan.rescans a.cursor = true) :
    (∃ id, step s m = .error (.unknownTraceId id)) ∨ ∃ n, step s m = .ok (some n) ∧
      ((∃ id, m.rest = id :: n.rest ∧ m.tree.size ∈ n.tree.children a.index) ∨
        n.rest = m.rest ∧ a.index ∈ n.indices ∧ ∀ k ∈ states s n, ∀ b ∈ k.stack,
          b.index = a.index → b.cursor = .exhausted ∧ k.rest = m.rest) := by
  obtain ⟨asked, hasked⟩ := Scan.ask_of_rescans h
  have hsize : a.index < m.tree.size :=
    (hplaced.open_above _ (List.mem_map_of_mem (by rw [hstack]; exact List.mem_cons_self))).2.1
  have hbelow : a.index ∉ below.map Activation.index := by
    have hdescending := hplaced.descending
    rw [indices_eq hstack] at hdescending
    exact fun hmem => Nat.lt_irrefl _ ((List.pairwise_cons.mp hdescending).1 _ hmem)
  cases hstep : step s m with
  | error fault =>
    obtain ⟨id, _, _, _, rfl⟩ := step_error hstep
    exact .inl ⟨id, rfl⟩
  | ok next =>
    right
    cases next with
    | none =>
      rw [(step_eq_none hstep).1] at hstack
      cases hstack
    | some n =>
      refine ⟨n, rfl, ?_⟩
      cases moves_of_step hstep with
      | root hempty _ _ _ => rw [hstack] at hempty; cases hempty
      | close hstack' hscan | go hstack' hscan =>
        rw [hstack] at hstack'
        cases hstack'
        rw [hasked] at hscan
        cases hscan
      | ended hstack' _ _ | refuse hstack' _ _ _ _ =>
        rw [hstack] at hstack'
        cases hstack'
        refine .inr ⟨rfl, List.mem_cons_self, exhausted_of_spent hsize (.inl ?_)⟩
        exact ⟨_, below, rfl, rfl, rfl, rfl, hbelow⟩
      | enter hstack' hscan hrest hpoint henter =>
        rw [hstack] at hstack'
        cases hstack'
        obtain ⟨_, _, _, rfl⟩ := rebound_enter? henter
        refine .inl ⟨_, hrest, ?_⟩
        simp only [start]
        rw [Tree.children_push hsize rfl, if_pos rfl]
        exact List.mem_append_right _ (List.mem_singleton_self _)

/-- The innermost activation has this index, and its scan goes back. -/
def rescansAt (i : Nat) (m : Machine) : Bool :=
  match m.stack with
  | a :: _ => a.index == i && a.scan.rescans a.cursor
  | [] => false

end Machine

/-- An activation that has begun may ask again once for every child that has ended. -/
def Activation.credit (a : Activation) : Nat :=
  match a.cursor with
  | .exhausted => 0
  | .child _ => 1
  | .unset => if a.scan.place = .before then 0 else 1

theorem credit_le_one (a : Activation) : a.credit ≤ 1 := by
  unfold Activation.credit
  split
  · exact Nat.zero_le 1
  · exact Nat.le_refl 1
  · split
    · exact Nat.zero_le 1
    · exact Nat.le_refl 1

theorem credit_of_waits {a : Activation} (h : a.Waits) : a.credit = 1 := by
  unfold Activation.credit
  rw [h.1]
  exact if_neg h.2

/-- Whoever goes back may ask. -/
theorem credit_of_rescans {a : Activation} (h : a.scan.rescans a.cursor = true) :
    a.credit = 1 := by
  obtain ⟨hcursor, hplace⟩ := Scan.cursor_of_rescans h
  unfold Activation.credit
  split
  · exact absurd ‹_› hcursor
  · rfl
  · exact if_neg hplace

theorem credit_go {a : Activation} {scan : Scan} {own : Option Range}
    (h : a.scan.step a.cursor = .go scan own) :
    (({a with scan := scan}).addOwn own).credit ≤ a.credit := by
  obtain ⟨_, hown⟩ := addOwn_eq {a with scan := scan} own
  rw [hown]
  unfold Activation.credit
  dsimp only
  split
  · exact Nat.zero_le _
  · exact Nat.le_refl _
  · rename_i hcursor
    -- In front of a piece an activation that knows of no child asks.
    have hplace : a.scan.place ≠ .before := by
      intro hbefore
      have hsteps := Scan.steps_of_eq h
      generalize a.scan = old at hsteps hbefore
      cases hsteps with
      | start hset => exact hset hcursor
      | _ => cases hbefore
    rw [if_neg hplace]
    split
    · exact Nat.zero_le 1
    · exact Nat.le_refl 1

namespace Machine

theorem rescansAt_eq {m : Machine} {a : Activation} {below : List Activation}
    (hstack : m.stack = a :: below) (i : Nat) :
    rescansAt i m = (a.index == i && a.scan.rescans a.cursor) := by
  rw [rescansAt, hstack]

/-- No activation has gone back more often than it has children, and one that may still ask can
go back once more for a child that it has. -/
structure Paid (past : List Machine) (m : Machine) : Prop where
  counted : ∀ i, past.countP (rescansAt i) ≤ (m.tree.children i).length
  credit : ∀ a ∈ m.stack,
    past.countP (rescansAt a.index) + a.credit ≤ (m.tree.children a.index).length

theorem countP_snoc (past : List Machine) (m : Machine) (i : Nat) :
    (past ++ [m]).countP (rescansAt i) =
      past.countP (rescansAt i) + if rescansAt i m then 1 else 0 := by
  rw [List.countP_append, List.countP_singleton]

section Asked
variable {past : List Machine} {m : Machine} {a : Activation} {below : List Activation}
  (hstack : m.stack = a :: below)
include hstack

/-- Going back costs what the activation has in hand. -/
theorem countP_top_le (past : List Machine) :
    (past ++ [m]).countP (rescansAt a.index) ≤ past.countP (rescansAt a.index) + a.credit := by
  rw [countP_snoc, rescansAt_eq hstack]
  refine Nat.add_le_add_left ?_ _
  split
  · rename_i hback
    exact Nat.le_of_eq (credit_of_rescans (Bool.and_eq_true_iff.mp hback).2).symm
  · exact Nat.zero_le _

theorem countP_of_ne (past : List Machine) {i : Nat} (hi : i ≠ a.index) :
    (past ++ [m]).countP (rescansAt i) = past.countP (rescansAt i) := by
  rw [countP_snoc, rescansAt_eq hstack, if_neg, Nat.add_zero]
  exact fun hback => hi (beq_iff_eq.mp (Bool.and_eq_true_iff.mp hback).1).symm

theorem Paid.asked (hm : Paid past m) (i : Nat) :
    (past ++ [m]).countP (rescansAt i) ≤ (m.tree.children i).length := by
  by_cases hi : i = a.index
  · rw [hi]
    exact Nat.le_trans (countP_top_le hstack past)
      (hm.credit a (by rw [hstack]; exact List.mem_cons_self))
  · rw [countP_of_ne hstack past hi]
    exact hm.counted i

/-- The activations below are not concerned. -/
theorem Paid.waiting (hm : Paid past m) (hdescending : m.indices.Pairwise (· > ·)) {b : Activation}
    (hb : b ∈ below) :
    (past ++ [m]).countP (rescansAt b.index) + b.credit ≤ (m.tree.children b.index).length := by
  rw [indices_eq hstack] at hdescending
  have hlt := (List.pairwise_cons.mp hdescending).1 _ (List.mem_map_of_mem hb)
  rw [countP_of_ne hstack past (Nat.ne_of_lt hlt)]
  exact hm.credit b (by rw [hstack]; exact List.mem_cons_of_mem a hb)

end Asked

theorem length_children_push {t : Tree} {p : Nat} {n : Trace.Node} (hp : p < t.size)
    (hn : n.children = #[]) (i : Nat) :
    ((t.push p n).children i).length = (t.children i).length + if i = p then 1 else 0 := by
  rw [Tree.children_push hp hn]
  split
  · rename_i hi
    rw [List.length_append, hi]
    rfl
  · rfl

theorem paid_of_moves {s : Setting} {taken : List Nat} {past : List Machine} {m n : Machine}
    (hplaced : Placed s taken m) (hwaiting : m.Waiting) (hm : Paid past m) (h : Moves s m n) :
    Paid (past ++ [m]) n := by
  cases h with
  | @root id rest point hstack hmore hrest hpoint =>
    have hcount : ∀ i, (past ++ [m]).countP (rescansAt i) = past.countP (rescansAt i) := by
      intro i
      rw [countP_snoc, rescansAt, hstack]
      rfl
    have hroot : 0 < m.tree.size := by
      rw [hplaced.size]
      exact Nat.succ_pos _
    have hcounted : ∀ i, (past ++ [m]).countP (rescansAt i) ≤
        ((start s m rest 0 id point .root).tree.children i).length := by
      intro i
      simp only [start]
      rw [hcount, length_children_push hroot rfl]
      exact Nat.le_trans (hm.counted i) (Nat.le_add_right _ _)
    refine ⟨hcounted, ?_⟩
    simp only [start, hstack]
    exact List.forall_mem_singleton.mpr (hcounted _)
  | @close a below hstack hscan =>
    unfold Waiting at hwaiting
    have htree := Tree.children_eq_of_outline (outline_close s m a below)
    refine ⟨by rw [htree]; exact hm.asked hstack, ?_⟩
    rw [htree]
    cases below with
    | nil => exact List.forall_mem_nil _
    | cons b below =>
      have hb := hm.waiting hstack hplaced.descending List.mem_cons_self
      rw [hstack] at hwaiting
      rw [credit_of_waits (hwaiting b List.mem_cons_self)] at hb
      refine List.forall_mem_cons.mpr ⟨?_, fun c hc =>
        hm.waiting hstack hplaced.descending (List.mem_cons_of_mem b hc)⟩
      obtain ⟨_, _, _, hresume⟩ := resume_eq b (a.finish s).entrance
      rw [show (b.resume (a.finish s).entrance).index = b.index by rw [hresume]]
      exact Nat.le_trans (Nat.add_le_add_left (credit_le_one _) _) hb
  | @go a below scan own hstack hscan =>
    refine ⟨hm.asked hstack, List.forall_mem_cons.mpr ⟨?_, fun b hb =>
      hm.waiting hstack hplaced.descending hb⟩⟩
    have hstays : rescansAt a.index m = false := by
      rw [rescansAt_eq hstack, ← Bool.not_eq_true]
      intro hback
      obtain ⟨asked, hasked⟩ := Scan.ask_of_rescans (Bool.and_eq_true_iff.mp hback).2
      rw [hscan] at hasked
      cases hasked
    have hindex : (({a with scan := scan}).addOwn own).index = a.index := by
      obtain ⟨_, hown⟩ := addOwn_eq {a with scan := scan} own
      rw [hown]
    rw [hindex, countP_snoc, hstays]
    exact Nat.le_trans (Nat.add_le_add_left (credit_go hscan) _)
      (hm.credit a (by rw [hstack]; exact List.mem_cons_self))
  | @ended a below scan hstack hscan _ | @refuse a below scan _ _ _ hstack hscan _ _ _ =>
    refine ⟨hm.asked hstack, List.forall_mem_cons.mpr ⟨?_, fun b hb => ?_⟩⟩
    · exact hm.asked hstack a.index
    · exact hm.waiting hstack hplaced.descending hb
  | @enter a b below scan id rest point e hstack hscan hrest hpoint henter =>
    obtain ⟨_, _, _, rfl⟩ := rebound_enter? henter
    have hopen : a.index < m.tree.size :=
      (hplaced.open_above _ (List.mem_map_of_mem (by rw [hstack]; exact List.mem_cons_self))).2.1
    have hgrows := length_children_push (n := newNode s m.tree a.index id point e) hopen rfl
    have hcounted : ∀ i, (past ++ [m]).countP (rescansAt i) ≤
        ((m.tree.push a.index (newNode s m.tree a.index id point e)).children i).length := by
      intro i
      rw [hgrows]
      exact Nat.le_trans (hm.asked hstack i) (Nat.le_add_right _ _)
    refine ⟨hcounted, List.forall_mem_cons.mpr ⟨hcounted _, List.forall_mem_cons.mpr
      ⟨?_, fun c hc => ?_⟩⟩⟩
    · refine Nat.le_trans (Nat.add_le_add (hm.asked hstack a.index) (credit_le_one _)) ?_
      simp only [start]
      rw [hgrows, if_pos rfl]
    · refine Nat.le_trans (hm.waiting hstack hplaced.descending hc) ?_
      simp only [start]
      rw [hgrows]
      exact Nat.le_add_right _ _

/-- What every move keeps of a state and of those before it holds all along a run. -/
theorem forall_past {s : Setting} {P : List Machine → Machine → Prop}
    (hmoves : ∀ past m n, P past m → Moves s m n → P (past ++ [m]) n) {past : List Machine}
    {m : Machine} (hm : P past m) {front : List Machine} {n : Machine} {back : List Machine}
    (h : states s m = front ++ n :: back) : P (past ++ front) n := by
  induction m using states.induct s generalizing past front with
  | case1 m k hstep ih =>
    rw [states] at h
    split at h
    · rename_i k' hk
      rw [hstep] at hk
      cases hk
      cases front with
      | nil =>
        cases h
        rwa [List.append_nil]
      | cons x front =>
        obtain ⟨rfl, htail⟩ := List.cons.inj h
        rw [List.append_cons]
        exact ih (hmoves past _ k hm (moves_of_step hstep)) htail
    · rename_i hstop
      exact absurd hstep (hstop k)
  | case2 m hstop =>
    rw [states] at h
    split at h
    · rename_i k hstep
      exact absurd hstep (hstop k)
    · cases front with
      | nil =>
        cases h
        rwa [List.append_nil]
      | cons x front =>
        have hlength := congrArg List.length h
        simp at hlength

theorem paid_ofTokens (tokens : List Nat) : Paid [] (ofTokens tokens) :=
  ⟨fun _ => Nat.zero_le _, fun _ h => nomatch h⟩

theorem paid_of_states {s : Setting} {tokens : List Nat} {past later : List Machine} {m : Machine}
    (h : states s (ofTokens tokens) = past ++ m :: later) :
    Paid past m ∧ ∃ taken, tokens = taken ++ m.rest ∧ Placed s taken m := by
  have hkept := forall_past
    (P := fun past m => Paid past m ∧ m.Waiting ∧ ∃ taken, tokens = taken ++ m.rest ∧
      Placed s taken m)
    (fun past x y hx hmoves => by
      obtain ⟨hpaid, hwaiting, hplaced⟩ := hx
      have ⟨_, _, hp⟩ := hplaced
      exact ⟨paid_of_moves hp hwaiting hpaid hmoves, waiting_of_moves hwaiting hmoves,
        placed_of_grows (grows_of_moves hmoves) hplaced⟩)
    ⟨paid_ofTokens tokens, (fun _ h => nomatch h), [], rfl, placed_ofTokens s tokens⟩ h
  exact ⟨hkept.1, hkept.2.2⟩

end Machine

/-- Reconstruction ends on every input, with any hierarchy of classes: the chain of superclasses is
cut off, and the run is over after so many steps for every token. When a scan goes back to a piece
or to a guard of one, the step takes a token, which becomes a child of the activation, or else the
activation does not ask again and no token is taken until it has ended. So at any moment an
activation has gone back no more often than it has taken tokens. -/
theorem reconstruction_ends (s : Setting) (tokens : List Nat) :
    (∀ name, (s.ancestry name).length ≤ 64) ∧
    Machine.after s (3 * (s.longest + 1) * tokens.length) (Machine.ofTokens tokens) =
      Machine.run s (Machine.ofTokens tokens) ∧
    (∀ m ∈ Machine.states s (Machine.ofTokens tokens), ∀ a below, m.stack = a :: below →
      a.scan.rescans a.cursor = true →
      (∃ id, Machine.step s m = .error (.unknownTraceId id)) ∨
        ∃ n, Machine.step s m = .ok (some n) ∧
          ((∃ id, m.rest = id :: n.rest ∧ m.tree.size ∈ n.tree.children a.index) ∨
            n.rest = m.rest ∧ a.index ∈ n.indices ∧ ∀ k ∈ Machine.states s n, ∀ b ∈ k.stack,
              b.index = a.index → b.cursor = .exhausted ∧ k.rest = m.rest)) ∧
    ∀ past m later, Machine.states s (Machine.ofTokens tokens) = past ++ m :: later → ∀ i,
      past.countP (Machine.rescansAt i) ≤ (m.tree.children i).length ∧
        (m.tree.children i).length + m.rest.length ≤ tokens.length := by
  refine ⟨s.length_ancestryWithin_le 64, ?_, fun m hm a below hstack hback => ?_,
    fun past m later hstates i => ?_⟩
  · exact Machine.after_eq_run (List.forall_mem_nil _) (fun _ h => nomatch h) (Nat.le_refl _)
  · obtain ⟨_, _, hplaced⟩ := Machine.forall_states
      (fun _ _ hx hmoves => Machine.placed_of_grows (Machine.grows_of_moves hmoves) hx)
      ⟨[], rfl, Machine.placed_ofTokens s tokens⟩ m hm
    exact Machine.taken_or_exhausted hplaced hstack hback
  · obtain ⟨hpaid, taken, htokens, hplaced⟩ := Machine.paid_of_states hstates
    refine ⟨hpaid.counted i, ?_⟩
    rw [congrArg List.length htokens, List.length_append]
    exact Nat.add_le_add_right (Machine.length_children_le hplaced i) _

/-- Two classes that extend each other. -/
example :
    let p := Project.ofSources [("A.java", "class A extends B{} class B extends A{}")]
    ((Setting.traced p).ancestry "A").length = 64 := by
  decide +kernel

end Retrace.Reconstruct
