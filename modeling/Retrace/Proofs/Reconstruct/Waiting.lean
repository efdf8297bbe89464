import Retrace.Proofs.Reconstruct.RoundNumbers

/-! What an activation waits for.

An activation whose last statement is in sight of the latest child asks for the next token before
it ends (`exists_asking`). A child that can bind nothing in the next token ends before the token is
taken (`exists_left`), and the tree has not grown in between. -/
namespace Retrace.Reconstruct
open Source Instrument Trace Activation

namespace Machine

theorem step_of_moves {s : Setting} {m n : Machine} (h : Moves s m n) :
    step s m = .ok (some n) := by
  cases h with
  | root hstack hmore hrest hpoint =>
    unfold step startRoot
    rw [hstack, hmore, hrest]
    simp only [point?_eq_ok.mpr hpoint]
    rfl
  | close hstack hscan =>
    unfold step
    rw [hstack]
    simp only [hscan]
  | go hstack hscan =>
    unfold step
    rw [hstack]
    simp only [hscan]
  | ended hstack hscan hrest =>
    unfold step ask
    rw [hstack, hrest]
    simp only [hscan]
    rfl
  | refuse hstack hscan hrest hpoint henter =>
    unfold step ask
    rw [hstack, hrest]
    simp only [hscan, point?_eq_ok.mpr hpoint, bind, Except.bind, henter]
    rfl
  | enter hstack hscan hrest hpoint henter =>
    unfold step ask
    rw [hstack, hrest]
    simp only [hscan, point?_eq_ok.mpr hpoint, bind, Except.bind, henter]
    rfl

theorem mem_states_self (s : Setting) (m : Machine) : m ∈ states s m := by
  rw [states]
  split
  · exact List.mem_cons_self
  · exact List.mem_singleton_self m

theorem states_subset {s : Setting} {m n : Machine} (h : Moves s m n) :
    states s n ⊆ states s m := by
  intro k hk
  rw [states]
  split
  · rename_i n' hstep
    rw [step_of_moves h] at hstep
    cases hstep
    exact List.mem_cons_of_mem m hk
  · rename_i hstop
    exact absurd (step_of_moves h) (hstop n)

/-- A run can be taken up at any of its states. -/
theorem run_of_mem_states {s : Setting} {m n : Machine} (h : n ∈ states s m) :
    run s m = run s n ∧ states s n ⊆ states s m := by
  induction m using states.induct s with
  | case1 m k hstep ih =>
    rw [states] at h
    split at h
    · rename_i k' hk
      rw [hstep] at hk
      cases hk
      rcases List.mem_cons.mp h with rfl | h
      · exact ⟨rfl, List.Subset.refl _⟩
      · obtain ⟨hrun, hsubset⟩ := ih h
        rw [run_eq, hstep]
        exact ⟨hrun, List.Subset.trans hsubset (states_subset (moves_of_step hstep))⟩
    · rename_i hstop
      exact absurd hstep (hstop k)
  | case2 m hstop =>
    rw [states] at h
    split at h
    · rename_i k hstep
      exact absurd hstep (hstop k)
    · rw [List.mem_singleton.mp h]
      exact ⟨rfl, List.Subset.refl _⟩

theorem mem_states_of_after {s : Setting} {count : Nat} {m n : Machine}
    (h : after s count m = .ok n) : n ∈ states s m := by
  induction count generalizing m with
  | zero =>
    cases h
    exact mem_states_self s _
  | succ count ih =>
    unfold after at h
    split at h
    · cases h
    · cases h
      exact mem_states_self s _
    · rename_i k hstep
      exact states_subset (moves_of_step hstep) (ih h)

/-- The scan goes on, and but for own ranges nothing else changes. -/
theorem moves_rescan {s : Setting} {m : Machine} {a : Activation} {below : List Activation}
    {scan : Scan} {own : Option Range} (hstack : m.stack = a :: below)
    (hscan : a.scan.step a.cursor = .go scan own) : ∃ ranges,
      Moves s m {m with stack := a.rescan a.cursor scan a.markers ranges :: below} := by
  obtain ⟨ranges, hown⟩ := addOwn_eq {a with scan := scan} own
  have hmoves := Moves.go (s := s) hstack hscan
  rw [hown] at hmoves
  exact ⟨ranges, hmoves⟩

end Machine

open Machine

/-! ### Asking -/

/-- The last piece of the scope is before the scan and the place in sight of it. -/
theorem ahead_of_within {s : Setting} {a : Activation} {scan : Scan}
    (h : Scan.Within (pieces s a) scan) (hne : scan.todo ≠ []) :
    ∃ l, scan.todo.getLast? = some l ∧ (pieces s a).getLast? = some l := by
  obtain ⟨front, hfront⟩ := h.1
  refine ⟨scan.todo.getLast hne, List.getLast?_eq_some_getLast hne, ?_⟩
  rw [← hfront, List.getLast?_append_of_ne_nil _ hne]
  exact List.getLast?_eq_some_getLast hne

/-- An activation with its last piece before it asks, and nothing else happens until then. -/
theorem exists_asking {s : Setting} {m : Machine} {a : Activation} {below : List Activation}
    (hstack : m.stack = a :: below) (hahead : Ahead s a a.cursor.place?)
    (hcursor : a.cursor ≠ .exhausted) :
    ∃ scan ranges asked, {m with stack := a.rescan a.cursor scan a.markers ranges :: below} ∈
      states s m ∧ scan.step a.cursor = .ask asked := by
  cases hscan : a.scan.step a.cursor with
  | done =>
    obtain ⟨l, htodo, _⟩ := hahead
    rw [Scan.todo_of_done hscan] at htodo
    cases htodo
  | ask asked =>
    refine ⟨a.scan, a.ranges, asked, ?_, hscan⟩
    rw [show a.rescan a.cursor a.scan a.markers a.ranges = a from rfl, ← hstack]
    exact mem_states_self s m
  | go scan own =>
    obtain ⟨ranges, hmoves⟩ := moves_rescan (s := s) hstack hscan
    have hstill : Ahead s (a.rescan a.cursor scan a.markers ranges) a.cursor.place? := by
      have halive : Alive s [] a := .inr (.inr (.inl ⟨List.not_mem_nil, hahead⟩))
      have halive' := alive_go halive hscan
      obtain ⟨_, hown⟩ := addOwn_eq {a with scan := scan} own
      rw [hown] at halive'
      rcases halive' with hexhausted | ⟨hnil, _⟩ | ⟨_, hstill⟩ | ⟨hleft, _⟩
      · exact absurd hexhausted hcursor
      · obtain ⟨l, _, hlast, _⟩ := hahead
        rw [show pieces s a = [] from hnil] at hlast
        cases hlast
      · exact hstill
      · cases hleft
    obtain ⟨scan', ranges', asked, hmem, hasks⟩ :=
      exists_asking (a := a.rescan a.cursor scan a.markers ranges)
        (m := {m with stack := a.rescan a.cursor scan a.markers ranges :: below}) rfl hstill hcursor
    exact ⟨scan', ranges', asked, states_subset hmoves hmem, hasks⟩
termination_by a.scan.weight
decreasing_by exact Scan.weight_lt_of_go hscan

/-! ### Leaving -/

/-- An activation that cannot bind the next token ends, and nothing else happens until then. -/
theorem exists_left {s : Setting} {m : Machine} {c b : Activation} {below : List Activation}
    {id : Nat} {rest : List Nat} {point : TracePoint} (hstack : m.stack = c :: b :: below)
    (hrest : m.rest = id :: rest) (hpoint : s.points.get? id = some point)
    (hrefuses : c.enter? s point = none) :
    ∃ n ∈ states s m, n.stack = b.resume c.entrance :: below ∧ n.rest = m.rest ∧
      n.tree.outline = m.tree.outline := by
  cases hscan : c.scan.step c.cursor with
  | done =>
    refine ⟨close s m c (b :: below), states_subset (.close hstack hscan) (mem_states_self _ _), ?_,
      rfl, Tree.outline_setRanges _ _ _⟩
    obtain ⟨_, hfinish⟩ := finish_eq s c
    simp only [close, hfinish]
  | go scan own =>
    obtain ⟨ranges, hmoves⟩ := moves_rescan (s := s) hstack hscan
    have hrefuses' : (c.rescan c.cursor scan c.markers ranges).enter? s point = none := by
      rw [enter?_rescan, hrefuses]
      rfl
    obtain ⟨n, hn, hleft⟩ := exists_left (b := b) (c := c.rescan c.cursor scan c.markers ranges)
      (m := {m with stack := c.rescan c.cursor scan c.markers ranges :: b :: below}) rfl hrest
      hpoint hrefuses'
    exact ⟨n, states_subset hmoves hn, hleft⟩
  | ask scan =>
    have hrefuses' : ({c with scan := scan}).enter? s point = none := by
      rw [show {c with scan := scan} = c.rescan c.cursor scan c.markers c.ranges from rfl,
        enter?_rescan, hrefuses]
      rfl
    have hmoves := Moves.refuse hstack hscan hrest hpoint hrefuses'
    have hrefuses'' : (c.rescan .exhausted scan c.markers c.ranges).enter? s point = none := by
      rw [enter?_rescan, hrefuses]
      rfl
    obtain ⟨n, hn, hleft⟩ := exists_left (b := b) (c := c.rescan .exhausted scan c.markers c.ranges)
      (m := {m with stack := c.rescan .exhausted scan c.markers c.ranges :: b :: below}) rfl hrest
      hpoint hrefuses''
    exact ⟨n, states_subset hmoves hn, hleft⟩
termination_by m.measure
decreasing_by
  · exact step_decreases (step_of_moves hmoves)
  · exact step_decreases (step_of_moves hmoves)

end Retrace.Reconstruct
