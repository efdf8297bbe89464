import Retrace.Proofs.Reconstruct.Agreement

/-! The trace is read once, from front to back.

Nothing that a machine does depends on tokens behind the next one: as long as a token is left, a
machine with more tokens behind takes the same step (`step_followed`). Once a trace has been taken
to its end, only open activations end, and these change no node but for its own ranges, while a
longer trace goes on growing the tree. `reconstruct_front` says what a trace and a front part of
it have in common. -/
namespace Retrace.Reconstruct.Machine
open Source Instrument Trace

/-- The machine with more tokens behind those that are left. -/
def followed (m : Machine) (back : List Nat) : Machine := {m with rest := m.rest ++ back}

section Step
variable {s : Setting} {m : Machine} {back : List Nat} (h : m.rest ≠ [])
include h

theorem startRoot_followed :
    startRoot s (m.followed back) =
      (startRoot s m).map (Option.map fun n => n.followed back) := by
  obtain ⟨id, rest, hrest⟩ := List.exists_cons_of_ne_nil h
  unfold startRoot followed
  rw [hrest]
  cases m.more with
  | false => rfl
  | true =>
    dsimp only [List.cons_append]
    cases point? s id <;> rfl

theorem ask_followed (a : Activation) (below : List Activation) :
    ask s (m.followed back) a below = (ask s m a below).map fun n => n.followed back := by
  obtain ⟨id, rest, hrest⟩ := List.exists_cons_of_ne_nil h
  unfold ask followed
  rw [hrest]
  dsimp only [List.cons_append]
  cases point? s id with
  | error fault => rfl
  | ok point =>
    simp only [bind, Except.bind]
    split
    · rfl
    · simp only [pure, Except.pure, Except.map, List.cons_append]

/-- A token is left, so that those behind it make no difference. -/
theorem step_followed :
    step s (m.followed back) = (step s m).map (Option.map fun n => n.followed back) := by
  unfold step
  rw [show (m.followed back).stack = m.stack from rfl]
  split
  · exact startRoot_followed h
  · rename_i a below _
    split
    · simp only [Except.map, Option.map_some]
      unfold close
      split <;> rfl
    · rfl
    · rw [ask_followed h]
      cases ask s m _ below <;> rfl

end Step

/-! ### What later moves keep -/

theorem grown_of_run {s : Setting} {m k : Machine} (h : run s m = .ok k) :
    m.tree.Grown k.tree ∧ k.rest.length ≤ m.rest.length := by
  refine (run_keeps (P := fun n => m.tree.Grown n.tree ∧ n.rest.length ≤ m.rest.length) ?_
    ⟨Tree.grown_of_outline rfl, Nat.le_refl _⟩ h).1
  intro n n' ⟨hgrown, hrest⟩ hmoves
  obtain ⟨hgrown', hrest'⟩ := grown_of_moves hmoves
  exact ⟨hgrown.trans hgrown', Nat.le_trans hrest' hrest⟩

/-- Without a token no node begins. -/
theorem run_of_spent {s : Setting} {m : Machine} (h : m.rest = []) :
    ∃ k, run s m = .ok k ∧ k.rest = [] ∧ k.tree.outline = m.tree.outline := by
  obtain ⟨k, hk⟩ := run_ok (s := s) (m := m) fun id hid => by
    rw [h] at hid
    cases hid
  have hkeeps := (run_keeps (P := fun n => n.rest = [] ∧ n.tree.outline = m.tree.outline) ?_
    ⟨h, rfl⟩ hk).1
  · exact ⟨k, hk, hkeeps.1, hkeeps.2⟩
  · intro n n' ⟨hrest, htree⟩ hmoves
    cases grows_of_moves hmoves with
    | still hrest' _ htree' _ => exact ⟨hrest'.trans hrest, htree'.trans htree⟩
    | ends hrest' _ htree' _ => exact ⟨hrest'.trans hrest, htree'.trans htree⟩
    | begins hrest' _ _ _ _ =>
      rw [hrest] at hrest'
      cases hrest'

/-! ### Two runs -/

/-- The run on the front part halts where the longer one does, or it has taken its last token and
the longer one grows the tree from there. -/
inductive Fronts (back : List Nat) (j k : Machine) : Prop
  | halted (hrest : j.rest ≠ []) (hsame : k = j.followed back)
  | spent (hrest : j.rest = []) (hgrown : j.tree.Grown k.tree)
      (hback : k.rest.length ≤ back.length)

theorem run_front {s : Setting} {back : List Nat} {m k : Machine}
    (h : run s (m.followed back) = .ok k) : ∃ j, run s m = .ok j ∧ Fronts back j k := by
  induction m using run.induct s with
  | case1 m fault hstep =>
    by_cases hrest : m.rest = []
    · obtain ⟨j, hj, _⟩ := run_of_spent (s := s) hrest
      rw [run_eq, hstep] at hj
      cases hj
    · rw [run_eq, step_followed hrest, hstep] at h
      cases h
  | case2 m hstep =>
    refine ⟨m, by rw [run_eq, hstep], ?_⟩
    by_cases hrest : m.rest = []
    · obtain ⟨hgrown, hback⟩ := grown_of_run h
      rw [followed, hrest] at hback
      exact .spent hrest hgrown hback
    · rw [run_eq, step_followed hrest, hstep] at h
      cases h
      exact .halted hrest rfl
  | case3 m n hstep ih =>
    by_cases hrest : m.rest = []
    · obtain ⟨j, hj, hspent, htree⟩ := run_of_spent (s := s) hrest
      obtain ⟨hgrown, hback⟩ := grown_of_run h
      rw [followed, hrest] at hback
      exact ⟨j, hj, .spent hspent ((Tree.grown_of_outline htree.symm).trans hgrown) hback⟩
    · rw [run_eq, step_followed hrest, hstep] at h
      rw [run_eq, hstep]
      exact ih h

theorem listed_of_run {s : Setting} {tokens : List Nat} {k : Machine}
    (h : run s (ofTokens tokens) = .ok k) : k.tree.Listed := by
  obtain ⟨⟨_, _, hp⟩, _⟩ := run_keeps
    (P := fun m => ∃ taken, tokens = taken ++ m.rest ∧ Placed s taken m)
    (fun m n hm hmoves => placed_of_grows (grows_of_moves hmoves) hm)
    ⟨[], rfl, placed_ofTokens s tokens⟩ h
  exact hp.listed

/-- When a trace can be reconstructed, so can every front part of it. The front part takes the
tokens that the whole trace takes, as far as it has them. Its nodes are nodes of the whole trace,
the same but for their own ranges and for children that come later, and when it leaves tokens
over, then nothing comes later. -/
theorem reconstruct_front (s : Setting) (front back : List Nat) (r : Reconstruction)
    (h : reconstruct s true (Stream.ofTokens (front ++ back)) = .ok r) :
    ∃ q, reconstruct s true (Stream.ofTokens front) = .ok q ∧
      q.unconsumed ≤ front.length ∧ r.unconsumed ≤ (front ++ back).length ∧
      front.length - q.unconsumed =
        min front.length ((front ++ back).length - r.unconsumed) ∧
      q.tree.size ≤ r.tree.size ∧
      (∀ i < q.tree.size, q.tree.core? i = r.tree.core? i) ∧
      (∀ i, q.tree.children i =
        (r.tree.children i).filter fun c => decide (c < q.tree.size)) ∧
      (q.unconsumed ≠ 0 → q.tree = r.tree) := by
  obtain ⟨k, hk, htree, hunconsumed⟩ := halts_of_reconstruct h
  obtain ⟨j, hj, hfronts⟩ := run_front (m := ofTokens front) hk
  have hall := (grown_of_run hk).2
  have hfront := (grown_of_run hj).2
  have hgrown : j.tree.Grown k.tree := by
    cases hfronts with
    | halted _ hsame => exact Tree.grown_of_outline (by rw [hsame]; rfl)
    | spent _ hgrown _ => exact hgrown
  change k.rest.length ≤ (front ++ back).length at hall
  change j.rest.length ≤ front.length at hfront
  refine ⟨⟨j.tree, j.rest.length⟩, reconstruct_of_run hj, hfront, by rw [hunconsumed]; exact hall,
    ?_, ?_⟩
  · rw [hunconsumed]
    cases hfronts with
    | halted _ hsame =>
      have hleft : k.rest.length = j.rest.length + back.length := by
        rw [hsame, followed, List.length_append]
      rw [hleft, List.length_append]
      dsimp only
      omega
    | spent hrest _ hback =>
      rw [hrest, List.length_append]
      dsimp only [List.length_nil]
      omega
  · rw [htree]
    refine ⟨hgrown.1, fun i hi => (hgrown.2 i hi).symm,
      Tree.children_of_grown hgrown (listed_of_run hj) (listed_of_run hk), fun hleft => ?_⟩
    cases hfronts with
    | halted _ hsame =>
      rw [hsame]
      rfl
    | spent hrest _ _ => exact absurd (congrArg List.length hrest) hleft

/-- A front part of a trace ends in the middle of a method that goes on in the whole trace. -/
theorem front_of_two_calls :
    let s := Setting.ofSources [("A.java", "class A{void f(){g();g();}void g(){}}")]
    ∃ r q, reconstruct s true (Stream.ofTokens [1, 2, 2]) = .ok r ∧
      reconstruct s true (Stream.ofTokens [1, 2]) = .ok q ∧ r.tree.children 1 = [2, 3] ∧
      q.tree.children 1 = [2] ∧ q.tree.core? 2 = r.tree.core? 2 := by
  intro s
  have hfacts : ((outcome? s 60 [1, 2, 2]).any fun r => r.tree.children 1 = [2, 3]) ∧
      (outcome? s 60 [1, 2]).any fun q => q.tree.size = 3 := by
    decide +kernel
  obtain ⟨r, hok, hchildren⟩ := exists_reconstruct hfacts.1
  obtain ⟨q, hokq, hsize⟩ := exists_reconstruct hfacts.2
  obtain ⟨q', hq', _, _, _, _, hcore, hlists, _⟩ := reconstruct_front s [1, 2] [2] r hok
  rw [hokq] at hq'
  cases hq'
  refine ⟨r, q, hok, hokq, hchildren, ?_, hcore 2 (by rw [hsize]; decide)⟩
  rw [hlists, hchildren, hsize]
  rfl

end Retrace.Reconstruct.Machine
