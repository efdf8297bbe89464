import Retrace.Reconstruct.Machine

/-! Steps and runs of the machine.

`Moves` lists what one step can do, each case with the tests that lead to it, and `moves_of_step`
says that it does nothing else. What every activation keeps all activations on the stack have
(`Persisting.moves`), what every move keeps holds at the end of a run (`run_keeps`), and a run ends
only with an empty stack (`step_eq_none`). -/
namespace Retrace.Reconstruct.Machine
open Source Instrument Trace

/-- What one step makes of a machine. -/
inductive Moves (s : Setting) (m : Machine) : Machine → Prop
  /-- The next token hangs a trace point under the root. -/
  | root {id : Nat} {rest : List Nat} {point : TracePoint} (hstack : m.stack = [])
      (hmore : m.more = true) (hrest : m.rest = id :: rest)
      (hpoint : s.points.get? id = some point) :
      Moves s m {start s m rest 0 id point .root with more := point.kind == .staticInitializer}
  /-- The innermost activation has been scanned. -/
  | close {a : Activation} {below : List Activation} (hstack : m.stack = a :: below)
      (hscan : a.scan.step a.cursor = .done) : Moves s m (close s m a below)
  /-- The scan goes on. -/
  | go {a : Activation} {below : List Activation} {scan : Scan} {own : Option Range}
      (hstack : m.stack = a :: below) (hscan : a.scan.step a.cursor = .go scan own) :
      Moves s m {m with stack := ({a with scan := scan}).addOwn own :: below}
  /-- No token is left for the innermost activation. -/
  | ended {a : Activation} {below : List Activation} {scan : Scan} (hstack : m.stack = a :: below)
      (hscan : a.scan.step a.cursor = .ask scan) (hrest : m.rest = []) :
      Moves s m {m with stack := {a with scan := scan, cursor := .exhausted} :: below}
  /-- The next token is no child of the innermost activation. -/
  | refuse {a : Activation} {below : List Activation} {scan : Scan} {id : Nat} {rest : List Nat}
      {point : TracePoint} (hstack : m.stack = a :: below)
      (hscan : a.scan.step a.cursor = .ask scan) (hrest : m.rest = id :: rest)
      (hpoint : s.points.get? id = some point)
      (henter : ({a with scan := scan}).enter? s point = none) :
      Moves s m {m with stack := {a with scan := scan, cursor := .exhausted} :: below}
  /-- The next token is a child of the innermost activation. -/
  | enter {a b : Activation} {below : List Activation} {scan : Scan} {id : Nat} {rest : List Nat}
      {point : TracePoint} {entrance : Entrance} (hstack : m.stack = a :: below)
      (hscan : a.scan.step a.cursor = .ask scan) (hrest : m.rest = id :: rest)
      (hpoint : s.points.get? id = some point)
      (henter : ({a with scan := scan}).enter? s point = some (entrance, b)) :
      Moves s m (start s {m with stack := {b with cursor := .unset} :: below} rest b.index id
        point entrance)

theorem point?_eq_ok {s : Setting} {id : Nat} {point : TracePoint} :
    point? s id = .ok point ↔ s.points.get? id = some point := by
  unfold point?
  split
  · rename_i p hp
    simp [hp]
  · rename_i hp
    simp [hp]

theorem startRoot_moves {s : Setting} {m n : Machine} (hstack : m.stack = [])
    (h : startRoot s m = .ok (some n)) : Moves s m n := by
  unfold startRoot at h
  split at h
  · rename_i id rest hmore hrest
    cases hp : point? s id with
    | error e => rw [hp] at h; cases h
    | ok point =>
      rw [hp] at h
      cases h
      exact .root hstack hmore hrest (point?_eq_ok.mp hp)
  · cases h

theorem ask_moves {s : Setting} {m n : Machine} {a : Activation} {below : List Activation}
    {scan : Scan} (hstack : m.stack = a :: below) (hscan : a.scan.step a.cursor = .ask scan)
    (h : ask s m {a with scan := scan} below = .ok n) : Moves s m n := by
  unfold ask at h
  split at h
  · rename_i hrest
    cases h
    exact .ended (a := a) hstack hscan hrest
  · rename_i id rest hrest
    cases hp : point? s id with
    | error e => rw [hp] at h; cases h
    | ok point =>
      rw [hp] at h
      have hpoint := point?_eq_ok.mp hp
      simp only [bind, Except.bind] at h
      split at h
      · rename_i entrance b henter
        cases h
        exact .enter hstack hscan hrest hpoint henter
      · rename_i henter
        cases h
        exact .refuse hstack hscan hrest hpoint henter

theorem moves_of_step {s : Setting} {m n : Machine} (h : step s m = .ok (some n)) :
    Moves s m n := by
  unfold step at h
  split at h
  · rename_i hstack
    exact startRoot_moves hstack h
  · rename_i a below hstack
    split at h
    · rename_i hscan
      cases h
      exact .close hstack hscan
    · rename_i scan own hscan
      cases h
      exact .go hstack hscan
    · rename_i scan hscan
      cases hask : ask s m {a with scan := scan} below with
      | error e => rw [hask] at h; cases h
      | ok k =>
        rw [hask] at h
        cases h
        exact ask_moves hstack hscan hask

/-- The machine halts between trace points of the root, when no other may follow or no token is
left. -/
theorem step_eq_none {s : Setting} {m : Machine} (h : step s m = .ok none) :
    m.stack = [] ∧ (m.more = false ∨ m.rest = []) := by
  unfold step at h
  split at h
  · rename_i hstack
    refine ⟨hstack, ?_⟩
    unfold startRoot at h
    split at h
    · rename_i id rest hmore hrest
      cases hp : point? s id with
      | error e => rw [hp] at h; cases h
      | ok point => rw [hp] at h; cases h
    · rename_i hne
      cases hm : m.more with
      | false => exact .inl rfl
      | true =>
        cases hr : m.rest with
        | nil => exact .inr rfl
        | cons id rest => exact absurd hr (hne id rest hm)
  · rename_i a below hstack
    split at h
    · cases h
    · cases h
    · rename_i scan hscan
      cases hask : ask s m {a with scan := scan} below with
      | error e => rw [hask] at h; cases h
      | ok k => rw [hask] at h; cases h

/-! ### What activations keep -/

/-- An activation has `P` from its start on and keeps it through whatever it does. -/
structure Lasting (s : Setting) (P : Activation → Prop) : Prop where
  start : ∀ {id : Nat} {point : TracePoint} (index : Nat) (e : Entrance),
    s.points.get? id = some point → P (Activation.start (s.file point.ref) index point e)
  go : ∀ {a : Activation} {scan : Scan} {own : Option Range}, P a →
    a.scan.step a.cursor = .go scan own → P (({a with scan := scan}).addOwn own)
  ask : ∀ {a : Activation} {scan : Scan}, P a → a.scan.step a.cursor = .ask scan →
    P {a with scan := scan}
  recursor : ∀ {a : Activation} (cursor : Cursor), P a → P {a with cursor := cursor}
  enter : ∀ {a b : Activation} {id : Nat} {point : TracePoint} {e : Entrance}, P a →
    s.points.get? id = some point → a.enter? s point = some (e, b) → P b
  resume : ∀ {a : Activation} (e : Entrance), P a → P (a.resume e)

/-- The same of what need not hold for every cursor: only those count that the machine sets. -/
structure Persisting (s : Setting) (P : Activation → Prop) : Prop where
  start : ∀ {id : Nat} {point : TracePoint} (index : Nat) (e : Entrance),
    s.points.get? id = some point → P (Activation.start (s.file point.ref) index point e)
  go : ∀ {a : Activation} {scan : Scan} {own : Option Range}, P a →
    a.scan.step a.cursor = .go scan own → P (({a with scan := scan}).addOwn own)
  exhaust : ∀ {a : Activation} {scan : Scan}, P a → a.scan.step a.cursor = .ask scan →
    P {a with scan := scan, cursor := .exhausted}
  enter : ∀ {a b : Activation} {scan : Scan} {id : Nat} {point : TracePoint} {e : Entrance}, P a →
    a.scan.step a.cursor = .ask scan → s.points.get? id = some point →
    ({a with scan := scan}).enter? s point = some (e, b) → P {b with cursor := .unset}
  resume : ∀ {a : Activation} (e : Entrance), P a → P (a.resume e)

theorem Lasting.persisting {s : Setting} {P : Activation → Prop} (hP : Lasting s P) :
    Persisting s P where
  start index e hpoint := hP.start index e hpoint
  go ha hscan := hP.go ha hscan
  exhaust ha hscan := hP.recursor .exhausted (hP.ask ha hscan)
  enter ha hscan hpoint henter := hP.recursor .unset (hP.enter (hP.ask ha hscan) hpoint henter)
  resume e ha := hP.resume e ha

theorem Persisting.moves {s : Setting} {P : Activation → Prop} (hP : Persisting s P) {m n : Machine}
    (h : Moves s m n) (hm : ∀ a ∈ m.stack, P a) : ∀ a ∈ n.stack, P a := by
  have hcons : ∀ {a b : Activation} {below : List Activation}, m.stack = b :: below → P a →
      ∀ x ∈ a :: below, P x := by
    intro a b below hstack ha x hx
    rcases List.mem_cons.mp hx with rfl | hx
    · exact ha
    · exact hm x (by rw [hstack]; exact List.mem_cons_of_mem b hx)
  have htop : ∀ {a : Activation} {below : List Activation}, m.stack = a :: below → P a :=
    fun hstack => hm _ (by rw [hstack]; exact List.mem_cons_self)
  cases h with
  | root hstack _ _ hpoint =>
    intro a ha
    rw [show (Machine.start s m _ 0 _ _ .root).stack = _ :: m.stack from rfl, hstack] at ha
    rw [List.mem_singleton.mp ha]
    exact hP.start _ _ hpoint
  | @close a below hstack _ =>
    cases below with
    | nil => exact fun a ha => nomatch ha
    | cons b below =>
      intro x hx
      have hb : P b := hm b (by rw [hstack]; exact .tail _ (.head _))
      rcases List.mem_cons.mp hx with rfl | hx
      · exact hP.resume _ hb
      · exact hm x (by rw [hstack]; exact .tail _ (.tail _ hx))
  | go hstack hscan => exact hcons hstack (hP.go (htop hstack) hscan)
  | ended hstack hscan _ => exact hcons hstack (hP.exhaust (htop hstack) hscan)
  | refuse hstack hscan _ _ _ =>
    exact hcons hstack (hP.exhaust (htop hstack) hscan)
  | enter hstack hscan _ hpoint henter =>
    have hb := hP.enter (htop hstack) hscan hpoint henter
    intro x hx
    rcases List.mem_cons.mp hx with rfl | hx
    · exact hP.start _ _ hpoint
    · exact hcons hstack hb x hx

theorem Lasting.moves {s : Setting} {P : Activation → Prop} (hP : Lasting s P) {m n : Machine}
    (h : Moves s m n) (hm : ∀ a ∈ m.stack, P a) : ∀ a ∈ n.stack, P a :=
  hP.persisting.moves h hm

/-! ### Whole runs -/

theorem run_eq (s : Setting) (m : Machine) :
    run s m = match step s m with
      | .error f => .error f
      | .ok none => .ok m
      | .ok (some n) => run s n := by
  rw [run]
  split <;> simp_all

/-- What every move keeps holds at the end, where no step is left. -/
theorem run_keeps {s : Setting} {P : Machine → Prop}
    (hmoves : ∀ m n, P m → Moves s m n → P n) {m k : Machine} (hm : P m)
    (h : run s m = .ok k) : P k ∧ step s k = .ok none := by
  induction m using run.induct s with
  | case1 m f hstep => rw [run_eq, hstep] at h; cases h
  | case2 m hstep =>
    rw [run_eq, hstep] at h
    cases h
    exact ⟨hm, hstep⟩
  | case3 m n hstep ih =>
    rw [run_eq, hstep] at h
    exact ih (hmoves m n hm (moves_of_step hstep)) h

/-- The states that a run goes through. -/
def states (s : Setting) (m : Machine) : List Machine :=
  match _h : step s m with
  | .ok (some n) => m :: states s n
  | _ => [m]
termination_by m.measure
decreasing_by exact step_decreases ‹step s m = .ok (some n)›

/-- What every move keeps of a state and of those before it, the latest first, holds of a whole
run. -/
theorem run_keeps_past {s : Setting} {P : List Machine → Machine → Prop}
    (hmoves : ∀ past m n, P past m → Moves s m n → P (n :: past) n) {past : List Machine}
    {m k : Machine} (hm : P (m :: past) m) (h : run s m = .ok k) :
    P ((states s m).reverse ++ past) k ∧ step s k = .ok none := by
  induction m using run.induct s generalizing past with
  | case1 m f hstep => rw [run_eq, hstep] at h; cases h
  | case2 m hstep =>
    rw [run_eq, hstep] at h
    cases h
    rw [states]
    split
    · rename_i n hn
      rw [hstep] at hn
      cases hn
    · exact ⟨hm, hstep⟩
  | case3 m n hstep ih =>
    rw [run_eq, hstep] at h
    rw [states]
    split
    · rename_i n' hn
      rw [hstep] at hn
      cases hn
      rw [List.reverse_cons, List.append_assoc]
      exact ih (hmoves _ m n hm (moves_of_step hstep)) h
    · rename_i hn
      exact absurd hstep (hn n)

/-- The machine after at most so many steps. -/
def after (s : Setting) : Nat → Machine → Except Fault Machine
  | 0, m => .ok m
  | count + 1, m =>
    match step s m with
    | .error f => .error f
    | .ok none => .ok m
    | .ok (some n) => after s count n

theorem run_after {s : Setting} {count : Nat} {m n : Machine} (h : after s count m = .ok n) :
    run s m = run s n := by
  induction count generalizing m with
  | zero =>
    cases h
    rfl
  | succ count ih =>
    unfold after at h
    split at h
    · cases h
    · cases h
      rfl
    · rename_i k hstep
      rw [run_eq, hstep]
      exact ih h

/-- The result of a trace that halts within so many steps. -/
def outcome? (s : Setting) (count : Nat) (tokens : List Nat) : Option Reconstruction :=
  match after s count (ofTokens tokens) with
  | .ok k => if k.stack.isEmpty && (!k.more || k.rest.isEmpty) then some ⟨k.tree, k.rest.length⟩
    else none
  | .error _ => none

theorem run_of_outcome? {s : Setting} {count : Nat} {tokens : List Nat} {r : Reconstruction}
    (h : outcome? s count tokens = some r) :
    ∃ k, run s (ofTokens tokens) = .ok k ∧ r = ⟨k.tree, k.rest.length⟩ := by
  unfold outcome? at h
  split at h
  · rename_i k hafter
    split at h
    · rename_i hhalted
      cases h
      have hstep : step s k = .ok none := by
        simp only [Bool.and_eq_true, Bool.or_eq_true, List.isEmpty_iff, Bool.not_eq_true']
          at hhalted
        obtain ⟨hstack, hend⟩ := hhalted
        unfold step startRoot
        rw [hstack]
        rcases hend with hmore | hrest
        · rw [hmore]
        · rw [hrest]
          cases k.more <;> rfl
      refine ⟨k, ?_, rfl⟩
      rw [run_after hafter, run_eq, hstep]
    · cases h
  · cases h

theorem reconstruct_of_run {s : Setting} {tokens : List Nat} {k : Machine}
    (h : run s (ofTokens tokens) = .ok k) :
    reconstruct s true (Stream.ofTokens tokens) = .ok ⟨k.tree, k.rest.length⟩ := by
  simp [reconstruct, Stream.ofTokens, h, bind, Except.bind, pure, Except.pure]

theorem reconstruct_of_outcome? {s : Setting} {count : Nat} {tokens : List Nat}
    {r : Reconstruction} (h : outcome? s count tokens = some r) :
    reconstruct s true (Stream.ofTokens tokens) = .ok r := by
  obtain ⟨k, hrun, rfl⟩ := run_of_outcome? h
  exact reconstruct_of_run hrun

/-- A property of the result can be decided by so many steps. -/
theorem exists_reconstruct {s : Setting} {count : Nat} {tokens : List Nat}
    {P : Reconstruction → Prop} [DecidablePred P]
    (h : ((outcome? s count tokens).any fun r => decide (P r)) = true) :
    ∃ r, reconstruct s true (Stream.ofTokens tokens) = .ok r ∧ P r := by
  obtain ⟨r, hr, hP⟩ := (Option.any_eq_true _ _).mp h
  exact ⟨r, reconstruct_of_outcome? hr, of_decide_eq_true hP⟩

/-- When nothing is left over, it makes no difference whether that is allowed. -/
theorem reconstruct_wholly {s : Setting} {stream : Stream} {r : Reconstruction}
    (h : reconstruct s true stream = .ok r) (hrest : r.unconsumed = 0) :
    reconstruct s false stream = .ok r := by
  unfold reconstruct at h ⊢
  cases hrun : run s (ofTokens stream.rest) with
  | error fault =>
    rw [hrun] at h
    cases h
  | ok k =>
    rw [hrun] at h
    simp only [bind, Except.bind, pure, Except.pure, Bool.not_true, Bool.false_eq_true, and_false,
      if_false] at h ⊢
    cases h
    exact if_neg fun hleft => hleft.1 hrest

/-- What a reconstruction returns is the tree and the tokens of a machine that has halted. -/
theorem halts_of_reconstruct {s : Setting} {partially : Bool} {stream : Stream}
    {r : Reconstruction} (h : reconstruct s partially stream = .ok r) :
    ∃ k, run s (ofTokens stream.rest) = .ok k ∧ r.tree = k.tree ∧
      r.unconsumed = k.rest.length := by
  unfold reconstruct at h
  cases hrun : run s (ofTokens stream.rest) with
  | error f => rw [hrun] at h; cases h
  | ok k =>
    rw [hrun] at h
    simp only [bind, Except.bind] at h
    split at h
    · cases h
    · cases h
      exact ⟨k, rfl, rfl, rfl⟩

/-- A reconstruction returns what every move keeps. -/
theorem reconstruct_keeps {s : Setting} {P : Machine → Prop}
    (hmoves : ∀ m n, P m → Moves s m n → P n) {partially : Bool} {stream : Stream}
    {r : Reconstruction} (h : reconstruct s partially stream = .ok r)
    (hstart : P (ofTokens stream.rest)) : ∃ k, r.tree = k.tree ∧ P k := by
  obtain ⟨k, hrun, htree, _⟩ := halts_of_reconstruct h
  exact ⟨k, htree, (run_keeps hmoves hstart hrun).1⟩

end Retrace.Reconstruct.Machine
