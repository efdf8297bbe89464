import Retrace.Proofs.Reconstruct.Frames

/-! The plain machine on the trace of a run.

`Leads` compares two states of the plain machine by where they end up. A token that an activation
takes opens another on top of it (`leads_enter`), and an activation that does not take the next
token can be ended at once (`leads_end`). What comes next is told by `Next`: a part of the code
begins with a call or with a block of its own (`next_of_runs`), and what begins after one statement
of a frame stands beyond it (`Frame.beyond_of_begins`). -/
namespace Retrace.Reconstruct
open Source Instrument Trace

/-! ### States that lead to one another -/

/-- The two states end with the same tree and the same tokens left, and in between the machine goes
back to no activation that has had a child beyond its last statement. -/
def Leads (s : Setting) (p : Plain) (tokens : List Nat) (q : Plain) (rest : List Nat) : Prop :=
  Plain.outcome s p tokens = Plain.outcome s q rest ∧
    Plain.revisits s [] p tokens = Plain.revisits s [] q rest

theorem Leads.refl (s : Setting) (p : Plain) (tokens : List Nat) : Leads s p tokens p tokens :=
  ⟨rfl, rfl⟩

theorem Leads.trans {s : Setting} {p q r : Plain} {xs ys zs : List Nat} (h : Leads s p xs q ys)
    (h' : Leads s q ys r zs) : Leads s p xs r zs :=
  ⟨h.1.trans h'.1, h.2.trans h'.2⟩

theorem leads_take {s : Setting} {p q : Plain} {id : Nat} {point : TracePoint}
    (hpoint : s.points.get? id = some point) (hq : Plain.take? s p id point = some q)
    (hleave : Plain.leave s [] q = []) (rest : List Nat) : Leads s p (id :: rest) q rest := by
  have hreturns : Plain.returns [] q = false := by
    unfold Plain.returns
    split <;> rfl
  refine ⟨?_, ?_⟩
  · rw [Plain.outcome_cons hpoint, hq]
  · rw [Plain.revisits_cons hpoint, hq]
    simp only [hreturns, hleave, Bool.false_or]

/-- The innermost activation takes the next token. -/
theorem leads_enter {s : Setting} {a b : Activation} {e : Entrance} {id : Nat} {point : TracePoint}
    (hpoint : s.points.get? id = some point) (hscope : Plain.scope s a ≠ [])
    (henter : a.enter? s point = some (e, b)) (hsight : Plain.beyond s b e = false) (t : Tree)
    (below : List Activation) (more : Bool) (rest : List Nat) :
    Leads s ⟨t, a :: below, more⟩ (id :: rest)
      (Plain.opened s t (b :: below) more b.index id point e) rest := by
  have hleave : Plain.leave s [] (Plain.opened s t (b :: below) more b.index id point e) = [] := by
    show (if Plain.beyond s b e then b.index :: [] else []) = []
    rw [hsight]
    rfl
  refine leads_take hpoint ?_ hleave rest
  unfold Plain.take?
  rw [Plain.taker?_take hscope henter]

/-- The first token hangs under the root. -/
theorem leads_root {s : Setting} {id : Nat} {point : TracePoint}
    (hpoint : s.points.get? id = some point) (rest : List Nat) :
    Leads s Plain.bare (id :: rest)
      (Plain.opened s Tree.bare [] (point.kind == .staticInitializer) 0 id point .root) rest :=
  leads_take hpoint rfl rfl rest

/-- What the next token begins satisfies `P`. -/
def Next (s : Setting) (tokens : List Nat) (P : TracePoint → Prop) : Prop :=
  ∀ id point, tokens.head? = some id → s.points.get? id = some point → P point

theorem next_nil (s : Setting) (P : TracePoint → Prop) : Next s [] P := fun _ _ h => nomatch h

theorem next_cons {s : Setting} {id : Nat} {point : TracePoint} {P : TracePoint → Prop}
    (hpoint : s.points.get? id = some point) (h : P point) (rest : List Nat) :
    Next s (id :: rest) P := by
  intro id' point' hid hpoint'
  cases hid
  rw [hpoint] at hpoint'
  cases hpoint'
  exact h

theorem Next.append {s : Setting} {xs ys : List Nat} {P : TracePoint → Prop} (hx : Next s xs P)
    (hy : Next s ys P) : Next s (xs ++ ys) P := by
  cases xs with
  | nil => exact hy
  | cons id xs => exact hx

theorem Next.mono {s : Setting} {tokens : List Nat} {P Q : TracePoint → Prop}
    (h : Next s tokens P) (hsub : ∀ q, P q → Q q) : Next s tokens Q :=
  fun id point hid hpoint => hsub point (h id point hid hpoint)

/-- An activation that does not take the next token ends. -/
theorem leads_end {s : Setting} {a : Activation} {tokens : List Nat}
    (h : Next s tokens fun point => a.enter? s point = none) (t : Tree)
    (below : List Activation) (more : Bool) :
    Leads s ⟨t, a :: below, more⟩ tokens ⟨t, Plain.ended a below, more⟩ tokens :=
  ⟨Plain.outcome_congr fun id point hid hpoint => Plain.taker?_pass (.inr (h id point hid hpoint)),
    Plain.revisits_congr fun id point hid hpoint =>
      Plain.taker?_pass (.inr (h id point hid hpoint))⟩

/-! ### What runs begin with -/

theorem traceAll_append (xs ys : List Run) : traceAll (xs ++ ys) = traceAll xs ++ traceAll ys := by
  induction xs with
  | nil => rfl
  | cons x xs ih => rw [List.cons_append, traceAll, traceAll, ih, List.append_assoc]

theorem traceAll_node (id : Nat) (call : Option Nat) (parts rs : List Run) :
    traceAll (.node id call parts :: rs) = id :: (traceAll parts ++ traceAll rs) := by
  rw [traceAll, Run.trace, List.cons_append]

/-- What a part of the code can begin with. -/
def Code.Begins (p : Project) : Code → TracePoint → Prop
  | .statements n is, q => q.kind = .method ∨
    q.kind.binding = .nested ∧ q.ref.file = n ∧ ∃ i ∈ is, (p.file n).Below i q.ref.node
  | .statement n i, q => q.kind = .method ∨
    q.kind.binding = .nested ∧ q.ref.file = n ∧ (p.file n).Below i q.ref.node
  | .rounds n i, q => q.kind.binding = .nested ∧ q.ref = ⟨n, i⟩
  | .round n i, q => q.kind.binding = .nested ∧ q.ref = ⟨n, i⟩
  | .calls _ _, q => q.kind = .method

theorem hasHeader_of_branch {form : Java.Form} (h : form = .ifStatement) :
    hasHeader form = true := by
  rw [h]
  rfl

theorem hasHeader_of_testsFirst {form : Java.Form} (h : testsFirst form = true) :
    hasHeader form = true := by
  cases form <;> first | rfl | cases h

theorem hasHeader_of_ofLoop? {form : Java.Form} {kind : PointKind}
    (h : PointKind.ofLoop? form = some kind) : hasHeader form = true := by
  cases form <;> first | rfl | cases h

theorem binding_of_isLoop {kind : PointKind} (h : kind.isLoop = true) : kind.binding = .nested := by
  cases kind <;> first | rfl | cases h

theorem next_of_runs {s : Setting} {code : Code} {rs : List Run} (h : Runs s code rs) :
    Next s (traceAll rs) (code.Begins s.project) := by
  have hround : ∀ {n i : Nat} {q : TracePoint}, q.kind.binding = .nested ∧ q.ref = ⟨n, i⟩ →
      Code.Begins s.project (.statement n i) q := by
    rintro n i q ⟨hkind, href⟩
    refine .inr ⟨hkind, by rw [href], ?_⟩
    rw [href]
    exact File.below_refl _ i
  induction h with
  | nothing n => exact next_nil s _
  | next _ _ ihx ihy =>
    rw [traceAll_append]
    refine (ihx.mono fun q hq => ?_).append (ihy.mono fun q hq => ?_)
    · exact hq.imp_right fun ⟨hkind, hfile, hbelow⟩ =>
        ⟨hkind, hfile, _, List.mem_cons_self, hbelow⟩
    · exact hq.imp_right fun ⟨hkind, hfile, i, hi, hbelow⟩ =>
        ⟨hkind, hfile, i, List.mem_cons_of_mem _ hi, hbelow⟩
  | simple _ _ ih => exact ih.mono fun q hq => .inl hq
  | block hpoint _ _ =>
    rw [traceAll_node]
    exact next_cons hpoint (.inr ⟨rfl, rfl, File.below_refl _ _⟩) _
  | skip _ _ ih => exact ih.mono fun q hq => .inl hq
  | branch _ hchild hpoint _ _ ihx _ =>
    rw [traceAll_append, traceAll_node]
    exact (ihx.mono fun q hq => .inl hq).append
      (next_cons hpoint (.inr ⟨rfl, rfl, File.below_child hchild⟩) _)
  | loop _ _ _ ihx ihy =>
    rw [traceAll_append]
    exact (ihx.mono fun q hq => .inl hq).append (ihy.mono fun q => hround)
  | doLoop _ _ _ ihx ihy =>
    rw [traceAll_append]
    exact (ihx.mono fun q => hround).append (ihy.mono fun q => hround)
  | leave n i => exact next_nil s _
  | again _ _ ihx ihy =>
    rw [traceAll_append]
    exact ihx.append ihy
  | round hpoint hloop _ _ _ _ =>
    rw [traceAll_node]
    exact next_cons hpoint ⟨binding_of_isLoop hloop, rfl⟩ _
  | returned n => exact next_nil s _
  | call hpoint hkind _ _ _ _ _ =>
    rw [traceAll_node]
    exact next_cons hpoint hkind _

/-! ### What comes after a statement -/

theorem Beyond.inside {p : Project} (hlaid : ∀ n, (p.file n).Laid) {m : Ref} {i j : Nat}
    {q : TracePoint} (h : Beyond p m i q) (hbelow : (p.file m.file).Below i j) :
    Beyond p m j q := by
  refine h.imp_right fun ⟨hkind, k, hk, hcalls⟩ =>
    ⟨hkind, k, hk, hcalls.imp_right fun ⟨hsame, houtside⟩ => ⟨hsame, ?_⟩⟩
  rw [← Bool.not_eq_true] at houtside ⊢
  exact fun hinside => houtside (Range.strictlyContains_mono ((hlaid _).contains_of_below hbelow)
    hinside (Range.contains_refl _))

/-- What can begin after a call can begin after the method that has been called. -/
theorem Following.beyond {p : Project} {m k : Ref} {q : TracePoint} (h : Following p m q)
    (hcalls : Calls p m k) (i : Nat) : Beyond p k i q :=
  h.imp_right fun ⟨hkind, home, hhome, hreach⟩ =>
    ⟨hkind, home, hhome, .inl (Relation.TransGen.tail' hreach hcalls)⟩

section Frame
variable {p : Project} (hlaid : ∀ n, (p.file n).Laid) {m : Nat} {a : Activation}
  (ha : Frame p m a)
include hlaid ha

theorem Frame.home {c : Nat} (hc : c ∈ scopeOf p a.point) {q : TracePoint}
    (hfile : q.ref.file = a.point.ref.file)
    (hbelow : (p.file a.point.ref.file).Below c q.ref.node) :
    Home p q ⟨a.point.ref.file, m⟩ where
  file := hfile.symm
  method := by
    rw [hfile]
    exact ha.method
  below := by
    rw [hfile]
    exact (ha.below.trans (below_of_scope ha.traced hlaid hc)).trans hbelow

theorem Frame.following_of_begins {c : Nat} (hc : c ∈ scopeOf p a.point) {q : TracePoint}
    (h : Code.Begins p (.statement a.point.ref.file c) q) :
    Following p ⟨a.point.ref.file, m⟩ q :=
  h.imp_right fun ⟨hkind, hfile, hbelow⟩ => ⟨hkind, _, ha.home hlaid hc hfile hbelow, .refl⟩

/-- Later statements stand beyond a statement. -/
theorem Frame.beyond_of_begins {done todo : List Nat} {i : Nat}
    (hscope : scopeOf p a.point = done ++ i :: todo) {q : TracePoint}
    (h : Code.Begins p (.statements a.point.ref.file todo) q) :
    Beyond p ⟨a.point.ref.file, m⟩ i q := by
  refine h.imp_right fun ⟨hkind, hfile, c, hc, hbelow⟩ => ?_
  have hmem : c ∈ scopeOf p a.point := by
    rw [hscope]
    exact List.mem_append_right done (List.mem_cons_of_mem i hc)
  refine ⟨hkind, _, ha.home hlaid hmem hfile hbelow, .inr ⟨rfl, ?_⟩⟩
  have hapart := pairwise_scope ha.traced hlaid
  rw [hscope] at hapart
  have hic := (List.pairwise_cons.mp (List.pairwise_append.mp hapart).2.1).1 c hc
  have hiq := hic.mono (Range.contains_refl _) ((hlaid _).contains_of_below hbelow)
  obtain ⟨hsize, hpos⟩ := bounds_of_scope ha.traced hlaid hmem
  have hproper := (hlaid a.point.ref.file).proper
    (Nat.lt_of_lt_of_le hpos ((hlaid _).le_of_below hbelow))
    ((hlaid _).lt_size_of_below hbelow hsize)
  rw [← Bool.not_eq_true]
  exact fun hinside => Range.not_apart_of_contains hproper
    (Range.contains_of_strictlyContains hinside) hiq

/-- A statement contains no call of an earlier one. -/
theorem Frame.not_contains_of_done {done todo : List Nat} {i x : Nat}
    (hscope : scopeOf p a.point = done ++ i :: todo)
    (hx : x ∈ callsOf p (p.file a.point.ref.file) done) :
    ((p.file a.point.ref.file).range i).contains ((p.file a.point.ref.file).range x) = false := by
  obtain ⟨c, hc, hx⟩ := List.mem_flatMap.mp hx
  have hmem : c ∈ scopeOf p a.point := by
    rw [hscope]
    exact List.mem_append_left _ hc
  have hbelow := (below_of_callsIn hx).1
  obtain ⟨hsize, hpos⟩ := bounds_of_scope ha.traced hlaid hmem
  have hproper := (hlaid a.point.ref.file).proper
    (Nat.lt_of_lt_of_le hpos ((hlaid _).le_of_below hbelow))
    ((hlaid _).lt_size_of_below hbelow hsize)
  have hapart := pairwise_scope ha.traced hlaid
  rw [hscope] at hapart
  have hci := (List.pairwise_append.mp hapart).2.2 c hc i List.mem_cons_self
  exact Range.not_contains_of_apart hproper
    (hci.mono ((hlaid _).contains_of_below hbelow) (Range.contains_refl _)).symm

/-- Another round of a loop stands beyond a round of it. -/
theorem Frame.beyond_of_round {i : Nat} (hi : i ∈ scopeOf p a.point) {q : TracePoint}
    (h : Code.Begins p (.rounds a.point.ref.file i) q) :
    Beyond p ⟨a.point.ref.file, m⟩ i q := by
  obtain ⟨⟨n, j⟩, kind⟩ := q
  obtain ⟨hkind, href⟩ := h
  cases href
  exact .inr ⟨hkind, _, ha.home hlaid hi rfl (File.below_refl _ i),
    .inr ⟨rfl, Range.strictlyContains_irrefl _⟩⟩

/-- What is called in a frame is called in its method. -/
theorem Frame.calls {i x : Nat} (hi : i ∈ scopeOf p a.point)
    (hx : x ∈ callsIn p (p.file a.point.ref.file) i) {q : TracePoint} (hq : Traced p q)
    (hkind : q.kind = .method)
    (hname : (p.file q.ref.file).name? q.ref.node = calledName? (p.file a.point.ref.file) x) :
    Calls p ⟨a.point.ref.file, m⟩ q.ref := by
  obtain ⟨hbelow, hcalls⟩ := below_of_callsIn hx
  obtain ⟨name, hcalled⟩ := Option.ne_none_iff_exists'.mp (calledName?_of_callsMethod hcalls)
  have hmx := (ha.below.trans (below_of_scope ha.traced hlaid hi)).trans hbelow
  exact ⟨ha.method, form_of_method (hkind ▸ hq.kind), x, name, (hlaid _).mem_ancestors hmx, hcalled,
    hname.trans hcalled⟩

/-- What stands below a statement is in sight of the last one. -/
theorem Frame.beyond_eq_false (hshaped : ∀ n, (p.file n).Shaped) {c x : Nat}
    (hc : c ∈ scopeOf p a.point) (hx : (p.file a.point.ref.file).Below c x) {b : Activation}
    (hb : b.point = a.point) {e : Entrance}
    (he : e.marker? = some ((p.file a.point.ref.file).range x)) :
    Plain.beyond (.traced p) b e = false := by
  obtain ⟨body, hbody, hholds, hscope⟩ := scope_of_traced ha.traced
  rw [← Bool.not_eq_true, beyond_iff]
  rintro ⟨k, hk, l, hlast, hmiss⟩
  rw [he] at hk
  cases hk
  unfold Activation.pieces at hlast
  rw [List.getLast?_map] at hlast
  obtain ⟨last, hlast', rfl⟩ := Option.map_eq_some_iff.mp hlast
  have hpoint : Plain.scope (.traced p) b = scopeOf p a.point := by
    rw [← hb]
    rfl
  have hfile : b.fileOf (.traced p) = p.file a.point.ref.file := by
    rw [← hb]
    rfl
  rw [hscope] at hc
  rw [hpoint] at hlast'
  refine hmiss ?_
  unfold Activation.piece
  rw [hfile]
  exact meets_of_below_block (hlaid _) (hshaped _) hbody hholds (List.mem_filter.mp hc).1 hx hlast'

end Frame

end Retrace.Reconstruct
