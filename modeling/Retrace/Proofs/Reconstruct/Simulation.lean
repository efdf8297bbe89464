import Retrace.Proofs.Reconstruct.Stepping
import Retrace.Proofs.Trace.Checks

/-! The plain machine follows the runs of structured programs.

`follows_of_runs`: from a frame that has come to a part of its code, the machine takes the tokens
of whatever that code can run, hangs the nodes of the run below the frame and comes back to it. The
proof goes along the run. What a frame knows at each place is which of its calls have been bound:
those of the statements that have run, and of the condition of a loop, whose calls are free again
after every round. -/
namespace Retrace.Reconstruct
open Source Instrument Trace

/-! ### Nodes -/

theorem round_eq (t : Tree) (parent id : Nat) :
    Machine.round t parent (toString id) = (siblings t parent id + 1).toUInt32 := by
  unfold Machine.round siblings
  cases hn : t.get? parent with
  | none => simp [Tree.children, hn]
  | some n =>
    rw [Tree.children_of_get? hn, List.countP_eq_length_filter]
    simp only
    rw [← Array.length_toList, Array.toList_filter]
    rfl

theorem newNode_eq {s : Setting} {f : File} {t : Tree} {parent id : Nat} {call : Option Nat}
    {point : TracePoint} {e : Entrance} (hkind : point.kind ≠ .constructor)
    (hlink : e.link? = call.map fun x => ⟨f.range x, f.path⟩)
    (hlandings : e.landings = (call.bind fun _ => Activation.landing? s point.ref).toList) :
    Machine.newNode s t parent id point e = runNode s f t parent id call point := by
  have hmethod : (point.kind == .method || point.kind == .constructor) =
      (point.kind == .method) := by
    rw [show (point.kind == .constructor) = false by simpa using hkind, Bool.or_false]
  unfold Machine.newNode runNode Machine.methodName?
  rw [hlink, hlandings, round_eq, hmethod]
  cases call <;> rfl

theorem hangAll_append (s : Setting) (f : File) (parent : Nat) (t : Tree) (xs ys : List Run) :
    hangAll s f parent t (xs ++ ys) = hangAll s f parent (hangAll s f parent t xs) ys := by
  induction xs generalizing t with
  | nil => rfl
  | cons x xs ih => rw [List.cons_append, hangAll, hangAll, ih]

/-! ### Following a run -/

/-- The machine takes all tokens of the runs, hangs their nodes below the activation and comes back
to it. Then the activation has bound the calls in front, but not those at the back. -/
def Arrives (p : Project) (a : Activation) (t : Tree) (below : List Activation) (rs : List Run)
    (rest front back : List Nat) : Prop :=
  let f := p.file a.point.ref.file
  ∃ consumed, Spent f {a with consumed := consumed} front back ∧
    Leads (.traced p) ⟨t, a :: below, false⟩ (traceAll rs ++ rest)
      ⟨hangAll (.traced p) f a.index t rs, {a with consumed := consumed} :: below, false⟩ rest

/-- From every frame that has come to this part of its code, the machine follows the runs. -/
def Follows (p : Project) : Code → List Run → Prop
  | .statements n is, rs => ∀ a m done t below rest, a.point.ref.file = n → Frame p m a →
    scopeOf p a.point = done ++ is →
    Spent (p.file n) a (callsOf p (p.file n) done) (callsOf p (p.file n) is) →
    Next (.traced p) rest (Beyond p ⟨n, m⟩ a.point.ref.node) →
    Arrives p a t below rs rest (callsOf p (p.file n) (done ++ is)) []
  | .statement n i, rs => ∀ a m done todo t below rest, a.point.ref.file = n → Frame p m a →
    scopeOf p a.point = done ++ i :: todo →
    Spent (p.file n) a (callsOf p (p.file n) done)
      (callsIn p (p.file n) i ++ callsOf p (p.file n) todo) →
    Next (.traced p) rest (Beyond p ⟨n, m⟩ i) →
    Arrives p a t below rs rest (callsOf p (p.file n) done ++ callsIn p (p.file n) i)
      (callsOf p (p.file n) todo)
  | .rounds n i, rs => ∀ a m done todo t below rest, a.point.ref.file = n → Frame p m a →
    scopeOf p a.point = done ++ i :: todo →
    Spent (p.file n) a (callsOf p (p.file n) done ++ callsIn p (p.file n) i)
      (callsOf p (p.file n) todo) →
    Next (.traced p) rest (Beyond p ⟨n, m⟩ i) →
    Arrives p a t below rs rest (callsOf p (p.file n) done ++ callsIn p (p.file n) i)
      (callsOf p (p.file n) todo)
  | .round n i, rs => ∀ a m done todo t below rest, a.point.ref.file = n → Frame p m a →
    scopeOf p a.point = done ++ i :: todo →
    Spent (p.file n) a (callsOf p (p.file n) done) (callsOf p (p.file n) todo) →
    Next (.traced p) rest (Beyond p ⟨n, m⟩ i) →
    Arrives p a t below rs rest (callsOf p (p.file n) done ++ callsIn p (p.file n) i)
      (callsOf p (p.file n) todo)
  | .calls n xs, rs => ∀ a m front back t below rest, a.point.ref.file = n → Frame p m a →
    callsOf p (p.file n) (scopeOf p a.point) = front ++ (xs ++ back) →
    Spent (p.file n) a front (xs ++ back) → Next (.traced p) rest (Following p ⟨n, m⟩) →
    Arrives p a t below rs rest (front ++ xs) back

theorem arrives_nil {p : Project} {a : Activation} {front back : List Nat}
    (h : Spent (p.file a.point.ref.file) a front back) (t : Tree) (below : List Activation)
    (rest : List Nat) : Arrives p a t below [] rest front back :=
  ⟨a.consumed, h, Leads.refl _ _ _⟩

theorem Arrives.append {p : Project} {a : Activation} {t : Tree} {below : List Activation}
    {xs ys : List Run} {rest front back front' back' : List Nat}
    (h : Arrives p a t below xs (traceAll ys ++ rest) front back)
    (hthen : ∀ consumed t',
      Spent (p.file a.point.ref.file) {a with consumed := consumed} front back →
      Arrives p {a with consumed := consumed} t' below ys rest front' back') :
    Arrives p a t below (xs ++ ys) rest front' back' := by
  obtain ⟨consumed, hspent, hleads⟩ := h
  obtain ⟨consumed', hspent', hleads'⟩ := hthen consumed _ hspent
  refine ⟨consumed', hspent', ?_⟩
  rw [traceAll_append, List.append_assoc, hangAll_append]
  exact hleads.trans hleads'

section Runs
variable {p : Project} (hs : Structured p) (hlaid : ∀ n, (p.file n).Laid)
  (hshaped : ∀ n, (p.file n).Shaped) (hbraced : ∀ n, (p.file n).Braced)

/-- The activation of a trace point that has just begun. -/
def fresh (p : Project) (index : Nat) (q : TracePoint) (e : Entrance) : Activation :=
  (Activation.start (p.file q.ref.file) index q e).plain

theorem frame_fresh {q : TracePoint} (hq : Traced p q) (hkind : q.kind ≠ .constructor) {k : Nat}
    (hk : Home p q ⟨q.ref.file, k⟩) (index : Nat) (e : Entrance) :
    Frame p k (fresh p index q e) :=
  ⟨hq, hkind, rfl, rfl, rfl, hk.method, hk.below⟩

section Unit
variable {q : TracePoint} {parts : List Run} (hfollows : Follows p (.of p q) parts)
  (hkind : q.kind ≠ .constructor) {k : Nat} (hk : Home p q ⟨q.ref.file, k⟩) {rest : List Nat}
  (hnext : Next (.traced p) rest (Beyond p ⟨q.ref.file, k⟩ q.ref.node))
include hs hlaid hfollows hkind hk hnext

/-- A trace point that has begun runs to its end, and the next token ends its activation. -/
theorem leads_fresh (hq : Traced p q) (index : Nat) (e : Entrance) (t : Tree)
    (below : List Activation) :
    Leads (.traced p) ⟨t, fresh p index q e :: below, false⟩ (traceAll parts ++ rest)
      ⟨hangAll (.traced p) (p.file q.ref.file) index t parts,
        Plain.ended (fresh p index q e) below, false⟩ rest := by
  have hframe := frame_fresh hq hkind hk index e
  obtain ⟨consumed, hspent, hleads⟩ := hfollows (fresh p index q e) k [] t below rest rfl hframe
    rfl ⟨fun x hx => (nomatch hx), fun x _ => rfl⟩ hnext
  refine hleads.trans (leads_end (fun id point hid hpoint => ?_) _ below false)
  exact (hframe.rebound consumed).enter?_eq_none hs hlaid hspent
    (PointMap.traced_of_get? hpoint) (hnext id point hid hpoint)

/-- A frame takes a trace point, which runs to its end. -/
theorem leads_unit {id : Nat} (hid : (Setting.traced p).points.get? id = some q) {a b : Activation}
    {e : Entrance} {call : Option Nat} (hscope : scopeOf p a.point ≠ [])
    (henter : a.enter? (.traced p) q = some (e, b)) (hindex : b.index = a.index)
    (hsight : Plain.beyond (.traced p) b e = false)
    (hlink : e.link? = call.map fun x =>
      ⟨(p.file a.point.ref.file).range x, (p.file a.point.ref.file).path⟩)
    (hlandings : e.landings =
      (call.bind fun _ => Activation.landing? (.traced p) q.ref).toList) (t : Tree)
    (below : List Activation) :
    Leads (.traced p) ⟨t, a :: below, false⟩ (traceAll [.node id call parts] ++ rest)
      ⟨hangAll (.traced p) (p.file a.point.ref.file) a.index t [.node id call parts],
        b.releaseHeader e.header? :: below, false⟩ rest := by
  have hnode : Machine.newNode (.traced p) t a.index id q e =
      runNode (.traced p) (p.file a.point.ref.file) t a.index id call q :=
    newNode_eq hkind hlink hlandings
  have hhang : hangAll (.traced p) (p.file a.point.ref.file) a.index t [.node id call parts] =
      hangAll (.traced p) (p.file q.ref.file) t.size
        (t.push a.index (runNode (.traced p) (p.file a.point.ref.file) t a.index id call q))
        parts := by
    rw [hangAll, hangAll, Run.hang, hid]
    rfl
  have hopened : Plain.opened (.traced p) t (b :: below) false b.index id q e =
      ⟨t.push a.index (runNode (.traced p) (p.file a.point.ref.file) t a.index id call q),
        fresh p t.size q e :: b :: below, false⟩ := by
    unfold Plain.opened
    rw [hindex, hnode]
    rfl
  have htaken := leads_enter hid hscope henter hsight t below false (traceAll parts ++ rest)
  rw [hopened] at htaken
  rw [hhang, traceAll_node, traceAll, List.append_nil, List.cons_append]
  exact htaken.trans (leads_fresh hs hlaid hfollows hkind hk hnext (PointMap.traced_of_get? hid)
    t.size e _ (b :: below))

end Unit

section Frame
variable {m : Nat} {a : Activation} (ha : Frame p m a)
include hs hlaid hshaped ha

/-- A frame binds a call, and the method runs to its end. -/
theorem arrives_call {front back : List Nat} {x : Nat}
    (hcalls : callsOf p (p.file a.point.ref.file) (scopeOf p a.point) = front ++ x :: back)
    (hspent : Spent (p.file a.point.ref.file) a front (x :: back)) {q : TracePoint} {id : Nat}
    (hid : (Setting.traced p).points.get? id = some q) (hkind : q.kind = .method)
    (hname : (p.file q.ref.file).name? q.ref.node = calledName? (p.file a.point.ref.file) x)
    {parts : List Run} (hfollows : Follows p (.of p q) parts) {rest : List Nat}
    (hnext : Next (.traced p) rest (Following p ⟨a.point.ref.file, m⟩)) (t : Tree)
    (below : List Activation) :
    Arrives p a t below [.node id (some x) parts] rest (front ++ [x]) back := by
  have hq := PointMap.traced_of_get? hid
  have hmem : x ∈ callsOf p (p.file a.point.ref.file) (scopeOf p a.point) := by
    rw [hcalls]
    exact List.mem_append_right front List.mem_cons_self
  obtain ⟨i, hi, hx⟩ := List.mem_flatMap.mp hmem
  have hdiffer := pairwise_callsOf (hlaid _) p (pairwise_scope ha.traced hlaid)
    fun c hc => bounds_of_scope ha.traced hlaid hc
  rw [hcalls] at hdiffer
  have hne := (List.pairwise_cons.mp (List.pairwise_append.mp hdiffer).2.1).1
  have hhome : Home p q ⟨q.ref.file, q.ref.node⟩ :=
    ⟨rfl, form_of_method (hkind ▸ hq.kind), File.below_refl _ _⟩
  have hcall := ha.calls hlaid hi hx hq hkind hname
  refine ⟨_, hspent.bind hne, ?_⟩
  refine leads_unit hs hlaid hfollows (by rw [hkind]; decide) hhome
    (hnext.mono fun r hr => hr.beyond hcall q.ref.node) hid (List.ne_nil_of_mem hi)
    (ha.enter?_call hs hcalls hspent hkind hname) rfl ?_ rfl rfl t below
  exact ha.beyond_eq_false hlaid hshaped hi (below_of_callsIn hx).1 rfl rfl

include hbraced in
/-- A frame takes a block, which runs to its end. -/
theorem arrives_nested {i : Nat} (hi : i ∈ scopeOf p a.point) {q : TracePoint} {id : Nat}
    (hid : (Setting.traced p).points.get? id = some q) (hkind : q.kind.binding = .nested)
    (hfile : q.ref.file = a.point.ref.file)
    (hbelow : (p.file a.point.ref.file).Below i q.ref.node) {parts : List Run}
    (hfollows : Follows p (.of p q) parts) {rest : List Nat}
    (hnext : Next (.traced p) rest (Beyond p ⟨a.point.ref.file, m⟩ q.ref.node))
    {front back : List Nat}
    (hspent : Spent (p.file a.point.ref.file)
      (a.releaseHeader (nestedEntrance (p.file a.point.ref.file) q).header?) front back) (t : Tree)
    (below : List Activation) : Arrives p a t below [.node id none parts] rest front back := by
  obtain ⟨⟨n, j⟩, kind⟩ := q
  obtain rfl : n = a.point.ref.file := hfile
  have hconstructor : kind ≠ .constructor := by
    rintro rfl
    cases hkind
  obtain ⟨z, hz, hmarker⟩ := marker_nestedEntrance (p.file a.point.ref.file) (hlaid _)
    ⟨⟨a.point.ref.file, j⟩, kind⟩
  obtain ⟨hnone, hlandings⟩ := link_nestedEntrance (p.file a.point.ref.file)
    ⟨⟨a.point.ref.file, j⟩, kind⟩
  have hlink : (nestedEntrance (p.file a.point.ref.file) ⟨⟨a.point.ref.file, j⟩, kind⟩).link? =
      (none : Option Nat).map fun x =>
        ⟨(p.file a.point.ref.file).range x, (p.file a.point.ref.file).path⟩ := hnone
  have hleads := leads_unit hs hlaid hfollows hconstructor (ha.home hlaid hi rfl hbelow) hnext hid
    (List.ne_nil_of_mem hi) (ha.enter?_nested hlaid hbraced hkind rfl hi hbelow) rfl
    (ha.beyond_eq_false hlaid hshaped hi (hbelow.trans hz) rfl hmarker) hlink hlandings t below
  cases hheader : (nestedEntrance (p.file a.point.ref.file)
    ⟨⟨a.point.ref.file, j⟩, kind⟩).header? with
  | none =>
    rw [hheader] at hspent hleads
    exact ⟨a.consumed, hspent, hleads⟩
  | some r =>
    rw [hheader] at hspent hleads
    exact ⟨_, hspent, hleads⟩

end Frame

include hs hlaid hshaped hbraced in
/-- A frame takes a round of one of its loops, and then the calls in the condition are free. -/
theorem arrives_round {m : Nat} {a : Activation} (ha : Frame p m a) {done todo : List Nat}
    {i id : Nat} (hscope : scopeOf p a.point = done ++ i :: todo) {kind : PointKind}
    (hid : (Setting.traced p).points.get? id = some ⟨⟨a.point.ref.file, i⟩, kind⟩)
    (hloop : kind.isLoop = true) {parts : List Run}
    (hfollows : Follows p (.of p ⟨⟨a.point.ref.file, i⟩, kind⟩) parts) {rest : List Nat}
    (hnext : Next (.traced p) rest (Beyond p ⟨a.point.ref.file, m⟩ i))
    (hspent : Spent (p.file a.point.ref.file) a (callsOf p (p.file a.point.ref.file) done)
      (callsOf p (p.file a.point.ref.file) todo)) (t : Tree) (below : List Activation) :
    Arrives p a t below [.node id none parts] rest (callsOf p (p.file a.point.ref.file) done)
      (callsIn p (p.file a.point.ref.file) i ++ callsOf p (p.file a.point.ref.file) todo) := by
  have hheader : (nestedEntrance (p.file a.point.ref.file)
      ⟨⟨a.point.ref.file, i⟩, kind⟩).header? = some ((p.file a.point.ref.file).range i) := by
    unfold nestedEntrance
    rw [if_pos hloop]
    rfl
  refine arrives_nested hs hlaid hshaped hbraced ha (by simp [hscope]) hid
    (binding_of_isLoop hloop) rfl (File.below_refl _ i) hfollows hnext ?_ t below
  rw [hheader]
  exact hspent.release (fun x hx => (hlaid _).contains_of_below (below_of_callsIn hx).1)
    fun x hx => ha.not_contains_of_done hlaid hscope hx

/-- The calls of a statement follow one another. -/
theorem Follows.statement {m : Nat} {a : Activation} {i : Nat} {xs : List Run}
    (h : Follows p (.calls a.point.ref.file (callsIn p (p.file a.point.ref.file) i)) xs)
    (ha : Frame p m a) {done todo : List Nat} (hscope : scopeOf p a.point = done ++ i :: todo)
    (hspent : Spent (p.file a.point.ref.file) a (callsOf p (p.file a.point.ref.file) done)
      (callsIn p (p.file a.point.ref.file) i ++ callsOf p (p.file a.point.ref.file) todo))
    {rest : List Nat} (hnext : Next (.traced p) rest (Following p ⟨a.point.ref.file, m⟩)) (t : Tree)
    (below : List Activation) :
    Arrives p a t below xs rest (callsOf p (p.file a.point.ref.file) done ++
      callsIn p (p.file a.point.ref.file) i) (callsOf p (p.file a.point.ref.file) todo) := by
  refine h a m _ _ t below rest rfl ha ?_ hspent hnext
  rw [hscope, callsOf_append, callsOf_cons]

include hs in
theorem Follows.header {n i : Nat} {xs : List Run}
    (h : Follows p (.calls n (headerCalls p (p.file n) i)) xs)
    (hform : hasHeader ((p.file n).form i) = true) :
    Follows p (.calls n (callsIn p (p.file n) i)) xs := by
  rw [hs.header hform]
  exact h

include hs hlaid hshaped hbraced

/-- The plain machine follows every run of a structured program. -/
theorem follows_of_runs {code : Code} {rs : List Run} (h : Runs (.traced p) code rs) :
    Follows p code rs := by
  induction h with
  | nothing n =>
    rintro a m done t below rest rfl ha hscope hspent _
    rw [List.append_nil]
    exact arrives_nil hspent t below rest
  | @next n i is xs ys _ hrest ihx ihy =>
    rintro a m done t below rest rfl ha hscope hspent hnext
    have hi : i ∈ scopeOf p a.point := by
      rw [hscope]
      exact List.mem_append_right done List.mem_cons_self
    rw [callsOf_cons] at hspent
    have hlater := (next_of_runs hrest).mono fun q => ha.beyond_of_begins hlaid hscope
    have hout := hnext.mono fun q hq => hq.inside hlaid (below_of_scope ha.traced hlaid hi)
    have hsplit : done ++ i :: is = done ++ [i] ++ is := by
      rw [List.append_assoc, List.singleton_append]
    refine (ihx a m done is t below _ rfl ha hscope hspent (hlater.append hout)).append
      fun consumed t' hspent' => ?_
    rw [hsplit]
    refine ihy {a with consumed := consumed} m (done ++ [i]) t' below rest rfl (ha.rebound consumed)
      (hscope.trans hsplit) ?_ hnext
    rw [callsOf_append, callsOf_cons, callsOf, callsOf, List.flatMap_nil, List.append_nil]
    exact hspent'
  | simple _ _ ih =>
    rintro a m done todo t below rest rfl ha hscope hspent hnext
    exact Follows.statement ih ha hscope hspent (hnext.mono fun q => Beyond.following) t below
  | @block n i id xs hid _ ih =>
    rintro a m done todo t below rest rfl ha hscope hspent hnext
    have hform := form_of_nested (PointMap.traced_of_get? hid).kind rfl rfl
    have hnone : callsIn p (p.file a.point.ref.file) i = [] := by
      unfold callsIn
      rw [evaluated, if_pos (by rw [hform]; rfl)]
      rfl
    rw [hnone, List.append_nil]
    rw [hnone] at hspent
    exact arrives_nested hs hlaid hshaped hbraced ha (by simp [hscope]) hid rfl rfl
      (File.below_refl _ i) ih hnext hspent t below
  | skip hform _ ih =>
    rintro a m done todo t below rest rfl ha hscope hspent hnext
    exact (Follows.header hs ih (hasHeader_of_branch hform)).statement ha hscope hspent
      (hnext.mono fun q => Beyond.following) t below
  | @branch n i b id xs ys hform hchild hid _ _ ihx ihy =>
    rintro a m done todo t below rest rfl ha hscope hspent hnext
    have hi : i ∈ scopeOf p a.point := by simp [hscope]
    have hbranch : Next (.traced p) (traceAll [.node id none ys])
        (Following p ⟨a.point.ref.file, m⟩) := by
      rw [traceAll_node]
      exact next_cons hid
        (ha.following_of_begins hlaid hi (.inr ⟨rfl, rfl, File.below_child hchild⟩)) _
    refine ((Follows.header hs ihx (hasHeader_of_branch hform)).statement ha hscope hspent
      (hbranch.append (hnext.mono fun q => Beyond.following)) t below).append
      fun consumed t' hspent' => ?_
    exact arrives_nested hs hlaid hshaped hbraced (ha.rebound consumed) hi hid rfl rfl
      (File.below_child hchild) ihy
      (hnext.mono fun q hq => hq.inside hlaid (File.below_child hchild)) hspent' t' below
  | @loop n i xs ys hform _ hrounds ihx ihy =>
    rintro a m done todo t below rest rfl ha hscope hspent hnext
    have hi : i ∈ scopeOf p a.point := by simp [hscope]
    have hround := (next_of_runs hrounds).mono fun q => ha.beyond_of_round hlaid hi
    refine ((Follows.header hs ihx (hasHeader_of_testsFirst hform)).statement ha hscope hspent
      ((hround.append hnext).mono fun q => Beyond.following) t below).append
      fun consumed t' hspent' => ?_
    exact ihy {a with consumed := consumed} m done todo t' below rest rfl (ha.rebound consumed)
      hscope hspent' hnext
  | @doLoop n i xs ys _ _ hrounds ihx ihy =>
    rintro a m done todo t below rest rfl ha hscope hspent hnext
    have hi : i ∈ scopeOf p a.point := by simp [hscope]
    have hround := (next_of_runs hrounds).mono fun q => ha.beyond_of_round hlaid hi
    refine (ihx a m done todo t below _ rfl ha hscope hspent.back (hround.append hnext)).append
      fun consumed t' hspent' => ?_
    exact ihy {a with consumed := consumed} m done todo t' below rest rfl (ha.rebound consumed)
      hscope hspent' hnext
  | leave n i =>
    rintro a m done todo t below rest rfl ha hscope hspent _
    exact arrives_nil hspent t below rest
  | @again n i xs ys _ hrounds ihx ihy =>
    rintro a m done todo t below rest rfl ha hscope hspent hnext
    have hi : i ∈ scopeOf p a.point := by simp [hscope]
    have hround := (next_of_runs hrounds).mono fun q => ha.beyond_of_round hlaid hi
    refine (ihx a m done todo t below _ rfl ha hscope hspent.front (hround.append hnext)).append
      fun consumed t' hspent' => ?_
    exact ihy {a with consumed := consumed} m done todo t' below rest rfl (ha.rebound consumed)
      hscope hspent' hnext
  | @round n i id kind xs ys hid hloop _ hheader ihx ihy =>
    rintro a m done todo t below rest rfl ha hscope hspent hnext
    have hform := (loop_of_isLoop (PointMap.traced_of_get? hid).kind hloop).1
    have hcall := (next_of_runs hheader).mono (Q := Beyond p ⟨a.point.ref.file, m⟩ i)
      fun q hq => .inl hq
    rw [← List.singleton_append]
    refine (arrives_round hs hlaid hshaped hbraced ha hscope hid hloop ihx (hcall.append hnext)
      hspent t below).append fun consumed t' hspent' => ?_
    exact Follows.statement (a := {a with consumed := consumed})
      (Follows.header hs ihy (hasHeader_of_ofLoop? hform)) (ha.rebound consumed) hscope hspent'
      (hnext.mono fun q => Beyond.following) t' below
  | returned n =>
    rintro a m front back t below rest rfl ha hcalls hspent _
    rw [List.append_nil]
    exact arrives_nil hspent t below rest
  | @call n x id point xs ys zs hid hkind hname _ hcalled ihy ihz =>
    rintro a m front back t below rest rfl ha hcalls hspent hnext
    have hcall := (next_of_runs hcalled).mono (Q := Following p ⟨a.point.ref.file, m⟩)
      fun q hq => .inl hq
    rw [← List.singleton_append (x := Run.node id (some x) ys)]
    refine (arrives_call hs hlaid hshaped ha hcalls hspent hid hkind hname ihy
      (hcall.append hnext) t below).append fun consumed t' hspent' => ?_
    have hsplit : front ++ x :: xs = front ++ [x] ++ xs := by
      rw [List.append_assoc, List.singleton_append]
    rw [hsplit]
    refine ihz {a with consumed := consumed} m (front ++ [x]) back t' below rest rfl
      (ha.rebound consumed) ?_ hspent' hnext
    rw [← List.append_assoc, ← hsplit, List.append_assoc]
    exact hcalls

end Runs

end Retrace.Reconstruct
