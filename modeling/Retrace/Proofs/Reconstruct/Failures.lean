import Retrace.Proofs.Instrument.Ids
import Retrace.Proofs.Reconstruct.Deferral
import Retrace.Proofs.Reconstruct.Owned
import Retrace.Proofs.Reconstruct.Waiting

/-! How a reconstruction fails.

A step fails only on a next token that names no trace point (`step_error`), so the run stops in a
state that has put every earlier token into the tree (`exists_failing`). A run that does not fail
comes to a tree and the tokens left over, and only then it counts whether leaving some is allowed
(`reconstruct_eq`). No state of a run refers to a file, a node of a file or a node of the tree that
there is not (`Bounded`). -/
namespace Retrace

/-- The reference is to a node of the project. -/
structure Source.Project.Names (p : Source.Project) (r : Source.Ref) : Prop where
  file : r.file < p.files.size
  node : r.node < (p.file r.file).nodes.size

/-- From a node of the file one gets to nodes of the file only. -/
structure Source.File.Closed (f : Source.File) : Prop where
  child : ∀ {i c}, c ∈ f.children i → c < f.nodes.size
  field : ∀ {i e}, e ∈ (f.node i).fields → e.2 < f.nodes.size
  parent : ∀ {i p}, f.parent? i = some p → p < f.nodes.size

namespace Reconstruct
open Source Instrument Trace Activation

/-- What is looked up in a project are nodes of it. -/
structure Setting.Closed (s : Setting) : Prop where
  file : ∀ f ∈ s.project.fileList, f.Closed
  point : ∀ {id point}, s.points.get? id = some point → s.project.Names point.ref
  classes : ∀ k ∈ s.classes, s.project.Names k.2

/-- What a state refers to are nodes of the project and of its own tree. -/
structure Bounded (s : Setting) (m : Machine) : Prop where
  unit : ∀ a ∈ m.stack, s.project.Names a.point.ref
  site : ∀ a ∈ m.stack, ∀ x ∈ a.sites, s.project.Names ⟨a.point.ref.file, x.node⟩
  creation : ∀ a ∈ m.stack, ∀ i, a.openCreation = some i ∨ a.lastCreation = some i →
    s.project.Names ⟨a.point.ref.file, i⟩
  node : ∀ a ∈ m.stack, a.index < m.tree.size
  child : ∀ i, ∀ c ∈ m.tree.children i, c < m.tree.size
  parent : ∀ {i p}, m.tree.parent? i = some p → p < m.tree.size

/-! ### Nothing out of range -/

theorem closed_of_linked {f : File} (h : f.Linked) : f.Closed where
  child hc := (h.bounds hc).2
  field he := (h.bounds (h.fields he)).2
  parent hp := Nat.lt_trans (h.bounds (h.parents.mp hp)).1 (h.bounds (h.parents.mp hp)).2

theorem lt_size_of_scopeSites {f : File} (h : f.Linked) {i : Nat} {kind : PointKind}
    (hkind : kind? f i = some kind) {x : Site} (hx : x ∈ scopeSites f i kind) :
    x.node < f.nodes.size := by
  obtain ⟨b, c, _, hc, _, hx⟩ := statement_of_site hkind hx
  exact h.lt_size_of_below (below_of_mem_sitesWithin hx).1 (h.bounds hc).2

section Traced
variable {p : Project} (hlinked : ∀ f ∈ p.fileList, f.Linked)
include hlinked

theorem closed_traced : (Setting.traced p).Closed where
  file f hf := closed_of_linked (hlinked f hf)
  point hpoint :=
    have htraced := PointMap.traced_of_get? hpoint
    ⟨htraced.file_lt, htraced.node_lt⟩
  classes k hk := by
    obtain ⟨hfile, hform, _⟩ := class_of_mem hk
    refine ⟨hfile, Nat.lt_of_not_le fun hle => ?_⟩
    have hnode := eq_default_of_le hle
    rw [File.form, show (p.file k.2.file).node k.2.node = default from hnode] at hform
    cases hform

theorem bounded_of_coherent {taken : List Nat} {m : Machine}
    (hm : ∀ a ∈ m.stack, Coherent (.traced p) a)
    (hp : Machine.Placed (.traced p) taken m) : Bounded (.traced p) m := by
  have hsite : ∀ a ∈ m.stack, ∀ x ∈ a.sites, p.Names ⟨a.point.ref.file, x.node⟩ := by
    intro a ha x hx
    obtain ⟨id, hpoint⟩ := (hm a ha).traced
    have htraced := PointMap.traced_of_get? hpoint
    rw [(hm a ha).sites] at hx
    have hl := hlinked _ (Machine.mem_fileList htraced.file_lt)
    exact ⟨htraced.file_lt, lt_size_of_scopeSites hl htraced.kind hx⟩
  have hparent : ∀ {i q}, m.tree.parent? i = some q → q < m.tree.size := fun hq =>
    Nat.lt_trans (hp.earlier _ _ hq) (Tree.lt_size_of_parent? hq)
  constructor
  · intro a ha
    obtain ⟨id, hpoint⟩ := (hm a ha).traced
    exact (closed_traced hlinked).point hpoint
  · exact hsite
  · intro a ha i hi
    obtain ⟨x, hx, rfl⟩ := (hm a ha).known i hi
    exact hsite a ha x hx
  · exact fun a ha => (hp.open_above _ (List.mem_map_of_mem ha)).2.1
  · exact fun i c hc => Machine.mem_children_lt hp.listed hc
  · exact hparent

end Traced

namespace Machine

/-! ### Steps that fail -/

theorem point?_error {s : Setting} {id : Nat} {fault : Fault} (h : point? s id = .error fault) :
    s.points.get? id = none ∧ fault = .unknownTraceId id := by
  unfold point? at h
  split at h
  · cases h
  · cases h
    exact ⟨‹_›, rfl⟩

/-- A step fails only on a token that names no trace point. -/
theorem step_error {s : Setting} {m : Machine} {fault : Fault} (h : step s m = .error fault) :
    ∃ id rest, m.rest = id :: rest ∧ s.points.get? id = none ∧ fault = .unknownTraceId id := by
  unfold step at h
  split at h
  · unfold startRoot at h
    split at h
    · rename_i id rest _ hrest
      cases hp : point? s id with
      | error f =>
        rw [hp] at h
        cases h
        exact ⟨id, rest, hrest, point?_error hp⟩
      | ok point =>
        rw [hp] at h
        cases h
    · cases h
  · rename_i a below _
    split at h
    · cases h
    · cases h
    · rename_i scan _
      unfold ask at h
      split at h
      · cases h
      · rename_i id rest hrest
        cases hp : point? s id with
        | error f =>
          rw [hp] at h
          cases h
          exact ⟨id, rest, hrest, point?_error hp⟩
        | ok point =>
          rw [hp] at h
          simp only [bind, Except.bind] at h
          split at h <;> cases h

/-- A run that fails stops in a state whose step fails. -/
theorem exists_failing {s : Setting} {m : Machine} {fault : Fault} (h : run s m = .error fault) :
    ∃ n ∈ states s m, step s n = .error fault := by
  induction m using run.induct s with
  | case1 m f hstep =>
    rw [run_eq, hstep] at h
    cases h
    exact ⟨m, mem_states_self s m, hstep⟩
  | case2 m hstep =>
    rw [run_eq, hstep] at h
    cases h
  | case3 m n hstep ih =>
    rw [run_eq, hstep] at h
    obtain ⟨k, hk, hfails⟩ := ih h
    exact ⟨k, states_subset (moves_of_step hstep) hk, hfails⟩

/-- A failure within so many steps is that of the run. -/
theorem run_of_after_error {s : Setting} {count : Nat} {m : Machine} {fault : Fault}
    (h : after s count m = .error fault) : run s m = .error fault := by
  induction count generalizing m with
  | zero => cases h
  | succ count ih =>
    rw [run_eq]
    unfold after at h
    split at h
    · exact h
    · cases h
    · exact ih h

/-- A state of a run has taken tokens that all name trace points. -/
theorem known_of_moves {s : Setting} {tokens : List Nat} {m n : Machine}
    (hm : ∃ taken, tokens = taken ++ m.rest ∧ ∀ t ∈ taken, (s.points.get? t).isSome)
    (h : Moves s m n) :
    ∃ taken, tokens = taken ++ n.rest ∧ ∀ t ∈ taken, (s.points.get? t).isSome := by
  obtain ⟨taken, htokens, hknown⟩ := hm
  cases grows_of_moves h with
  | still hrest _ _ _ | ends hrest _ _ _ => exact ⟨taken, by rw [hrest]; exact htokens, hknown⟩
  | @begins id _ _ _ hrest hpoint _ _ _ =>
    refine ⟨taken ++ [id], by rw [htokens, hrest, List.append_assoc]; rfl, ?_⟩
    refine List.forall_mem_append.mpr ⟨hknown, List.forall_mem_singleton.mpr ?_⟩
    rw [hpoint]
    rfl

/-- A run fails on the first token that names no trace point, when all tokens in front of it have
become nodes. -/
theorem unknown_of_run {s : Setting} {tokens : List Nat} {fault : Fault}
    (h : run s (ofTokens tokens) = .error fault) :
    ∃ front id back, fault = .unknownTraceId id ∧ tokens = front ++ id :: back ∧
      (∀ t ∈ front, (s.points.get? t).isSome) ∧ s.points.get? id = none ∧
      ∃ m ∈ states s (ofTokens tokens), step s m = .error fault ∧ m.rest = id :: back ∧
        Placed s front m := by
  obtain ⟨m, hm, hfails⟩ := exists_failing h
  obtain ⟨id, back, hrest, hunknown, hfault⟩ := step_error hfails
  obtain ⟨front, hfront, hplaced⟩ := forall_states
    (P := fun m => ∃ taken, tokens = taken ++ m.rest ∧ Placed s taken m)
    (fun _ _ hx hmoves => placed_of_grows (grows_of_moves hmoves) hx)
    ⟨[], rfl, placed_ofTokens s tokens⟩ m hm
  obtain ⟨front', hfront', hknown⟩ := forall_states
    (P := fun m => ∃ taken, tokens = taken ++ m.rest ∧ ∀ t ∈ taken, (s.points.get? t).isSome)
    (fun _ _ => known_of_moves) ⟨[], rfl, fun _ ht => nomatch ht⟩ m hm
  obtain rfl := List.append_cancel_right (hfront.symm.trans hfront')
  rw [hrest] at hfront
  exact ⟨front, id, back, hfault, hfront, hknown, hunknown, m, hm, hfails, hrest, hplaced⟩

end Machine

/-! ### The two modes -/

theorem reconstruct_eq (s : Setting) (partially : Bool) (stream : Stream) :
    reconstruct s partially stream = match Machine.run s (Machine.ofTokens stream.rest) with
      | .error fault => .error fault
      | .ok k =>
        if k.rest.length ≠ 0 ∧ !partially then
          .error (.incompleteTrace k.rest.length stream.size)
        else .ok ⟨k.tree, k.rest.length⟩ := by
  unfold reconstruct
  cases Machine.run s (Machine.ofTokens stream.rest) <;> rfl

section Modes
variable (s : Setting) (stream : Stream)

/-- Without leave to leave tokens over, the same tree results when none is left. -/
theorem reconstruct_strictly_ok (r : Reconstruction) :
    reconstruct s false stream = .ok r ↔
      reconstruct s true stream = .ok r ∧ r.unconsumed = 0 := by
  rw [reconstruct_eq, reconstruct_eq]
  cases Machine.run s (Machine.ofTokens stream.rest) with
  | error fault => exact ⟨(fun h => nomatch h), fun h => nomatch h.1⟩
  | ok k =>
    dsimp only
    by_cases hrest : k.rest.length = 0
    · rw [if_neg fun h => h.1 hrest, if_neg fun h => h.1 hrest]
      refine ⟨fun h => ⟨h, ?_⟩, And.left⟩
      cases h
      exact hrest
    · rw [if_pos ⟨hrest, rfl⟩, if_neg fun h => Bool.noConfusion h.2]
      refine ⟨(fun h => nomatch h), fun ⟨h, hzero⟩ => ?_⟩
      cases h
      exact absurd hzero hrest

theorem reconstruct_incomplete (remaining total : Nat) :
    reconstruct s false stream = .error (.incompleteTrace remaining total) ↔
      total = stream.size ∧ 0 < remaining ∧
        ∃ r, reconstruct s true stream = .ok r ∧ r.unconsumed = remaining := by
  rw [reconstruct_eq, reconstruct_eq]
  cases hrun : Machine.run s (Machine.ofTokens stream.rest) with
  | error fault =>
    refine ⟨fun h => ?_, fun ⟨_, _, _, h, _⟩ => nomatch h⟩
    cases h
    obtain ⟨_, _, _, hfault, _⟩ := Machine.unknown_of_run hrun
    cases hfault
  | ok k =>
    dsimp only
    rw [if_neg (show ¬(k.rest.length ≠ 0 ∧ (!true) = true) from fun h => Bool.noConfusion h.2)]
    by_cases hrest : k.rest.length = 0
    · rw [if_neg fun h => h.1 hrest]
      refine ⟨(fun h => nomatch h), ?_⟩
      rintro ⟨_, hpos, r, hr, rfl⟩
      cases hr
      exact absurd hrest (Nat.ne_of_gt hpos)
    · rw [if_pos ⟨hrest, rfl⟩]
      constructor
      · intro h
        cases h
        exact ⟨rfl, Nat.pos_of_ne_zero hrest, _, rfl, rfl⟩
      · rintro ⟨rfl, _, r, hr, rfl⟩
        cases hr
        rfl

/-- Nothing else fails, and unknown ids are no matter of the mode. -/
theorem reconstruct_error {partially : Bool} {fault : Fault}
    (h : reconstruct s partially stream = .error fault) :
    Machine.run s (Machine.ofTokens stream.rest) = .error fault ∨
      partially = false ∧ ∃ remaining, fault = .incompleteTrace remaining stream.size := by
  rw [reconstruct_eq] at h
  cases hrun : Machine.run s (Machine.ofTokens stream.rest) with
  | error f =>
    rw [hrun] at h
    cases h
    exact .inl rfl
  | ok k =>
    rw [hrun] at h
    dsimp only at h
    split at h
    · rename_i hleft
      cases h
      exact .inr ⟨by simpa using hleft.2, _, rfl⟩
    · cases h

end Modes

/-- The runs of an instrumented project fail in two ways only. A token that names no trace point is
fatal in either mode: it is the first such token, and all tokens in front of it are nodes of the
tree by then. Tokens left over are fatal if that is not allowed. Otherwise both modes agree, and no
state refers to what there is not. -/
theorem failures_of_instrumented {c : Config.Instrument} {sources : List (String × String)}
    {inst : Instrumentation} (h : Instrumentation.of c (Project.ofSources sources) = .ok inst)
    (tokens : List Nat) :
    let s := Setting.of inst.project inst.points
    let stream := Stream.ofTokens tokens
    (s.Closed ∧ ∀ m ∈ Machine.states s (Machine.ofTokens tokens), Bounded s m) ∧
    (∀ partially id, reconstruct s partially stream = .error (.unknownTraceId id) →
      ∃ front back, tokens = front ++ id :: back ∧
        (∀ t ∈ front, (inst.points.get? t).isSome) ∧ inst.points.get? id = none ∧
        ∃ m ∈ Machine.states s (Machine.ofTokens tokens),
          Machine.step s m = .error (.unknownTraceId id) ∧ m.rest = id :: back ∧
          m.tree.size = front.length + 1 ∧
          ∀ i (hi : i < front.length), m.tree.traceId? (i + 1) = some (toString front[i])) ∧
    (∀ r, reconstruct s false stream = .ok r ↔
      reconstruct s true stream = .ok r ∧ r.unconsumed = 0) ∧
    (∀ remaining total, reconstruct s false stream = .error (.incompleteTrace remaining total) ↔
      total = tokens.length ∧ 0 < remaining ∧
        ∃ r, reconstruct s true stream = .ok r ∧ r.unconsumed = remaining) ∧
    ∀ partially fault, reconstruct s partially stream = .error fault →
      (∃ id, fault = .unknownTraceId id) ∨
        partially = false ∧ ∃ remaining total, fault = .incompleteTrace remaining total := by
  obtain ⟨_, _, hproject, hpoints, _⟩ := Instrumentation.of_eq_ok h
  have hlinked : ∀ f ∈ inst.project.fileList, f.Linked := by
    intro f hf
    rw [hproject, fileList_normalize] at hf
    obtain ⟨g, _, rfl⟩ := List.mem_map.mp hf
    exact Java.parse_linked _ _
  have hs : Setting.of inst.project inst.points = .traced inst.project := by
    rw [hpoints, Setting.traced]
  intro s stream
  refine ⟨?_, fun partially id hfail => ?_, reconstruct_strictly_ok s stream,
    reconstruct_incomplete s stream, fun partially fault hfail => ?_⟩
  · rw [show s = .traced inst.project from hs]
    refine ⟨closed_traced hlinked, fun m hm => ?_⟩
    obtain ⟨taken, _, hplaced⟩ := Machine.forall_states
      (fun _ _ hx hmoves => Machine.placed_of_grows (Machine.grows_of_moves hmoves) hx)
      ⟨[], rfl, Machine.placed_ofTokens _ tokens⟩ m hm
    exact bounded_of_coherent hlinked (Machine.forall_states
      (fun _ _ hx hmoves => coherent_of_moves hmoves hx) (List.forall_mem_nil _) m hm) hplaced
  · rcases reconstruct_error s stream hfail with hrun | ⟨_, _, hfault⟩
    · obtain ⟨front, id', back, hid, htokens, hknown, hunknown, m, hm, hfails, hrest, hplaced⟩ :=
        Machine.unknown_of_run hrun
      cases hid
      exact ⟨front, back, htokens, hknown, hunknown, m, hm, hfails, hrest, hplaced.size,
        hplaced.carries⟩
    · cases hfault
  · rcases reconstruct_error s stream hfail with hrun | ⟨hmode, remaining, hfault⟩
    · obtain ⟨_, id, _, hid, _⟩ := Machine.unknown_of_run hrun
      exact .inl ⟨id, hid⟩
    · exact .inr ⟨hmode, remaining, _, hfault⟩

/-- An unknown id comes behind a call, and a token is left over behind the same call. -/
theorem failures_behind_call :
    let p := Project.ofSources [("A.java", "class A{void f(){g();}void g(){}}")]
    ∃ inst, Instrumentation.of {} p = .ok inst ∧
      (∃ m ∈ Machine.states (Setting.of inst.project inst.points) (Machine.ofTokens [1, 2, 9]),
        m.rest = [9] ∧ m.tree.size = 3) ∧
      reconstruct (Setting.of inst.project inst.points) false (Stream.ofTokens [1, 2, 1]) =
        .error (.incompleteTrace 1 3) := by
  intro p
  have hruns : (Instrumentation.of {} p).isOk = true ∧
      (match Machine.after (.traced (Braces.normalize p)) 40 (Machine.ofTokens [1, 2, 9]) with
        | .error fault => fault == .unknownTraceId 9
        | .ok _ => false) = true ∧
      ((Machine.outcome? (.traced (Braces.normalize p)) 40 [1, 2, 1]).any fun r =>
        r.unconsumed = 1) := by
    decide +kernel
  obtain ⟨hok, hunknown, hleft⟩ := hruns
  cases h : Instrumentation.of {} p with
  | error _ =>
    rw [h] at hok
    cases hok
  | ok inst =>
    obtain ⟨_, _, hproject, hpoints, _⟩ := Instrumentation.of_eq_ok h
    have hs : Setting.of inst.project inst.points = .traced (Braces.normalize p) := by
      rw [hpoints, hproject, Setting.traced]
    refine ⟨inst, rfl, ?_, ?_⟩
    · have hrun : Machine.run (Setting.of inst.project inst.points) (Machine.ofTokens [1, 2, 9]) =
          .error (.unknownTraceId 9) := by
        rw [hs]
        split at hunknown
        · rename_i fault hafter
          rw [Machine.run_of_after_error hafter, beq_iff_eq.mp hunknown]
        · cases hunknown
      have hfail : reconstruct (Setting.of inst.project inst.points) false
          (Stream.ofTokens [1, 2, 9]) = .error (.unknownTraceId 9) := by
        rw [reconstruct_eq, show (Stream.ofTokens [1, 2, 9]).rest = [1, 2, 9] from rfl, hrun]
      obtain ⟨front, back, htokens, _, _, m, hm, _, hrest, hsize, _⟩ :=
        (failures_of_instrumented h [1, 2, 9]).2.1 false 9 hfail
      obtain ⟨rfl, rfl⟩ : [1, 2] = front ∧ [] = back := by
        rcases front with _ | ⟨a, _ | ⟨b, _ | ⟨c, front⟩⟩⟩ <;> simp_all
      exact ⟨m, hm, hrest, hsize⟩
    · obtain ⟨r, hr, hone⟩ := Machine.exists_reconstruct hleft
      rw [← hs] at hr
      exact ((failures_of_instrumented h [1, 2, 1]).2.2.2.1 1 3).mpr ⟨rfl, by decide, r, hr, hone⟩

end Reconstruct

end Retrace
