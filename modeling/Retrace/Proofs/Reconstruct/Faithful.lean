import Retrace.Proofs.Reconstruct.Refinement
import Retrace.Proofs.Reconstruct.Simulation

/-! Reconstruction is faithful to structured programs.

`reconstruct_of_execution`: the trace of a run of a structured program is reconstructed to the end,
and the tree is that of the run. Every node has its parent, a method is linked to the call that
started it, and the rounds of a loop are numbered. -/
namespace Retrace.Reconstruct
open Source Instrument Trace

theorem points_of_runs {s : Setting} {code : Code} {rs : List Run} (h : Runs s code rs) :
    ∀ id ∈ traceAll rs, ∃ point, s.points.get? id = some point := by
  have hnode : ∀ {id : Nat} {call : Option Nat} {parts rs : List Run} {point : TracePoint},
      s.points.get? id = some point →
      (∀ id ∈ traceAll parts, ∃ point, s.points.get? id = some point) →
      (∀ id ∈ traceAll rs, ∃ point, s.points.get? id = some point) →
      ∀ i ∈ traceAll (.node id call parts :: rs), ∃ point, s.points.get? i = some point := by
    intro id call parts rs point hid hparts hrs
    rw [traceAll_node]
    exact List.forall_mem_cons.mpr ⟨⟨point, hid⟩, List.forall_mem_append.mpr ⟨hparts, hrs⟩⟩
  induction h with
  | nothing | leave | returned => exact fun id hid => nomatch hid
  | simple _ _ ih | skip _ _ ih => exact ih
  | next _ _ ihx ihy | loop _ _ _ ihx ihy | doLoop _ _ _ ihx ihy | again _ _ ihx ihy =>
    rw [traceAll_append]
    exact List.forall_mem_append.mpr ⟨ihx, ihy⟩
  | block hid _ ih => exact hnode hid ih fun id hid => nomatch hid
  | branch _ _ hid _ _ ihx ihy =>
    rw [traceAll_append]
    exact List.forall_mem_append.mpr ⟨ihx, hnode hid ihy fun id hid => nomatch hid⟩
  | round hid _ _ _ ihx ihy => exact hnode hid ihx ihy
  | call hid _ _ _ _ ihy ihz => exact hnode hid ihy ihz

/-- The trace of a run of a structured program is reconstructed as the run. -/
theorem reconstruct_of_execution {sources : List (String × String)}
    (hsize : ∀ x ∈ sources, x.2.utf8ByteSize + 1 < Limit.word)
    (hs : Structured (Project.ofSources sources)) {run : Run}
    (h : Execution (Setting.ofSources sources) run) :
    ∃ r, reconstruct (.ofSources sources) false (Stream.ofTokens run.trace) = .ok r ∧
      r.unconsumed = 0 ∧ r.tree.outline = run.tree (.ofSources sources) := by
  have hlaid := laid_ofSources (inOrder_ofSources hsize)
  cases h with
  | @method id q parts hid hkind hruns =>
    have hq := PointMap.traced_of_get? hid
    have hfollows := follows_of_runs hs hlaid shaped_ofSources (braced_ofSources hsize) hruns
    have hhome : Home (Project.ofSources sources) q ⟨q.ref.file, q.ref.node⟩ :=
      ⟨rfl, form_of_method (hkind ▸ hq.kind), File.below_refl _ _⟩
    have hconstructor : q.kind ≠ .constructor := by
      rw [hkind]
      decide
    have hroot := leads_root hid (traceAll parts ++ [])
    have hnode : Machine.newNode (.ofSources sources) Tree.bare 0 id q .root =
        runNode (.ofSources sources) default Tree.bare 0 id none q :=
      newNode_eq hconstructor rfl rfl
    have hopened : Plain.opened (.ofSources sources) Tree.bare []
        (q.kind == .staticInitializer) 0 id q .root =
        ⟨Tree.bare.push 0 (runNode (.ofSources sources) default Tree.bare 0 id none q),
          [fresh (Project.ofSources sources) 1 q .root], false⟩ := by
      unfold Plain.opened
      rw [hnode, hkind]
      rfl
    rw [hopened] at hroot
    obtain ⟨houtcome, hrevisits⟩ := hroot.trans (leads_fresh hs hlaid hfollows hconstructor hhome
      (next_nil _ _) hq 1 .root _ [])
    have htokens : ∀ i ∈ (Run.node id none parts).trace,
        ∃ point, (Setting.ofSources sources).points.get? i = some point := by
      rw [Run.trace]
      exact List.forall_mem_cons.mpr ⟨⟨q, hid⟩, points_of_runs hruns⟩
    obtain ⟨r, hr, hiff⟩ := reconstruct_of_project hlaid shaped_ofSources htokens
    rw [List.append_nil] at houtcome hrevisits
    obtain ⟨htree, hunconsumed⟩ := Prod.mk.inj (hiff.mpr hrevisits)
    have hnone : r.unconsumed = 0 := by
      rw [hunconsumed]
      exact congrArg (fun x => x.2.length) houtcome
    refine ⟨r, Machine.reconstruct_wholly hr hnone, hnone, ?_⟩
    rw [Run.tree, Run.hang, hid]
    exact htree.trans (congrArg Prod.fst houtcome)

/-- Methods call only such as have a higher number. -/
def CallsLater (p : Project) : Prop :=
  ∀ f ∈ p.fileList, ∀ x ∈ f.numbersOf, ∀ name ∈ (calledName? f x).toList,
    ∀ m ∈ x :: f.ancestors x, f.form m = .methodDeclaration →
      ∀ g ∈ p.fileList, ∀ k ∈ g.numbersOf, g.form k = .methodDeclaration →
        g.name? k = some name → m < k

instance (p : Project) : Decidable (CallsLater p) := by
  unfold CallsLater
  infer_instance

theorem acyclic_of_callsLater {p : Project} (h : CallsLater p) (m : Ref) :
    ¬Relation.TransGen (Calls p) m m := by
  have hlater : ∀ {m k : Ref}, Calls p m k → m.node < k.node := by
    rintro m k ⟨hm, hk, x, name, hx, hcalled, hname⟩
    refine forall_file (p := p) (P := fun f x => ∀ m ∈ x :: f.ancestors x,
      calledName? f x = some name → f.form m = .methodDeclaration → m < k.node)
      (fun f hf x hx m hmx hcalled hm => ?_)
      (fun f x hempty _ _ hcalled _ => ?_) m.file x m.node hx hcalled hm
    · refine forall_file (p := p) (P := fun g k => g.form k = .methodDeclaration →
        g.name? k = some name → m < k) (fun g hg k hk hform hname => ?_)
        (fun g k hempty hform _ => ?_) k.file k.node hk hname
      · exact h f hf x hx name (Option.mem_toList.mpr hcalled) m hmx hm g hg k hk hform hname
      · rw [hempty] at hform
        cases hform
    · rw [calledName?, hempty] at hcalled
      cases hcalled
  intro hcycle
  have hlt : m.node < m.node :=
    Relation.TransGen.trans_induction_on hcycle (motive := fun {m k : Ref} _ => m.node < k.node)
      (fun hcalls => hlater hcalls) fun _ _ => Nat.lt_trans
  exact Nat.lt_irrefl _ hlt

/-- The condition of a loop calls a method before and after the only round, which calls it too. -/
theorem faithful_to_calls_around_round :
    let s := Setting.ofSources
      [("A.java", "class A{void m(){while(f()){f();}}boolean f(){return true;}}")]
    let run : Run := .node 1 none [.node 3 (some 11) [], .node 2 none [.node 3 (some 16) []],
      .node 3 (some 11) []]
    Structured s.project ∧ Execution s run ∧
      ∃ r, reconstruct s false (Stream.ofTokens [1, 3, 2, 3, 3]) = .ok r ∧
        r.unconsumed = 0 ∧ r.tree.children 1 = [2, 3, 5] := by
  intro s run
  have hcode : (∀ f ∈ s.project.fileList, ∀ i ∈ f.numbersOf, isImmediate (f.form i) = true ∧
      (hasHeader (f.form i) = true → callsIn s.project f i = headerCalls s.project f i) ∧
      (f.form i = .methodDeclaration → ∀ j ∈ f.ancestors i, f.form j ≠ .methodDeclaration)) ∧
      CallsLater s.project := by
    decide +kernel
  have hstructured : Structured s.project :=
    ⟨fun f hf i hi => (hcode.1 f hf i hi).1, fun f hf i hi => (hcode.1 f hf i hi).2.1,
      fun f hf i hi => (hcode.1 f hf i hi).2.2, acyclic_of_callsLater hcode.2⟩
  have hpoints : s.points.get? 1 = some ⟨⟨0, 4⟩, .method⟩ ∧
      s.points.get? 2 = some ⟨⟨0, 9⟩, .whileLoop⟩ ∧ s.points.get? 3 = some ⟨⟨0, 19⟩, .method⟩ := by
    decide +kernel
  have hscopes : scopeOf s.project ⟨⟨0, 4⟩, .method⟩ = [9] ∧
      scopeOf s.project ⟨⟨0, 9⟩, .whileLoop⟩ = [15] ∧
      scopeOf s.project ⟨⟨0, 19⟩, .method⟩ = [24] := by
    decide +kernel
  have hcalls : headerCalls s.project (s.project.file 0) 9 = [11] ∧
      callsIn s.project (s.project.file 0) 15 = [16] ∧
      callsIn s.project (s.project.file 0) 24 = [] := by
    decide +kernel
  have hforms : testsFirst ((s.project.file 0).form 9) = true ∧
      isSimple ((s.project.file 0).form 15) = true ∧
      isSimple ((s.project.file 0).form 24) = true := by
    decide +kernel
  have hnames : (s.project.file 0).name? 19 = calledName? (s.project.file 0) 11 ∧
      (s.project.file 0).name? 19 = calledName? (s.project.file 0) 16 := by
    decide +kernel
  have hcalled : Runs s (.of s.project ⟨⟨0, 19⟩, .method⟩) [] := by
    unfold Code.of
    rw [hscopes.2.2]
    exact .next (.simple hforms.2.2 (by rw [hcalls.2.2]; exact .returned 0)) (.nothing 0)
  have hheader : Runs s (.calls 0 (headerCalls s.project (s.project.file 0) 9))
      [.node 3 (some 11) []] := by
    rw [hcalls.1]
    exact .call hpoints.2.2 rfl hnames.1 hcalled (.returned 0)
  have hinner : Runs s (.calls 0 (callsIn s.project (s.project.file 0) 15))
      [.node 3 (some 16) []] := by
    rw [hcalls.2.1]
    exact .call hpoints.2.2 rfl hnames.2 hcalled (.returned 0)
  have hround : Runs s (.round 0 9)
      [.node 2 none [.node 3 (some 16) []], .node 3 (some 11) []] := by
    refine .round hpoints.2.1 rfl ?_ hheader
    unfold Code.of
    rw [hscopes.2.1]
    exact .next (.simple hforms.2.1 hinner) (.nothing 0)
  have hrun : Execution s run := by
    refine .method hpoints.1 rfl ?_
    unfold Code.of
    rw [hscopes.1]
    exact .next (.loop hforms.1 hheader (.again hround (.leave 0 9))) (.nothing 0)
  obtain ⟨r, hr, hnone, htree⟩ := reconstruct_of_execution (by decide) hstructured hrun
  refine ⟨hstructured, hrun, r, hr, hnone, ?_⟩
  rw [← Tree.children_outline, htree]
  decide +kernel

end Retrace.Reconstruct
