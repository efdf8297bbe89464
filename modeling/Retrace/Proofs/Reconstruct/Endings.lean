import Retrace.Proofs.Reconstruct.Record

/-! The activations behind the nodes of a tree.

At the end of a run every node but the root is the record of an activation that has been scanned to
its end: the node is that of its trace point and has its own ranges, and each of its markers is the
place of a child that was started in it (`Concluded`). Whatever activations keep while the machine
runs, the activations behind the nodes have (`behind_of_reconstruct`). -/
namespace Retrace.Reconstruct
open Source Instrument Trace Activation

namespace Activation

@[simp] theorem markers_resume (a : Activation) (e : Entrance) :
    (a.resume e).markers = e.marker?.toList ++ a.markers := by
  obtain ⟨_, hrelease⟩ : ∃ consumed, a.releaseHeader e.header? = {a with consumed := consumed} := by
    cases e.header? <;> exact ⟨_, rfl⟩
  simp only [resume, hrelease]
  cases e.marker? <;> rfl

@[simp] theorem cursor_resume (a : Activation) (e : Entrance) :
    (a.resume e).cursor = e.marker?.elim .unset .child := by
  simp only [resume]
  cases e.marker? <;> rfl

end Activation

namespace Machine

/-- Each marker is the place of a child. -/
def Marked (past : List Machine) (a : Activation) : Prop :=
  ∀ k ∈ a.markers, ∃ x, Known past x ∧ x.parent.index = a.index ∧ x.entrance.marker? = some k

theorem Marked.mono {past : List Machine} {a : Activation} (h : Marked past a) (n : Machine) :
    Marked (n :: past) a := by
  intro k hk
  obtain ⟨x, hx, hfacts⟩ := h k hk
  exact ⟨x, known_cons.mpr (.inr hx), hfacts⟩

theorem Marked.of_eq {past : List Machine} {a b : Activation} (h : Marked past a)
    (hindex : b.index = a.index) (hmarkers : b.markers = a.markers) : Marked past b := by
  unfold Marked
  rw [hindex, hmarkers]
  exact h

/-- The node is the record of an activation that has been scanned to its end. -/
structure Concluded (s : Setting) (past : List Machine) (t : Tree) (i : Nat) (a : Activation) :
    Prop where
  index : a.index = i
  scanned : a.scan.todo = []
  bears : Bears s t i a.point
  ranges : t.ranges i = (a.finish s).ranges
  marked : Marked past a

/-- Every node but the root has its activation, which is open or has ended, and which has `P`. -/
structure Settled (s : Setting) (P : Activation → Prop) (tokens : List Nat) (past : List Machine)
    (m : Machine) : Prop extends Recorded s tokens past m where
  kept : ∀ a ∈ m.stack, P a
  marked : ∀ a ∈ m.stack, Marked past a
  ended : ∀ i, 0 < i → i < m.tree.size → i ∉ m.indices →
    ∃ a, Concluded s past m.tree i a ∧ P a
  bare : m.tree.ranges 0 = []

section Moves
variable {s : Setting} {P : Activation → Prop} {tokens : List Nat} {past : List Machine}
  {m n : Machine}

/-- The end of an activation makes its place a marker of its parent. -/
theorem Settled.marked_uncovered (h : Settled s P tokens past m) {a : Activation}
    {below : List Activation} (hstack : m.stack = a :: below) :
    ∀ c ∈ uncovered a.entrance below, Marked past c := by
  cases below with
  | nil => exact fun c hc => nomatch hc
  | cons b below =>
    have hmarked : ∀ c ∈ b :: below, Marked past c := fun c hc =>
      h.marked c (by rw [hstack]; exact List.mem_cons_of_mem a hc)
    intro c hc
    rcases List.mem_cons.mp hc with rfl | hc
    · obtain ⟨_, _, _, hresume⟩ := resume_eq b a.entrance
      have hindex : (b.resume a.entrance).index = b.index := by rw [hresume]
      intro k hk
      rw [hindex]
      rw [markers_resume, List.mem_append, Option.mem_toList] at hk
      rcases hk with hk | hk
      · refine ⟨⟨a.index, a.entrance, b⟩, ⟨m, h.latest, ?_⟩, rfl, hk⟩
        unfold entries
        rw [hstack]
        exact List.mem_cons_self
      · exact hmarked b List.mem_cons_self k hk
    · exact hmarked c (List.mem_cons_of_mem b hc)

theorem Concluded.mono {t u : Tree} {i : Nat} {a : Activation} (h : Concluded s past t i a)
    (hbears : Bears s u i a.point) (hranges : u.ranges i = t.ranges i) (n : Machine) :
    Concluded s (n :: past) u i a :=
  ⟨h.index, h.scanned, hbears, hranges.trans h.ranges, h.marked.mono n⟩

/-- A move of the innermost activation alone. -/
theorem Settled.innermost (h : Settled s P tokens past m) {a b : Activation}
    {below : List Activation} (hstack : m.stack = a :: below) (hindex : b.index = a.index)
    (hpoint : b.point = a.point) (hentrance : b.entrance = a.entrance)
    (hmarkers : b.markers = a.markers) (hkept : ∀ c ∈ b :: below, P c)
    (hmoves : Moves s m {m with stack := b :: below}) :
    Settled s P tokens ({m with stack := b :: below} :: past) {m with stack := b :: below} := by
  have hmarked : ∀ c ∈ a :: below, Marked past c := hstack ▸ h.marked
  refine ⟨h.toRecorded.innermost hstack hindex hpoint hentrance hmoves, hkept, fun c hc => ?_,
    fun i hpos hi hnot => ?_, ?_⟩
  · rcases List.mem_cons.mp hc with rfl | hc
    · exact ((hmarked a List.mem_cons_self).of_eq hindex hmarkers).mono _
    · exact (hmarked c (List.mem_cons_of_mem a hc)).mono _
  · have hindices : i ∉ m.indices := by
      rw [indices_eq hstack, ← hindex]
      exact hnot
    obtain ⟨c, hc, hP⟩ := h.ended i hpos hi hindices
    exact ⟨c, hc.mono hc.bears rfl _, hP⟩
  · exact h.bare

/-- A new node leaves the others as they are. -/
theorem Settled.ended_push (h : Settled s P tokens past m) {parent id : Nat} {point : TracePoint}
    {e : Entrance} (htree : n.tree = m.tree.push parent (newNode s m.tree parent id point e))
    (hindices : n.indices = m.tree.size :: m.indices) :
    ∀ i, 0 < i → i < n.tree.size → i ∉ n.indices →
      ∃ a, Concluded s (n :: past) n.tree i a ∧ P a := by
  intro i hpos hi hnot
  rw [hindices, List.mem_cons, not_or] at hnot
  rw [htree, Tree.size_push] at hi
  obtain ⟨a, ha, hP⟩ := h.ended i hpos (by omega) hnot.2
  refine ⟨a, ha.mono ?_ ?_ n, hP⟩
  · rw [htree]
    exact bears_push (by omega) ha.bears
  · rw [htree]
    exact Tree.ranges_push rfl i

theorem Settled.close (h : Settled s P tokens past m) {a : Activation} {below : List Activation}
    (hstack : m.stack = a :: below) (hscan : a.scan.step a.cursor = .done)
    (hkept : ∀ c ∈ (Machine.close s m a below).stack, P c) :
    let n := Machine.close s m a below
    Settled s P tokens (n :: past) n := by
  have ha : a ∈ m.stack := by
    rw [hstack]
    exact List.mem_cons_self
  obtain ⟨hpos, hsize⟩ := h.index_lt ha
  have hrecorded := h.toRecorded.close hstack hscan
  have houtline := Tree.outline_setRanges m.tree a.index (a.finish s).ranges
  rw [close_eq] at hrecorded hkept ⊢
  refine ⟨hrecorded, hkept, fun c hc => (h.marked_uncovered hstack c hc).mono _,
    fun i hpos hi hnot => ?_,
    ((Tree.ranges_setRanges hsize _ _).trans (if_neg (Nat.ne_of_lt hpos))).trans h.bare⟩
  rw [Tree.size_modify] at hi
  by_cases heq : i = a.index
  · refine ⟨a, ⟨heq.symm, Scan.todo_of_done hscan, ?_, ?_, (h.marked a ha).mono _⟩, h.kept a ha⟩
    · rw [heq]
      exact bears_of_outline houtline (h.named a ha)
    · exact (Tree.ranges_setRanges hsize _ _).trans (if_pos heq)
  · have hopen : i ∉ m.indices := by
      rw [indices_eq hstack, List.mem_cons, not_or]
      refine ⟨heq, fun hmem => hnot ?_⟩
      have hbelow := indices_uncovered a.entrance below
      unfold indices
      rw [hbelow]
      exact hmem
    obtain ⟨b, hb, hP⟩ := h.ended i hpos hi hopen
    refine ⟨b, hb.mono (bears_of_outline houtline hb.bears) ?_ _, hP⟩
    exact (Tree.ranges_setRanges hsize _ _).trans (if_neg heq)

theorem settled_of_moves (hP : Persisting s P) (h : Settled s P tokens past m)
    (hmoves : Moves s m n) : Settled s P tokens (n :: past) n := by
  have hkept := hP.moves hmoves h.kept
  have hmoves' := hmoves
  cases hmoves with
  | @root id rest point hstack hmore hrest hpoint =>
    have hnstack : ∀ c ∈ (Machine.start s m rest 0 id point .root).stack, c.markers = [] := by
      intro c hc
      rw [show (Machine.start s m rest 0 id point .root).stack = _ :: m.stack from rfl,
        hstack] at hc
      rw [List.mem_singleton.mp hc]
      rfl
    refine ⟨h.toRecorded.root hstack hmore hrest hpoint, hkept, fun c hc k hk => ?_,
      h.ended_push rfl rfl, (Tree.ranges_push rfl 0).trans h.bare⟩
    rw [hnstack c hc] at hk
    cases hk
  | close hstack hscan => exact h.close hstack hscan hkept
  | @go a below scan own hstack _ =>
    obtain ⟨_, hown⟩ := addOwn_eq {a with scan := scan} own
    exact h.innermost hstack (by rw [hown]) (by rw [hown]) (by rw [hown]) (by rw [hown]) hkept
      hmoves'
  | ended hstack _ _ => exact h.innermost hstack rfl rfl rfl rfl hkept hmoves'
  | refuse hstack _ _ _ _ => exact h.innermost hstack rfl rfl rfl rfl hkept hmoves'
  | @enter a b below scan id rest point e hstack hscan hrest hpoint henter =>
    have hsame : b.index = a.index ∧ b.markers = a.markers := by
      obtain ⟨_, _, _, rfl⟩ := rebound_enter? henter
      exact ⟨rfl, rfl⟩
    have hmarked : ∀ c ∈ a :: below, Marked past c := hstack ▸ h.marked
    refine ⟨(h.toRecorded.enter hstack hscan hrest hpoint henter).1, hkept, fun c hc => ?_,
      h.ended_push rfl ?_, (Tree.ranges_push rfl 0).trans h.bare⟩
    · rcases List.mem_cons.mp hc with rfl | hc
      · exact fun k hk => nomatch hk
      rcases List.mem_cons.mp hc with rfl | hc
      · exact ((hmarked a List.mem_cons_self).of_eq hsame.1 hsame.2).mono _
      · exact (hmarked c (List.mem_cons_of_mem a hc)).mono _
    · rw [indices_eq hstack, ← hsame.1]
      rfl

theorem settled_ofTokens (s : Setting) (P : Activation → Prop) (tokens : List Nat) :
    Settled s P tokens [ofTokens tokens] (ofTokens tokens) where
  toRecorded := recorded_ofTokens s tokens
  kept _ ha := nomatch ha
  marked _ ha := nomatch ha
  ended i hpos hi _ := absurd hi (by change ¬i < 1; omega)
  bare := rfl

end Moves

/-- The child of a node has been started in that place by an activation of the trace point. -/
structure Started (s : Setting) (t : Tree) (i : Nat) (own : TracePoint) (c : Nat) (k : Range) :
    Prop where
  child : c ∈ t.children i
  entered : ∃ inner a b e, Bears s t c inner ∧ Coherent s a ∧ a.point = own ∧
    a.enter? s inner = some (e, b) ∧ e.marker? = some k ∧ t.link? c = e.link?

end Machine

open Machine

theorem settled_of_run {s : Setting} {P : Activation → Prop} (hP : Persisting s P)
    {tokens : List Nat} {k : Machine} (hrun : run s (ofTokens tokens) = .ok k) :
    Settled s P tokens (states s (ofTokens tokens)).reverse k ∧ k.indices = [] := by
  obtain ⟨hk, hhalt⟩ := run_keeps_past (fun past m n hm hmoves => settled_of_moves hP hm hmoves)
    (settled_ofTokens s P tokens) hrun
  refine ⟨?_, by rw [indices, (step_eq_none hhalt).1]; rfl⟩
  rw [List.append_nil] at hk
  exact hk

/-- The root has no code of its own. -/
theorem ranges_root {s : Setting} {partially : Bool} {stream : Stream} {r : Reconstruction}
    (h : reconstruct s partially stream = .ok r) : r.tree.ranges 0 = [] := by
  obtain ⟨k, hrun, htree, _⟩ := halts_of_reconstruct h
  rw [htree]
  exact (settled_of_run (coherent_lasting s).persisting hrun).1.bare

/-- What activations keep, those behind the nodes of a reconstructed tree have. -/
theorem behind_of_reconstruct {s : Setting} {P : Activation → Prop} (hP : Persisting s P)
    {partially : Bool} {stream : Stream} {r : Reconstruction}
    (h : reconstruct s partially stream = .ok r) {i : Nat} (hpos : 0 < i) (hi : i < r.tree.size) :
    ∃ a, P a ∧ a.scan.todo = [] ∧ Bears s r.tree i a.point ∧
      r.tree.ranges i = (a.finish s).ranges ∧
      ∀ k ∈ a.markers, ∃ c, Started s r.tree i a.point c k := by
  obtain ⟨k, hrun, htree, _⟩ := halts_of_reconstruct h
  obtain ⟨hk, hindices⟩ := settled_of_run hP hrun
  rw [htree] at hi ⊢
  obtain ⟨a, ha, hPa⟩ := hk.ended i hpos hi (by rw [hindices]; exact List.not_mem_nil)
  refine ⟨a, hPa, ha.scanned, ha.bears, ha.ranges, fun place hplace => ?_⟩
  obtain ⟨x, hx, hindex, hmarker⟩ := ha.marked place hplace
  obtain ⟨_, _, hplaced⟩ := hk.placed
  have hborne := hk.borne x hx
  obtain ⟨inner, hinner, b, c, hcoherent, hpoint, henter⟩ := hborne.child
  have hparent : k.tree.parent? x.child = some i := by
    rw [hborne.parent, hindex, ha.index]
  have howner : Bears s k.tree i x.parent.point := by
    rw [← ha.index, ← hindex]
    exact hborne.owner
  refine ⟨x.child, ?_, inner, b, c, x.entrance, hinner, hcoherent,
    hpoint.trans (bears_unique howner ha.bears), henter, hmarker, hborne.link⟩
  rw [hplaced.listed]
  refine List.mem_filter.mpr ⟨List.mem_range.mpr (Tree.lt_size_of_parent? hparent), ?_⟩
  simp [hparent]

end Retrace.Reconstruct
