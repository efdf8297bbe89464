import Retrace.Instrument.TracePoint
import Retrace.Proofs.Source.Layout

/-! What a trace point of a project is.

`PointMap.traced_of_get?` gives the node that an id stands for, and `holds_of_kind?` says for
each form of node what its block is and how it hangs off the node. -/
namespace Retrace.Instrument
open Java Source

/-- The node is a trace point of its file. -/
structure Traced (p : Project) (point : TracePoint) : Prop where
  file_lt : point.ref.file < p.files.size
  node_lt : point.ref.node < (p.file point.ref.file).nodes.size
  kind : kind? (p.file point.ref.file) point.ref.node = some point.kind
  reached : inUntraced (p.file point.ref.file) point.ref.node = false

theorem mem_placements {f : File} {x : Placement} (h : x ∈ placements f) :
    x.node < f.nodes.size ∧ kind? f x.node = some x.kind ∧ inUntraced f x.node = false := by
  obtain ⟨i, hi, hx⟩ := List.mem_filterMap.mp h
  unfold placement? at hx
  split at hx
  · cases hx
  · rename_i hreached
    obtain ⟨kind, hkind, hx⟩ := Option.bind_eq_some_iff.mp hx
    obtain ⟨offset, _, rfl⟩ := Option.map_eq_some_iff.mp hx
    exact ⟨List.mem_range.mp hi, hkind, by simpa using hreached⟩

theorem mem_numbered {p : Project} {n : Nat} {f : File} (h : (n, f) ∈ p.numbered) :
    n < p.files.size ∧ f = p.file n := by
  obtain ⟨⟨g, k⟩, hg, hpair⟩ := List.mem_map.mp h
  cases hpair
  have hget := List.mk_mem_zipIdx_iff_getElem?.mp hg
  have hsome : p.files[n]? = some f := by rw [← Array.getElem?_toList]; exact hget
  refine ⟨(Array.getElem?_eq_some_iff.mp hsome).1, ?_⟩
  unfold Project.file
  rw [Array.getD_eq_getD_getElem?, hsome]
  rfl

namespace PointMap

theorem mem_of_get? {m : PointMap} {id : Nat} {point : TracePoint} (h : m.get? id = some point) :
    point ∈ m.points := by
  unfold get? at h
  split at h
  · cases h
  · exact Array.mem_of_getElem? h

theorem traced_of_get? {p : Project} {id : Nat} {point : TracePoint}
    (h : (ofProject p).get? id = some point) : Traced p point := by
  have hmem : point ∈ (ofProject p).points.toList := (mem_of_get? h).val
  obtain ⟨⟨n, f⟩, hfile, hpoint⟩ := List.mem_flatMap.mp hmem
  obtain ⟨x, hx, rfl⟩ := List.mem_map.mp hpoint
  obtain ⟨hn, rfl⟩ := mem_numbered hfile
  obtain ⟨hnode, hkind, hreached⟩ := mem_placements hx
  exact ⟨hn, hnode, hkind, hreached⟩

end PointMap

/-! ### Blocks -/

theorem probeBlock?_of_blockKind? {f : File} {i : Nat} {kind : PointKind}
    (h : blockKind? f i = some kind) : probeBlock? f i kind = some i := by
  unfold blockKind? at h
  split at h
  · cases h
  · dsimp only at h
    split at h
    · cases h
    · split at h
      · cases h
      · split at h
        · cases h
          rfl
        · split at h
          · cases h
          · split at h <;> cases h <;> rfl

/-- Where the block of a trace point stands: it is the node itself, the child of a static
initializer, or the body. -/
inductive Holds (f : File) (i : Nat) : PointKind → Nat → Prop
  | itself {kind : PointKind} (form : f.form i = .block) (known : blockKind? f i = some kind) :
    Holds f i kind i
  | initializer {b : Nat} (form : f.form i = .staticInitializer) (child : b ∈ f.children i)
    (block : f.form b = .block) : Holds f i .staticInitializer b
  | method {b : Nat} (form : f.form i = .methodDeclaration) (body : f.child? i .body = some b)
    (block : f.form b = .block) : Holds f i .method b
  | constructor {b : Nat} (form : f.form i = .constructorDeclaration)
    (body : f.child? i .body = some b) : Holds f i .constructor b
  | loop {kind : PointKind} {b : Nat} (form : PointKind.ofLoop? (f.form i) = some kind)
    (body : f.child? i .body = some b) (block : f.form b = .block) : Holds f i kind b

theorem blockBody?_eq_some {f : File} {i b : Nat} (h : blockBody? f i = some b) :
    f.child? i .body = some b ∧ f.form b = .block := by
  obtain ⟨hbody, hform⟩ := Option.filter_eq_some_iff.mp h
  exact ⟨hbody, by simpa using hform⟩

theorem probeBlock?_ofLoop? {f : File} {i : Nat} {form : Form} {kind : PointKind}
    (h : PointKind.ofLoop? form = some kind) : probeBlock? f i kind = f.child? i .body := by
  unfold PointKind.ofLoop? at h
  split at h <;> cases h <;> rfl

/-- Every trace point has its block. -/
theorem holds_of_kind? {f : File} {i : Nat} {kind : PointKind} (h : kind? f i = some kind) :
    ∃ b, probeBlock? f i kind = some b ∧ Holds f i kind b := by
  unfold kind? at h
  split at h
  · rename_i hform
    obtain ⟨b, hb, rfl⟩ := Option.map_eq_some_iff.mp h
    obtain ⟨hbody, hblock⟩ := blockBody?_eq_some hb
    exact ⟨b, hbody, .method hform hbody hblock⟩
  · rename_i hform
    obtain ⟨b, hb, rfl⟩ := Option.map_eq_some_iff.mp h
    exact ⟨b, hb, .constructor hform hb⟩
  · rename_i hform
    obtain ⟨b, hb, rfl⟩ := Option.map_eq_some_iff.mp h
    have hblock : f.form b = .block := by simpa using List.find?_some hb
    exact ⟨b, hb, .initializer hform (List.mem_of_find?_eq_some hb) hblock⟩
  · rename_i hform
    exact ⟨i, probeBlock?_of_blockKind? h, .itself hform h⟩
  · obtain ⟨k, hk, h⟩ := Option.bind_eq_some_iff.mp h
    obtain ⟨b, hb, rfl⟩ := Option.map_eq_some_iff.mp h
    obtain ⟨hbody, hblock⟩ := blockBody?_eq_some hb
    exact ⟨b, (probeBlock?_ofLoop? hk).trans hbody, .loop hk hbody hblock⟩

theorem Holds.form {f : File} (hs : f.Shaped) {i b : Nat} {kind : PointKind}
    (hb : Holds f i kind b) : f.form b = .block ∨ f.form b = .constructorBody := by
  cases hb with
  | itself hblock _ => exact .inl hblock
  | initializer _ _ hblock => exact .inl hblock
  | method _ _ hblock => exact .inl hblock
  | constructor hform hbody => exact .inr (hs.constructor hform hbody)
  | loop _ _ hblock => exact .inl hblock

theorem kind_of_doStatement {f : File} {i : Nat} {kind : PointKind}
    (hform : f.form i = .doStatement) (h : kind? f i = some kind) : kind = .doWhileLoop := by
  unfold kind? at h
  rw [hform] at h
  obtain ⟨k, hloop, h⟩ := Option.bind_eq_some_iff.mp h
  obtain ⟨_, _, rfl⟩ := Option.map_eq_some_iff.mp h
  exact (Option.some.inj hloop).symm

theorem Holds.child {f : File} (h : f.Linked) {i b : Nat} {kind : PointKind}
    (hb : Holds f i kind b) : b = i ∨ b ∈ f.children i := by
  cases hb with
  | itself _ _ => exact .inl rfl
  | initializer _ hchild _ => exact .inr hchild
  | method _ hbody _ => exact .inr (h.child_of_child? hbody)
  | constructor _ hbody => exact .inr (h.child_of_child? hbody)
  | loop _ hbody _ => exact .inr (h.child_of_child? hbody)

theorem Holds.below {f : File} (h : f.Linked) {i b : Nat} {kind : PointKind}
    (hb : Holds f i kind b) : f.Below i b := by
  rcases hb.child h with rfl | hchild
  · exact File.below_refl f b
  · exact File.below_child hchild

theorem isLoop_of_ofLoop? {form : Form} {kind : PointKind}
    (h : PointKind.ofLoop? form = some kind) : form.isLoop = true := by
  unfold PointKind.ofLoop? at h
  split at h <;> first | rfl | cases h

/-- The block of a trace point is no trace point of its own. -/
theorem Holds.kind?_eq_none {f : File} (h : f.Linked) (hs : f.Shaped) {i b : Nat} {kind : PointKind}
    (hb : Holds f i kind b) (hne : b ≠ i) : kind? f b = none := by
  cases hb with
  | itself _ _ => exact absurd rfl hne
  | initializer hform hchild hblock =>
    unfold kind?
    rw [hblock]
    show blockKind? f b = none
    unfold blockKind?
    rw [h.parents.mpr hchild]
    simp [hform]
  | method hform hbody hblock =>
    unfold kind?
    rw [hblock]
    show blockKind? f b = none
    unfold blockKind?
    rw [h.parents.mpr (h.child_of_child? hbody), h.slot_of_child? hbody]
    simp [hform]
  | constructor hform hbody =>
    unfold kind?
    rw [hs.constructor hform hbody]
    rfl
  | loop hform hbody hblock =>
    have hloop := isLoop_of_ofLoop? hform
    have hother : f.form i ≠ .methodDeclaration ∧ f.form i ≠ .staticInitializer ∧
        f.form i ≠ .classBody := by
      refine ⟨fun heq => ?_, fun heq => ?_, fun heq => ?_⟩ <;>
        · rw [heq] at hloop
          cases hloop
    unfold kind?
    rw [hblock]
    show blockKind? f b = none
    unfold blockKind?
    rw [h.parents.mpr (h.child_of_child? hbody), h.slot_of_child? hbody]
    simp [hother, hloop]

/-- The rounds of a loop are a trace point when its body is a block. -/
theorem loop_of_isLoop {f : File} {i : Nat} {kind : PointKind} (h : kind? f i = some kind)
    (hloop : kind.isLoop = true) : PointKind.ofLoop? (f.form i) = some kind ∧
      ∃ b, f.child? i .body = some b ∧ f.form b = .block := by
  unfold kind? at h
  split at h
  · obtain ⟨_, _, rfl⟩ := Option.map_eq_some_iff.mp h
    cases hloop
  · obtain ⟨_, _, rfl⟩ := Option.map_eq_some_iff.mp h
    cases hloop
  · obtain ⟨_, _, rfl⟩ := Option.map_eq_some_iff.mp h
    cases hloop
  · unfold blockKind? at h
    split at h
    · cases h
    · dsimp only at h
      repeat' split at h
      all_goals cases h
      all_goals cases hloop
  · obtain ⟨k, hk, h⟩ := Option.bind_eq_some_iff.mp h
    obtain ⟨b, hb, rfl⟩ := Option.map_eq_some_iff.mp h
    exact ⟨hk, b, blockBody?_eq_some hb⟩

theorem body_of_isLoop {f : File} {i : Nat} {kind : PointKind} (h : kind? f i = some kind)
    (hloop : kind.isLoop = true) : ∃ b, f.child? i .body = some b ∧ f.form b = .block :=
  (loop_of_isLoop h hloop).2

/-- Any other trace point is a declaration or a block. -/
theorem form_of_kind? {f : File} {i : Nat} {kind : PointKind} (h : kind? f i = some kind)
    (hloop : kind.isLoop = false) :
    f.form i = .methodDeclaration ∨ f.form i = .constructorDeclaration ∨
      f.form i = .staticInitializer ∨ f.form i = .block := by
  unfold kind? at h
  split at h
  · rename_i hform
    exact .inl hform
  · rename_i hform
    exact .inr (.inl hform)
  · rename_i hform
    exact .inr (.inr (.inl hform))
  · rename_i hform
    exact .inr (.inr (.inr hform))
  · obtain ⟨k, hk, h⟩ := Option.bind_eq_some_iff.mp h
    obtain ⟨_, _, rfl⟩ := Option.map_eq_some_iff.mp h
    unfold PointKind.ofLoop? at hk
    split at hk <;> cases hk <;> cases hloop

theorem form_of_method {f : File} {i : Nat} (h : kind? f i = some .method) :
    f.form i = .methodDeclaration := by
  rcases form_of_kind? h rfl with hform | hform | hform | hform
  · exact hform
  all_goals
    unfold kind? at h
    rw [hform] at h
  · obtain ⟨_, _, hkind⟩ := Option.map_eq_some_iff.mp h
    cases hkind
  · obtain ⟨_, _, hkind⟩ := Option.map_eq_some_iff.mp h
    cases hkind
  · change blockKind? f i = some .method at h
    unfold blockKind? at h
    split at h
    · cases h
    · dsimp only at h
      repeat' split at h
      all_goals cases h

/-- What stands inside of other trace points, but is no loop, is a block. -/
theorem form_of_nested {f : File} {i : Nat} {kind : PointKind} (h : kind? f i = some kind)
    (hnested : kind.binding = .nested) (hloop : kind.isLoop = false) : f.form i = .block := by
  rcases form_of_kind? h hloop with hform | hform | hform | hform
  · unfold kind? at h
    rw [hform] at h
    obtain ⟨_, _, rfl⟩ := Option.map_eq_some_iff.mp h
    cases hnested
  · unfold kind? at h
    rw [hform] at h
    obtain ⟨_, _, rfl⟩ := Option.map_eq_some_iff.mp h
    cases hnested
  · unfold kind? at h
    rw [hform] at h
    obtain ⟨_, _, rfl⟩ := Option.map_eq_some_iff.mp h
    cases hnested
  · exact hform

end Retrace.Instrument
