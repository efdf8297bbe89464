import Retrace.Proofs.Java.Fields
import Retrace.Proofs.Reconstruct.Sources

/-! What stands under the fields of nodes.

`File.Fielded` says of a file what `Java.Fields` says of a tree. Every file of a project has it
(`fielded_ofSources`). -/
namespace Retrace.Source
open Java

/-- The loops that test a condition. -/
def isTestedLoop : Form → Bool
  | .forStatement => true
  | .whileStatement => true
  | .doStatement => true
  | _ => false

structure File.Fielded (f : File) : Prop where
  creation : ∀ {i}, f.form i = .objectCreationExpression →
    ∃ t a, f.child? i .type = some t ∧ f.child? i .arguments = some a
  loop : ∀ {i c}, isTestedLoop (f.form i) = true → c ∈ f.children i →
    ∃ slot, loopField slot = true ∧ c ∈ f.childrenUnder i slot
  classBody : ∀ {i b}, f.form i = .classDeclaration → f.child? i .body = some b →
    f.form b = .classBody

/-- The number of a sibling is listed under its field. -/
theorem exists_of_numbers {nodes : Array Node} {parent n c : Nat} {ts : List Tree}
    (h : AllAt nodes parent n ts) (hc : c ∈ numbers n ts) :
    ∃ t ∈ ts, At nodes (some parent) c t ∧
      ∀ slot, t.slot = some slot → (slot, c) ∈ fieldNumbers n ts := by
  induction ts generalizing n with
  | nil => cases hc
  | cons t ts ih =>
    rw [AllAt] at h
    rw [fieldNumbers]
    rcases List.mem_cons.mp hc with rfl | hc
    · refine ⟨t, List.mem_cons_self, h.1, fun slot hslot => ?_⟩
      rw [hslot]
      exact List.mem_cons_self
    · obtain ⟨u, hu, hat, hfields⟩ := ih h.2 hc
      refine ⟨u, List.mem_cons_of_mem t hu, hat, fun slot hslot => ?_⟩
      have hmem := hfields slot hslot
      cases t.slot with
      | none => exact hmem
      | some s => exact List.mem_cons_of_mem _ hmem

/-- A field that a tree stands under is found. -/
theorem exists_child? {f : File} {parent : Option Nat} {i : Nat} {v : Tree}
    (hshows : Shows f parent i v) {slot : Field} (h : ∃ t ∈ v.children, t.slot = some slot) :
    ∃ c, f.child? i slot = some c := by
  have hfound : ∀ {n : Nat} {ts : List Tree}, (∃ t ∈ ts, t.slot = some slot) →
      ∃ e ∈ fieldNumbers n ts, (e.1 == slot) = true := by
    intro n ts h
    induction ts generalizing n with
    | nil =>
      obtain ⟨_, ht, _⟩ := h
      cases ht
    | cons t ts ih =>
      obtain ⟨u, hu, hslot⟩ := h
      rw [fieldNumbers]
      rcases List.mem_cons.mp hu with rfl | hu
      · rw [hslot]
        exact ⟨_, List.mem_cons_self, beq_self_eq_true slot⟩
      · obtain ⟨e, he, heq⟩ := ih (n := n + t.size) ⟨u, hu, hslot⟩
        cases t.slot with
        | none => exact ⟨e, he, heq⟩
        | some s => exact ⟨e, List.mem_cons_of_mem _ he, heq⟩
  refine Option.isSome_iff_exists.mp ?_
  unfold File.child?
  rw [Option.isSome_map, List.find?_isSome, hshows.fields]
  exact hfound h

theorem child?_eq_none_iff {f : File} {parent : Option Nat} {i : Nat} {v : Tree}
    (hshows : Shows f parent i v) {slot : Field} :
    f.child? i slot = none ↔ ∀ t ∈ v.children, t.slot ≠ some slot := by
  constructor
  · intro hnone t ht hslot
    obtain ⟨c, hc⟩ := exists_child? hshows ⟨t, ht, hslot⟩
    rw [hnone] at hc
    cases hc
  · refine fun h => Option.eq_none_iff_forall_ne_some.mpr fun c hc => ?_
    have hmem := mem_fields_of_child? hc
    rw [hshows.fields] at hmem
    obtain ⟨t, ht, hslot⟩ := mem_slots_of_mem_fieldNumbers hmem
    exact h t ht hslot

section Parts
variable {f : File} {root : Tree} (hat : At f.nodes none 0 root)
  (hsize : f.nodes.size = root.size)
include hat hsize

theorem fielded_of_parts (h : ∀ u, Part u root → Fields u.form u.children) : f.Fielded where
  creation {i} hform := by
    obtain ⟨_, v, hshows, htype, harguments⟩ := exists_shape hat hsize h hform (by decide)
    obtain ⟨t, ht⟩ := exists_child? hshows htype
    obtain ⟨a, ha⟩ := exists_child? hshows harguments
    exact ⟨t, a, ht, ha⟩
  loop {i c} hform hc := by
    obtain ⟨_, v, hshows, hall⟩ : ∃ parent v, Shows f parent i v ∧
        ∀ t ∈ v.children, ∃ slot, t.slot = some slot ∧ loopField slot = true := by
      cases hcase : f.form i with
      | forStatement => exact exists_shape hat hsize h hcase (by decide)
      | whileStatement => exact exists_shape hat hsize h hcase (by decide)
      | doStatement => exact exists_shape hat hsize h hcase (by decide)
      | _ =>
        rw [hcase] at hform
        cases hform
    rw [hshows.children] at hc
    obtain ⟨t, ht, _, hfields⟩ := exists_of_numbers hshows.inner hc
    obtain ⟨slot, ht, hslot⟩ := hall t ht
    have hmem := hfields slot ht
    refine ⟨slot, hslot, List.mem_map.mpr ⟨(slot, c), List.mem_filter.mpr ⟨?_, ?_⟩, rfl⟩⟩
    · rw [hshows.fields]
      exact hmem
    · exact beq_self_eq_true slot
  classBody {i b} hform hb := by
    obtain ⟨_, v, hshows, hbody⟩ := exists_shape hat hsize h hform (by decide)
    have hmem := mem_fields_of_child? hb
    rw [hshows.fields] at hmem
    obtain ⟨t, ht, hslot, hchild⟩ := exists_of_field hshows.inner hmem
    rw [(shows_of_at hchild).form]
    exact hbody t ht hslot

end Parts

theorem fielded_default : (default : File).Fielded where
  creation hform := by
    rw [Reconstruct.form_default] at hform
    cases hform
  loop hform _ := by
    rw [Reconstruct.form_default] at hform
    cases hform
  classBody hform _ := by
    rw [Reconstruct.form_default] at hform
    cases hform

theorem parse_fielded (path text : String) : (parse path text).Fielded := by
  obtain ⟨_, hat, hsize, hsound⟩ := parse_parts_of Grammar.fields_grammar
    Grammar.fields_compilationUnit (fun _ => trivial) path text
  exact fielded_of_parts hat hsize fun u hu => (hsound u hu).shape

theorem fielded_ofSources {sources : List (String × String)} (n : Nat) :
    ((Project.ofSources sources).file n).Fielded := by
  rcases Reconstruct.file_cases (Project.ofSources sources) n with hmem | hdefault
  · obtain ⟨x, _, heq⟩ := Reconstruct.mem_ofSources hmem
    rw [heq]
    exact parse_fielded x.1 x.2
  · rw [hdefault]
    exact fielded_default

end Retrace.Source
