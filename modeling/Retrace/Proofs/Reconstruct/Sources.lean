import Retrace.Proofs.Java.Parsing
import Retrace.Reconstruct.Classes

/-! Projects as the parser delivers them.

The sources of a project are given as paths with their texts. Every file of the project is what
the parser makes of one of them. -/
namespace Retrace

def Source.Project.ofSources (sources : List (String × String)) : Source.Project :=
  .ofFiles (sources.map fun x => Java.parse x.1 x.2)

namespace Reconstruct
open Source Instrument

/-- A project with all of its trace points. -/
def Setting.traced (p : Project) : Setting :=
  Setting.of p (PointMap.ofProject p)

def Setting.ofSources (sources : List (String × String)) : Setting :=
  Setting.traced (Project.ofSources sources)

theorem mem_ofSources {sources : List (String × String)} {f : File}
    (h : f ∈ (Project.ofSources sources).fileList) :
    ∃ x ∈ sources, f = Java.parse x.1 x.2 := by
  have hmem := (Project.ofFiles_perm _).mem_iff.mp h
  obtain ⟨x, hx, hf⟩ := List.mem_map.mp hmem
  exact ⟨x, hx, hf.symm⟩

/-- Sources whose paths are in order are parsed in that order. -/
theorem ofSources_of_sorted {sources : List (String × String)}
    (h : sources.Pairwise fun x y => (Path.compare x.1 y.1).isLE = true) :
    Project.ofSources sources = ⟨(sources.map fun x => Java.parse x.1 x.2).toArray⟩ := by
  unfold Project.ofSources Project.ofFiles
  rw [List.mergeSort_of_pairwise]
  simpa only [List.pairwise_map, Project.pathNotAfter, Java.parse_path] using h

/-! ### How the files are laid out -/

theorem node_default (i : Nat) : (default : File).node i = default := by
  unfold File.node
  rw [Array.getD_eq_getD_getElem?]
  rfl

theorem laid_default : (default : File).Laid where
  ordered i := by
    unfold File.children
    rw [node_default]
    exact List.Pairwise.nil
  nested {i c} hc := by
    unfold File.children at hc
    rw [node_default] at hc
    cases hc
  proper _ hi := absurd hi (Nat.not_lt_zero _)
  bounds {i c} hc := by
    unfold File.children at hc
    rw [node_default] at hc
    cases hc
  parents {i c} := by
    unfold File.parent? File.children
    rw [node_default, node_default]
    exact ⟨(fun h => nomatch h), (fun h => nomatch h)⟩
  rooted _ hc := absurd hc (Nat.not_lt_zero _)
  fields {i e} he := by
    rw [node_default] at he
    cases he
  single i := by
    rw [node_default]
    exact List.nodup_nil
  words {i} hi := by
    unfold File.word? at hi
    rw [node_default] at hi
    exact absurd rfl hi

theorem form_default (i : Nat) : (default : File).form i = .program := by
  unfold File.form
  rw [node_default]
  rfl

theorem shaped_default : (default : File).Shaped where
  body {i b} hform _ := by
    rw [form_default] at hform
    cases hform
  constructor {i b} hform _ := by
    rw [form_default] at hform
    cases hform
  round {i b} hform _ := by
    rw [form_default] at hform
    cases hform
  initializer {i} hform := by
    rw [form_default] at hform
    cases hform
  invocation {i c} hform _ _ := by
    rw [form_default] at hform
    rcases hform with hform | hform <;> cases hform
  declared {i type name} hform _ _ := by
    rw [form_default] at hform
    cases hform

theorem sequenced_default : (default : File).Sequenced where
  listed i := by
    rw [node_default]
    exact List.nil_sublist _
  header {i} hform := by
    rw [form_default] at hform
    cases hform
  element {i} hform := by
    rw [form_default] at hform
    cases hform

theorem file_cases (p : Project) (n : Nat) : p.file n ∈ p.fileList ∨ p.file n = default := by
  unfold Project.file Project.fileList
  rw [Array.getD_eq_getD_getElem?]
  cases h : p.files[n]? with
  | none => exact .inr rfl
  | some f => exact .inl (Array.mem_toList_iff.mpr (Array.mem_of_getElem? h))

section Sources
variable {sources : List (String × String)}

theorem laid_ofSources (h : ∀ f ∈ (Project.ofSources sources).fileList, f.InOrder) (n : Nat) :
    ((Project.ofSources sources).file n).Laid := by
  rcases file_cases (Project.ofSources sources) n with hmem | hdefault
  · obtain ⟨x, _, heq⟩ := mem_ofSources hmem
    have horder := h _ hmem
    rw [heq] at horder ⊢
    exact Java.parse_laid horder
  · rw [hdefault]
    exact laid_default

theorem shaped_ofSources (n : Nat) : ((Project.ofSources sources).file n).Shaped := by
  rcases file_cases (Project.ofSources sources) n with hmem | hdefault
  · obtain ⟨x, _, heq⟩ := mem_ofSources hmem
    rw [heq]
    exact Java.parse_shaped x.1 x.2
  · rw [hdefault]
    exact shaped_default

theorem sequenced_ofSources (n : Nat) : ((Project.ofSources sources).file n).Sequenced := by
  rcases file_cases (Project.ofSources sources) n with hmem | hdefault
  · obtain ⟨x, _, heq⟩ := mem_ofSources hmem
    rw [heq]
    exact Java.parse_sequenced x.1 x.2
  · rw [hdefault]
    exact sequenced_default

theorem oneBody_ofSources (n : Nat) : ((Project.ofSources sources).file n).OneBody := by
  rcases file_cases (Project.ofSources sources) n with hmem | hdefault
  · obtain ⟨x, _, heq⟩ := mem_ofSources hmem
    rw [heq]
    exact Java.parse_oneBody x.1 x.2
  · rw [hdefault]
    intro i b _ hb
    rw [node_default] at hb
    cases hb

/-- The nodes of texts that words can count stand in order. -/
theorem inOrder_ofSources (h : ∀ x ∈ sources, x.2.utf8ByteSize + 1 < Limit.word) :
    ∀ f ∈ (Project.ofSources sources).fileList, f.InOrder := by
  intro f hf
  obtain ⟨x, hx, rfl⟩ := mem_ofSources hf
  exact Java.parse_inOrder (h x hx)

theorem braced_ofSources (h : ∀ x ∈ sources, x.2.utf8ByteSize + 1 < Limit.word) (n : Nat) :
    ((Project.ofSources sources).file n).Braced := by
  rcases file_cases (Project.ofSources sources) n with hmem | hdefault
  · obtain ⟨x, hx, heq⟩ := mem_ofSources hmem
    rw [heq]
    exact Java.parse_braced (h x hx)
  · rw [hdefault]
    intro i c _ hc
    unfold File.children at hc
    rw [node_default] at hc
    cases hc

end Sources

end Reconstruct

end Retrace
