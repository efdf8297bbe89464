import Retrace.Proofs.Source.Layout
import Retrace.Reconstruct.Site

/-! Where the sites of a scope stand: each lies below a statement of the scope. -/
namespace Retrace.Reconstruct
open Java Source Instrument

variable {f : File}

theorem below_of_mem_sitesWithin {deferred : Bool} {i : Nat} {x : Site}
    (h : x ∈ sitesWithin f deferred i) : f.Below i x.node ∧ isSite (f.form x.node) = true := by
  induction deferred, i using sitesWithin.induct f with
  | case1 deferred i form later hskip =>
    unfold sitesWithin at h
    rw [if_pos hskip] at h
    cases h
  | case2 deferred i form later hskip ih =>
    unfold sitesWithin at h
    rw [if_neg hskip] at h
    rcases List.mem_append.mp h with h | h
    · obtain ⟨c, hc, hx⟩ := List.mem_flatMap.mp h
      split at hx
      · rename_i hbounds
        obtain ⟨hbelow, hsite⟩ := ih c hbounds hx
        exact ⟨(File.below_child hc).trans hbelow, hsite⟩
      · cases hx
    · split at h
      · rename_i hsite
        cases List.mem_singleton.mp h
        exact ⟨File.below_refl f i, hsite⟩
      · cases h

theorem mem_scopeSites {i : Nat} {kind : PointKind} {x : Site} (h : x ∈ scopeSites f i kind) :
    ∃ c ∈ scopeStatements f i kind, f.Below c x.node ∧ isSite (f.form x.node) = true := by
  obtain ⟨c, hc, hx⟩ := List.mem_flatMap.mp h
  exact ⟨c, hc, below_of_mem_sitesWithin hx⟩

theorem isSite_of_calledName? {i : Nat} (h : calledName? f i ≠ none) :
    f.form i = .methodInvocation ∨ f.form i = .methodReference := by
  unfold calledName? at h
  split at h
  · rename_i hform
    exact .inl hform
  · rename_i hform
    exact .inr hform
  · exact absurd rfl h

/-- The name of a call is a child of it with a word. -/
theorem name_of_calledName? (hf : f.Laid) {i : Nat} (h : calledName? f i ≠ none) :
    ∃ n ∈ f.children i, f.word? n ≠ none := by
  unfold calledName? at h
  split at h
  · obtain ⟨w, hw⟩ := Option.ne_none_iff_exists'.mp h
    obtain ⟨n, hn, hword⟩ := Option.bind_eq_some_iff.mp hw
    exact ⟨n, hf.child_of_child? hn, by rw [hword]; exact Option.some_ne_none w⟩
  · obtain ⟨w, hw⟩ := Option.ne_none_iff_exists'.mp h
    obtain ⟨n, hn, hword⟩ := Option.bind_eq_some_iff.mp hw
    have hmem := List.mem_of_getLast? hn
    exact ⟨n, (List.mem_filter.mp hmem).1, by rw [hword]; exact Option.some_ne_none w⟩
  · exact absurd rfl h

end Retrace.Reconstruct
