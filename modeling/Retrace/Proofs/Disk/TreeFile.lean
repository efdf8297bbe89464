import Retrace.Disk.TreeFile
import Retrace.Proofs.Trace.RoundTrip

/-! Trees that are saved and loaded.

The text of a file is written by way of a draft. Neither the draft nor the move touches a directory,
so both paths lead where they led before (`resolve_of_keeps`), and the file holds the text in the
end (`find_of_replace`). A tree that has been loaded is therefore loaded again after it is saved
(`loadTree_saveTree`). -/
namespace Retrace.Disk
open Trace

theorem get?_put {d : Disk} {a : Address} (ha : a ≠ []) (e : Entry) (b : Address) :
    (d.put a e).get? b = if b = a then some e else d.get? b := by
  unfold get? put
  cases b with
  | nil =>
    rw [if_neg (Ne.symm ha)]
    rfl
  | cons n b =>
    show (d.entries.put a e).get? (n :: b) = _
    rw [Table.get?_put]
    by_cases heq : n :: b = a
    · simp [heq]
    · simp [heq]

theorem get?_erase {d : Disk} {a : Address} (ha : a ≠ []) (b : Address) :
    (d.erase a).get? b = if b = a then none else d.get? b := by
  unfold get? erase
  cases b with
  | nil =>
    rw [if_neg (Ne.symm ha)]
    rfl
  | cons n b =>
    show (d.entries.erase a).get? (n :: b) = _
    rw [Table.get?_erase]
    by_cases heq : n :: b = a
    · simp [heq]
    · simp [heq, Ne.symm heq]

theorem ne_nil_of_get? {d : Disk} {a : Address} (h : d.get? a ≠ some .directory) : a ≠ [] := by
  rintro rfl
  exact h rfl

theorem not_directory_of_missing {d : Disk} {a : Address} (h : d.get? a = none) :
    d.get? a ≠ some .directory := by
  simp [h]

theorem not_directory_of_file {d : Disk} {a : Address} {c : Content}
    (h : d.get? a = some (.file c)) : d.get? a ≠ some .directory := by
  simp [h]

/-! ### Directories that stay -/

/-- The directories of the first disk are directories of the second. -/
def Keeps (d d' : Disk) : Prop :=
  ∀ a, d.get? a = some .directory → d'.get? a = some .directory

theorem keeps_put {d : Disk} {a : Address} (h : d.get? a ≠ some .directory) (e : Entry) :
    Keeps d (d.put a e) := by
  intro b hb
  rw [get?_put (ne_nil_of_get? h), if_neg (by rintro rfl; exact h hb)]
  exact hb

theorem keeps_erase {d : Disk} {a : Address} (h : d.get? a ≠ some .directory) :
    Keeps d (d.erase a) := by
  intro b hb
  rw [get?_erase (ne_nil_of_get? h), if_neg (by rintro rfl; exact h hb)]
  exact hb

theorem follow_of_keeps {d d' : Disk} (h : Keeps d d') {a b : Address} {c : Path.Component}
    (hb : d.follow a c = .ok b) : d'.follow a c = .ok b := by
  unfold follow at hb ⊢
  split at hb
  · cases hb
  · cases hb
  · rename_i hdirectory
    rw [h a hdirectory]
    exact hb

/-- A path leads to the same address as long as directories stay. -/
theorem resolve_of_keeps {d d' : Disk} (h : Keeps d d') {path : String} {a : Address}
    (ha : d.resolve path = .ok a) : d'.resolve path = .ok a := by
  have hfold : ∀ (cs : List Path.Component) (b : Address), cs.foldlM d.follow b = .ok a →
      cs.foldlM d'.follow b = .ok a := by
    intro cs
    induction cs with
    | nil => exact fun _ hb => hb
    | cons c cs ih =>
      intro b hb
      obtain ⟨next, hnext, hrest⟩ := exists_of_bind hb
      rw [List.foldlM_cons, follow_of_keeps h hnext]
      exact ih next hrest
  unfold resolve at ha ⊢
  split at ha
  · cases ha
  · rename_i hpath
    rw [if_neg hpath]
    exact hfold _ _ ha

/-! ### Writing and moving -/

theorem write_eq_ok {d d' : Disk} {path text : String} (h : d.write path text = .ok d') :
    ∃ a, d.resolve path = .ok a ∧ d.get? a ≠ some .directory ∧
      d' = d.put a (.file (.text text)) := by
  obtain ⟨a, ha, h⟩ := exists_of_bind h
  split at h
  · cases h
  · rename_i hfile
    split at h
    · cases h
    · cases h
      exact ⟨a, ha, hfile, rfl⟩

theorem rename_eq_ok {d d' : Disk} {source target : String} (h : d.rename source target = .ok d') :
    ∃ a b e, d.resolve source = .ok a ∧ d.resolve target = .ok b ∧ d.get? a = some e ∧
      d.get? b ≠ some .directory ∧ namesDirectory target = false ∧ d' = (d.erase a).put b e := by
  obtain ⟨a, ha, h⟩ := exists_of_bind h
  obtain ⟨b, hb, h⟩ := exists_of_bind h
  split at h
  · cases h
  · cases h
  · rename_i e hsome hfile
    split at h
    · cases h
    · rename_i hname
      cases h
      exact ⟨a, b, e, ha, hb, hsome, hfile, by simpa using hname, rfl⟩

theorem replace_eq_ok {d d' : Disk} {path text : String}
    (h : d.replace path text = (d', .ok ())) : ∃ made drafted : Disk,
      made.write (draftPath path) text = .ok drafted ∧
        drafted.rename (draftPath path) path = .ok d' := by
  unfold replace at h
  split at h
  · cases h
  rename_i made _
  split at h
  · cases h
  rename_i drafted hwrite
  split at h
  · cases h
  rename_i done hrename
  cases h
  exact ⟨made, drafted, hwrite, hrename⟩

theorem find_of_get? {d : Disk} {path : String} {a : List String} {c : Content}
    (ha : d.resolve path = .ok a) (hfile : d.get? a = some (.file c))
    (hname : namesDirectory path = false) : d.find path = .ok (.file c) := by
  unfold find
  rw [ha]
  simp [bind, Except.bind, hfile, hname, pure, Except.pure]

/-- Where a file has been moved, it is found. -/
theorem find_of_rename {d d' : Disk} {source target : String} {a : Address} {c : Content}
    (h : d.rename source target = .ok d') (ha : d.resolve source = .ok a)
    (hfile : d.get? a = some (.file c)) : d'.find target = .ok (.file c) := by
  obtain ⟨a', b, e, ha', hb, he, hfree, hname, rfl⟩ := rename_eq_ok h
  obtain rfl := Except.ok.inj (ha.symm.trans ha')
  obtain rfl := Option.some.inj (hfile.symm.trans he)
  have hnot : d.get? a ≠ some .directory := not_directory_of_file hfile
  have hnot' : (d.erase a).get? b ≠ some .directory := by
    rw [get?_erase (ne_nil_of_get? hnot)]
    split
    · exact nofun
    · exact hfree
  have hb' := resolve_of_keeps (keeps_put hnot' (.file c)) (resolve_of_keeps (keeps_erase hnot) hb)
  refine find_of_get? hb' ?_ hname
  rw [get?_put (ne_nil_of_get? hfree), if_pos rfl]

/-- Where a text has been written, a file holds it. -/
theorem find_of_replace {d d' : Disk} {path text : String}
    (h : d.replace path text = (d', .ok ())) : d'.find path = .ok (.file (.text text)) := by
  obtain ⟨d, drafted, hwrite, hrename⟩ := replace_eq_ok h
  obtain ⟨a, ha, hfile, rfl⟩ := write_eq_ok hwrite
  -- The draft is still found where it has been written.
  refine find_of_rename hrename (resolve_of_keeps (keeps_put hfile _) ha) ?_
  rw [get?_put (ne_nil_of_get? hfile), if_pos rfl]

/-- A tree that is saved is loaded as it was. -/
theorem loadTree_saveTree {d d' : Disk} {pretty : Bool} {path : String} {t : Tree}
    (hrooted : t.Rooted) (hfits : t.Fits) (h : d.saveTree pretty path t = (d', .ok ())) :
    d'.loadTree path = .ok t := by
  unfold saveTree at h
  cases hsaved : d.replace path (t.json pretty) with
  | mk done result =>
    rw [hsaved] at h
    cases result with
    | error cause => cases h
    | ok _ =>
      cases h
      unfold loadTree
      rw [find_of_replace hsaved]
      exact Tree.ofText_toValue hrooted hfits pretty

theorem rooted_of_loadTree {d : Disk} {path : String} {t : Tree} (h : d.loadTree path = .ok t) :
    t.Rooted ∧ t.Fits := by
  unfold loadTree at h
  split at h
  · cases h
  · cases h
  · exact Tree.rooted_of_ofText h

/-- Trees are read back as they were written, whether compact or not. Whatever is read is such a
tree, and one that has been loaded is loaded again from where it is saved. -/
theorem trees_are_kept :
    (∀ {t : Tree}, t.Rooted → t.Fits → ∀ pretty, Tree.ofText (t.json pretty) = .ok t) ∧
    (∀ {text : String} {t : Tree}, Tree.ofText text = .ok t → t.Rooted ∧ t.Fits) ∧
    ∀ {d d' : Disk} {source target : String} {pretty : Bool} {t : Tree},
      d.loadTree source = .ok t → d.saveTree pretty target t = (d', .ok ()) →
        d'.loadTree target = .ok t := by
  refine ⟨Tree.ofText_toValue, Tree.rooted_of_ofText, fun hload hsave => ?_⟩
  obtain ⟨hrooted, hfits⟩ := rooted_of_loadTree hload
  exact loadTree_saveTree hrooted hfits hsave

/-- A node with a link and a value, the texts of which are escaped. -/
theorem tree_with_escapes_is_kept :
    let value : SymbolicValue := ⟨"1", 3, "\\u0041 \"\t"⟩
    let call : Node := {
      parentIndex := some 0, traceId := "1", ranges := [⟨1, 2, 3, 4⟩]
      link := some ⟨⟨1, 1, 1, 9⟩, "pkg/\u0001ä\n.java"⟩
      values := Table.ofList [("x", [value]), ("", [])] }
    let t : Tree := ⟨#[{Node.root with children := #[1]}, call]⟩
    ∀ pretty, Tree.ofText (t.json pretty) = .ok t := by
  intro value call t
  have hrooted : t.Rooted :=
    Tree.rooted_cons.mpr ⟨rfl, List.forall_mem_singleton.mpr ⟨0, rfl, by decide⟩⟩
  have hfits : t.Fits := by
    refine List.forall_mem_cons.mpr ⟨?_, List.forall_mem_singleton.mpr ?_⟩
    · refine ⟨by rintro _ ⟨⟩, List.forall_mem_singleton.mpr (by decide), by rintro _ ⟨⟩⟩
    · refine ⟨?_, (fun _ h => nomatch h), by rintro _ ⟨⟩⟩
      rintro _ ⟨⟩
      decide
  exact trees_are_kept.1 hrooted hfits

end Retrace.Disk
