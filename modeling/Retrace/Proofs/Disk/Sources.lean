import Retrace.Disk.Sources
import Retrace.Proofs.Disk.Trails

/-! What loading sources depends on.

The sources below a directory are decided by the way to the directory, by the Java files below it
and by the files, above and below it, that say what to leave out. Whatever else changes on a disk,
the same project is loaded (`load_congr`). -/
namespace Retrace

namespace Entries
variable {κ ν : Type} [Ord κ] [Std.LawfulEqOrd κ]

theorem mem_iff {es : List (κ × ν)} (h : Ascending es) {k : κ} {v : ν} :
    (k, v) ∈ es ↔ get? k es = some v := by
  induction es with
  | nil => simp [get?]
  | cons e rest ih =>
    obtain ⟨a, b⟩ := e
    obtain ⟨hfirst, hrest⟩ := List.pairwise_cons.mp h
    rw [List.mem_cons, ih hrest, get?]
    by_cases hka : k = a
    · subst hka
      have hnot : (k, v) ∉ rest := fun hmem => by simpa using hfirst _ hmem
      rw [← ih hrest]
      simpa [hnot] using eq_comm
    · simp [hka]

end Entries

namespace Disk

/-- What the file at an address holds, if there is one. -/
def fileAt? (d : Disk) (a : Address) : Option Content :=
  match d.get? a with
  | some (.file c) => some c
  | _ => none

/-- A file at the address may be a source below `root`, or say that one is left out. -/
def Concerns (root a : Address) : Prop :=
  (root <+: a ∧ isJava a = true) ∨
    ((a.getLast? = some ".ignore" ∨ a.getLast? = some ".gitignore") ∧
      (a.dropLast <+: root ∨ root <+: a.dropLast))

instance (root a : Address) : Decidable (Concerns root a) :=
  inferInstanceAs (Decidable (_ ∨ _))

/-! ### Leaving out -/

theorem rulesAt_eq (d : Disk) (directory : Address) (name : String) :
    IgnoreFile.rulesAt d directory name =
      match d.fileAt? (directory ++ [name]) with
      | some (.text text) => IgnoreFile.rules text
      | _ => [] := by
  unfold IgnoreFile.rulesAt fileAt?
  cases d.get? (directory ++ [name]) with
  | none => rfl
  | some e =>
    cases e with
    | directory => rfl
    | file c => cases c <;> rfl

section Congruence
variable {d d' : Disk}

theorem decision?_congr {name : String} {a : Address}
    (h : ∀ b, b <+: a → d.fileAt? (b ++ [name]) = d'.fileAt? (b ++ [name])) (isDirectory : Bool) :
    IgnoreFile.decision? d name isDirectory a = IgnoreFile.decision? d' name isDirectory a := by
  have hrules : ∀ n, IgnoreFile.rulesAt d (a.take n) name =
      IgnoreFile.rulesAt d' (a.take n) name := by
    intro n
    rw [rulesAt_eq, rulesAt_eq, h _ (List.take_prefix n a)]
  unfold IgnoreFile.decision?
  simp only [hrules]

theorem isVisible_congr {root below : Address}
    (h : ∀ a, Concerns root a → d.fileAt? a = d'.fileAt? a) :
    isVisible d root below = isVisible d' root below := by
  have hguide : ∀ name, name = ".ignore" ∨ name = ".gitignore" → ∀ n b,
      b <+: root ++ below.take n → d.fileAt? (b ++ [name]) = d'.fileAt? (b ++ [name]) := by
    intro name hname n b hb
    refine h _ (.inr ⟨by simpa using hname, ?_⟩)
    rw [List.dropLast_concat]
    exact List.prefix_or_prefix_of_prefix hb (List.prefix_append _ _)
  unfold isVisible IgnoreFile.isIgnored
  simp only [decision?_congr (hguide ".ignore" (.inl rfl) _),
    decision?_congr (hguide ".gitignore" (.inr rfl) _)]

end Congruence

/-! ### The sources -/

theorem isJava_append (root : Address) {below : Address} (h : isJava below = true) :
    isJava (root ++ below) = true ∧ root ++ below ≠ [] := by
  cases hlast : below.getLast? with
  | none =>
    unfold isJava at h
    rw [hlast] at h
    cases h
  | some name =>
    have happend : (root ++ below).getLast? = some name := by
      rw [List.getLast?_append, hlast]
      rfl
    constructor
    · unfold isJava at h ⊢
      rw [happend]
      rw [hlast] at h
      exact h
    · intro hnil
      rw [hnil] at happend
      cases happend

theorem eq_of_below {root b : Address} {c : Content} {x : Address × Content}
    (h : (if root.isPrefixOf b then some (b.drop root.length, c) else none) = some x) :
    root ++ x.1 = b ∧ x.2 = c := by
  split at h
  · rename_i hprefix
    obtain ⟨rest, rfl⟩ := List.isPrefixOf_iff_prefix.mp hprefix
    cases h
    exact ⟨congrArg (root ++ ·) List.drop_left, rfl⟩
  · cases h

theorem mem_filesBelow {d : Disk} {root below : Address} {c : Content} :
    (below, c) ∈ d.filesBelow root ↔ (root ++ below, Entry.file c) ∈ d.entries.entries := by
  unfold filesBelow
  rw [List.mem_filterMap]
  constructor
  · rintro ⟨⟨b, e⟩, hmem, hbelow⟩
    cases e with
    | directory => cases hbelow
    | file c' =>
      obtain ⟨rfl, rfl⟩ := eq_of_below hbelow
      exact hmem
  · refine fun hmem => ⟨_, hmem, ?_⟩
    show (if root.isPrefixOf (root ++ below) then some ((root ++ below).drop root.length, c)
      else none) = some (below, c)
    rw [List.drop_left, if_pos (List.isPrefixOf_iff_prefix.mpr (List.prefix_append _ _))]

theorem mem_filesBelow_iff {d : Disk} {root below : Address} {c : Content}
    (h : isJava below = true) :
    (below, c) ∈ d.filesBelow root ↔ d.fileAt? (root ++ below) = some c := by
  have hne : (root ++ below).isEmpty = false := by
    simpa using (isJava_append root h).2
  rw [mem_filesBelow, Entries.mem_iff d.entries.ascending]
  unfold fileAt? get?
  rw [hne, if_neg Bool.false_ne_true]
  constructor
  · intro hfile
    rw [show d.entries.get? (root ++ below) = some (.file c) from hfile]
  · intro hfile
    split at hfile
    · rename_i c' hget
      cases hfile
      exact hget
    · cases hfile

/-- The files come in the order of their addresses. -/
theorem pairwise_filesBelow (d : Disk) (root : Address) : (d.filesBelow root).Pairwise fun x y =>
    compare (root ++ x.1) (root ++ y.1) = .lt := by
  unfold filesBelow
  refine List.Pairwise.filterMap _ ?_ d.entries.ascending
  rintro ⟨b, e⟩ ⟨b', e'⟩ hlt x hx y hy
  cases e with
  | directory => cases hx
  | file c =>
    cases e' with
    | directory => cases hy
    | file c' =>
      rw [(eq_of_below hx).1, (eq_of_below hy).1]
      exact hlt

section Congruence
variable {d d' : Disk} {root : Address}

theorem filter_filesBelow_congr {keeps : Address × Content → Bool}
    (hkeeps : ∀ x, keeps x = true → isJava x.1 = true)
    (h : ∀ a, Concerns root a → d.fileAt? a = d'.fileAt? a) :
    (d.filesBelow root).filter keeps = (d'.filesBelow root).filter keeps := by
  have hordered : ∀ d : Disk, ((d.filesBelow root).filter keeps).Pairwise fun x y =>
      compare (root ++ x.1) (root ++ y.1) = .lt := fun d => (pairwise_filesBelow d root).filter _
  have hnodup : ∀ d : Disk, ((d.filesBelow root).filter keeps).Nodup := by
    refine fun d => (hordered d).imp fun {x y} hlt heq => ?_
    simp [heq] at hlt
  refine List.Perm.eq_of_pairwise (fun x y _ _ hxy hyx => ?_) (hordered d) (hordered d')
    ((List.perm_ext_iff_of_nodup (hnodup d) (hnodup d')).mpr fun (below, c) => ?_)
  · rw [Std.OrientedCmp.gt_of_lt hyx] at hxy
    cases hxy
  · rw [List.mem_filter, List.mem_filter]
    refine and_congr_left fun hkept => ?_
    have hjava := hkeeps _ hkept
    rw [mem_filesBelow_iff hjava, mem_filesBelow_iff hjava,
      h _ (.inl ⟨List.prefix_append _ _, (isJava_append root hjava).1⟩)]

/-- The same sources are loaded from two disks that agree on the way to the directory and on the
files that concern it. -/
theorem load_congr {path : String} (htrail : ∀ b ∈ trail path, d.get? b = d'.get? b)
    (hfiles : ∀ a, Concerns (destination path) a → d.fileAt? a = d'.fileAt? a) :
    d.load path = d'.load path := by
  have hsources : d.sourceFiles path = d'.sourceFiles path := by
    unfold sourceFiles isDirectory
    rw [← find_congr htrail, ← resolve_congr (List.forall_mem_append.mp htrail).1]
    split
    · rename_i a _ ha
      obtain rfl := destination_of_resolve ha
      simp only [isVisible_congr hfiles]
      rw [filter_filesBelow_congr (fun x hx => ?_) hfiles]
      simp only [Bool.and_eq_true] at hx
      exact hx.1.1
    · rfl
  unfold load
  rw [hsources]

end Congruence

end Disk

end Retrace
