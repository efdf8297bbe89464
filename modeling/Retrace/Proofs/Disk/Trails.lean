import Retrace.Proofs.Disk.Paths
import Retrace.Proofs.Disk.TreeFile

/-! What a path depends on.

Wherever a path leads, it passes through the addresses that its components spell out
(`Disk.passed`) and ends at the last of them (`Disk.destination`), or fails on the way. Two disks
that agree along this trail are the same to whoever resolves, reads, writes or moves along it
(`resolve_congr`, `read_congr`, `write_congr`, `rename_congr`). A directory that is to be made may
also be there already on one of the two (`makeOne_congr`). -/
namespace Retrace.Disk
open Retrace.Path (Component components)

/-- Where a component leads from a directory. -/
def towards (a : Address) : Component → Address
  | .root | .current => a
  | .parent => a.dropLast
  | .normal name => a ++ [name]

/-- The addresses that have to be directories for a path to lead on. -/
def passed (a : Address) : List Component → List Address
  | [] => []
  | c :: rest => a :: passed (towards a c) rest

/-- Where a path leads, if it leads anywhere. -/
def destination (path : String) : Address := (components path).foldl towards []

/-- All that a path depends on. -/
def trail (path : String) : List Address := passed [] (components path) ++ [destination path]

theorem passed_append (a : Address) (cs ds : List Component) :
    passed a (cs ++ ds) = passed a cs ++ passed (cs.foldl towards a) ds := by
  induction cs generalizing a with
  | nil => rfl
  | cons c rest ih =>
    rw [List.cons_append, passed, ih]
    rfl

theorem passed_concat (a : Address) (cs : List Component) (c : Component) :
    passed a (cs ++ [c]) = passed a cs ++ [cs.foldl towards a] := passed_append a cs [c]

/-- The last component does not count. -/
theorem passed_of_dropLast {cs ds : List Component} (h : cs.dropLast = ds.dropLast)
    (hempty : cs = [] ↔ ds = []) (a : Address) : passed a cs = passed a ds := by
  by_cases hcs : cs = []
  · rw [hcs, hempty.mp hcs]
  · have hds : ds ≠ [] := fun hds => hcs (hempty.mpr hds)
    rw [← List.dropLast_concat_getLast hcs, ← List.dropLast_concat_getLast hds, h, passed_concat,
      passed_concat]

/-- A draft is reached by the way to its file. -/
theorem passed_draftPath (path : String) :
    passed [] (components (draftPath path)) = passed [] (components path) := by
  refine passed_of_dropLast (components_draftPath path) ?_ []
  cases hstem : Path.stem? path with
  | none =>
    unfold draftPath Path.withExtension
    rw [hstem]
  | some stem =>
    rw [components_draftPath_of_stem? hstem]
    refine ⟨fun h => absurd h (by simp), fun h => ?_⟩
    unfold Path.stem? Path.fileName? at hstem
    rw [h] at hstem
    cases hstem

/-! ### Resolving -/

theorem follow_congr {d d' : Disk} {a : Address} (h : d.get? a = d'.get? a) (c : Component) :
    d.follow a c = d'.follow a c := by
  unfold follow
  rw [h]

theorem towards_of_follow {d : Disk} {a b : Address} {c : Component} (h : d.follow a c = .ok b) :
    d.get? a = some .directory ∧ b = towards a c := by
  unfold follow at h
  split at h
  · cases h
  · cases h
  · rename_i hdirectory
    refine ⟨hdirectory, ?_⟩
    cases c <;> cases h <;> rfl

theorem foldlM_follow_congr {d d' : Disk} {cs : List Component} {a : Address}
    (h : ∀ b ∈ passed a cs, d.get? b = d'.get? b) :
    cs.foldlM d.follow a = cs.foldlM d'.follow a := by
  induction cs generalizing a with
  | nil => rfl
  | cons c rest ih =>
    obtain ⟨ha, hrest⟩ := List.forall_mem_cons.mp h
    rw [List.foldlM_cons, List.foldlM_cons, ← follow_congr ha c]
    cases hfollow : d.follow a c with
    | error cause => rfl
    | ok b =>
      obtain rfl := (towards_of_follow hfollow).2
      exact ih hrest

theorem foldl_of_foldlM {d : Disk} {cs : List Component} {a b : Address}
    (h : cs.foldlM d.follow a = .ok b) : b = cs.foldl towards a := by
  induction cs generalizing a with
  | nil =>
    cases h
    rfl
  | cons c rest ih =>
    obtain ⟨next, hnext, hrest⟩ := exists_of_bind h
    obtain rfl := (towards_of_follow hnext).2
    exact ih hrest

theorem resolve_congr {d d' : Disk} {path : String}
    (h : ∀ b ∈ passed [] (components path), d.get? b = d'.get? b) :
    d.resolve path = d'.resolve path := by
  unfold resolve
  rw [foldlM_follow_congr h]

theorem destination_of_resolve {d : Disk} {path : String} {a : Address}
    (h : d.resolve path = .ok a) : a = destination path := by
  unfold resolve at h
  split at h
  · cases h
  · exact foldl_of_foldlM h

/-! ### Reading, writing and moving -/

section Congruence
variable {d d' : Disk} {path : String}

theorem find_congr (h : ∀ b ∈ trail path, d.get? b = d'.get? b) : d.find path = d'.find path := by
  obtain ⟨hpassed, hlast⟩ := List.forall_mem_append.mp h
  unfold find
  rw [← resolve_congr hpassed]
  cases hresolve : d.resolve path with
  | error cause => rfl
  | ok a =>
    obtain rfl := destination_of_resolve hresolve
    simp only [bind, Except.bind, hlast _ List.mem_cons_self]

theorem read_congr (h : ∀ b ∈ trail path, d.get? b = d'.get? b) : d.read path = d'.read path := by
  unfold read content
  rw [find_congr h]

theorem find_eq_file_iff {content : Content} : d.find path = .ok (.file content) ↔
    d.resolve path = .ok (destination path) ∧
      d.get? (destination path) = some (.file content) ∧ namesDirectory path = false := by
  constructor
  · intro h
    obtain ⟨a, ha, h⟩ := exists_of_bind h
    obtain rfl := destination_of_resolve ha
    split at h
    · cases h
    · cases h
    · rename_i hfile
      split at h
      · cases h
      · rename_i hname
        cases h
        exact ⟨ha, hfile, by simpa using hname⟩
  · rintro ⟨ha, hfile, hname⟩
    exact find_of_get? ha hfile hname

/-- Writing along a trail fails on both disks alike, or it puts the text on both. -/
theorem write_congr (h : ∀ b ∈ trail path, d.get? b = d'.get? b) (text : String) :
    (∃ cause, d.write path text = .error cause ∧ d'.write path text = .error cause) ∨
      d.get? (destination path) ≠ some .directory ∧
      d.write path text = .ok (d.put (destination path) (.file (.text text))) ∧
      d'.write path text = .ok (d'.put (destination path) (.file (.text text))) := by
  obtain ⟨hpassed, hlast⟩ := List.forall_mem_append.mp h
  unfold write
  rw [← resolve_congr hpassed]
  cases hresolve : d.resolve path with
  | error cause => exact .inl ⟨cause, rfl, rfl⟩
  | ok a =>
    obtain rfl := destination_of_resolve hresolve
    simp only [bind, Except.bind, ← hlast _ List.mem_cons_self]
    split
    · exact .inl ⟨_, rfl, rfl⟩
    · rename_i hnot
      split
      · exact .inl ⟨_, rfl, rfl⟩
      · exact .inr ⟨hnot, rfl, rfl⟩

/-- Moving along two trails fails on both disks alike, or it moves the same entry on both. -/
theorem rename_congr {target : String} (h : ∀ b ∈ trail path, d.get? b = d'.get? b)
    (htarget : ∀ b ∈ trail target, d.get? b = d'.get? b) :
    (∃ cause, d.rename path target = .error cause ∧ d'.rename path target = .error cause) ∨
      ∃ e, d.get? (destination path) = some e ∧ d.get? (destination target) ≠ some .directory ∧
        d.rename path target =
          .ok ((d.erase (destination path)).put (destination target) e) ∧
        d'.rename path target =
          .ok ((d'.erase (destination path)).put (destination target) e) := by
  obtain ⟨hpassed, hlast⟩ := List.forall_mem_append.mp h
  obtain ⟨hpassed', hlast'⟩ := List.forall_mem_append.mp htarget
  unfold rename
  rw [← resolve_congr hpassed, ← resolve_congr hpassed']
  cases hresolve : d.resolve path with
  | error cause => exact .inl ⟨cause, rfl, rfl⟩
  | ok a =>
    obtain rfl := destination_of_resolve hresolve
    cases hresolve' : d.resolve target with
    | error cause => exact .inl ⟨cause, rfl, rfl⟩
    | ok b =>
      obtain rfl := destination_of_resolve hresolve'
      simp only [bind, Except.bind, ← hlast _ List.mem_cons_self, ← hlast' _ List.mem_cons_self]
      split
      · exact .inl ⟨_, rfl, rfl⟩
      · exact .inl ⟨_, rfl, rfl⟩
      · rename_i e hsome hnot
        split
        · exact .inl ⟨_, rfl, rfl⟩
        · exact .inr ⟨e, hsome, hnot, rfl, rfl⟩

end Congruence

/-! ### Making directories -/

/-- Makes the directory to which a component leads, where it is missing. -/
def makeOne (d : Disk) (a : Address) (c : Component) (isLast : Bool) : Except FileFault Disk :=
  match c with
  | .root => .error .permissionDenied
  | .current | .parent => .ok d
  | .normal name =>
    match d.get? (a ++ [name]) with
    | some .directory => .ok d
    | some (.file _) => .error (if isLast then .alreadyExists else .notADirectory)
    | none => .ok (d.put (a ++ [name]) .directory)

theorem makeFrom_cons (d : Disk) (a : Address) (c : Component) (rest : List Component) :
    d.makeFrom a (c :: rest) =
      match d.makeOne a c rest.isEmpty with
      | .error cause => (d, .error cause)
      | .ok made => made.makeFrom (towards a c) rest := by
  cases c with
  | normal name =>
    rw [makeFrom, makeOne]
    cases d.get? (a ++ [name]) with
    | none => rfl
    | some e => cases e <;> rfl
  | _ => rfl

/-- The directories above a path are those that it passes through. -/
theorem makeParents_eq (d : Disk) (path : String) :
    d.makeParents path = d.makeFrom [] (components path).dropLast := by
  unfold makeParents
  split
  · rename_i parent hparent
    rw [makeDirectories, Path.components_parent? hparent]
  · rename_i hparent
    rw [Path.dropLast_of_parent? hparent]
    rfl

theorem makeOne_eq_ok {d made : Disk} {a : Address} {c : Component} {isLast : Bool}
    (h : d.makeOne a c isLast = .ok made) :
    (made = d ∧ (towards a c <+: a ∨ d.get? (towards a c) = some .directory)) ∨
      d.get? (towards a c) = none ∧ made = d.put (towards a c) .directory := by
  cases c with
  | root => cases h
  | current =>
    cases h
    exact .inl ⟨rfl, .inl (List.prefix_refl a)⟩
  | parent =>
    cases h
    exact .inl ⟨rfl, .inl (List.dropLast_prefix a)⟩
  | normal name =>
    unfold makeOne at h
    dsimp only at h
    split at h
    · rename_i hdirectory
      cases h
      exact .inl ⟨rfl, .inr hdirectory⟩
    · cases h
    · rename_i hnone
      cases h
      exact .inr ⟨hnone, rfl⟩

/-- A directory is made on both disks alike, or fails to be; where it is missing on the second disk
alone, it is made there alone. -/
theorem makeOne_congr {d d' : Disk} {a : Address} {c : Component}
    (h : d.get? (towards a c) = d'.get? (towards a c) ∨
      d.get? (towards a c) = some .directory ∧ d'.get? (towards a c) = none) (isLast : Bool) :
    (∃ cause, d.makeOne a c isLast = .error cause ∧ d'.makeOne a c isLast = .error cause) ∨
      (d.makeOne a c isLast = .ok d ∧ d'.makeOne a c isLast = .ok d') ∨
      (towards a c ≠ [] ∧ d.makeOne a c isLast = .ok (d.put (towards a c) .directory) ∧
        d'.makeOne a c isLast = .ok (d'.put (towards a c) .directory)) ∨
      d.get? (towards a c) = some .directory ∧ towards a c ≠ [] ∧ d.makeOne a c isLast = .ok d ∧
        d'.makeOne a c isLast = .ok (d'.put (towards a c) .directory) := by
  cases c with
  | root => exact .inl ⟨_, rfl, rfl⟩
  | current | parent => exact .inr (.inl ⟨rfl, rfl⟩)
  | normal name =>
    have hne : a ++ [name] ≠ [] := by simp
    unfold makeOne
    unfold towards at h ⊢
    dsimp only at h ⊢
    rcases h with heq | ⟨hthere, hmissing⟩
    · rw [← heq]
      cases d.get? (a ++ [name]) with
      | none => exact .inr (.inr (.inl ⟨hne, rfl, rfl⟩))
      | some e =>
        cases e with
        | directory => exact .inr (.inl ⟨rfl, rfl⟩)
        | file _ => exact .inl ⟨_, rfl, rfl⟩
    · rw [hthere, hmissing]
      exact .inr (.inr (.inr ⟨rfl, hne, rfl, rfl⟩))

end Retrace.Disk
