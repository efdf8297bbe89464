import Mathlib.Data.List.Basic
import Retrace.Proofs.Reconstruct.Entries
import Retrace.Proofs.Source.Fields

/-! Chains of constructors.

To create an object its classes are set up one after the other, the topmost class of the project
first: the initializers of a class run in their order, and then one of its constructors, behind the
ones of the class that it delegates to. `SetsUp` lists the trace ids that this reports. -/
namespace Retrace.Reconstruct
open Java Source Instrument Activation

/-! ### Classes and their superclasses -/

/-- The class of a name and its superclasses, as far as they belong to the project. -/
inductive Lineage (s : Setting) : String → List Ref → Prop
  | outside {name : String} (hname : ∀ c, (name, c) ∉ s.classes) : Lineage s name []
  | top {name : String} {c : Ref} (hclass : (name, c) ∈ s.classes)
      (hsuper : s.superclassName? c = none) : Lineage s name [c]
  | under {name parent : String} {c : Ref} {above : List Ref} (hclass : (name, c) ∈ s.classes)
      (hsuper : s.superclassName? c = some parent) (habove : Lineage s parent above) :
      Lineage s name (c :: above)

section Names
variable {s : Setting} (hnames : (s.classes.map Prod.fst).Nodup)
include hnames

theorem class?_of_mem {name : String} {c : Ref} (h : (name, c) ∈ s.classes) :
    s.class? name = some c := by
  obtain ⟨front, back, heq⟩ := List.append_of_mem h
  rw [heq, List.map_append, List.nodup_append] at hnames
  have hfront : front.find? (fun k => k.1 == name) = none := by
    refine List.find?_eq_none.mpr fun k hk hname => ?_
    exact hnames.2.2 _ (List.mem_map_of_mem hk) _ List.mem_cons_self (beq_iff_eq.mp hname)
  unfold Setting.class?
  rw [heq, List.find?_append, hfront, Option.none_or, List.find?_cons, beq_self_eq_true,
    Option.map_some]

theorem class_unique {name : String} {c d : Ref} (hc : (name, c) ∈ s.classes)
    (hd : (name, d) ∈ s.classes) : c = d :=
  Option.some.inj ((class?_of_mem hnames hc).symm.trans (class?_of_mem hnames hd))

theorem ancestryWithin_of_lineage {name : String} {classes : List Ref}
    (h : Lineage s name classes) {limit : Nat} (hlimit : classes.length ≤ limit) :
    s.ancestryWithin limit name = classes := by
  induction h generalizing limit with
  | @outside name hname =>
    cases limit with
    | zero => rfl
    | succ limit =>
      have hnone : s.class? name = none := by
        refine Option.map_eq_none_iff.mpr (List.find?_eq_none.mpr fun k hk hkname => ?_)
        exact hname k.2 (beq_iff_eq.mp hkname ▸ hk)
      rw [Setting.ancestryWithin, hnone]
  | top hclass hsuper =>
    obtain ⟨limit, rfl⟩ := Nat.exists_eq_add_one.mpr hlimit
    rw [Setting.ancestryWithin, class?_of_mem hnames hclass]
    simp only [hsuper]
  | under hclass hsuper _ ih =>
    rw [List.length_cons] at hlimit
    obtain ⟨limit, rfl⟩ := Nat.exists_eq_add_one.mpr (Nat.lt_of_lt_of_le (Nat.succ_pos _) hlimit)
    rw [Setting.ancestryWithin, class?_of_mem hnames hclass]
    simp only [hsuper, ih (Nat.le_of_succ_le_succ hlimit)]

theorem lineage_unique {name : String} {classes others : List Ref} (h : Lineage s name classes)
    (hothers : Lineage s name others) : classes = others := by
  induction h generalizing others with
  | outside hname =>
    cases hothers with
    | outside _ => rfl
    | top hclass _ | under hclass _ _ => exact absurd hclass (hname _)
  | top hclass hsuper =>
    cases hothers with
    | outside hname => exact absurd hclass (hname _)
    | top hclass' _ => rw [class_unique hnames hclass hclass']
    | under hclass' hsuper' _ =>
      rw [class_unique hnames hclass hclass', hsuper'] at hsuper
      cases hsuper
  | under hclass hsuper _ ih =>
    cases hothers with
    | outside hname => exact absurd hclass (hname _)
    | top hclass' hsuper' =>
      rw [class_unique hnames hclass hclass', hsuper'] at hsuper
      cases hsuper
    | under hclass' hsuper' habove =>
      obtain rfl := class_unique hnames hclass hclass'
      rw [hsuper'] at hsuper
      cases hsuper
      rw [ih habove]

omit hnames in
/-- Above a class of a lineage stands the lineage of its superclass. -/
theorem lineage_above {name : String} {front back : List Ref} {c : Ref}
    (h : Lineage s name (front ++ c :: back)) :
    (∃ n, (n, c) ∈ s.classes) ∧ (s.superclassName? c = none ∧ back = [] ∨
      ∃ parent, s.superclassName? c = some parent ∧ Lineage s parent back) := by
  induction front generalizing name with
  | nil =>
    cases h with
    | top hclass hsuper => exact ⟨⟨_, hclass⟩, .inl ⟨hsuper, rfl⟩⟩
    | under hclass hsuper habove => exact ⟨⟨_, hclass⟩, .inr ⟨_, hsuper, habove⟩⟩
  | cons d front ih =>
    generalize hall : d :: front ++ c :: back = classes at h
    cases h with
    | outside _ => cases hall
    | top _ _ =>
      have hlength := congrArg List.length hall
      simp at hlength
    | under _ _ habove =>
      cases hall
      exact ih habove

omit hnames in
theorem named_of_lineage {name : String} {classes : List Ref} (h : Lineage s name classes)
    {c : Ref} (hc : c ∈ classes) : ∃ n, (n, c) ∈ s.classes := by
  obtain ⟨front, back, rfl⟩ := List.append_of_mem hc
  exact (lineage_above h).1

/-- No class is above itself. -/
theorem nodup_of_lineage {name : String} {classes : List Ref} (h : Lineage s name classes) :
    classes.Nodup := by
  induction h with
  | outside _ => exact List.nodup_nil
  | top _ _ => exact List.pairwise_singleton _ _
  | @under name parent c above _ hsuper habove ih =>
    refine List.nodup_cons.mpr ⟨fun hmem => ?_, ih⟩
    obtain ⟨front, back, rfl⟩ := List.append_of_mem hmem
    rcases (lineage_above habove).2 with ⟨hnone, _⟩ | ⟨parent', hparent, hback⟩
    · rw [hsuper] at hnone
      cases hnone
    · rw [hsuper] at hparent
      cases hparent
      have hlength := congrArg List.length (lineage_unique hnames habove hback)
      simp at hlength
      omega

end Names

/-! ### What setting up a class reports -/

def initializersOf (f : File) (i : Nat) : List Nat :=
  (classMembers f i).filter fun m => f.form m == .block

def constructorsOf (f : File) (i : Nat) : List Nat :=
  (classMembers f i).filter fun m => f.form m == .constructorDeclaration

def parametersOf (f : File) (k : Nat) : List Nat :=
  match f.child? k .parameters with
  | some p => f.children p
  | none => []

/-- The number of arguments of a creation or of the call of a constructor. -/
def argumentCount (f : File) (i : Nat) : Nat :=
  match f.child? i .arguments with
  | some a => (f.children a).length
  | none => 0

/-- The constructor has so many parameters and none of a special form. -/
def HasArity (f : File) (k n : Nat) : Prop :=
  (parametersOf f k).length = n ∧ ∀ p ∈ parametersOf f k, f.form p = .formalParameter

instance (f : File) (k n : Nat) : Decidable (HasArity f k n) :=
  inferInstanceAs (Decidable (_ ∧ _))

/-- The number of arguments for the constructor of the same class that is called first. -/
def delegates? (f : File) (k : Nat) : Option Nat :=
  ((delegation? f k .constructor).filter fun call =>
    (f.child? call .constructor).any fun t => f.form t == .thisReference).map (argumentCount f)

/-- The number of arguments for the constructor of the superclass. -/
def handedUp (f : File) (k : Nat) : Nat :=
  ((delegation? f k .constructor).map (argumentCount f)).getD 0

/-- What reports the trace id. -/
def unit? (s : Setting) (id : Nat) : Option Ref := (s.points.get? id).map TracePoint.ref

/-- The constructors of a class that run for so many arguments, and the number of arguments that
the superclass gets. -/
inductive Constructs (s : Setting) (c : Ref) : Nat → List Nat → Nat → Prop
  | implicit (hnone : declaresConstructor (s.file c) c.node = false) : Constructs s c 0 [] 0
  | outright {k id n : Nat} (hk : k ∈ constructorsOf (s.file c) c.node)
      (htakes : HasArity (s.file c) k n) (hid : unit? s id = some ⟨c.file, k⟩)
      (hown : delegates? (s.file c) k = none) : Constructs s c n [id] (handedUp (s.file c) k)
  | delegating {k id n m up : Nat} {ids : List Nat} (hk : k ∈ constructorsOf (s.file c) c.node)
      (htakes : HasArity (s.file c) k n) (hid : unit? s id = some ⟨c.file, k⟩)
      (hdelegates : delegates? (s.file c) k = some m) (hdelegate : Constructs s c m ids up) :
      Constructs s c n (ids ++ [id]) up

/-- What is reported while a class, with so many arguments for its constructor, and the classes
above it are set up. -/
inductive SetsUp (s : Setting) : List Ref → Nat → List Nat → Prop
  | outside (n : Nat) : SetsUp s [] n []
  | under {c : Ref} {classes : List Ref} {n up : Nat} {above initial own : List Nat}
      (hconstructs : Constructs s c n own up) (habove : SetsUp s classes up above)
      (hinitial : initial.map (unit? s) =
        (initializersOf (s.file c) c.node).map fun m => some ⟨c.file, m⟩) :
      SetsUp s (c :: classes) n (above ++ (initial ++ own))

/-! ### Constructors that delegate -/

section Constructs
variable {s : Setting} {c : Ref}

theorem mem_constructorsOf {f : File} {i k : Nat} :
    k ∈ constructorsOf f i ↔ k ∈ classMembers f i ∧ f.form k = .constructorDeclaration := by
  rw [constructorsOf, List.mem_filter, beq_iff_eq]

theorem mem_initializersOf {f : File} {i m : Nat} :
    m ∈ initializersOf f i ↔ m ∈ classMembers f i ∧ f.form m = .block := by
  rw [initializersOf, List.mem_filter, beq_iff_eq]

theorem declaresConstructor_of_mem {f : File} {i k : Nat} (h : k ∈ constructorsOf f i) :
    declaresConstructor f i = true := by
  obtain ⟨hk, hform⟩ := mem_constructorsOf.mp h
  exact List.any_eq_true.mpr ⟨k, hk, beq_iff_eq.mpr hform⟩

/-- A class without a constructor reports none. -/
theorem Constructs.implicit_of {n up : Nat} {ids : List Nat} (h : Constructs s c n ids up)
    (hnone : declaresConstructor (s.file c) c.node = false) : n = 0 ∧ ids = [] ∧ up = 0 := by
  cases h with
  | implicit _ => exact ⟨rfl, rfl, rfl⟩
  | outright hk _ _ _ | delegating hk _ _ _ _ =>
    rw [declaresConstructor_of_mem hk] at hnone
    cases hnone

theorem Constructs.ne_nil {n up : Nat} {ids : List Nat} (h : Constructs s c n ids up)
    (hsome : declaresConstructor (s.file c) c.node = true) : ids ≠ [] := by
  cases h with
  | implicit hnone =>
    rw [hsome] at hnone
    cases hnone
  | outright _ _ _ _ => exact List.cons_ne_nil _ _
  | delegating _ _ _ _ _ => exact List.append_ne_nil_of_right_ne_nil _ (List.cons_ne_nil _ _)

/-- No two constructors of the class have the same number of parameters. -/
def DistinctArities (s : Setting) (c : Ref) : Prop :=
  (constructorsOf (s.file c) c.node).Pairwise fun k l =>
    (parametersOf (s.file c) k).length ≠ (parametersOf (s.file c) l).length

instance : Decidable (DistinctArities s c) :=
  inferInstanceAs (Decidable (List.Pairwise _ _))

variable (harities : DistinctArities s c)
include harities

theorem eq_of_hasArity {k l n : Nat} (hk : k ∈ constructorsOf (s.file c) c.node)
    (hl : l ∈ constructorsOf (s.file c) c.node) (hkn : HasArity (s.file c) k n)
    (hln : HasArity (s.file c) l n) : k = l := by
  refine Classical.byContradiction fun hne => ?_
  rcases File.either_of_pairwise harities hk hl hne with hdiffer | hdiffer
  · exact hdiffer (hkn.1.trans hln.1.symm)
  · exact hdiffer (hln.1.trans hkn.1.symm)

/-- The number of arguments decides how many constructors run. -/
theorem Constructs.length_unique {n up up' : Nat} {ids ids' : List Nat}
    (h : Constructs s c n ids up) (h' : Constructs s c n ids' up') : ids.length = ids'.length := by
  induction h generalizing ids' up' with
  | implicit hnone => rw [(h'.implicit_of hnone).2.1]
  | outright hk htakes _ hown =>
    cases h' with
    | implicit hnone =>
      rw [declaresConstructor_of_mem hk] at hnone
      cases hnone
    | outright _ _ _ _ => rfl
    | delegating hk' htakes' _ hdelegates _ =>
      rw [eq_of_hasArity harities hk hk' htakes htakes', hdelegates] at hown
      cases hown
  | delegating hk htakes _ hdelegates _ ih =>
    cases h' with
    | implicit hnone =>
      rw [declaresConstructor_of_mem hk] at hnone
      cases hnone
    | outright hk' htakes' _ hown =>
      rw [eq_of_hasArity harities hk hk' htakes htakes', hown] at hdelegates
      cases hdelegates
    | delegating hk' htakes' _ hdelegates' hdelegate =>
      rw [eq_of_hasArity harities hk hk' htakes htakes', hdelegates'] at hdelegates
      cases hdelegates
      rw [List.length_append, List.length_append, ih hdelegate]
      rfl

omit harities in
/-- Each constructor that runs is the last one for some number of arguments. -/
theorem Constructs.exists_of_mem {n up id : Nat} {ids : List Nat} (h : Constructs s c n ids up)
    (hid : id ∈ ids) : ∃ k ∈ constructorsOf (s.file c) c.node, unit? s id = some ⟨c.file, k⟩ ∧
      ∃ n' ids' up', HasArity (s.file c) k n' ∧ Constructs s c n' ids' up' ∧
        ids'.length ≤ ids.length := by
  induction h with
  | implicit _ => cases hid
  | outright hk htakes hid' hown =>
    rw [List.mem_singleton.mp hid]
    exact ⟨_, hk, hid', _, _, _, htakes, .outright hk htakes hid' hown, Nat.le_refl _⟩
  | @delegating k id' n m up ids hk htakes hid' hdelegates hdelegate ih =>
    rcases List.mem_append.mp hid with hid | hid
    · obtain ⟨l, hl, hreports, n', ids', up', htakes', hconstructs, hlength⟩ := ih hid
      refine ⟨l, hl, hreports, n', ids', up', htakes', hconstructs, ?_⟩
      rw [List.length_append]
      exact Nat.le_add_right_of_le hlength
    · rw [List.mem_singleton.mp hid]
      exact ⟨k, hk, hid', n, _, up, htakes, .delegating hk htakes hid' hdelegates hdelegate,
        Nat.le_refl _⟩

/-- The last constructor that runs takes the arguments, and it is the only one to do so. -/
theorem Constructs.last {n up : Nat} {ids : List Nat} (h : Constructs s c n ids up)
    (hsome : declaresConstructor (s.file c) c.node = true) :
    ∃ front id k, ids = front ++ [id] ∧ k ∈ constructorsOf (s.file c) c.node ∧
      unit? s id = some ⟨c.file, k⟩ ∧ HasArity (s.file c) k n ∧
      (front ≠ [] → delegates? (s.file c) k ≠ none) ∧
      ∀ id' ∈ front, ∃ l ∈ constructorsOf (s.file c) c.node, unit? s id' = some ⟨c.file, l⟩ ∧
        ∃ n', n' ≠ n ∧ HasArity (s.file c) l n' := by
  have hwhole := h
  cases h with
  | implicit hnone =>
    rw [hsome] at hnone
    cases hnone
  | @outright k id _ hk htakes hid _ =>
    exact ⟨[], id, k, rfl, hk, hid, htakes, fun hne => absurd rfl hne, fun _ hid' => nomatch hid'⟩
  | @delegating k id _ m _ front hk htakes hid hdelegates hdelegate =>
    refine ⟨front, id, k, rfl, hk, hid, htakes, fun _ => by rw [hdelegates]; exact nofun,
      fun id' hid' => ?_⟩
    obtain ⟨l, hl, hreports, n', ids', up', htakes', hconstructs, hlength⟩ :=
      hdelegate.exists_of_mem hid'
    refine ⟨l, hl, hreports, n', ?_, htakes'⟩
    -- otherwise it would run before itself
    rintro rfl
    have hsame := hconstructs.length_unique harities hwhole
    rw [List.length_append, List.length_singleton] at hsame
    omega

end Constructs

/-! ### Where a chain ends -/

/-- The class runs code of its own when an object is set up. -/
def HasSetup (s : Setting) (c : Ref) : Bool := runsSetupCode (s.file c) c.node

theorem hasSetup_iff {s : Setting} {c : Ref} : HasSetup s c = true ↔
    declaresConstructor (s.file c) c.node = true ∨ initializersOf (s.file c) c.node ≠ [] := by
  unfold HasSetup runsSetupCode declaresConstructor initializersOf
  rw [List.any_eq_true, List.any_eq_true, Ne, List.filter_eq_nil_iff]
  constructor
  · rintro ⟨m, hm, hform⟩
    rcases Bool.or_eq_true_iff.mp hform with hform | hform
    · exact .inl ⟨m, hm, hform⟩
    · exact .inr fun hnone => hnone m hm hform
  · rintro (⟨m, hm, hform⟩ | hsome)
    · exact ⟨m, hm, Bool.or_eq_true_iff.mpr (.inl hform)⟩
    · simp only [not_forall, not_not] at hsome
      obtain ⟨m, hm, hform⟩ := hsome
      exact ⟨m, hm, Bool.or_eq_true_iff.mpr (.inr hform)⟩

section SetsUp
variable {s : Setting} {classes : List Ref} {n : Nat} {ids : List Nat}

/-- What is reported at all belongs to one of the classes. -/
theorem SetsUp.exists_of_mem (h : SetsUp s classes n ids) {id : Nat} (hid : id ∈ ids) :
    ∃ c ∈ classes, ∃ m, unit? s id = some ⟨c.file, m⟩ ∧
      (m ∈ initializersOf (s.file c) c.node ∨ m ∈ constructorsOf (s.file c) c.node) := by
  induction h with
  | outside _ => cases hid
  | @under c classes n up above initial own hconstructs _ hinitial ih =>
    rcases List.mem_append.mp hid with hid | hid
    · obtain ⟨d, hd, hmember⟩ := ih hid
      exact ⟨d, List.mem_cons_of_mem c hd, hmember⟩
    rcases List.mem_append.mp hid with hid | hid
    · have hunit := List.mem_map_of_mem (f := unit? s) hid
      rw [hinitial] at hunit
      obtain ⟨m, hm, hreports⟩ := List.mem_map.mp hunit
      exact ⟨c, List.mem_cons_self, m, hreports.symm, .inl hm⟩
    · obtain ⟨k, hk, hreports, _⟩ := hconstructs.exists_of_mem hid
      exact ⟨c, List.mem_cons_self, k, hreports, .inr hk⟩

/-- The classes in front of the nearest one that has setup code report nothing and hand no
arguments up. -/
theorem SetsUp.nearest (h : SetsUp s classes n ids) {c : Ref}
    (hc : classes.find? (HasSetup s) = some c) :
    ∃ bare above up before initial own n', classes = bare ++ c :: above ∧
      ids = before ++ (initial ++ own) ∧ SetsUp s above up before ∧
      initial.map (unit? s) = (initializersOf (s.file c) c.node).map (fun m => some ⟨c.file, m⟩) ∧
      Constructs s c n' own up ∧ (bare = [] ∧ n' = n ∨ bare ≠ [] ∧ n' = 0) := by
  induction h with
  | outside _ => cases hc
  | @under d above n up before initial own hconstructs habove hinitial ih =>
    cases hsetup : HasSetup s d with
    | true =>
      rw [List.find?_cons_of_pos hsetup] at hc
      cases hc
      exact ⟨[], above, up, before, initial, own, n, rfl, rfl, habove, hinitial, hconstructs,
        .inl ⟨rfl, rfl⟩⟩
    | false =>
      rw [List.find?_cons_of_neg (by rw [hsetup]; exact Bool.false_ne_true)] at hc
      obtain ⟨hnone, hempty⟩ := not_or.mp (hasSetup_iff.not.mp (by rw [hsetup]; exact nofun))
      rw [not_not] at hempty
      obtain ⟨_, rfl, rfl⟩ := hconstructs.implicit_of (Bool.eq_false_iff.mpr hnone)
      rw [hempty, List.map_nil, List.map_eq_nil_iff] at hinitial
      subst hinitial
      obtain ⟨bare, above', up', before', initial', own', n', rfl, rfl, habove', hinitial',
        hconstructs', hn⟩ := ih hc
      refine ⟨d :: bare, above', up', before', initial', own', n', rfl, ?_, habove', hinitial',
        hconstructs', .inr ⟨List.cons_ne_nil _ _, ?_⟩⟩
      · rw [List.nil_append, List.append_nil]
      · rcases hn with ⟨_, hn⟩ | ⟨_, hn⟩ <;> exact hn

/-- Where anything is reported, a class has setup code. -/
theorem SetsUp.exists_nearest (h : SetsUp s classes n ids) (hne : ids ≠ []) :
    ∃ c, classes.find? (HasSetup s) = some c := by
  obtain ⟨id, hid⟩ := List.exists_mem_of_ne_nil ids hne
  obtain ⟨d, hd, m, _, hm⟩ := h.exists_of_mem hid
  refine Option.isSome_iff_exists.mp (List.find?_isSome.mpr ⟨d, hd, hasSetup_iff.mpr ?_⟩)
  exact hm.symm.imp declaresConstructor_of_mem List.ne_nil_of_mem

/-- A class with setup code reports something. -/
theorem SetsUp.ne_nil (h : SetsUp s classes n ids) {c : Ref} (hc : c ∈ classes)
    (hsetup : HasSetup s c = true) : ids ≠ [] := by
  obtain ⟨d, hd⟩ := Option.isSome_iff_exists.mp
    (List.find?_isSome.mpr ⟨c, hc, hsetup⟩)
  obtain ⟨_, _, _, _, initial, own, _, _, rfl, _, hinitial, hconstructs, _⟩ := h.nearest hd
  intro hnil
  obtain ⟨rfl, hown⟩ := List.append_eq_nil_iff.mp (List.append_eq_nil_iff.mp hnil).2
  rcases hasSetup_iff.mp (List.find?_some hd) with hsome | hsome
  · exact hconstructs.ne_nil hsome hown
  · exact hsome (List.map_eq_nil_iff.mp hinitial.symm)

end SetsUp

/-- The end of the chain can be told: no class is too far up to be looked at, and where a class
without setup code is created, the constructor of the nearest one with setup code does not delegate
to another one. -/
structure Followed (s : Setting) (classes : List Ref) : Prop where
  short : classes.length ≤ 64
  outright : ∀ c, classes.find? (HasSetup s) = some c → classes.head? ≠ some c →
    ∀ k ∈ constructorsOf (s.file c) c.node, HasArity (s.file c) k 0 → delegates? (s.file c) k = none

/-- The id is that of a constructor or an initializer of a class with setup code that the creation
sets up. `ends` says whether the chain is taken to end with it. -/
def IsStep (s : Setting) (f : File) (creation id : Nat) (ends : Bool) : Prop :=
  ∃ point c className created, s.points.get? id = some point ∧
    point.kind.binding = .creationSite ∧ c.file = point.ref.file ∧
    declaringClass? (s.file point.ref) point.ref.node = some c.node ∧
    (s.file point.ref).name? c.node = some className ∧ createdType? f creation = some created ∧
    c ∈ s.ancestry created ∧ HasSetup s c = true ∧
    completesChain s f creation point.ref c className created = ends

theorem arityMatches_iff {f g : File} {k n x : Nat} (h : HasArity g k n) :
    arityMatches g k f x = true ↔ argumentCount f x = n := by
  have hordinary : ((parametersOf g k).any fun p => g.form p == .spreadParameter) = false := by
    refine List.any_eq_false.mpr fun p hp hform => ?_
    rw [h.2 p hp] at hform
    cases hform
  change (if (parametersOf g k).any (fun p => g.form p == .spreadParameter) then
    decide ((parametersOf g k).length ≤ argumentCount f x + 1)
    else argumentCount f x == (parametersOf g k).length) = true ↔ _
  rw [hordinary, if_neg Bool.false_ne_true, beq_iff_eq, h.1]

/-- What the parser and the numbering of the trace points make sure of. -/
structure Setting.Parsed (s : Setting) : Prop where
  laid : ∀ r, (s.file r).Laid
  shaped : ∀ r, (s.file r).Shaped
  fielded : ∀ r, (s.file r).Fielded
  named : ∀ k ∈ s.classes, (s.file k.2).form k.2.node = .classDeclaration ∧
    (s.file k.2).name? k.2.node = some k.1
  point : ∀ {id point}, s.points.get? id = some point →
    point.ref.node < (s.file point.ref).nodes.size ∧
      kind? (s.file point.ref) point.ref.node = some point.kind

section Step
variable {s : Setting} (hs : s.Parsed)
include hs

theorem Setting.Parsed.nodup_children (r : Ref) (i : Nat) : ((s.file r).children i).Nodup := by
  refine ((hs.laid r).ordered i).imp_of_mem fun hc _ hbefore => ?_
  rintro rfl
  exact Range.not_apart_of_contains ((hs.laid r).proper_child hc) (Range.contains_refl _)
    (.inl hbefore)

variable {c : Ref} {className : String} (hclass : (className, c) ∈ s.classes)
include hclass

/-- A member of a class is declared by the class. -/
theorem declaringClass?_of_member {m : Nat} (hm : m ∈ classMembers (s.file c) c.node) :
    declaringClass? (s.file c) m = some c.node ∧
      ∃ b, (s.file c).form b = .classBody ∧ (s.file c).parent? m = some b := by
  have hform := (hs.named _ hclass).1
  unfold classMembers at hm
  split at hm
  · rename_i b hb
    have hbody := (hs.fielded c).classBody hform hb
    have hparent := (hs.laid c).parents.mpr hm
    refine ⟨?_, b, hbody, hparent⟩
    unfold declaringClass?
    rw [hparent]
    simp only [hbody, beq_self_eq_true, if_true]
    rw [(hs.laid c).parents.mpr ((hs.laid c).child_of_child? hb), Option.filter_some,
      beq_iff_eq.mpr hform]
    rfl
  · cases hm

omit hs hclass in
theorem binding_of_member {f : File} {m b : Nat} (hb : f.form b = .classBody)
    (hm : f.parent? m = some b) {kind : PointKind} (hkind : kind? f m = some kind)
    (hform : f.form m = .block ∨ f.form m = .constructorDeclaration) :
    kind.binding = .creationSite := by
  unfold kind? at hkind
  rcases hform with hform | hform <;> rw [hform] at hkind
  · simp only [blockKind?, hm, hb] at hkind
    cases hkind
    rfl
  · obtain ⟨_, _, rfl⟩ := Option.map_eq_some_iff.mp hkind
    rfl

variable {f : File} {x : Nat} {created : String} {classes : List Ref}
  (hcreated : createdType? f x = some created) (hancestry : s.ancestry created = classes)
include hcreated hancestry

/-- Whatever is reported for one of the classes is a step. -/
theorem isStep_of_member (hc : c ∈ classes) {id m : Nat} (hid : unit? s id = some ⟨c.file, m⟩)
    (hm : m ∈ initializersOf (s.file c) c.node ∨ m ∈ constructorsOf (s.file c) c.node) :
    IsStep s f x id (completesChain s f x ⟨c.file, m⟩ c className created) := by
  obtain ⟨⟨_, kind⟩, hpoint, rfl⟩ := Option.map_eq_some_iff.mp hid
  have hform : (s.file c).form m = .block ∨ (s.file c).form m = .constructorDeclaration :=
    hm.imp (fun hm => (mem_initializersOf.mp hm).2) fun hm => (mem_constructorsOf.mp hm).2
  have hmember : m ∈ classMembers (s.file c) c.node :=
    hm.elim (fun hm => (mem_initializersOf.mp hm).1) fun hm => (mem_constructorsOf.mp hm).1
  obtain ⟨hdeclared, b, hb, hparent⟩ := declaringClass?_of_member hs hclass hmember
  have hsetup : HasSetup s c = true :=
    hasSetup_iff.mpr (hm.symm.imp declaresConstructor_of_mem List.ne_nil_of_mem)
  exact ⟨_, c, className, created, hpoint, binding_of_member hb hparent (hs.point hpoint).2 hform,
    rfl, hdeclared, (hs.named _ hclass).2, hcreated, hancestry ▸ hc, hsetup, rfl⟩

end Step

section Ends
variable {s : Setting} {f : File} {x : Nat} {created : String} {classes : List Ref}
  (hancestry : s.ancestry created = classes) {c : Ref}
  (hnearest : classes.find? (HasSetup s) = some c)
include hancestry hnearest

theorem completesChain_eq (unit d : Ref) (className : String) :
    completesChain s f x unit d className created = (decide (c = d) &&
      if (s.file unit).form unit.node == .constructorDeclaration then
        decide (className ≠ created) || arityMatches (s.file unit) unit.node f x
      else !declaresConstructor (s.file unit) d.node &&
        lastInitializer? (s.file unit) d.node == some unit.node) := by
  have hinnermost : (s.ancestry created).find? (fun k => runsSetupCode (s.file k) k.node) =
      some c := by
    rw [hancestry]
    exact hnearest
  unfold completesChain
  rw [hinnermost]
  rfl

theorem completesChain_of_constructor {k : Nat} (hk : k ∈ constructorsOf (s.file c) c.node)
    (className : String) : completesChain s f x ⟨c.file, k⟩ c className created =
      (decide (className ≠ created) || arityMatches (s.file c) k f x) := by
  have hform : (s.file ⟨c.file, k⟩).form k = .constructorDeclaration :=
    (mem_constructorsOf.mp hk).2
  rw [completesChain_eq hancestry hnearest, hform, if_pos (by rfl), decide_eq_true rfl,
    Bool.true_and]
  rfl

theorem completesChain_of_initializer {m : Nat} (hm : m ∈ initializersOf (s.file c) c.node)
    (className : String) : completesChain s f x ⟨c.file, m⟩ c className created =
      (!declaresConstructor (s.file c) c.node &&
        (initializersOf (s.file c) c.node).getLast? == some m) := by
  have hform : (s.file ⟨c.file, m⟩).form m = .block := (mem_initializersOf.mp hm).2
  rw [completesChain_eq hancestry hnearest, hform, if_neg (by decide), decide_eq_true rfl,
    Bool.true_and]
  rfl

end Ends

section Chain
variable {s : Setting} (hs : s.Parsed) (hnames : (s.classes.map Prod.fst).Nodup) {f : File}
  {x : Nat} {created : String} (hcreated : createdType? f x = some created)
  {bare above : List Ref} {c : Ref} (hlineage : Lineage s created (bare ++ c :: above))
  (hancestry : s.ancestry created = bare ++ c :: above)
  (hnearest : (bare ++ c :: above).find? (HasSetup s) = some c)
  {className : String} (hclass : (className, c) ∈ s.classes) {initial : List Nat}
  (hinitial : initial.map (unit? s) =
    (initializersOf (s.file c) c.node).map fun m => some ⟨c.file, m⟩)

include hs hnames hlineage hclass in
/-- The class has the created name only if it is the one that is created. -/
theorem name_eq_iff : className = created ↔ bare = [] := by
  constructor
  · rintro rfl
    refine Classical.byContradiction fun hne => ?_
    obtain ⟨d, bare, rfl⟩ := List.exists_cons_of_ne_nil hne
    have hnodup := nodup_of_lineage hnames hlineage
    have hhead : (className, d) ∈ s.classes := by
      rw [List.cons_append] at hlineage
      generalize bare ++ c :: above = rest at hlineage
      cases hlineage <;> assumption
    rw [class_unique hnames hhead hclass, List.cons_append, List.nodup_cons] at hnodup
    exact hnodup.1 (List.mem_append_right _ List.mem_cons_self)
  · rintro rfl
    have hhead : (created, c) ∈ s.classes := by
      rw [List.nil_append] at hlineage
      cases hlineage <;> assumption
    exact Option.some.inj ((hs.named _ hclass).2.symm.trans (hs.named _ hhead).2)

include hs hnames hcreated hlineage hancestry hnearest in
/-- What the classes above the nearest one with setup code report does not end the chain. -/
theorem steps_of_above {up : Nat} {ids : List Nat} (habove : SetsUp s above up ids) :
    ∀ id ∈ ids, IsStep s f x id false := by
  intro id hid
  obtain ⟨d, hd, m, hreports, hm⟩ := habove.exists_of_mem hid
  have hmem : d ∈ bare ++ c :: above := List.mem_append_right _ (List.mem_cons_of_mem c hd)
  obtain ⟨className, hclass⟩ := named_of_lineage hlineage hmem
  have hdiffer : c ≠ d := by
    rintro rfl
    have hnodup := (List.nodup_append.mp (nodup_of_lineage hnames hlineage)).2.1
    exact (List.nodup_cons.mp hnodup).1 hd
  have hends := isStep_of_member hs hclass hcreated hancestry hmem hreports hm
  rwa [completesChain_eq hancestry hnearest, decide_eq_false hdiffer, Bool.false_and] at hends

include hs hcreated hancestry hnearest hclass hinitial in
/-- In a class without a constructor the last initializer ends the chain. -/
theorem steps_of_initializers (hnone : declaresConstructor (s.file c) c.node = false)
    (hsome : initializersOf (s.file c) c.node ≠ []) :
    ∃ front last, initial = front ++ [last] ∧ IsStep s f x last true ∧
      ∀ id ∈ front, IsStep s f x id false := by
  have hc : c ∈ bare ++ c :: above := List.mem_append_right _ List.mem_cons_self
  obtain ⟨ms, m, hms⟩ := (List.eq_nil_or_concat' _).resolve_left hsome
  have hne : initial ≠ [] := by
    rintro rfl
    exact hsome (List.map_eq_nil_iff.mp hinitial.symm)
  obtain ⟨front, last, rfl⟩ := (List.eq_nil_or_concat' _).resolve_left hne
  rw [hms, List.map_append, List.map_append] at hinitial
  obtain ⟨hfront, hlast⟩ := List.append_inj' hinitial rfl
  have hstep : ∀ {id i}, i ∈ initializersOf (s.file c) c.node → unit? s id = some ⟨c.file, i⟩ →
      IsStep s f x id (some m == some i) := by
    intro id i hi hid
    have hends := isStep_of_member hs hclass hcreated hancestry hc hid (.inl hi)
    rwa [completesChain_of_initializer hancestry hnearest hi className, hnone, hms,
      List.getLast?_concat, Bool.not_false, Bool.true_and] at hends
  refine ⟨front, last, rfl, ?_, fun id hid => ?_⟩
  · have hlast' : unit? s last = some ⟨c.file, m⟩ := by simpa using hlast
    have hm := hstep (by rw [hms]; exact List.mem_append_right _ List.mem_cons_self) hlast'
    rwa [beq_self_eq_true] at hm
  · have hunit := List.mem_map_of_mem (f := unit? s) hid
    rw [hfront] at hunit
    obtain ⟨i, hi, hreports⟩ := List.mem_map.mp hunit
    have hm := hstep (by rw [hms]; exact List.mem_append_left _ hi) hreports.symm
    have hdiffer : some m ≠ some i := by
      rintro heq
      have hnodup : (initializersOf (s.file c) c.node).Nodup := by
        unfold initializersOf classMembers
        split
        · exact (hs.nodup_children c _).filter _
        · exact List.nodup_nil
      rw [hms, List.nodup_append] at hnodup
      exact hnodup.2.2 i hi m List.mem_cons_self (Option.some.inj heq).symm
    rwa [beq_false_of_ne hdiffer] at hm

include hs hnames hcreated hlineage hancestry hnearest hclass hinitial in
/-- In a class with a constructor the last constructor that runs ends the chain. -/
theorem steps_of_constructors (hsome : declaresConstructor (s.file c) c.node = true)
    (harities : DistinctArities s c) {n up : Nat} {own : List Nat}
    (hconstructs : Constructs s c n own up) (hcount : bare = [] → n = argumentCount f x)
    (houtright : bare ≠ [] → ∀ k ∈ constructorsOf (s.file c) c.node, HasArity (s.file c) k n →
      delegates? (s.file c) k = none) :
    ∃ front last, initial ++ own = front ++ [last] ∧ IsStep s f x last true ∧
      ∀ id ∈ front, IsStep s f x id false := by
  have hc : c ∈ bare ++ c :: above := List.mem_append_right _ List.mem_cons_self
  obtain ⟨front, last, k, rfl, hk, hlast, htakes, hdelegates, hfront⟩ :=
    hconstructs.last harities hsome
  have hstep : ∀ {id l}, l ∈ constructorsOf (s.file c) c.node → unit? s id = some ⟨c.file, l⟩ →
      IsStep s f x id (decide (className ≠ created) || arityMatches (s.file c) l f x) := by
    intro id l hl hid
    rw [← completesChain_of_constructor hancestry hnearest hl className]
    exact isStep_of_member hs hclass hcreated hancestry hc hid (.inr hl)
  have hname := name_eq_iff hs hnames hlineage hclass
  refine ⟨initial ++ front, last, (List.append_assoc _ _ _).symm, ?_, fun id hid => ?_⟩
  · have hends := hstep hk hlast
    by_cases hbare : bare = []
    · rwa [(arityMatches_iff htakes).mpr (hcount hbare).symm, Bool.or_true] at hends
    · rwa [decide_eq_true (mt hname.mp hbare), Bool.true_or] at hends
  rcases List.mem_append.mp hid with hid | hid
  · have hunit := List.mem_map_of_mem (f := unit? s) hid
    rw [hinitial] at hunit
    obtain ⟨m, hm, hreports⟩ := List.mem_map.mp hunit
    have hends := isStep_of_member hs hclass hcreated hancestry hc hreports.symm (.inl hm)
    rwa [completesChain_of_initializer hancestry hnearest hm className, hsome, Bool.not_true,
      Bool.false_and] at hends
  · -- where several constructors run, the class is the one that is created
    have hbare : bare = [] := by
      refine Classical.byContradiction fun hne => ?_
      exact hdelegates (List.ne_nil_of_mem hid) (houtright hne k hk htakes)
    obtain ⟨l, hl, hreports, n', hdiffer, htakes'⟩ := hfront id hid
    have hends := hstep hl hreports
    have hmisses : arityMatches (s.file c) l f x = false :=
      Bool.eq_false_iff.mpr fun hmatches =>
        hdiffer (((arityMatches_iff htakes').mp hmatches).symm.trans (hcount hbare).symm)
    rwa [decide_eq_false (not_not.mpr (hname.mpr hbare)), hmisses, Bool.or_false] at hends

end Chain

/-- No two classes have one name, and no two constructors of a class the same number of
parameters. -/
structure Distinct (s : Setting) : Prop where
  names : (s.classes.map Prod.fst).Nodup
  arities : ∀ k ∈ s.classes, DistinctArities s k.2

instance (s : Setting) : Decidable (Distinct s) :=
  decidable_of_iff ((s.classes.map Prod.fst).Nodup ∧ ∀ k ∈ s.classes, DistinctArities s k.2)
    ⟨fun h => ⟨h.1, h.2⟩, fun h => ⟨h.names, h.arities⟩⟩

/-- The last id that a creation reports ends its chain, and no other does. -/
theorem steps_of_setsUp {s : Setting} (hs : s.Parsed) (hdistinct : Distinct s) {f : File} {x : Nat}
    {created : String} {classes : List Ref} {ids : List Nat}
    (hcreated : createdType? f x = some created) (hlineage : Lineage s created classes)
    (hsets : SetsUp s classes (argumentCount f x) ids) (hfollowed : Followed s classes)
    (hne : ids ≠ []) :
    ∃ front last, ids = front ++ [last] ∧ IsStep s f x last true ∧
      ∀ id ∈ front, IsStep s f x id false := by
  have hancestry : s.ancestry created = classes :=
    ancestryWithin_of_lineage hdistinct.names hlineage hfollowed.short
  obtain ⟨c, hnearest⟩ := hsets.exists_nearest hne
  obtain ⟨bare, above, up, before, initial, own, n, rfl, rfl, habove, hinitial, hconstructs, hn⟩ :=
    hsets.nearest hnearest
  obtain ⟨className, hclass⟩ :=
    named_of_lineage hlineage (List.mem_append_right bare List.mem_cons_self)
  have hbefore :=
    steps_of_above hs hdistinct.names hcreated hlineage hancestry hnearest habove
  obtain ⟨front, last, heq, hlast, hfront⟩ : ∃ front last, initial ++ own = front ++ [last] ∧
      IsStep s f x last true ∧ ∀ id ∈ front, IsStep s f x id false := by
    cases hsome : declaresConstructor (s.file c) c.node with
    | true =>
      have harities : DistinctArities s c := hdistinct.arities (className, c) hclass
      refine steps_of_constructors hs hdistinct.names hcreated hlineage hancestry hnearest hclass
        hinitial hsome harities hconstructs (fun hbare => ?_) fun hbare k hk => ?_
      · exact hn.elim (fun hn => hn.2) fun hn => absurd hbare hn.1
      · obtain ⟨_, rfl⟩ := hn.resolve_left fun hn => hbare hn.1
        refine hfollowed.outright c hnearest ?_ k hk
        obtain ⟨d, bare, rfl⟩ := List.exists_cons_of_ne_nil hbare
        rintro ⟨⟩
        have hnodup := nodup_of_lineage hdistinct.names hlineage
        exact (List.nodup_cons.mp hnodup).1 (List.mem_append_right _ List.mem_cons_self)
    | false =>
      obtain ⟨_, rfl, _⟩ := hconstructs.implicit_of hsome
      rw [List.append_nil]
      refine steps_of_initializers hs hcreated hancestry hnearest hclass hinitial hsome ?_
      refine (hasSetup_iff.mp (List.find?_some hnearest)).resolve_left fun hdeclares => ?_
      rw [hsome] at hdeclares
      cases hdeclares
  refine ⟨before ++ front, last, by rw [heq, List.append_assoc], hlast, fun id hid => ?_⟩
  exact (List.mem_append.mp hid).elim (hbefore id) (hfront id)

end Retrace.Reconstruct
