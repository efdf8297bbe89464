import Mathlib.Data.List.Forall2
import Retrace.Proofs.Text.Numerals
import Retrace.Symbolic.Assignment

/-! How the output of a checker is read.

Every value is read, whatever it holds. A step is known by its position in the output: the
assignments belong to the steps that assign, in the order of their positions
(`corresponds_ofValue`), and each of them says what its step says (`describes_ofStep`). How the
steps are packed does not count (`ofValue_eq_of_repacked`). -/
namespace Retrace.Symbolic.Assignment
open Json

/-! ### Messages, results and steps -/

def messages : Value → List Value
  | .array messages => messages
  | message => [message]

def results (message : Value) : List Value := ((message.get? "result").bind items?).getD []

/-- The output is an array of these messages, or the only one of them. -/
inductive Packs : Value → List Value → Prop
  | array (messages : List Value) : Packs (.array messages) messages
  | alone (message : Value) (h : ∀ messages, message ≠ .array messages) : Packs message [message]

/-- The trace of the result is an array of these steps, or has them under `steps`. -/
inductive Traces (result : Value) (steps : List Value) : Prop
  | direct (h : result.get? "trace" = some (.array steps))
  | inside (trace : Value) (h : result.get? "trace" = some trace)
      (hsteps : trace.get? "steps" = some (.array steps))

theorem text?_eq_some_iff {v : Value} {s : String} : text? v = some s ↔ v = .string s := by
  cases v <;> simp [text?]

theorem items?_eq_some_iff {v : Value} {items : List Value} :
    items? v = some items ↔ v = .array items := by
  cases v <;> simp [items?]

theorem packs_iff {v : Value} {ms : List Value} : Packs v ms ↔ ms = messages v := by
  constructor
  · rintro (_ | ⟨_, h⟩)
    · rfl
    · unfold messages
      split
      · exact absurd rfl (h _)
      · rfl
  · rintro rfl
    unfold messages
    split
    · exact .array _
    · rename_i h
      exact .alone v h

theorem results_of_get? {message : Value} {rs : List Value}
    (h : message.get? "result" = some (.array rs)) : results message = rs := by
  rw [results, h]
  rfl

theorem results_getElem?_eq_some_iff {message r : Value} {i : Nat} :
    (results message)[i]? = some r ↔
      ∃ rs, message.get? "result" = some (.array rs) ∧ rs[i]? = some r := by
  constructor
  · intro h
    cases hrs : (message.get? "result").bind items? with
    | none => simp [results, hrs] at h
    | some rs =>
      obtain ⟨v, hv, hitems⟩ := Option.bind_eq_some_iff.mp hrs
      rw [items?_eq_some_iff.mp hitems] at hv
      exact ⟨rs, hv, results_of_get? hv ▸ h⟩
  · rintro ⟨rs, hrs, h⟩
    rwa [results_of_get? hrs]

theorem Traces.steps_eq {r : Value} {ss : List Value} (h : Traces r ss) : steps r = ss := by
  cases h with
  | direct h => rw [steps, h]
  | inside trace h hsteps =>
    unfold steps
    rw [h]
    cases trace with
    | object members => simp [hsteps, items?]
    | _ => cases hsteps

theorem steps_getElem?_eq_some_iff {r s : Value} {i : Nat} :
    (steps r)[i]? = some s ↔ ∃ ss, Traces r ss ∧ ss[i]? = some s := by
  constructor
  · intro h
    suffices htraces : Traces r (steps r) from ⟨_, htraces, h⟩
    unfold steps at h ⊢
    split at h
    · rename_i ss htrace
      exact .direct htrace
    · rename_i trace _ htrace
      cases hss : (trace.get? "steps").bind items? with
      | none => simp [hss] at h
      | some ss =>
        obtain ⟨v, hv, hitems⟩ := Option.bind_eq_some_iff.mp hss
        rw [items?_eq_some_iff.mp hitems] at hv
        exact .inside trace htrace hv
    · cases h
  · rintro ⟨ss, hss, h⟩
    rwa [hss.steps_eq]

/-! ### Positions -/

/-- Where a step stands: which message, which result of it and which step of that. -/
structure Position where
  message : Nat
  result : Nat
  step : Nat

def Position.Before (p q : Position) : Prop :=
  p.message < q.message ∨ p.message = q.message ∧
    (p.result < q.result ∨ p.result = q.result ∧ p.step < q.step)

def StepAt (output : Value) (p : Position) (step : Value) : Prop :=
  ∃ ms m rs r ss, Packs output ms ∧ ms[p.message]? = some m ∧
    m.get? "result" = some (.array rs) ∧ rs[p.result]? = some r ∧
    Traces r ss ∧ ss[p.step]? = some step

/-- All steps of an output with their positions. -/
def placed (output : Value) : List (Position × Value) :=
  (messages output).zipIdx.flatMap fun m => (results m.1).zipIdx.flatMap fun r =>
    (steps r.1).zipIdx.map fun s => (⟨m.2, r.2, s.2⟩, s.1)

theorem mem_placed_iff {output : Value} {x : Position × Value} :
    x ∈ placed output ↔ StepAt output x.1 x.2 := by
  unfold placed StepAt
  simp only [List.mem_flatMap, List.mem_map, Prod.exists, List.mem_zipIdx_iff_getElem?]
  constructor
  · rintro ⟨m, i, hm, r, j, hr, s, k, hs, rfl⟩
    obtain ⟨rs, hrs, hr⟩ := results_getElem?_eq_some_iff.mp hr
    obtain ⟨ss, hss, hs⟩ := steps_getElem?_eq_some_iff.mp hs
    exact ⟨_, m, rs, r, ss, packs_iff.mpr rfl, hm, hrs, hr, hss, hs⟩
  · rintro ⟨ms, m, rs, r, ss, hms, hm, hrs, hr, hss, hs⟩
    rw [packs_iff] at hms
    subst hms
    exact ⟨m, _, hm, r, _, results_getElem?_eq_some_iff.mpr ⟨rs, hrs, hr⟩, _, _,
      steps_getElem?_eq_some_iff.mpr ⟨ss, hss, hs⟩, rfl⟩

theorem pairwise_zipIdx {α : Type} (l : List α) : l.zipIdx.Pairwise (·.2 < ·.2) := by
  rw [← List.pairwise_map (f := Prod.snd), List.zipIdx_map_snd]
  exact List.pairwise_lt_range'

theorem pairwise_placed (output : Value) :
    (placed output).Pairwise (fun x y => x.1.Before y.1) := by
  unfold placed
  refine List.pairwise_flatMap.mpr ⟨fun m _ => List.pairwise_flatMap.mpr ⟨fun r _ => ?_, ?_⟩, ?_⟩
  · exact List.pairwise_map.mpr ((pairwise_zipIdx _).imp fun h => .inr ⟨rfl, .inr ⟨rfl, h⟩⟩)
  · refine (pairwise_zipIdx _).imp fun {r r'} h => ?_
    simp only [List.forall_mem_map]
    exact fun _ _ _ _ => .inr ⟨rfl, .inl h⟩
  · refine (pairwise_zipIdx _).imp fun {m m'} h => ?_
    simp only [List.forall_mem_flatMap, List.forall_mem_map]
    exact fun _ _ _ _ _ _ _ _ => .inl h

theorem flatMap_zipIdx {α β : Type} (f : α → List β) (l : List α) :
    (l.zipIdx.flatMap fun x => f x.1) = l.flatMap f := by
  rw [← List.flatMap_map, List.zipIdx_map_fst]

theorem ofMessage_eq (message : Value) : ofMessage message =
    (results message).flatMap fun r => ((steps r).filter isAssignment).map ofStep := rfl

theorem ofValue_eq (output : Value) : ofValue output = (messages output).flatMap ofMessage := by
  cases output with
  | array ms => rfl
  | _ => exact (List.append_nil _).symm

/-- The assignments are what the steps that assign say, in the order of the positions. -/
theorem ofValue_eq_placed (output : Value) : ofValue output =
    ((placed output).filter fun x => isAssignment x.2).map fun x => ofStep x.2 := by
  rw [ofValue_eq, placed, List.filter_flatMap, List.map_flatMap, ← flatMap_zipIdx ofMessage]
  congr 1
  funext m
  rw [ofMessage_eq, List.filter_flatMap, List.map_flatMap, ← flatMap_zipIdx]
  congr 1
  funext r
  rw [List.filter_map, List.map_map]
  show _ = ((steps r.1).zipIdx.filter (isAssignment ∘ Prod.fst)).map (ofStep ∘ Prod.fst)
  rw [← List.map_map, ← List.filter_map, List.zipIdx_map_fst]

/-! ### What a step says -/

/-- The value is a number of 32 bits, or a text that holds one between white space. -/
def Counts (v : Value) (n : Nat) : Prop :=
  n ≤ 4294967295 ∧ (v = .number (.whole n) ∨
    ∃ s, v = .string s ∧ Text.Denotes (Text.trimChars s.toList) n)

/-- The type of the step is `assignment`, or there is no text for it but a left side. -/
def Assigns (step : Value) : Prop :=
  step.get? "stepType" = some (.string "assignment") ∨
    (∀ kind, step.get? "stepType" ≠ some (.string kind)) ∧ ∃ v, step.get? "lhs" = some v

/-- The assignment says what the step says. A file without a name and a line zero are left out. -/
structure Describes (step : Value) (a : Assignment) : Prop where
  name : step.get? "lhs" = some (.string a.name) ∨
    (∀ name, step.get? "lhs" ≠ some (.string name)) ∧ a.name = "<no_var>"
  value : (∃ v, step.get? "value" = some v ∧ a.value = shown v) ∨
    step.get? "value" = none ∧ a.value = "<no_val>"
  file (file : String) : a.file = some file ↔ file ≠ "" ∧
    ∃ place, step.get? "sourceLocation" = some place ∧ place.get? "file" = some (.string file)
  line (line : UInt32) : a.line = some line ↔ 0 < line ∧
    ∃ place v, step.get? "sourceLocation" = some place ∧ place.get? "line" = some v ∧
      Counts v line.toNat
  iteration (n : UInt32) : a.iteration = some n ↔
    ∃ v, step.get? "iteration" = some v ∧ Counts v n.toNat

theorem bind_text?_eq_some_iff {v : Option Value} {s : String} :
    v.bind text? = some s ↔ v = some (.string s) := by
  simp [Option.bind_eq_some_iff, text?_eq_some_iff]

theorem bind_text?_eq_none_iff {v : Option Value} :
    v.bind text? = none ↔ ∀ s, v ≠ some (.string s) := by
  simp [Option.eq_none_iff_forall_ne_some, bind_text?_eq_some_iff]

theorem isAssignment_iff {step : Value} : isAssignment step = true ↔ Assigns step := by
  unfold isAssignment Assigns
  cases hkind : (step.get? "stepType").bind text? with
  | none =>
    have hnone := bind_text?_eq_none_iff.mp hkind
    rw [Option.isSome_iff_exists]
    exact ⟨fun hlhs => .inr ⟨hnone, hlhs⟩, fun h => h.elim (absurd · (hnone _)) And.right⟩
  | some kind =>
    rw [bind_text?_eq_some_iff] at hkind
    rw [beq_iff_eq, hkind]
    constructor
    · rintro rfl
      exact .inl rfl
    · rintro (h | ⟨h, -⟩)
      · cases h
        rfl
      · exact absurd rfl (h kind)

theorem toUInt32_eq_iff {m : Nat} {n : UInt32} (h : m < Limit.word) :
    m.toUInt32 = n ↔ m = n.toNat := by
  rw [← UInt32.toNat_inj]
  exact Eq.congr_left (UInt32.toNat_ofNat_of_lt' h)

theorem number?_eq_some_iff {v : Value} {n : UInt32} :
    number? v = some n ↔ Counts v n.toNat := by
  have hword : n.toNat < Limit.word := n.toNat_lt
  unfold Counts
  rw [and_iff_right (Nat.le_of_lt_succ hword)]
  cases v with
  | number k =>
    cases k with
    | whole k =>
      simp only [number?, Option.ite_none_right_eq_some, Option.some.injEq, Value.number.injEq,
        Number.whole.injEq, reduceCtorEq, false_and, exists_const, or_false]
      constructor
      · rintro ⟨hk, h⟩
        have := (toUInt32_eq_iff (by omega)).mp h
        omega
      · rintro rfl
        exact ⟨by omega, (toUInt32_eq_iff hword).mpr (Int.toNat_natCast _)⟩
    | double bits => simp [number?]
  | string s =>
    simp only [number?, Option.map_eq_some_iff, reduceCtorEq, Value.string.injEq, false_or,
      exists_eq_left', Text.natural?_eq_some_iff]
    constructor
    · rintro ⟨m, ⟨hm, hlt⟩, h⟩
      exact (toUInt32_eq_iff hlt).mp h ▸ hm
    · exact fun h => ⟨n.toNat, ⟨h, hword⟩, (toUInt32_eq_iff hword).mpr rfl⟩
  | _ => simp [number?]

theorem describes_ofStep (step : Value) : Describes step (ofStep step) where
  name := by
    cases h : (step.get? "lhs").bind text? with
    | none => exact .inr ⟨bind_text?_eq_none_iff.mp h, by simp [ofStep, h, noName]⟩
    | some name =>
      rw [bind_text?_eq_some_iff] at h
      exact .inl (by simp [ofStep, h, text?])
  value := by
    cases h : step.get? "value" with
    | none => exact .inr ⟨rfl, by simp [ofStep, h, noValue]⟩
    | some v => exact .inl ⟨v, rfl, by simp [ofStep, h]⟩
  file file := by
    show Option.filter _ _ = some file ↔ _
    rw [Option.filter_eq_some_iff, bind_text?_eq_some_iff, Option.bind_eq_some_iff,
      decide_eq_true_iff, and_comm]
  line line := by
    show Option.filter _ _ = some line ↔ _
    simp only [Option.filter_eq_some_iff, Option.bind_eq_some_iff, number?_eq_some_iff,
      decide_eq_true_iff]
    constructor
    · rintro ⟨⟨v, ⟨place, hplace, hv⟩, hline⟩, hpos⟩
      exact ⟨hpos, place, v, hplace, hv, hline⟩
    · rintro ⟨hpos, place, v, hplace, hv, hline⟩
      exact ⟨⟨v, ⟨place, hplace, hv⟩, hline⟩, hpos⟩
  iteration n := by
    show Option.bind _ _ = some n ↔ _
    simp only [Option.bind_eq_some_iff, number?_eq_some_iff]

/-! ### The assignments of an output -/

/-- The assignments belong one by one to the steps that assign, in the order of their positions. -/
def Corresponds (output : Value) (assignments : List Assignment) : Prop :=
  ∃ positions : List Position, positions.Pairwise Position.Before ∧
    (∀ p, p ∈ positions ↔ ∃ s, StepAt output p s ∧ Assigns s) ∧
    List.Forall₂ (fun p a => ∃ s, StepAt output p s ∧ Describes s a) positions assignments

theorem corresponds_ofValue (output : Value) : Corresponds output (ofValue output) := by
  have hmem (x : Position × Value) : x ∈ (placed output).filter (fun x => isAssignment x.2) ↔
      StepAt output x.1 x.2 ∧ Assigns x.2 := by
    rw [List.mem_filter, mem_placed_iff, isAssignment_iff]
  refine ⟨((placed output).filter fun x => isAssignment x.2).map Prod.fst, ?_, fun p => ?_, ?_⟩
  · exact List.pairwise_map.mpr ((pairwise_placed output).filter _)
  · simp only [List.mem_map, hmem, Prod.exists, exists_and_right, exists_eq_right]
  · rw [ofValue_eq_placed, List.forall₂_map_left_iff, List.forall₂_map_right_iff, List.forall₂_same]
    exact fun x hx => ⟨x.2, ((hmem x).mp hx).1, describes_ofStep x.2⟩

/-! ### Packing -/

/-- The results give the same steps, be it as their trace or in an object. -/
inductive SameSteps : Value → Value → Prop
  | refl (result : Value) : SameSteps result result
  | traces {r r' : Value} {ss : List Value} (h : Traces r ss) (h' : Traces r' ss) : SameSteps r r'

/-- The messages have results that give the same steps. -/
inductive SameResults : Value → Value → Prop
  | refl (message : Value) : SameResults message message
  | results {m m' : Value} {rs rs' : List Value} (h : m.get? "result" = some (.array rs))
      (h' : m'.get? "result" = some (.array rs')) (hall : List.Forall₂ SameSteps rs rs') :
      SameResults m m'

/-- The outputs have the same steps in the same messages and results, packed in other ways. -/
inductive Repacked : Value → Value → Prop
  | messages {v v' : Value} {ms ms' : List Value} (h : Packs v ms) (h' : Packs v' ms')
      (hall : List.Forall₂ SameResults ms ms') : Repacked v v'

theorem SameSteps.steps_eq {r r' : Value} (h : SameSteps r r') : steps r = steps r' := by
  cases h with
  | refl => rfl
  | traces h h' => rw [h.steps_eq, h'.steps_eq]

theorem flatMap_eq_of_forall₂ {α β : Type} {R : α → α → Prop} {f : α → List β} {l l' : List α}
    (h : List.Forall₂ R l l') (hf : ∀ a a', R a a' → f a = f a') : l.flatMap f = l'.flatMap f := by
  induction h with
  | nil => rfl
  | cons hR _ ih => rw [List.flatMap_cons, List.flatMap_cons, hf _ _ hR, ih]

theorem SameResults.ofMessage_eq {m m' : Value} (h : SameResults m m') :
    ofMessage m = ofMessage m' := by
  cases h with
  | refl => rfl
  | results h h' hall =>
    rw [Assignment.ofMessage_eq, Assignment.ofMessage_eq, results_of_get? h, results_of_get? h']
    refine flatMap_eq_of_forall₂ hall fun r r' hr => ?_
    rw [hr.steps_eq]

theorem ofValue_eq_of_repacked {v v' : Value} (h : Repacked v v') : ofValue v = ofValue v' := by
  obtain ⟨h, h', hall⟩ := h
  rw [packs_iff] at h h'
  rw [ofValue_eq, ofValue_eq, ← h, ← h']
  exact flatMap_eq_of_forall₂ hall fun _ _ => SameResults.ofMessage_eq

/-! ### Any output -/

/-- A text that holds one JSON value of any kind. -/
def parseValue (text : String) : Except Fault Value :=
  Json.parse (fun v => (Shape.value 0 v).mapError .json) text

theorem Describes.file_ne_empty {s : Value} {a : Assignment} (h : Describes s a) :
    a.file ≠ some "" :=
  fun hfile => ((h.file "").mp hfile).1 rfl

theorem Describes.line_bounds {s : Value} {a : Assignment} (h : Describes s a) {line : UInt32}
    (hline : a.line = some line) : 1 ≤ line.toNat ∧ line.toNat ≤ 4294967295 := by
  obtain ⟨hpos, _, _, _, _, hcounts⟩ := (h.line line).mp hline
  exact ⟨hpos, hcounts.1⟩

/-- Every value that a text holds is read. The messages of an array are read one by one, a message
alone as if in an array, and steps in an object as if they were the trace. The assignments belong
to the steps that assign, one to each and in their order. -/
theorem assignments_by_step :
    (∀ text v, parseValue text = .ok v → ofText text = .ok (ofValue v)) ∧
    (∀ text fault, parseValue text = .error fault → ofText text = .error fault) ∧
    (∀ ms, ofValue (.array ms) = ms.flatMap fun m => ofValue (.array [m])) ∧
    (∀ members, ofValue (.object members) = ofValue (.array [.object members])) ∧
    (∀ v v', Repacked v v' → ofValue v = ofValue v') ∧
    ∀ v, Corresponds v (ofValue v) ∧ ∀ a ∈ ofValue v,
      a.file ≠ some "" ∧ ∀ line ∈ a.line, 1 ≤ line.toNat ∧ line.toNat ≤ 4294967295 := by
  have halone (m : Value) : ofValue (.array [m]) = ofMessage m := List.append_nil _
  refine ⟨fun text v h => ?_, fun text fault h => ?_, fun ms => ?_, fun members => ?_,
    fun v v' => ofValue_eq_of_repacked, fun v => ⟨corresponds_ofValue v, fun a ha => ?_⟩⟩
  · show (parseValue text).map ofValue = _
    rw [h]
    rfl
  · show (parseValue text).map ofValue = _
    rw [h]
    rfl
  · simp only [halone]
    rfl
  · exact (halone _).symm
  · rw [ofValue_eq_placed] at ha
    obtain ⟨x, _, rfl⟩ := List.mem_map.mp ha
    have hdescribes := describes_ofStep x.2
    exact ⟨hdescribes.file_ne_empty, fun line => hdescribes.line_bounds⟩

example : ofValue (.object [("result", .array [.object [("trace", .object [("steps", .array [
    .object [("lhs", .string "x"), ("value", .string "3"), ("iteration", .string " 2 ")],
    .object [("lhs", .string "x"), ("stepType", .string "location-only")]])])]])]) =
    [⟨"x", "3", none, none, some 2⟩] := by
  decide

end Retrace.Symbolic.Assignment
