import Retrace.Proofs.Disk.Paths
import Retrace.Proofs.Instrument.Lines

/-! The class that probes call and the class that the instrumented program gets.

Both are spelled from one configured name. `calledClass?`, `declaredPackage?` and `declaredClass?`
read them back from the texts of a probe and of the support file, and `writtenFile?` reads the
literal that names the trace file, in which a backslash takes the next character as it is. The
parts of an accepted name are letters, numbers and underscores (`Named`), so that nothing in it
ends a line, a literal or a component of a path, and the escapes of the trace file's name are read
back to it (`literal?_literalBody`). `support_declares_called_class` puts these together. -/
namespace Retrace

namespace Text

theorem intercalate_concat (mark : String) {parts : List String} (h : parts ≠ [])
    (last : String) :
    mark.intercalate (parts ++ [last]) = mark.intercalate parts ++ mark ++ last := by
  induction parts with
  | nil => exact absurd rfl h
  | cons part parts ih =>
    rw [List.cons_append, String.intercalate_cons_of_ne_nil (by simp)]
    cases parts with
    | nil => simp
    | cons next rest =>
      rw [ih (List.cons_ne_nil next rest),
        String.intercalate_cons_of_ne_nil (List.cons_ne_nil next rest)]
      simp only [String.append_assoc]

theorem takeWhile_append {mark : Char} {front : List Char} (h : mark ∉ front) (back : List Char) :
    (front ++ mark :: back).takeWhile (· ≠ mark) = front := by
  rw [List.takeWhile_append_of_pos, List.takeWhile_cons_of_neg (by simp), List.append_nil]
  intro c hc
  exact decide_eq_true fun heq => h (heq ▸ hc)

/-- The first line of a text, and the lines behind it. -/
theorem stretches_line {line : List Char} (h : '\n' ∉ line) (rest : List Char) :
    stretches '\n' (line ++ '\n' :: rest) = line :: stretches '\n' rest := by
  rw [stretches_append, stretches_of_not_mem h, List.singleton_append]

end Text

namespace Instrument.Probe

/-! ### Reading the texts -/

/-- What a text has between the one at its beginning and the one at its end. -/
def between? (front back text : List Char) : Option (List Char) :=
  if front <+: text ∧ back <:+ text.drop front.length then
    some ((text.drop front.length).take (text.length - front.length - back.length))
  else none

/-- The class of which a statement calls the method `trace`. -/
def calledClass? (statement : String) : Option String :=
  (between? " ".toList ".trace".toList (statement.toList.takeWhile (· ≠ '('))).map String.ofList

def lines (text : String) : List (List Char) := Text.stretches '\n' text.toList

/-- A package is declared in the first line. -/
def declaredPackage? (source : String) : Option String :=
  ((lines source).head?.bind (between? "package ".toList ";".toList)).map String.ofList

/-- The class in the first line that declares one. -/
def declaredClass? (source : String) : Option String :=
  ((lines source).findSome? (between? "public final class ".toList " \x7b".toList)).map
    String.ofList

def qualified (package : Option String) (name : String) : String :=
  match package with
  | some package => package ++ "." ++ name
  | none => name

/-- What a string literal denotes and what stands behind it, read from behind its opening quote. A
backslash takes the next character as it is. -/
def literal? : List Char → Option (List Char × List Char)
  | [] => none
  | '"' :: rest => some ([], rest)
  | '\\' :: c :: rest => (literal? rest).map fun (value, rest) => (c :: value, rest)
  | c :: rest => (literal? rest).map fun (value, rest) => (c :: value, rest)

/-- What stands behind the first occurrence of a part. -/
def behind? (part : List Char) : List Char → Option (List Char)
  | [] => if part = [] then some [] else none
  | c :: cs => if part <+: c :: cs then some ((c :: cs).drop part.length) else behind? part cs

/-- The name in the literal with which a source opens its file, and what stands behind it. -/
def writtenFile? (source : String) : Option (String × List Char) :=
  ((behind? "new FileWriter(\"".toList source.toList).bind literal?).map fun (name, rest) =>
    (String.ofList name, rest)

theorem between?_append (front middle back : List Char) :
    between? front back (front ++ middle ++ back) = some middle := by
  have hlength : (front ++ middle ++ back).length - front.length - back.length = middle.length := by
    simp only [List.length_append]
    omega
  unfold between?
  rw [hlength, List.append_assoc, List.drop_left, List.take_left,
    if_pos ⟨List.prefix_append _ _, List.suffix_append _ _⟩]

theorem between?_eq_none {front back text : List Char} (h : ¬front <+: text) :
    between? front back text = none :=
  if_neg fun hboth => h hboth.1

/-- A part of which the last character has not stood in the text before. -/
theorem behind?_append {mark : Char} {stem front : List Char} (hstem : mark ∉ stem)
    (hfront : mark ∉ front) (rest : List Char) :
    behind? (stem ++ [mark]) (front ++ (stem ++ mark :: rest)) = some rest := by
  induction front with
  | nil =>
    have hsplit : stem ++ mark :: rest = (stem ++ [mark]) ++ rest := by simp
    rw [List.nil_append, hsplit]
    cases htext : (stem ++ [mark]) ++ rest with
    | nil => simp at htext
    | cons c cs =>
      rw [behind?, ← htext, if_pos (List.prefix_append _ _), List.drop_left]
  | cons c front ih =>
    have hnot : ¬stem ++ [mark] <+: c :: (front ++ (stem ++ mark :: rest)) := by
      intro hprefix
      have hlonger : c :: front ++ stem <+: c :: (front ++ (stem ++ mark :: rest)) :=
        ⟨mark :: rest, by simp⟩
      have hshorter := List.prefix_of_prefix_length_le hprefix hlonger (by simp)
      rcases List.mem_append.mp (hshorter.subset (by simp : mark ∈ stem ++ [mark])) with hmem | hmem
      · exact hfront hmem
      · exact hstem hmem
    rw [List.cons_append, behind?, if_neg hnot]
    exact ih fun hmem => hfront (List.mem_cons_of_mem c hmem)

/-! ### The literal -/

theorem literal?_plain {c : Char} (hquote : c ≠ '"') (hslash : c ≠ '\\') (cs : List Char) :
    literal? (c :: cs) = (literal? cs).map fun (value, rest) => (c :: value, rest) := by
  rw [literal?]
  · exact hquote
  · intro d rest hc
    exact absurd hc hslash

theorem replaced_cons_self (mark : Char) (part cs : List Char) :
    replaced mark part (mark :: cs) = part ++ replaced mark part cs := by
  unfold replaced
  rw [List.flatMap_cons, if_pos (beq_self_eq_true mark)]

theorem replaced_cons_of_ne {mark c : Char} (h : c ≠ mark) (part cs : List Char) :
    replaced mark part (c :: cs) = c :: replaced mark part cs := by
  unfold replaced
  rw [List.flatMap_cons, if_neg (by simpa using h), List.singleton_append]

/-- A literal ends where its text does, and denotes it. -/
theorem literal?_literalBody (s : String) (rest : List Char) :
    literal? ((literalBody s).toList ++ '"' :: rest) = some (s.toList, rest) := by
  rw [literalBody, String.toList_ofList]
  induction s.toList with
  | nil => rfl
  | cons c cs ih =>
    by_cases hslash : c = '\\'
    · -- The second replacement meets no quote in the two backslashes.
      subst hslash
      rw [replaced_cons_self]
      simp only [List.cons_append, List.nil_append]
      rw [replaced_cons_of_ne (by decide), replaced_cons_of_ne (by decide), List.cons_append,
        List.cons_append, literal?, ih]
      rfl
    · rw [replaced_cons_of_ne hslash]
      by_cases hquote : c = '"'
      · subst hquote
        rw [replaced_cons_self]
        simp only [List.cons_append, List.nil_append]
        rw [literal?, ih]
        rfl
      · rw [replaced_cons_of_ne hquote, List.cons_append, literal?_plain hquote hslash, ih]
        rfl

/-! ### The configured name -/

/-- A tracer's name is that of a class in the packages, all of them made of letters, numbers and
underscores. -/
structure Named (probe : Probe) (packages : List String) : Prop where
  parts : ∀ part ∈ packages ++ [probe.className], isNamePart part = true
  package : probe.package =
    if packages = [] then none else some (String.intercalate "." packages)
  tracer : probe.tracer = String.intercalate "." (packages ++ [probe.className])

theorem packageOf_eq (parts : List String) : packageOf parts =
    if parts.dropLast = [] then none else some (String.intercalate "." parts.dropLast) := by
  have hnil : parts.length ≤ 1 ↔ parts.dropLast = [] := by
    rw [← List.length_eq_zero_iff, List.length_dropLast]
    omega
  unfold packageOf
  simp only [hnil]

theorem named_of_parts {parts : List String} (hne : parts ≠ [])
    (hall : ∀ part ∈ parts, isNamePart part = true) (file : String) :
    Named ⟨String.intercalate "." parts, packageOf parts, parts.getLastD "", file⟩
      parts.dropLast := by
  have hsplit : parts.dropLast ++ [parts.getLastD ""] = parts := by
    rw [List.getLastD_eq_getLast?, List.getLast?_eq_some_getLast hne, Option.getD_some,
      List.dropLast_append_getLast hne]
  refine ⟨?_, packageOf_eq parts, ?_⟩ <;> dsimp only <;> rw [hsplit]
  exact hall

/-- A probe is made of the trimmed name and the trace file alone. -/
theorem eq_of_ok {c : Config.Instrument} {probe : Probe} (h : Probe.of c = .ok probe) :
    let parts := Text.splitAt '.' (Text.trim c.tracerClass)
    probe = ⟨Text.trim c.tracerClass, packageOf parts, parts.getLastD "", c.traceFile⟩ ∧
      ∀ part ∈ parts, isNamePart part = true := by
  unfold Probe.of nameParts? at h
  dsimp only at h ⊢
  split at h
  · rename_i parts hparts
    split at hparts
    · rename_i hall
      rw [← Option.some.inj hparts] at h
      exact ⟨(Except.ok.inj h).symm, List.all_eq_true.mp hall⟩
    · cases hparts
  · cases h

theorem exists_named {c : Config.Instrument} {probe : Probe} (h : Probe.of c = .ok probe) :
    ∃ packages, Named probe packages := by
  obtain ⟨rfl, hall⟩ := eq_of_ok h
  have hnamed := named_of_parts (Text.splitAt_ne_nil '.' _) hall c.traceFile
  rw [show "." = String.singleton '.' from rfl, Text.intercalate_splitAt] at hnamed
  exact ⟨_, hnamed⟩

theorem qualified_toList (package : Option String) (name : String) :
    (qualified package name).toList =
      (package.elim [] fun package => package.toList ++ ['.']) ++ name.toList := by
  cases package <;> simp [qualified]

section Named
variable {probe : Probe} {packages : List String} (h : Named probe packages)
include h

theorem Named.qualified : qualified probe.package probe.className = probe.tracer := by
  rw [h.package, h.tracer]
  split
  · rename_i hnil
    rw [hnil]
    rfl
  · rename_i hne
    rw [Text.intercalate_concat "." hne]
    rfl

theorem Named.not_mem {e : Char} (he : e ∉ probe.tracer.toList) :
    (∀ package, probe.package = some package → e ∉ package.toList) ∧
      e ∉ probe.className.toList := by
  rw [← h.qualified, qualified_toList, List.mem_append, not_or] at he
  refine ⟨fun package hpackage hmem => he.1 ?_, he.2⟩
  rw [hpackage]
  exact List.mem_append_left _ hmem

theorem Named.char_of_part {part : String} (hpart : part ∈ packages ++ [probe.className]) :
    part ≠ "" ∧ ∀ c ∈ part.toList, c ≠ '.' ∧ c ≠ '/' := by
  obtain ⟨hne, hchars⟩ := Bool.and_eq_true_iff.mp (h.parts part hpart)
  refine ⟨by simpa using hne, fun c hc => ?_⟩
  have hletter := List.all_eq_true.mp hchars c hc
  constructor <;> rintro rfl <;> exact absurd hletter (by decide)

/-! ### The path -/

theorem Named.packages_eq : probe.package.elim [] (Text.splitAt '.') = packages := by
  rw [h.package]
  split
  · rename_i hnil
    exact hnil.symm
  · rename_i hne
    refine Text.splitAt_intercalate hne fun part hpart hdot => ?_
    exact ((h.char_of_part (List.mem_append_left _ hpart)).2 _ hdot).1 rfl

theorem Named.supportPath_eq : probe.supportPath =
    String.intercalate "/" (packages ++ [probe.className ++ ".java"]) := by
  have hpackages := h.packages_eq
  unfold supportPath
  cases hpackage : probe.package with
  | none =>
    rw [hpackage] at hpackages
    rw [← hpackages]
    rfl
  | some package =>
    rw [hpackage] at hpackages
    have hne : packages ≠ [] := by
      intro hnil
      have hnone := h.package
      rw [if_pos hnil, hpackage] at hnone
      cases hnone
    dsimp only
    rw [show Text.splitAt '.' package = packages from hpackages, Text.intercalate_concat "/" hne,
      String.append_assoc]

theorem Named.isPiece {name : String} (hname : name ∈ packages ++ [probe.className ++ ".java"]) :
    (Path.Component.normal name).IsPiece := by
  rcases List.mem_append.mp hname with hname | hname
  · obtain ⟨hne, hchars⟩ := h.char_of_part (List.mem_append_left _ hname)
    have hlast := List.getLast?_eq_some_getLast (l := name.toList) (by simpa using hne)
    exact Path.isPiece_of_getLast? (fun hslash => (hchars _ hslash).2 rfl) hlast
      (hchars _ (List.getLast_mem _)).1
  · obtain ⟨_, hchars⟩ := h.char_of_part (List.mem_append_right packages List.mem_cons_self)
    rw [List.mem_singleton.mp hname]
    refine Path.isPiece_of_getLast? (c := 'a') ?_ ?_ (by decide)
    · rw [String.toList_append, List.mem_append, not_or]
      exact ⟨fun hslash => (hchars _ hslash).2 rfl, by decide⟩
    · rw [String.toList_append, List.getLast?_append]
      rfl

theorem Named.components_supportPath : Path.components probe.supportPath =
    (packages ++ [probe.className ++ ".java"]).map .normal := by
  rw [h.supportPath_eq, ← Path.ofComponents_normal]
  refine Path.components_ofComponents (.relative fun c hc => ?_)
  obtain ⟨name, hname, rfl⟩ := List.mem_map.mp hc
  exact h.isPiece hname

end Named

/-! ### The source -/

theorem toList_unlines (ls : List String) :
    (unlines ls).toList = ls.flatMap fun l => l.toList ++ ['\n'] := by
  unfold unlines
  rw [String.toList_join, List.flatMap_map]
  refine List.flatMap_congr fun l _ => ?_
  rw [String.toList_append]
  rfl

theorem lines_unlines {ls : List String} (h : ∀ l ∈ ls, '\n' ∉ l.toList) (rest : String) :
    lines (unlines ls ++ rest) = ls.map String.toList ++ lines rest := by
  unfold lines
  rw [String.toList_append, toList_unlines]
  induction ls with
  | nil => rfl
  | cons l ls ih =>
    obtain ⟨hl, hls⟩ := List.forall_mem_cons.mp h
    rw [List.flatMap_cons, List.append_assoc, List.append_assoc, List.singleton_append,
      Text.stretches_line hl, ih hls]
    rfl

theorem not_mem_opening {mark : Char} (hmark : mark = '\n' ∨ mark = '"') {package : Option String}
    {name : String} (hpackage : ∀ p, package = some p → mark ∉ p.toList)
    (hname : mark ∉ name.toList) : ∀ l ∈ opening package name, mark ∉ l.toList := by
  unfold opening
  rw [List.forall_mem_append]
  constructor
  · cases package with
    | none => exact fun l hl => nomatch hl
    | some p =>
      have hp := hpackage p rfl
      rcases hmark with rfl | rfl <;> simp [hp]
  · rcases hmark with rfl | rfl <;> simp [hname]

section Read
variable {probe : Probe} {packages : List String} (h : Named probe packages)
  (hmarks : ∀ e ∈ ['\n', '"'], e ∉ probe.tracer.toList)
include h hmarks

/-- The source begins with these lines. -/
theorem Named.exists_lines : ∃ rest, lines probe.supportSource =
    (opening probe.package probe.className).map String.toList ++ rest := by
  obtain ⟨hpackage, hname⟩ := h.not_mem (hmarks '\n' (by simp))
  unfold supportSource
  rw [String.append_assoc, String.append_assoc, String.append_assoc]
  exact ⟨_, lines_unlines (not_mem_opening (.inl rfl) hpackage hname) _⟩

theorem Named.declaredPackage? : declaredPackage? probe.supportSource = probe.package := by
  obtain ⟨rest, hlines⟩ := h.exists_lines hmarks
  unfold Probe.declaredPackage?
  rw [hlines]
  unfold opening
  cases probe.package with
  | none =>
    have hnone : between? "package ".toList ";".toList "import java.io.FileWriter;".toList =
        none := by
      decide
    exact congrArg (Option.map String.ofList) hnone
  | some package =>
    have hsome := between?_append "package ".toList package.toList ";".toList
    rw [← String.toList_append, ← String.toList_append] at hsome
    exact (congrArg (Option.map String.ofList) hsome).trans (congrArg some String.ofList_toList)

theorem Named.declaredClass? : declaredClass? probe.supportSource = some probe.className := by
  obtain ⟨rest, hlines⟩ := h.exists_lines hmarks
  have hpackage : ∀ package : String,
      between? "public final class ".toList " \x7b".toList ("package " ++ package ++ ";").toList =
        none := by
    intro package
    refine between?_eq_none fun hprefix => ?_
    rw [String.toList_append, String.toList_append] at hprefix
    have hsecond := (List.cons_prefix_cons.mp (List.cons_prefix_cons.mp hprefix).2).1
    exact absurd hsecond (by decide)
  have hothers : ∀ l ∈ ["", "import java.io.FileWriter;", "import java.io.IOException;"],
      between? "public final class ".toList " \x7b".toList l.toList = none := by
    decide
  have hclass := between?_append "public final class ".toList probe.className.toList " \x7b".toList
  rw [← String.toList_append, ← String.toList_append] at hclass
  unfold Probe.declaredClass?
  rw [hlines]
  unfold opening
  cases probe.package
  all_goals
    simp only [List.nil_append, List.map_cons, List.cons_append, List.findSome?_cons, hpackage,
      hothers "" (by simp), hothers "import java.io.FileWriter;" (by simp),
      hothers "import java.io.IOException;" (by simp), hclass, Option.map_some,
      String.ofList_toList]

theorem Named.writtenFile? :
    writtenFile? probe.supportSource = some (probe.traceFile, closing.toList) := by
  obtain ⟨hpackage, hname⟩ := h.not_mem (hmarks '"' (by simp))
  have hcall : "                out = new FileWriter(\"".toList =
      "                out = ".toList ++ ("new FileWriter(".toList ++ ['"']) := by
    decide
  have hfront : '"' ∉ (unlines (opening probe.package probe.className)).toList ++
      "                out = ".toList := by
    rw [toList_unlines, List.mem_append, List.mem_flatMap]
    rintro (⟨l, hl, hquote⟩ | hquote)
    · exact not_mem_opening (.inr rfl) hpackage hname l hl (by simpa using hquote)
    · exact absurd hquote (by decide)
  have hstem : '"' ∉ "new FileWriter(".toList := by decide
  have hbehind := behind?_append hstem hfront
    ((literalBody probe.traceFile).toList ++ '"' :: closing.toList)
  have hsource : probe.supportSource.toList =
      (unlines (opening probe.package probe.className)).toList ++ "                out = ".toList ++
        ("new FileWriter(".toList ++
          '"' :: ((literalBody probe.traceFile).toList ++ '"' :: closing.toList)) := by
    unfold supportSource
    rw [String.toList_append, String.toList_append, String.toList_append, String.toList_append,
      hcall]
    simp only [List.append_assoc, List.cons_append, List.nil_append]
    rfl
  unfold Probe.writtenFile?
  rw [hsource, show "new FileWriter(\"".toList = "new FileWriter(".toList ++ ['"'] by decide,
    hbehind, Option.bind_some, literal?_literalBody, Option.map_some]
  dsimp only
  rw [String.ofList_toList]

end Read

theorem calledClass?_statement {probe : Probe} (hcall : '(' ∉ probe.tracer.toList) (id : Nat) :
    calledClass? (probe.statement id) = some probe.tracer := by
  have hstatement : (probe.statement id).toList =
      (" ".toList ++ probe.tracer.toList ++ ".trace".toList) ++
        '(' :: (Nat.toDigits 10 id ++ ");".toList) := by
    rw [toList_statement, show ".trace(".toList = ".trace".toList ++ ['('] by decide]
    simp only [List.append_assoc, List.cons_append, List.nil_append]
  have hfront : '(' ∉ " ".toList ++ probe.tracer.toList ++ ".trace".toList := by
    rw [List.mem_append, List.mem_append, not_or, not_or]
    exact ⟨⟨by decide, hcall⟩, by decide⟩
  unfold calledClass?
  rw [hstatement, Text.takeWhile_append hfront, between?_append, Option.map_some,
    String.ofList_toList]

/-- What is read from the support file of a configuration. -/
theorem read_supportSource {c : Config.Instrument} {probe : Probe} (h : Probe.of c = .ok probe) :
    declaredPackage? probe.supportSource = probe.package ∧
    declaredClass? probe.supportSource = some probe.className ∧
    qualified probe.package probe.className = Text.trim c.tracerClass ∧
    writtenFile? probe.supportSource = some (c.traceFile, closing.toList) := by
  have hmarks : ∀ e ∈ ['\n', '"'], e ∉ probe.tracer.toList := not_mem_tracer h (by decide +kernel)
  obtain ⟨packages, hnamed⟩ := exists_named h
  refine ⟨hnamed.declaredPackage? hmarks, hnamed.declaredClass? hmarks, ?_, ?_⟩
  · rw [hnamed.qualified, (eq_of_ok h).1]
  · rw [hnamed.writtenFile? hmarks, (eq_of_ok h).1]

/-- The package and the class that the support file declares spell the trimmed name, every probe
calls that class, and the file stands where the packages lead. The literal ends where the fixed
text behind it begins and denotes the name of the trace file, so two sources are the same exactly
when both names are. -/
theorem support_declares_called_class {c : Config.Instrument} {probe : Probe}
    (h : Probe.of c = .ok probe) :
    (∃ name, declaredClass? probe.supportSource = some name ∧
      qualified (declaredPackage? probe.supportSource) name = Text.trim c.tracerClass ∧
      (∀ id, calledClass? (probe.statement id) =
        some (qualified (declaredPackage? probe.supportSource) name)) ∧
      Path.components probe.supportPath =
        ((declaredPackage? probe.supportSource).elim [] (Text.splitAt '.') ++
          [name ++ ".java"]).map .normal) ∧
    writtenFile? probe.supportSource = some (c.traceFile, closing.toList) ∧
    ∀ {c' : Config.Instrument} {probe' : Probe}, Probe.of c' = .ok probe' →
      (probe'.supportSource = probe.supportSource ↔
        Text.trim c'.tracerClass = Text.trim c.tracerClass ∧ c'.traceFile = c.traceFile) := by
  obtain ⟨hpackage, hclass, hqualified, hwritten⟩ := read_supportSource h
  obtain ⟨packages, hnamed⟩ := exists_named h
  refine ⟨⟨probe.className, hclass, ?_, fun id => ?_, ?_⟩, hwritten, fun {c' probe'} h' => ?_⟩
  · rw [hpackage, hqualified]
  · rw [hpackage, hnamed.qualified]
    have hcall : ∀ e ∈ ['('], e ∉ probe.tracer.toList := not_mem_tracer h (by decide +kernel)
    exact calledClass?_statement (hcall '(' List.mem_cons_self) id
  · rw [hpackage, hnamed.packages_eq]
    exact hnamed.components_supportPath
  · obtain ⟨hpackage', hclass', hqualified', hwritten'⟩ := read_supportSource h'
    constructor
    · intro hsource
      rw [hsource] at hpackage' hclass' hwritten'
      have hname : probe.className = probe'.className :=
        Option.some.inj (hclass.symm.trans hclass')
      have hfile := Option.some.inj (hwritten'.symm.trans hwritten)
      refine ⟨?_, congrArg Prod.fst hfile⟩
      rw [← hqualified, ← hqualified', ← hpackage, ← hpackage', hname]
    · rintro ⟨hname, hfile⟩
      rw [(eq_of_ok h').1, (eq_of_ok h).1, hname, hfile]

/-- A name between blanks with a letter beyond ASCII, and files of which the names hold a quote and
backslashes on both of its sides. -/
theorem support_of_spaced_name :
    let c : Config.Instrument := ⟨" a.\u00fcber.T_1 ", "\\\"\\.tr"⟩
    let c' : Config.Instrument := ⟨"a.\u00fcber.T_1", "\"\\.tr"⟩
    ∃ probe probe', Probe.of c = .ok probe ∧ Probe.of c' = .ok probe' ∧
      calledClass? (probe.statement 7) = some "a.\u00fcber.T_1" ∧
      (writtenFile? probe.supportSource).map Prod.fst = some "\\\"\\.tr" ∧
      probe'.supportSource ≠ probe.supportSource := by
  intro c c'
  have hok : (Probe.of c).isOk = true ∧ (Probe.of c').isOk = true := by decide +kernel
  have htrim : Text.trim c.tracerClass = "a.\u00fcber.T_1" := by decide +kernel
  cases h : Probe.of c with
  | error _ =>
    rw [h] at hok
    exact absurd hok.1 Bool.false_ne_true
  | ok probe =>
    cases h' : Probe.of c' with
    | error _ =>
      rw [h'] at hok
      exact absurd hok.2 Bool.false_ne_true
    | ok probe' =>
      obtain ⟨⟨name, _, hname, hcalled, _⟩, hwritten, hsame⟩ := support_declares_called_class h
      refine ⟨probe, probe', rfl, rfl, ?_, ?_, fun hsource => ?_⟩
      · rw [hcalled, hname, htrim]
      · rw [hwritten]
        rfl
      · exact absurd ((hsame h').mp hsource).2 (by decide)

end Instrument.Probe

end Retrace
