import Retrace.Toml.Scalar

/-! Quoted text of a TOML document.

Between double quotes a backslash begins an escape; between single quotes every character stands
for itself. Three quotes begin a text of several lines, which may hold up to two quotes in a row
and drops a line break at its front. A backslash at the end of a line drops the break and the
white space behind it. Every reader takes the characters behind the opening quotes and gives the
text and what follows the closing quotes. -/
namespace Retrace.Toml

abbrev Text := List Char

/-- A character that may stand for itself; line breaks are no such characters. -/
def isPlain (c : Char) : Bool := c == '\t' || (32 ≤ c.toNat && c.toNat ≠ 127)

def scalarValue? (digits : List Char) : Option Char :=
  if digits.all isHex then
    let n := numberOf 16 digits
    if n.isValidChar then some (Char.ofNat n) else none
  else none

def escape? : Char → Option Char
  | 'b' => some '\x08'
  | 't' => some '\t'
  | 'n' => some '\n'
  | 'f' => some '\x0c'
  | 'r' => some '\r'
  | '"' => some '"'
  | '\\' => some '\\'
  | _ => none

/-- What the characters behind a backslash stand for, and how many they are. -/
def escapeAt? (cs : List Char) : Option (Char × Nat) :=
  match cs with
  | 'u' :: rest => if rest.length < 4 then none else (scalarValue? (rest.take 4)).map (·, 5)
  | 'U' :: rest => if rest.length < 8 then none else (scalarValue? (rest.take 8)).map (·, 9)
  | c :: _ => (escape? c).map (·, 1)
  | [] => none

/-! ### One line -/

def literalLine (found : Text) : List Char → Option (Text × List Char)
  | [] => none
  | '\'' :: rest => some (found.reverse, rest)
  | c :: rest => if isPlain c then literalLine (c :: found) rest else none

def basicLine (found : Text) : List Char → Option (Text × List Char)
  | [] => none
  | '"' :: rest => some (found.reverse, rest)
  | '\\' :: rest =>
    match escapeAt? rest with
    | some (c, n) => basicLine (c :: found) (rest.drop n)
    | none => none
  | c :: rest => if isPlain c then basicLine (c :: found) rest else none
termination_by cs => cs.length
decreasing_by
  · simp only [List.length_drop, List.length_cons]
    omega
  · simp

/-! ### Several lines -/

def isLineBreak (c : Char) : Bool := c == '\n'

/-- Up to two quotes directly in front of the closing ones belong to the text. -/
def closeLong (quote : Char) (found : Text) (rest : List Char) : Text × List Char :=
  let extra := ((rest.take 2).takeWhile (· == quote)).length
  ((List.replicate extra quote ++ found).reverse, rest.drop extra)

def isClosing (quote : Char) (cs : List Char) : Bool :=
  cs.take 3 == [quote, quote, quote]

def literalLines (found : Text) : List Char → Option (Text × List Char)
  | [] => none
  | c :: rest =>
    if isClosing '\'' (c :: rest) then some (closeLong '\'' found (rest.drop 2))
    else if isPlain c || isLineBreak c then literalLines (c :: found) rest
    else none

def isInlineBlank (c : Char) : Bool := c == ' ' || c == '\t'

/-- What a backslash at the end of a line leaves of the lines that follow. -/
def continued? (cs : List Char) : Option (List Char) :=
  match cs.dropWhile isInlineBlank with
  | '\n' :: rest => some (rest.dropWhile fun c => isInlineBlank c || isLineBreak c)
  | _ => none

theorem length_dropWhile_le (p : Char → Bool) (cs : List Char) :
    (cs.dropWhile p).length ≤ cs.length :=
  (List.dropWhile_suffix p).length_le

theorem length_continued {cs rest : List Char} (h : continued? cs = some rest) :
    rest.length ≤ cs.length := by
  unfold continued? at h
  split at h
  · rename_i tail ht
    cases h
    have h1 := length_dropWhile_le isInlineBlank cs
    have h2 := length_dropWhile_le (fun c => isInlineBlank c || isLineBreak c) tail
    rw [ht, List.length_cons] at h1
    omega
  · cases h

def basicLines (found : Text) : List Char → Option (Text × List Char)
  | [] => none
  | '\\' :: rest =>
    match _h : continued? rest with
    | some later => basicLines found later
    | none =>
      match escapeAt? rest with
      | some (c, n) => basicLines (c :: found) (rest.drop n)
      | none => none
  | c :: rest =>
    if isClosing '"' (c :: rest) then some (closeLong '"' found (rest.drop 2))
    else if isPlain c || isLineBreak c then basicLines (c :: found) rest
    else none
termination_by cs => cs.length
decreasing_by
  · have := length_continued ‹continued? rest = some later›
    simp only [List.length_cons]
    omega
  · simp only [List.length_drop, List.length_cons]
    omega
  · simp

def dropBreak : List Char → List Char
  | '\n' :: rest => rest
  | rest => rest

/-- A quoted value, of one line or of several. -/
def quoted? : List Char → Option (Text × List Char)
  | '"' :: '"' :: '"' :: rest => basicLines [] (dropBreak rest)
  | '\'' :: '\'' :: '\'' :: rest => literalLines [] (dropBreak rest)
  | '"' :: rest => basicLine [] rest
  | '\'' :: rest => literalLine [] rest
  | _ => none

end Retrace.Toml
