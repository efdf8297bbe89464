import Retrace.Text.Charset

/-! White space.

The characters with the Unicode property `White_Space`: the tabulators and line ends of ASCII,
the space, next line, the no-break space and the spaces and separators beyond Latin-1.
`isBlank_of_isWhitespace` says that this holds every blank character of ASCII. -/
namespace Retrace.Text

def blanks : Charset :=
  ⟨[9, 14, 32, 33, 133, 134, 160, 161, 5760, 5761, 8192, 8203, 8232, 8234, 8239, 8240, 8287, 8288,
    12288, 12289]⟩

def isBlank (c : Char) : Bool :=
  blanks.contains c

theorem isBlank_of_isWhitespace {c : Char} (h : c.isWhitespace = true) : isBlank c = true := by
  simp only [Char.isWhitespace, Bool.or_eq_true, decide_eq_true_eq] at h
  rcases h with ((rfl | rfl) | rfl) | rfl <;> rfl

/-- What is left of a text once the blank characters at both of its ends are gone. -/
def trimChars (cs : List Char) : List Char :=
  ((cs.dropWhile isBlank).reverse.dropWhile isBlank).reverse

def trim (s : String) : String :=
  String.ofList (trimChars s.toList)

end Retrace.Text
