/-! Bounds of whole numbers.

A word has 32 bits and a long word has 64. Half of the numbers of that many bits are negative when
they have a sign. -/
namespace Retrace.Limit

/-- Words are below this number. -/
def word : Nat := 4294967296

/-- Words with a sign are below this number and not below its negative. -/
def signedWord : Nat := 2147483648

/-- Long words are below this number. -/
def long : Nat := 18446744073709551616

/-- Long words with a sign are below this number and not below its negative. -/
def signedLong : Nat := 9223372036854775808

end Retrace.Limit
