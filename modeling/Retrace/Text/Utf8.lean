/-! Reading UTF-8.

`Utf8.decode` reads bytes that need not be UTF-8. Where they are not, as many bytes as begin a
character are taken together, or else one byte alone, and a stand-in takes their place. -/
namespace Retrace.Text.Utf8

/-- Between characters, or inside of one: how many bytes it still needs, the bounds of the next
one, and its bits so far. -/
inductive State
  | between
  | inside (needed : Nat) (low high : UInt8) (bits : Nat)
  deriving DecidableEq, Repr

/-- What a byte begins. -/
inductive Beginning
  | whole (c : Char)
  | opens (s : State)
  | invalid

def beginning (b : UInt8) : Beginning :=
  let n := b.toNat
  if n < 0x80 then .whole (Char.ofNat n)
  else if n < 0xC2 then .invalid
  else if n < 0xE0 then .opens (.inside 1 0x80 0xBF (n - 0xC0))
  else if n == 0xE0 then .opens (.inside 2 0xA0 0xBF 0)
  else if n == 0xED then .opens (.inside 2 0x80 0x9F 0xD)
  else if n < 0xF0 then .opens (.inside 2 0x80 0xBF (n - 0xE0))
  else if n == 0xF0 then .opens (.inside 3 0x90 0xBF 0)
  else if n < 0xF4 then .opens (.inside 3 0x80 0xBF (n - 0xF0))
  else if n == 0xF4 then .opens (.inside 3 0x80 0x8F 4)
  else .invalid

def begin (standIn : Char) (b : UInt8) : List Char × State :=
  match beginning b with
  | .whole c => ([c], .between)
  | .opens s => ([], s)
  | .invalid => ([standIn], .between)

def step (standIn : Char) : State → UInt8 → List Char × State
  | .between, b => begin standIn b
  | .inside needed low high bits, b =>
    if low ≤ b && b ≤ high then
      let bits := 64 * bits + (b.toNat - 0x80)
      if needed ≤ 1 then ([Char.ofNat bits], .between)
      else ([], .inside (needed - 1) 0x80 0xBF bits)
    else
      let (found, s) := begin standIn b
      (standIn :: found, s)

def decodeFrom (standIn : Char) (found : List Char) : State → List UInt8 → List Char
  | .between, [] => found.reverse
  | .inside _ _ _ _, [] => (standIn :: found).reverse
  | s, b :: rest =>
    let (now, s) := step standIn s b
    decodeFrom standIn (now.reverse ++ found) s rest

def decode (standIn : Char) (bytes : List UInt8) : String :=
  String.ofList (decodeFrom standIn [] .between bytes)

/-- The stand-in of text that is shown. -/
def replacement : Char := '\ufffd'

end Retrace.Text.Utf8
