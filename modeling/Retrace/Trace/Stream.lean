import Retrace.Fault
import Retrace.Limit
import Retrace.Text.Words

/-! The recorded trace.

A trace is a text of trace ids between white space. It is read front to back and only once: what
has been taken stays known, so that a place in the trace can be named. -/
namespace Retrace.Trace

/-- The tokens already taken, the latest first, and those still to come. -/
structure Stream where
  taken : List Nat
  rest : List Nat
  deriving DecidableEq, Repr

namespace Stream

def ofTokens (tokens : List Nat) : Stream := ⟨[], tokens⟩

def tokens (s : Stream) : List Nat := s.taken.reverse ++ s.rest

def tokenAt (position : Nat) (word : List Char) : Except Fault Nat :=
  match Text.natural? Limit.word word with
  | some id => .ok id
  | none => .error (.traceFormat position (String.ofList word))

def tokensFrom (position : Nat) : List (List Char) → List Nat → Except Fault (List Nat)
  | [], ids => .ok ids.reverse
  | word :: rest, ids => do
    let id ← tokenAt position word
    tokensFrom (position + 1) rest (id :: ids)

def parse (text : String) : Except Fault Stream :=
  (tokensFrom 0 (Text.words text.toList) []).map ofTokens

def peek? (s : Stream) : Option Nat := s.rest.head?

def pop (s : Stream) : Stream :=
  match s.rest with
  | [] => s
  | id :: rest => ⟨id :: s.taken, rest⟩

def remaining (s : Stream) : Nat := s.rest.length

def size (s : Stream) : Nat := s.tokens.length

def isEmpty (s : Stream) : Bool := s.tokens.isEmpty

@[simp] theorem rest_pop (s : Stream) : s.pop.rest = s.rest.tail := by
  unfold pop
  split <;> simp_all

@[simp] theorem tokens_pop (s : Stream) : s.pop.tokens = s.tokens := by
  unfold pop tokens
  split <;> simp_all

end Stream

end Retrace.Trace
