import BestFit.Json.Token
import BestFit.Policy

/-! Reading a policy from a JSON text: an object whose members name the choices, or
an array that lists them. What is not mentioned keeps its default. The text is read
from left to right, and the first thing that is wrong decides the error. -/
namespace BestFit.Policy

open Json (Token)

/-- Why a text is no policy. -/
inductive DocumentError where
  /-- It is no JSON, ends early, or goes on after its end. -/
  | malformed
  /-- It is JSON as far as it was read, but of another form: a value of the wrong
  type, an unknown member, or one given twice. -/
  | unexpected
deriving DecidableEq, Repr

/-- The error at a place where a value of another type was expected. A complete
scalar and an opening bracket are of the wrong type; everything else is no value. -/
def misfit : List Token → DocumentError
  | .null :: _ | .bool _ :: _ | .number :: _ | .text _ :: _ => .unexpected
  | .openBrace :: _ | .openBracket :: _ => .unexpected
  | _ => .malformed

/-- The choices read so far. -/
structure Draft where
  boxing : Option Bool := none
  unlocking : Option Bool := none
deriving DecidableEq, Repr

namespace Draft

/-- The policy that a draft amounts to. -/
def toPolicy (d : Draft) : Policy :=
  { boxing := d.boxing.getD true, unlocking := d.unlocking.getD true }

/-- Enters a choice under its member name. A name that is unknown or was given
before is refused, whatever its value. -/
def enter (d : Draft) (name : List Char) (value : Bool) : Except DocumentError Draft :=
  if name = "autoboxing".toList then
    if d.boxing.isSome then .error .unexpected else .ok { d with boxing := some value }
  else if name = "escalation".toList then
    if d.unlocking.isSome then .error .unexpected else .ok { d with unlocking := some value }
  else .error .unexpected

/-- Checks a member name before its value is known. -/
def check (d : Draft) (name : List Char) : Except DocumentError Unit := do
  discard (d.enter name true)

end Draft

/-- Reads members from where a member name is due up to the closing brace, and gives
what follows it. -/
def readMembers (d : Draft) : List Token → Except DocumentError (Draft × List Token)
  | .text name :: .colon :: .bool b :: .comma :: ts => do
      let d ← d.enter name b
      readMembers d ts
  | .text name :: .colon :: .bool b :: .closeBrace :: ts => do
      return (← d.enter name b, ts)
  | .text name :: .colon :: .bool _ :: _ => do
      d.check name
      throw .malformed
  | .text name :: .colon :: ts => do
      d.check name
      throw (misfit ts)
  | .text name :: _ => do
      d.check name
      throw .malformed
  | _ => throw .malformed

/-- Reads an object, its opening brace already taken. -/
def readObject : List Token → Except DocumentError (Policy × List Token)
  | .closeBrace :: ts => return ({}, ts)
  | ts => do
      let (d, rest) ← readMembers {} ts
      return (d.toPolicy, rest)

/-- Reads an array, its opening bracket already taken: the choice of boxing, then
that of unlocking, and no more. -/
def readArray : List Token → Except DocumentError (Policy × List Token)
  | .closeBracket :: ts => return ({}, ts)
  | .bool a :: .closeBracket :: ts => return ({ boxing := a }, ts)
  | .bool a :: .comma :: .bool b :: .closeBracket :: ts =>
      return ({ boxing := a, unlocking := b }, ts)
  | .bool _ :: .comma :: .bool _ :: _ => throw .malformed
  | .bool _ :: .comma :: ts => throw (misfit ts)
  | .bool _ :: _ => throw .malformed
  | ts => throw (misfit ts)

/-- Reads a policy from the tokens of a text. -/
def ofTokens (ts : List Token) : Except DocumentError Policy := do
  let (p, rest) ← match ts with
    | .openBrace :: ts => readObject ts
    | .openBracket :: ts => readArray ts
    | ts => throw (misfit ts)
  if rest.isEmpty then return p else throw .malformed

/-- Reads a policy from a text. -/
def parse (text : String) : Except DocumentError Policy :=
  ofTokens (Json.tokens text.toList)

end BestFit.Policy
