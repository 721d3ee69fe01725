import MeteredScript.Eval.State

namespace MeteredScript.Run

/-! # Members of values

Arrays have elements by index and a length, objects have entries by the text of the key, strings have
a length. Everything else has no members: reading gives undefined and writing does nothing.
-/

/-- The number that a key of an array stands for; blank text is none. -/
def indexNumber (key : Value) : Except Crash (Option Decimal) :=
  match key with
  | .number n => .ok (some n)
  | .boolean _ => key.toNumber
  | .string s => if s.all Text.isBlank then .ok none else Decimal.parse s
  | _ => .ok none

/-- The index that a key stands for in an array of `length` elements: a number cut off toward zero
and in range. -/
def arrayIndex (key : Value) (length : Nat) (span : Span) : Run Nat := do
  match ← orCrash (indexNumber key) with
  | none => fail (.range (.index (← display key) length) span)
  | some n =>
    if 0 ≤ n.trunc ∧ n.trunc < length then return n.trunc.toNat
    else fail (.range (.index n.text length) span)

/-- Whether a key is the text `length`. -/
def isLength (key : Value) : Bool := key = .string "length"

def getMember (object key : Value) (span : Span) : Run Value := do
  match object with
  | .array handle =>
    let length ← arrayLength handle
    if isLength key then return .ofInt length
    else element handle (← arrayIndex key length span)
  | .object handle =>
    let key ← display key
    return (← property? handle key).getD .undefined
  | .string s => return if isLength key then .ofInt s.utf8ByteSize else .undefined
  | _ => return .undefined

/-- Pays for an entry of an object that is not there yet. -/
def chargeEntry (old : Option Value) : Run Unit :=
  match old with
  | some _ => pure ()
  | none => charge 1

/-- Writes a member. A new entry of an object costs a unit; the length of an array is no element. -/
def setMember (object key value : Value) (span : Span) : Run Unit := do
  match object with
  | .array handle =>
    let length ← arrayLength handle
    setElement handle (← arrayIndex key length span) value
  | .object handle =>
    let key ← display key
    chargeEntry (← property? handle key)
    setProperty handle key value
  | _ => return ()

end MeteredScript.Run
