import MeteredScript.Value
import Std.Data.TreeMap

namespace MeteredScript

/-! # Frames

Every call has a frame of variables of its own. Names bound from outside can be read from all frames
and are assigned to in none.
-/

/-- Names with the values they are bound to. -/
abbrev Frame := Std.TreeMap String Value

/-- The frames of the calls that are running, the latest first, and the names bound from outside. -/
structure Frames where
  stack : List Frame := []
  globals : Frame := ∅
deriving Repr, Inhabited

namespace Frames

/-- The frame of the latest call. -/
def top? (frames : Frames) : Option Frame := frames.stack.head?

/-- How many calls are running. -/
def depth (frames : Frames) : Nat := frames.stack.length

/-- Binds a name from outside. -/
def defineGlobal (frames : Frames) (name : String) (value : Value) : Frames :=
  { frames with globals := frames.globals.insert name value }

/-- Opens an empty frame. -/
def push (frames : Frames) : Frames := { frames with stack := ∅ :: frames.stack }

/-- Closes the latest frame. -/
def pop (frames : Frames) : Frames := { frames with stack := frames.stack.tail }

/-- Binds a variable in the latest frame; without a frame there is nothing to bind in. -/
def define (frames : Frames) (name : String) (value : Value) : Frames :=
  match frames.stack with
  | [] => frames
  | frame :: rest => { frames with stack := frame.insert name value :: rest }

/-- The value of a name: the variable of the latest frame, or else what is bound from outside. -/
def get? (frames : Frames) (name : String) : Option Value :=
  match frames.stack with
  | [] => frames.globals[name]?
  | frame :: _ => frame[name]?.or frames.globals[name]?

/-- Whether the latest frame has a variable. -/
def isLocal (frames : Frames) (name : String) : Bool :=
  match frames.stack with
  | [] => false
  | frame :: _ => frame.contains name

/-- Whether a name is bound from outside. -/
def isGlobal (frames : Frames) (name : String) : Bool := frames.globals.contains name

/-- Assigns to a variable that the latest frame has. -/
def set? (frames : Frames) (name : String) (value : Value) : Option Frames :=
  if frames.isLocal name then some (frames.define name value) else none

end Frames

end MeteredScript
