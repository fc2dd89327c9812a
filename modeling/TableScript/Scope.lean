import TableScript.Bindings
import TableScript.Fault

/-!
# Scopes

Where names are bound: globally, or in a frame.  A call has a frame, and so has a loop.  A name
is looked for in the frames from the innermost one outwards up to and including the frame of the
nearest call, and then globally: a function sees the loops that it is in but nothing of its
caller.
-/

namespace TableScript

/-- What a frame belongs to. -/
inductive FrameKind where
  | call (function : String)
  | loop (keyword : LoopKeyword)
  deriving DecidableEq, Repr

/-- The names that a call or a loop binds. -/
structure Frame where
  kind : FrameKind
  bindings : Bindings String Value

/-- Whether a frame belongs to a call. -/
def Frame.isCall (frame : Frame) : Bool :=
  match frame.kind with
  | .call _ => true
  | .loop _ => false

namespace Frames

/-- What the visible frames bind a name to. -/
def find? (name : String) : List Frame → Option Value
  | [] => none
  | frame :: rest =>
    match frame.bindings.find? name with
    | some value => some value
    | none => if frame.isCall then none else find? name rest

/-- Replaces what a name is bound to in the visible frame that binds it, if one does. -/
def update? (name : String) (value : Value) : List Frame → Option (List Frame)
  | [] => none
  | frame :: rest =>
    match frame.bindings.find? name with
    | some _ => some ({ frame with bindings := frame.bindings.insert name value } :: rest)
    | none => if frame.isCall then none else (update? name value rest).map (frame :: ·)

end Frames

/-- All that names are bound to. -/
structure Scope where
  globals : Bindings String Value
  functions : Bindings String Function
  /-- The frames, the innermost one first. -/
  frames : List Frame
  /-- The number of calls that are under way. -/
  callDepth : Nat
  /-- The number of calls that may be under way. -/
  callLimit : Nat

namespace Scope

/-- The scope in which a program starts. -/
def start (callLimit : Nat) : Scope := ⟨.empty, .empty, [], 0, callLimit⟩

/-! ## Variables -/

/-- What a name is bound to; a name that is not bound has the value nil. -/
def lookup (scope : Scope) (name : String) : Value :=
  match Frames.find? name scope.frames with
  | some value => value
  | none => (scope.globals.find? name).getD .nil

/-- Binds a name in the innermost frame, or globally if there is no frame. -/
def declare (scope : Scope) (name : String) (value : Value) : Scope :=
  match scope.frames with
  | [] => { scope with globals := scope.globals.insert name value }
  | frame :: rest =>
    { scope with frames := { frame with bindings := frame.bindings.insert name value } :: rest }

/-- Binds a name in the visible frame that binds it already, or globally. -/
def store (scope : Scope) (name : String) (value : Value) : Scope :=
  match Frames.update? name value scope.frames with
  | some frames => { scope with frames := frames }
  | none => { scope with globals := scope.globals.insert name value }

/-! ## Frames -/

/-- Binds parameters to arguments in order; a parameter without an argument is nil, and an
argument without a parameter is dropped. -/
def bindParameters (bindings : Bindings String Value) :
    List String → List Value → Bindings String Value
  | [], _ => bindings
  | parameter :: rest, arguments =>
    bindParameters (bindings.insert parameter (arguments.headD .nil)) rest arguments.tail

/-- Enters the frame of a call, unless as many calls as allowed are under way. -/
def enterCall (scope : Scope) (function : Function) (arguments : List Value) :
    Except Cause Scope :=
  if scope.callLimit ≤ scope.callDepth then
    .error (.tooManyCalls scope.callLimit function.name)
  else
    let frame := ⟨.call function.name, bindParameters .empty function.parameters arguments⟩
    .ok { scope with frames := frame :: scope.frames, callDepth := scope.callDepth + 1 }

/-- Leaves the frame of a call. -/
def leaveCall (scope : Scope) : Scope :=
  match scope.frames with
  | [] => scope
  | _ :: rest => { scope with frames := rest, callDepth := scope.callDepth - 1 }

/-- Enters the frame of a loop. -/
def enterLoop (scope : Scope) (keyword : LoopKeyword) : Scope :=
  { scope with frames := ⟨.loop keyword, .empty⟩ :: scope.frames }

/-- Leaves the frame of a loop. -/
def leaveLoop (scope : Scope) : Scope := { scope with frames := scope.frames.tail }

/-- The number of frames. -/
def depth (scope : Scope) : Nat := scope.frames.length

/-! ## Functions -/

/-- Defines a function, in place of one of the same name. -/
def define (scope : Scope) (function : Function) : Scope :=
  { scope with functions := scope.functions.insert function.name function }

/-- The function with a name. -/
def function? (scope : Scope) (name : String) : Option Function := scope.functions.find? name

end Scope

end TableScript
