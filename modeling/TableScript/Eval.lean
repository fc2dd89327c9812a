import TableScript.Action
import TableScript.Operator

/-!
# Running a program

The evaluator follows the tree.  Every call of it passes on less fuel than it got, so that it
always ends; a run that ends within some amount of fuel ends in the same way within any larger
amount.  Operands, keys, arguments and bounds are evaluated from left to right.

A frame that is entered is left again however its block ends: normally, by `break`, by `return`
or by a fault.
-/

namespace TableScript

/-- How a statement or a block that does not fail ends. -/
inductive Flow where
  /-- The next statement follows. -/
  | normal
  /-- The innermost loop is left. -/
  | broken
  /-- The function, or the program, is left with a value. -/
  | returned (value : Value)

/-- The value of a function or a program whose block ends so: what it returned, or nil. -/
def Flow.result : Flow → Value
  | returned value => value
  | _ => .nil

/-- The value of the first operand that decides the result of a lazy operator, so that its second
operand is not evaluated. -/
def BinaryOperator.decisive? : BinaryOperator → Option Bool
  | and => some false
  | or => some true
  | _ => none

namespace Eval

/-! ## Rules on values -/

/-- A value that has to be a boolean. -/
def requireBoolean (context : String) (position : Position) : Value → Action Bool
  | .boolean value => pure value
  | other => .fail position (.notBoolean context other)

/-- A value that has to be a number, or a list that begins with one. -/
def requireNumber (bound : LoopBound) (position : Position) (value : Value) : Action Value :=
  if value.first.isNumber then pure value.first
  else .fail position (.notNumberBound bound value.first)

/-- The arguments of a call: if the last one is a list, its values follow the others. -/
def spread (arguments : List Value) : List Value :=
  match arguments.getLast? with
  | some (.list items) => arguments.dropLast ++ items
  | _ => arguments

/-- The value of a `return`: nil for no value, and a list for several. -/
def returnValue (values : List Value) : Value :=
  if values.isEmpty then .nil else .ofValues values

/-! ## Counting -/

/-- Whether a step counts upwards; none if it does not move. -/
def ascending? : Value → Option Bool
  | .integer step => if step = 0 then none else some (0 < step)
  | .float step => if step == 0.0 || step.isNaN then none else some (0.0 < step)
  | _ => none

/-- Whether a counter has passed its limit.  Where one of them is not a number, it has. -/
def hasPassed (ascending : Bool) (counter limit : Value) : Bool :=
  (counter.compare limit).isNone
    || Operator.ordered (if ascending then .greater else .less) counter limit

/-- The counter after a step; none if an integer counter would leave the range of integers. -/
def advance (counter step : Value) : Except Cause (Option Value) :=
  match counter, step with
  | .integer current, .integer increment =>
    let next := current.toInt + increment.toInt
    if Int64.minValue.toInt ≤ next ∧ next ≤ Int64.maxValue.toInt then
      .ok (some (.integer (Int64.ofInt next)))
    else .ok none
  | counter, step => (Operator.arithmetic .add counter step).map some

/-! ## The evaluator -/

mutual

/-- Evaluates an expression. -/
def expression : Nat → Expression → Action Value
  | 0, _ => .outOfFuel
  | _ + 1, .nil _ => pure .nil
  | _ + 1, .boolean value _ => pure (.boolean value)
  | _ + 1, .number form text position => .check position (Reading.ofLiteral form text)
  | _ + 1, .string contents _ => pure (.string contents)
  | fuel + 1, .variable name path position => do
    let keys ← expressions fuel path
    .readVariable position name keys
  | fuel + 1, .table fields _ => do
    let table ← .newTable
    let filled ← tableFields fuel 1 table fields
    .allocate filled
  | fuel + 1, .invoke invocation => invoke fuel invocation
  | fuel + 1, .binary operator left right position =>
    match operator.decisive? with
    | some decisive => do
      let first ← condition fuel operator.symbol left
      if first = decisive then pure (.boolean first)
      else
        let second ← condition fuel operator.symbol right
        pure (.boolean second)
    | none => do
      let first ← expression fuel left
      let second ← expression fuel right
      .check position (Operator.binary operator first second)
  | fuel + 1, .unary operator operand position => do
    let value ← expression fuel operand
    .check position (Operator.unary operator value)
  | fuel + 1, .parenthesized inner _ => do
    let value ← expression fuel inner
    pure value.first

/-- Evaluates several expressions in order. -/
def expressions : Nat → List Expression → Action (List Value)
  | 0, _ => .outOfFuel
  | _ + 1, [] => pure []
  | fuel + 1, first :: rest => do
    let value ← expression fuel first
    let values ← expressions fuel rest
    pure (value :: values)

/-- Evaluates an expression that has to be a boolean. -/
def condition : Nat → String → Expression → Action Bool
  | 0, _, _ => .outOfFuel
  | fuel + 1, context, guard => do
    let value ← expression fuel guard
    requireBoolean context guard.position value

/-- Evaluates the fields of a table constructor and stores them, the next field without a key
being given a number. -/
def tableFields : Nat → Nat → Table → List Field → Action Table
  | 0, _, _, _ => .outOfFuel
  | _ + 1, _, table, [] => pure table
  | fuel + 1, index, table, .positional value :: rest => do
    let item ← expression fuel value
    let later ← .check value.position
      ((table.set (.integer (Int64.ofNat index)) item).mapError .invalidKey)
    tableFields fuel (index + 1) later rest
  | fuel + 1, index, table, .keyed key value :: rest => do
    let name ← expression fuel key
    let item ← expression fuel value
    let later ← .check value.position ((table.set name item).mapError .invalidKey)
    tableFields fuel index later rest

/-- Calls a function, prints a line or reads one. -/
def invoke : Nat → Invocation → Action Value
  | 0, _ => .outOfFuel
  | fuel + 1, .call callee arguments position => do
    let values ← expressions fuel arguments
    let function ← .findFunction position callee
    call fuel position function (spread values)
  | fuel + 1, .print arguments position => do
    let values ← expressions fuel arguments
    .print position (tabulate (Value.texts values))
    pure .nil
  | _ + 1, .read none position => .readLine position none
  | fuel + 1, .read (some format) position => do
    let value ← expression fuel format
    .readLine position (some value.text)

/-- Runs the body of a function in a frame of its own. -/
def call : Nat → Position → Function → List Value → Action Value
  | 0, _, _, _ => .outOfFuel
  | fuel + 1, position, function, arguments => do
    .attempt position (·.enterCall function arguments)
    let flow ← (block fuel function.body).finally_ State.leaveCall
    pure flow.result

/-- Runs a block: its statements, and then its `return`. -/
def block : Nat → Block → Action Flow
  | 0, _ => .outOfFuel
  | fuel + 1, .mk body result => do
    match ← statements fuel body with
    | .normal =>
      match result with
      | none => pure .normal
      | some last =>
        let values ← expressions fuel last.values
        pure (.returned (returnValue values))
    | flow => pure flow

/-- Runs statements in order, up to the first one that does not end normally. -/
def statements : Nat → List Statement → Action Flow
  | 0, _ => .outOfFuel
  | _ + 1, [] => pure .normal
  | fuel + 1, first :: rest => do
    match ← statement fuel first with
    | .normal => statements fuel rest
    | flow => pure flow

/-- Runs a statement. -/
def statement : Nat → Statement → Action Flow
  | 0, _ => .outOfFuel
  | _ + 1, .empty _ => pure .normal
  | _ + 1, .break_ _ => pure .broken
  | fuel + 1, .declare name _ value _ => do
    let item ← expression fuel value
    .change (·.declare name item)
    pure .normal
  | fuel + 1, .assign name path value position => do
    let keys ← expressions fuel path
    let item ← expression fuel value
    .attempt position (·.assign name keys item)
    pure .normal
  | fuel + 1, .choose options otherwise _ => branches fuel options otherwise
  | _ + 1, .define name parameters body position => do
    .change (·.define ⟨name, parameters, body, position⟩)
    pure .normal
  | fuel + 1, .while_ guard body _ => .inLoopFrame .while_ (whileLoop fuel guard body)
  | fuel + 1, .repeat_ body guard _ => .inLoopFrame .repeat_ (repeatLoop fuel body guard)
  | fuel + 1, .for_ name start limit step body position => do
    let first ← bound fuel .start start
    let last ← bound fuel .limit limit
    let increment ← stepBound fuel step
    match ascending? increment with
    | none => .fail position (.unusableStep increment)
    | some ascending =>
      .inLoopFrame .for_ do
        .change (·.declare name first)
        forLoop fuel position name ascending last increment body
  | fuel + 1, .do_ body _ => .inLoopFrame .do_ (block fuel body)
  | fuel + 1, .invoke invocation => do
    let _ ← invoke fuel invocation
    pure .normal

/-- Runs the first branch whose condition holds, or else the last block. -/
def branches : Nat → List Branch → Option Block → Action Flow
  | 0, _, _ => .outOfFuel
  | _ + 1, [], none => pure .normal
  | fuel + 1, [], some otherwise => block fuel otherwise
  | fuel + 1, .mk guard body :: rest, otherwise => do
    if ← condition fuel "if" guard then block fuel body
    else branches fuel rest otherwise

/-- Runs a block as long as a condition holds before it. -/
def whileLoop : Nat → Expression → Block → Action Flow
  | 0, _, _ => .outOfFuel
  | fuel + 1, guard, body => do
    if ← condition fuel "while" guard then
      match ← block fuel body with
      | .normal => whileLoop fuel guard body
      | .broken => pure .normal
      | .returned value => pure (.returned value)
    else pure .normal

/-- Runs a block until a condition holds after it; the condition sees the names of the block. -/
def repeatLoop : Nat → Block → Expression → Action Flow
  | 0, _, _ => .outOfFuel
  | fuel + 1, body, guard => do
    match ← block fuel body with
    | .normal =>
      if ← condition fuel "until" guard then pure .normal
      else repeatLoop fuel body guard
    | .broken => pure .normal
    | .returned value => pure (.returned value)

/-- Evaluates a bound of a counting loop. -/
def bound : Nat → LoopBound → Expression → Action Value
  | 0, _, _ => .outOfFuel
  | fuel + 1, kind, source => do
    let value ← expression fuel source
    requireNumber kind source.position value

/-- Evaluates the step of a counting loop, which is one if none is given. -/
def stepBound : Nat → Option Expression → Action Value
  | 0, _ => .outOfFuel
  | _ + 1, none => pure (.integer 1)
  | fuel + 1, some source => bound fuel .step source

/-- Runs a block for each value of a counter up to its limit.  The counter is a variable that the
block can change, and the loop goes on from what it finds there. -/
def forLoop : Nat → Position → String → Bool → Value → Value → Block → Action Flow
  | 0, _, _, _, _, _, _ => .outOfFuel
  | fuel + 1, position, name, ascending, limit, step, body => do
    let counter ← .readVariable position name []
    if hasPassed ascending counter limit then pure .normal
    else
      match ← block fuel body with
      | .normal =>
        let current ← .readVariable position name []
        match ← .check position (advance current step) with
        | none => pure .normal
        | some next =>
          .change (·.declare name next)
          forLoop fuel position name ascending limit step body
      | .broken => pure .normal
      | .returned value => pure (.returned value)

end

end Eval

end TableScript
