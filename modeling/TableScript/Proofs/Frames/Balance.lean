import TableScript.Proofs.Run.Changes
import TableScript.Proofs.Run.Discipline

/-!
# Frames are balanced and changes are local

Whatever is evaluated and however it ends, the stack of frames afterwards is the one before, up to
what the evaluated code may rebind.

* An expression leaves the whole stack as it was, bindings included (`SameStack`).
* A statement or a block leaves the number and the kinds of the frames as they were.  What lies
  behind the frame of the nearest call (`Frames.hidden`) is untouched, new names come only into
  the innermost frame, and every other frame keeps the names it has (`LocalChange`).

Both follow from `Discipline.kept`, so what is proved here is only what a single change does.  The
two fields that carry the argument are `loop` and `call`: the kinds of the frames are kept, so the
frame that is left is the one that was entered.
-/

namespace TableScript

/-! ## Names of bindings -/

namespace Bindings

variable {α : Type}

theorem mem_names_insertEntry {name other : String} {value : α} {entries : List (String × α)}
    (hmem : other ∈ entries.map Prod.fst) :
    other ∈ (insertEntry name value entries).map Prod.fst := by
  induction entries with
  | nil => simp at hmem
  | cons entry rest ih => grind [insertEntry]

/-- Binding a name takes no name away. -/
theorem mem_names_insert {bindings : Bindings String α} {name other : String} {value : α}
    (hmem : other ∈ bindings.names) : other ∈ (bindings.insert name value).names :=
  mem_names_insertEntry hmem

theorem names_insertEntry_of_findIn? {name : String} {value old : α}
    {entries : List (String × α)} (hfound : findIn? name entries = some old) :
    (insertEntry name value entries).map Prod.fst = entries.map Prod.fst := by
  induction entries with
  | nil => simp [findIn?] at hfound
  | cons entry rest ih => grind [insertEntry, findIn?]

/-- Binding a name that is bound changes no names. -/
theorem names_insert_of_find? {bindings : Bindings String α} {name : String} {value old : α}
    (hfound : bindings.find? name = some old) :
    (bindings.insert name value).names = bindings.names :=
  names_insertEntry_of_findIn? hfound

end Bindings

/-! ## The parts of a stack -/

/-- The names that a frame binds. -/
def Frame.names (frame : Frame) : List String := frame.bindings.names

namespace Frames

/-- The frames strictly behind the frame of the nearest call, which the running function does not
see. -/
def hidden : List Frame → List Frame
  | [] => []
  | frame :: rest => if frame.isCall then rest else hidden rest

/-- The kind of a frame decides whether it belongs to a call. -/
theorem isCall_eq_of_kind_eq {first second : Frame} (hkind : first.kind = second.kind) :
    first.isCall = second.isCall := by
  unfold Frame.isCall
  rw [hkind]

/-- Frames of loops in front of others hide nothing. -/
theorem hidden_append {loops : List Frame} (hloops : ∀ frame ∈ loops, frame.isCall = false)
    (frames : List Frame) : hidden (loops ++ frames) = hidden frames := by
  induction loops with
  | nil => rfl
  | cons frame rest ih =>
      have hframe : frame.isCall = false := hloops frame (by simp)
      simp only [List.cons_append, hidden, hframe, Bool.false_eq_true, if_false]
      exact ih fun other hother => hloops other (by simp [hother])

/-- An update rebinds a name in one frame that binds it already, and only frames of loops stand in
front of that frame. -/
theorem update?_eq_some {name : String} {value : Value} {frames updated : List Frame}
    (hupdate : update? name value frames = some updated) :
    ∃ loops frame outer old, (∀ other ∈ loops, other.isCall = false) ∧
      frame.bindings.find? name = some old ∧ frames = loops ++ frame :: outer ∧
      updated = loops ++ { frame with bindings := frame.bindings.insert name value } :: outer := by
  induction frames generalizing updated with
  | nil => simp [update?] at hupdate
  | cons frame rest ih =>
      unfold update? at hupdate
      -- the search ends at the first frame that binds the name, and never gets past the frame of a
      -- call
      split at hupdate
      · next old hfound =>
          cases hupdate
          exact ⟨[], frame, rest, old, by simp, hfound, rfl, rfl⟩
      · split at hupdate
        · simp at hupdate
        · next hcall =>
            obtain ⟨later, hlater, rfl⟩ := Option.map_eq_some_iff.mp hupdate
            obtain ⟨loops, found, outer, old, hloops, hfound, rfl, rfl⟩ := ih hlater
            refine ⟨frame :: loops, found, outer, old, ?_, hfound, rfl, rfl⟩
            intro other hother
            rcases List.mem_cons.mp hother with rfl | hother
            · simpa using hcall
            · exact hloops other hother

end Frames

/-! ## The two relations -/

/-- The same frames with the same bindings, and as many calls under way. -/
structure SameStack (before after : State) : Prop where
  frames : after.scope.frames = before.scope.frames
  callDepth : after.scope.callDepth = before.scope.callDepth

/-- What a statement may do to the stack: rebind visible names, and bind new ones in the innermost
frame. -/
structure LocalChange (before after : State) : Prop where
  /-- As many frames as before, each of the kind it had. -/
  kinds : after.scope.frames.map Frame.kind = before.scope.frames.map Frame.kind
  callDepth : after.scope.callDepth = before.scope.callDepth
  /-- What lies behind the frame of the nearest call is untouched. -/
  hidden : Frames.hidden after.scope.frames = Frames.hidden before.scope.frames
  /-- Every frame but the innermost one has exactly the names it had. -/
  outerNames : after.scope.frames.tail.map Frame.names = before.scope.frames.tail.map Frame.names
  /-- The innermost frame has the names it had, and perhaps more. -/
  innermostNames : ∀ frame ∈ before.scope.frames.head?, ∀ name ∈ frame.names,
    ∃ later ∈ after.scope.frames.head?, name ∈ later.names

namespace LocalChange

variable {first second third : State}

theorem length (hchange : LocalChange first second) :
    second.scope.frames.length = first.scope.frames.length := by
  simpa using congrArg List.length hchange.kinds

theorem trans (hfirst : LocalChange first second) (hsecond : LocalChange second third) :
    LocalChange first third where
  kinds := hsecond.kinds.trans hfirst.kinds
  callDepth := hsecond.callDepth.trans hfirst.callDepth
  hidden := hsecond.hidden.trans hfirst.hidden
  outerNames := hsecond.outerNames.trans hfirst.outerNames
  innermostNames := by
    intro frame hframe name hname
    obtain ⟨middle, hmiddle, hname⟩ := hfirst.innermostNames frame hframe name hname
    exact hsecond.innermostNames middle hmiddle name hname

/-- Nothing is changed on the stack if frames and depth are the same. -/
theorem of_sameStack (hsame : SameStack first second) : LocalChange first second where
  kinds := by rw [hsame.frames]
  callDepth := hsame.callDepth
  hidden := by rw [hsame.frames]
  outerNames := by rw [hsame.frames]
  innermostNames := by
    intro frame hframe name hname
    exact ⟨frame, by rw [hsame.frames]; exact hframe, hname⟩

/-- A change that keeps the names of all frames is local if it keeps kinds and hidden frames. -/
theorem of_names (hkinds : second.scope.frames.map Frame.kind = first.scope.frames.map Frame.kind)
    (hdepth : second.scope.callDepth = first.scope.callDepth)
    (hhidden : Frames.hidden second.scope.frames = Frames.hidden first.scope.frames)
    (hnames : second.scope.frames.map Frame.names = first.scope.frames.map Frame.names) :
    LocalChange first second where
  kinds := hkinds
  callDepth := hdepth
  hidden := hhidden
  outerNames := by rw [List.map_tail, List.map_tail, hnames]
  innermostNames := by
    intro frame hframe name hname
    have hhead := congrArg List.head? hnames
    rw [List.head?_map, List.head?_map, hframe] at hhead
    obtain ⟨later, hlater, heq⟩ := Option.map_eq_some_iff.mp hhead
    exact ⟨later, hlater, heq ▸ hname⟩

end LocalChange

/-! ## Single changes -/

theorem localChange_declare (state : State) (name : String) (value : Value) :
    LocalChange state (state.declare name value) := by
  unfold State.declare Scope.declare
  cases hframes : state.scope.frames with
  | nil => exact LocalChange.of_sameStack ⟨by simp [hframes], rfl⟩
  | cons frame rest =>
      refine ⟨by simp [hframes], rfl, ?_, by simp [hframes], ?_⟩
      · simp only [hframes]
        rfl
      · intro other hother bound hbound
        rw [hframes] at hother
        cases hother
        exact ⟨_, rfl, Bindings.mem_names_insert hbound⟩

theorem localChange_store (state : State) (name : String) (value : Value) :
    LocalChange state { state with scope := state.scope.store name value } := by
  unfold Scope.store
  split
  · next updated hupdate =>
      obtain ⟨loops, frame, outer, old, hloops, hfound, hframes, rfl⟩ :=
        Frames.update?_eq_some hupdate
      refine LocalChange.of_names ?_ rfl ?_ ?_
      · simp [hframes]
      · simp only [hframes, Frames.hidden_append hloops]
        rfl
      · simp [hframes, Frame.names, Bindings.names_insert_of_find? hfound]
  · exact LocalChange.of_sameStack ⟨rfl, rfl⟩

theorem localChange_assign {state later : State} {name : String} {keys : List Value}
    {value : Value} (hassign : state.assign name keys value = .ok later) :
    LocalChange state later := by
  rcases State.assign_cases hassign with ⟨-, rfl⟩ | ⟨_, _, _, -, -, -, rfl⟩
  · exact localChange_store state name value
  · exact LocalChange.of_sameStack ⟨rfl, rfl⟩

/-- A call that is entered has its frame in front of its caller's and counts. -/
theorem State.enterCall_eq_ok {state entered : State} {function : Function}
    {arguments : List Value} (hentered : state.enterCall function arguments = .ok entered) :
    ∃ frame, frame.kind = .call function.name ∧
      entered.scope.frames = frame :: state.scope.frames ∧
      entered.scope.callDepth = state.scope.callDepth + 1 := by
  obtain ⟨scope, hscope, rfl⟩ := State.enterCall_cases hentered
  obtain ⟨-, rfl⟩ := Scope.enterCall_cases hscope
  exact ⟨_, rfl, rfl, rfl⟩

/-- When the block of a call ends, the frame of the call is the innermost one, and behind it the
caller's frames are as they were. -/
theorem frames_at_leaveCall {state entered later : State} {function : Function}
    {arguments : List Value} (hentered : state.enterCall function arguments = .ok entered)
    (hchange : LocalChange entered later) :
    ∃ frame, frame.kind = .call function.name ∧
      later.scope.frames = frame :: state.scope.frames := by
  obtain ⟨frame, hkind, hframes, -⟩ := State.enterCall_eq_ok hentered
  have hkinds := hchange.kinds
  have hhidden := hchange.hidden
  rw [hframes] at hkinds hhidden
  cases hlater : later.scope.frames with
  | nil => simp [hlater] at hkinds
  | cons top rest =>
      simp only [hlater, List.map_cons, List.cons.injEq] at hkinds
      have hcall : frame.isCall = true := by simp [Frame.isCall, hkind]
      have htop : top.isCall = true := (Frames.isCall_eq_of_kind_eq hkinds.1).trans hcall
      simp only [hlater, Frames.hidden, htop, hcall, if_true] at hhidden
      exact ⟨top, hkinds.1.trans hkind, by rw [hhidden]⟩

/-- When something that ran in the frame of a loop ends, that frame is the innermost one. -/
theorem frames_at_leaveLoop {state later : State} {keyword : LoopKeyword}
    (hchange : LocalChange (state.enterLoop keyword) later) :
    ∃ frame rest, frame.kind = .loop keyword ∧ later.scope.frames = frame :: rest ∧
      rest.map Frame.kind = state.scope.frames.map Frame.kind := by
  have hkinds := hchange.kinds
  cases hlater : later.scope.frames with
  | nil => simp [hlater, State.enterLoop, Scope.enterLoop] at hkinds
  | cons top rest =>
      simp only [hlater, State.enterLoop, Scope.enterLoop, List.map_cons, List.cons.injEq] at hkinds
      exact ⟨top, rest, hkinds.1, rfl, hkinds.2⟩

theorem sameStack_leaveCall {state entered later : State} {function : Function}
    {arguments : List Value} (hentered : state.enterCall function arguments = .ok entered)
    (hchange : LocalChange entered later) : SameStack state later.leaveCall := by
  obtain ⟨frame, -, hframes⟩ := frames_at_leaveCall hentered hchange
  obtain ⟨-, -, -, hdepth⟩ := State.enterCall_eq_ok hentered
  have hlater := hchange.callDepth
  constructor
  · simp [State.leaveCall, Scope.leaveCall, hframes]
  · simp [State.leaveCall, Scope.leaveCall, hframes, hlater, hdepth]

theorem localChange_leaveLoop {state later : State} {keyword : LoopKeyword}
    (hchange : LocalChange (state.enterLoop keyword) later) :
    LocalChange state later.leaveLoop := by
  obtain ⟨frame, rest, hkind, hframes, hkinds⟩ := frames_at_leaveLoop hchange
  have hhidden := hchange.hidden
  have hnames := hchange.outerNames
  simp only [hframes, State.enterLoop, Scope.enterLoop, Frames.hidden, Frame.isCall,
    hkind, Bool.false_eq_true, if_false] at hhidden
  simp only [hframes, State.enterLoop, Scope.enterLoop, List.tail_cons] at hnames
  refine LocalChange.of_names ?_ hchange.callDepth ?_ ?_
  · simpa [State.leaveLoop, Scope.leaveLoop, hframes] using hkinds
  · simpa [State.leaveLoop, Scope.leaveLoop, hframes] using hhidden
  · simpa [State.leaveLoop, Scope.leaveLoop, hframes] using hnames

theorem sameStack_takeLine (state : State) : SameStack state state.takeLine.2 := by
  unfold State.takeLine
  split <;> exact ⟨rfl, rfl⟩

/-- Expressions keep the stack and statements change it locally. -/
theorem balance : Discipline SameStack LocalChange where
  expressions_refl _ := ⟨rfl, rfl⟩
  expressions_trans _ _ _ hfirst hsecond :=
    ⟨hsecond.frames.trans hfirst.frames, hsecond.callDepth.trans hfirst.callDepth⟩
  statements_refl _ := LocalChange.of_sameStack ⟨rfl, rfl⟩
  statements_trans _ _ _ := LocalChange.trans
  embed _ _ := LocalChange.of_sameStack
  allocate _ _ := ⟨rfl, rfl⟩
  takeLine := sameStack_takeLine
  printLine _ _ := ⟨rfl, rfl⟩
  declare := localChange_declare
  assign _ _ _ _ _ := localChange_assign
  define _ _ := LocalChange.of_sameStack ⟨rfl, rfl⟩
  call _ _ _ _ _ := sameStack_leaveCall
  loop _ _ _ := localChange_leaveLoop

/-! ## Where frames are left -/

/-- What a statement runs in the frame of a loop. -/
inductive Eval.LoopBody (fuel : Nat) : LoopKeyword → Action Flow → Prop
  | while_ (guard : Expression) (body : Block) :
      LoopBody fuel .while_ (Eval.whileLoop fuel guard body)
  | repeat_ (body : Block) (guard : Expression) :
      LoopBody fuel .repeat_ (Eval.repeatLoop fuel body guard)
  | for_ (position : Position) (name : String) (ascending : Bool) (first last step : Value)
      (body : Block) :
      LoopBody fuel .for_ do
        .change (·.declare name first)
        Eval.forLoop fuel position name ascending last step body
  | do_ (body : Block) : LoopBody fuel .do_ (Eval.block fuel body)

theorem Eval.LoopBody.keeps {fuel : Nat} {keyword : LoopKeyword} {action : Action Flow}
    (hbody : Eval.LoopBody fuel keyword action) : action.Keeps LocalChange := by
  cases hbody with
  | while_ guard body => exact (balance.kept fuel).whileLoop guard body
  | repeat_ body guard => exact (balance.kept fuel).repeatLoop body guard
  | for_ position name ascending first last step body =>
      refine Action.Keeps.bind balance.statements_trans ?_ fun _ => ?_
      · exact Action.keeps_change fun state => localChange_declare state name first
      · exact (balance.kept fuel).forLoop position name ascending last step body
  | do_ body => exact (balance.kept fuel).block body

/-! ## Sessions -/

namespace Session

/-- One step of a session: a program, a block, a statement or an expression is run to its end, be
it a value or a fault, from what earlier steps left; or input is supplied, or output cleared. -/
inductive Step : State → State → Prop
  | execute {fuel : Nat} {program : Block} {state later : State}
      (hends : (TableScript.execute fuel program state).state? = some later) : Step state later
  | block {fuel : Nat} {body : Block} {state later : State}
      (hends : (Eval.block fuel body state).state? = some later) : Step state later
  | statement {fuel : Nat} {tree : Statement} {state later : State}
      (hends : (Eval.statement fuel tree state).state? = some later) : Step state later
  | expression {fuel : Nat} {tree : Expression} {state later : State}
      (hends : (Eval.expression fuel tree state).state? = some later) : Step state later
  | supply (state : State) (line : InputLine) :
      Step state { state with input := state.input ++ [line] }
  | clear (state : State) : Step state { state with output := state.output.clear }

/-- The states that a session comes to, one after each step. -/
inductive Reaches (host : Host) (callLimit : Nat) (input : List InputLine) (output : Output) :
    State → Prop
  | start : Reaches host callLimit input output (.start host callLimit input output)
  | step {state later : State} (hreached : Reaches host callLimit input output state)
      (hstep : Step state later) : Reaches host callLimit input output later

/-- Outside all frames and calls. -/
structure AtRest (state : State) : Prop where
  frames : state.scope.frames = []
  callDepth : state.scope.callDepth = 0

theorem AtRest.of_localChange {state later : State} (hrest : AtRest state)
    (hchange : LocalChange state later) : AtRest later where
  frames := by
    have hlength := hchange.length
    rw [hrest.frames, List.length_nil] at hlength
    exact List.eq_nil_of_length_eq_zero hlength
  callDepth := hchange.callDepth.trans hrest.callDepth

/-- A program starts afresh, whatever was bound before. -/
theorem atRest_execute {fuel : Nat} {program : Block} {state later : State}
    (hends : (TableScript.execute fuel program state).state? = some later) : AtRest later := by
  unfold TableScript.execute at hends
  rw [Action.state?_bind_pure] at hends
  have hchange := (balance.kept fuel).block program state.restart later hends
  exact AtRest.of_localChange ⟨rfl, rfl⟩ hchange

theorem Step.atRest {state later : State} (hstep : Step state later) (hrest : AtRest state) :
    AtRest later := by
  cases hstep with
  | execute hends => exact atRest_execute hends
  | block hends => exact hrest.of_localChange ((balance.kept _).block _ _ _ hends)
  | statement hends => exact hrest.of_localChange ((balance.kept _).statement _ _ _ hends)
  | expression hends =>
      exact hrest.of_localChange (.of_sameStack ((balance.kept _).expression _ _ _ hends))
  | supply line => exact ⟨hrest.frames, hrest.callDepth⟩
  | clear => exact ⟨hrest.frames, hrest.callDepth⟩

theorem Reaches.atRest {host : Host} {callLimit : Nat} {input : List InputLine} {output : Output}
    {state : State} (hreached : Reaches host callLimit input output state) : AtRest state := by
  induction hreached with
  | start => exact ⟨rfl, rfl⟩
  | step _ hstep ih => exact hstep.atRest ih

end Session

/-! ## The result -/

/-- **Frames are balanced and changes are local.**  However it ends, an expression leaves the
stack as it was, a statement and a block change it only locally.  The frame left after a call is
that of the call, over the caller's own frames; the frame left after a loop is that of the loop.
In a session there is no frame, and no call under way, after any step. -/
theorem stack_balanced :
    (∀ (fuel : Nat) (tree : Expression) (state later : State),
      (Eval.expression fuel tree state).state? = some later → SameStack state later) ∧
    (∀ (fuel : Nat) (tree : Statement) (state later : State),
      (Eval.statement fuel tree state).state? = some later → LocalChange state later) ∧
    (∀ (fuel : Nat) (body : Block) (state later : State),
      (Eval.block fuel body state).state? = some later → LocalChange state later) ∧
    (∀ (fuel : Nat) (function : Function) (arguments : List Value) (state entered later : State),
      state.enterCall function arguments = .ok entered →
      (Eval.block fuel function.body entered).state? = some later →
      ∃ frame, frame.kind = .call function.name ∧
        later.scope.frames = frame :: state.scope.frames) ∧
    (∀ (fuel : Nat) (keyword : LoopKeyword) (body : Action Flow) (state later : State),
      Eval.LoopBody fuel keyword body →
      (body (state.enterLoop keyword)).state? = some later →
      ∃ frame rest, frame.kind = .loop keyword ∧ later.scope.frames = frame :: rest ∧
        rest.map Frame.kind = state.scope.frames.map Frame.kind) ∧
    (∀ (host : Host) (callLimit : Nat) (input : List InputLine) (output : Output)
      (state : State), Session.Reaches host callLimit input output state →
      state.scope.depth = 0 ∧ state.scope.callDepth = 0) := by
  -- the first three are the discipline itself; the frames that are left are read off it for the
  -- body
  refine ⟨?_, ?_, ?_, ?_, ?_, ?_⟩
  · intro fuel tree
    exact (balance.kept fuel).expression tree
  · intro fuel tree
    exact (balance.kept fuel).statement tree
  · intro fuel body
    exact (balance.kept fuel).block body
  · intro fuel function arguments state entered later hentered hends
    exact frames_at_leaveCall hentered ((balance.kept fuel).block _ entered later hends)
  · intro fuel keyword body state later hbody hends
    exact frames_at_leaveLoop (hbody.keeps _ later hends)
  · intro host callLimit input output state hreached
    have hrest := hreached.atRest
    exact ⟨by rw [Scope.depth, hrest.frames, List.length_nil], hrest.callDepth⟩

/-- A function that fails in the frame of a `do`, because it stores into a field of nil. -/
def Function.failing : Function where
  name := "f"
  parameters := ["a"]
  body := .mk [.do_ (.mk [.declare "b" .start (.nil .start) .start,
    .assign "a" [.string "x" .start] (.nil .start) .start] none) .start] none
  position := .start

/-- A state inside a loop of a call, in which that function is defined. -/
def State.insideLoop : State where
  scope :=
    { Scope.start 5 with
      functions := Bindings.empty.insert "f" Function.failing
      frames := [⟨.loop .while_, Bindings.empty.insert "i" (.integer 1)⟩,
        ⟨.call "g", Bindings.empty.insert "c" .nil⟩]
      callDepth := 1 }
  heap := .start .plain
  input := []
  output := .silent

/-- The call fails three frames deep, and the stack is as it was. -/
theorem stack_balanced_at_fault : ∃ fault later,
    Eval.expression 20 (.invoke (.call "f" [] .start)) .insideLoop = .failed fault later ∧
      SameStack .insideLoop later := by
  refine ⟨_, _, rfl, ?_⟩
  exact stack_balanced.1 20 (.invoke (.call "f" [] .start)) .insideLoop _ rfl

end TableScript
