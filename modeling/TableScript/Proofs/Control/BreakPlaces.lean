import TableScript.Proofs.Control.Definitions
import TableScript.Proofs.Syntax.Soundness.Programs

/-!
# Where a break stands

For every `break` of a program, `breaks` lists what stands around it, from the inside out: branches
of choices, blocks with a frame of their own, loops and functions.  The readers accept a `break`
only where a loop comes before any function in this list.  So the `break` belongs to that loop, and
no block of a program and of its functions has a `break` that belongs to nothing in it.
-/

namespace TableScript

/-- What can stand around a statement. -/
inductive Surrounding where
  /-- A branch of a choice. -/
  | branch
  /-- A block with a frame of its own, which is no loop. -/
  | block
  /-- The block of a loop of one of the three kinds. -/
  | loop
  /-- The body of a function. -/
  | function
  deriving DecidableEq, Repr

/-! ## The places of all breaks -/

mutual

/-- For every `break` in a statement, what stands around it in the statement, from the inside
out. -/
def Statement.breaks : Statement → List (List Surrounding)
  | .break_ _ => [[]]
  | .choose options otherwise _ =>
    (Branch.breaksOfEach options ++ Block.breaksOfOption otherwise).map (· ++ [.branch])
  | .define _ _ body _ => body.breaks.map (· ++ [.function])
  | .while_ _ body _ => body.breaks.map (· ++ [.loop])
  | .repeat_ body _ _ => body.breaks.map (· ++ [.loop])
  | .for_ _ _ _ _ body _ => body.breaks.map (· ++ [.loop])
  | .do_ body _ => body.breaks.map (· ++ [.block])
  | .empty _ | .declare _ _ _ _ | .assign _ _ _ _ | .invoke _ => []

def Statement.breaksOfEach : List Statement → List (List Surrounding)
  | [] => []
  | first :: rest => first.breaks ++ Statement.breaksOfEach rest

def Branch.breaksOfEach : List Branch → List (List Surrounding)
  | [] => []
  | .mk _ body :: rest => body.breaks ++ Branch.breaksOfEach rest

def Block.breaksOfOption : Option Block → List (List Surrounding)
  | none => []
  | some body => body.breaks

/-- For every `break` in a block, what stands around it in the block, from the inside out. -/
def Block.breaks : Block → List (List Surrounding)
  | .mk statements _ => Statement.breaksOfEach statements

end

/-- There is a loop, and no function further in. -/
def InOwnLoop (around : List Surrounding) : Prop :=
  ∃ inner outer, around = inner ++ .loop :: outer ∧ .function ∉ inner

/-- There is neither a loop nor a function. -/
def Unbound (around : List Surrounding) : Prop :=
  ∀ place ∈ around, place = .branch ∨ place = .block

theorem InOwnLoop.append {around : List Surrounding} (hloop : InOwnLoop around)
    (further : List Surrounding) : InOwnLoop (around ++ further) := by
  obtain ⟨inner, outer, rfl, hinner⟩ := hloop
  exact ⟨inner, outer ++ further, by simp, hinner⟩

/-- A `break` with a loop of its own function around it has the loop before the function. -/
theorem Unbound.not_inOwnLoop {around : List Surrounding} (hunbound : Unbound around)
    (outer : List Surrounding) : ¬ InOwnLoop (around ++ .function :: outer) := by
  rintro ⟨inner, rest, heq, hinner⟩
  rcases List.append_eq_append_iff.mp heq with ⟨between, hbetween, htail⟩ | ⟨between, rfl, htail⟩
  · cases between with
    | nil => simp at htail
    | cons place between =>
        -- the function stands further in than the loop
        obtain ⟨rfl, -⟩ := List.cons_eq_cons.mp htail
        exact hinner (by simp [hbetween])
  · cases between with
    | nil => simp at htail
    | cons place between =>
        obtain ⟨rfl, -⟩ := List.cons_eq_cons.mp htail
        rcases hunbound .loop (by simp) with hplace | hplace <;> cases hplace

/-! ## What is read -/

/-- A `break` has a loop of its own function around it, or the flag promises one further out. -/
def Contained (inLoop : Bool) (around : List Surrounding) : Prop :=
  InOwnLoop around ∨ inLoop = true ∧ .function ∉ around

namespace Contained

variable {inLoop : Bool} {around : List Surrounding}

theorem append (hcontained : Contained inLoop around) {place : Surrounding}
    (hplace : place ≠ .function) : Contained inLoop (around ++ [place]) := by
  rcases hcontained with hloop | ⟨hinLoop, hfunction⟩
  · exact .inl (hloop.append [place])
  · exact .inr ⟨hinLoop, by simp [hfunction, hplace.symm]⟩

/-- In the block of a loop every `break` has its loop. -/
theorem loop (hcontained : Contained true around) : Contained inLoop (around ++ [.loop]) := by
  rcases hcontained with hloop | ⟨-, hfunction⟩
  · exact .inl (hloop.append [.loop])
  · exact .inl ⟨around, [], rfl, hfunction⟩

/-- The body of a function is read as if there were no loop around it. -/
theorem function (hcontained : Contained false around) :
    Contained inLoop (around ++ [.function]) := by
  rcases hcontained with hloop | ⟨hfalse, -⟩
  · exact .inl (hloop.append [.function])
  · cases hfalse

end Contained

/-- Every `break` of a phrase is contained, as far as the phrase has statements. -/
def Phrase.BreaksContained : Phrase → Prop
  | .block inLoop body => ∀ around ∈ body.breaks, Contained inLoop around
  | .statements inLoop trees => ∀ around ∈ Statement.breaksOfEach trees, Contained inLoop around
  | .statement inLoop tree => ∀ around ∈ tree.breaks, Contained inLoop around
  | .branches inLoop options otherwise =>
    ∀ around ∈ Branch.breaksOfEach options ++ Block.breaksOfOption otherwise,
      Contained inLoop around
  | _ => True

/-- Every `break` that is read has a loop of its own function around it, or is read where there is
one. -/
theorem Written.breaksContained {phrase : Phrase} {tokens : List Token}
    (hwritten : Written phrase tokens) : phrase.BreaksContained := by
  induction hwritten with
  | block_open _ ih => exact ih
  | block_result _ _ ihStatements _ => exact ihStatements
  | statements_end => simp [Phrase.BreaksContained, Statement.breaksOfEach]
  | statements_more _ _ ihFirst ihRest =>
      exact List.forall_mem_append.mpr ⟨ihFirst, ihRest⟩
  | branches_last _ _ _ ihBody =>
      simpa [Phrase.BreaksContained, Branch.breaksOfEach, Block.breaksOfOption] using ihBody
  | branches_else _ _ _ _ ihBody ihOtherwise =>
      simp only [Phrase.BreaksContained, Branch.breaksOfEach, Block.breaksOfOption,
        List.append_nil]
      exact List.forall_mem_append.mpr ⟨ihBody, ihOtherwise⟩
  | branches_more _ _ _ _ ihBody ihRest =>
      simp only [Phrase.BreaksContained, Branch.breaksOfEach, List.append_assoc]
      exact List.forall_mem_append.mpr ⟨ihBody, ihRest⟩
  -- the parser takes a `break` only where it stands in a loop
  | break_ =>
      intro around haround
      obtain rfl : around = [] := by simpa [Statement.breaks] using haround
      exact .inr ⟨rfl, by simp⟩
  -- what stands around is added at the far end: inside a function it ends the search for a loop
  | choose _ ih =>
      exact List.forall_mem_map.mpr fun around haround => (ih around haround).append (by simp)
  | define _ _ _ ih =>
      exact List.forall_mem_map.mpr fun around haround => (ih around haround).function
  | while_ _ _ _ ih | repeat_ _ _ ih _ | for_ _ _ _ _ _ _ _ ih =>
      exact List.forall_mem_map.mpr fun around haround => (ih around haround).loop
  | do_ _ ih =>
      exact List.forall_mem_map.mpr fun around haround => (ih around haround).append (by simp)
  | empty | declare | assign | perform => simp [Phrase.BreaksContained, Statement.breaks]
  | _ => exact True.intro

/-- **Every break of a program that is read belongs to a loop**, which stands around it in the same
function. -/
theorem inOwnLoop_of_parse {tokens : Tokens} {program : Block}
    (hparse : parse tokens = .ok program) : ∀ around ∈ program.breaks, InOwnLoop around := by
  intro around haround
  rcases (written_of_parse hparse).breaksContained around haround with hloop | ⟨hfalse, -⟩
  · exact hloop
  · cases hfalse

/-! ## The breaks of functions -/

/-- What stands further out does not change what stands around a function. -/
theorem exists_mem_map_append {breaks : List (List Surrounding)} {around : List Surrounding}
    (hbreaks : ∃ outer, around ++ .function :: outer ∈ breaks) (place : Surrounding) :
    ∃ outer, around ++ .function :: outer ∈ breaks.map (· ++ [place]) := by
  obtain ⟨outer, houter⟩ := hbreaks
  exact ⟨outer ++ [place], List.mem_map.mpr ⟨_, houter, by simp⟩⟩

theorem exists_mem_append {left right : List (List Surrounding)} {around : List Surrounding}
    (hbreaks : (∃ outer, around ++ .function :: outer ∈ left) ∨
      ∃ outer, around ++ .function :: outer ∈ right) :
    ∃ outer, around ++ .function :: outer ∈ left ++ right := by
  rcases hbreaks with ⟨outer, houter⟩ | ⟨outer, houter⟩
  · exact ⟨outer, List.mem_append_left _ houter⟩
  · exact ⟨outer, List.mem_append_right _ houter⟩

section Functions

variable {function : Function} {around : List Surrounding}

mutual

theorem Statement.breaks_of_mem_definitions
    (haround : around ∈ function.body.breaks) :
    (tree : Statement) → function ∈ tree.definitions →
      ∃ outer, around ++ .function :: outer ∈ tree.breaks
  | .choose options otherwise _, hfunction => by
    refine exists_mem_map_append (exists_mem_append ?_) .branch
    exact (List.mem_append.mp hfunction).imp (Branch.breaks_of_mem_definitions haround options)
      (Block.breaksOption_of_mem_definitions haround otherwise)
  | .define name parameters body position, hfunction => by
    rw [Statement.definitions] at hfunction
    -- the function is this one, or further in
    rcases List.mem_cons.mp hfunction with rfl | hbody
    · exact ⟨[], List.mem_map_of_mem haround⟩
    · exact exists_mem_map_append (Block.breaks_of_mem_definitions haround body hbody) .function
  | .while_ _ body _, hfunction =>
    exists_mem_map_append (Block.breaks_of_mem_definitions haround body hfunction) .loop
  | .repeat_ body _ _, hfunction =>
    exists_mem_map_append (Block.breaks_of_mem_definitions haround body hfunction) .loop
  | .for_ _ _ _ _ body _, hfunction =>
    exists_mem_map_append (Block.breaks_of_mem_definitions haround body hfunction) .loop
  | .do_ body _, hfunction =>
    exists_mem_map_append (Block.breaks_of_mem_definitions haround body hfunction) .block
  | .empty _, hfunction | .break_ _, hfunction | .declare _ _ _ _, hfunction
  | .assign _ _ _ _, hfunction | .invoke _, hfunction => by cases hfunction

theorem Statement.breaksOfEach_of_mem_definitions
    (haround : around ∈ function.body.breaks) :
    (trees : List Statement) → function ∈ Statement.definitionsOfEach trees →
      ∃ outer, around ++ .function :: outer ∈ Statement.breaksOfEach trees
  | [], hfunction => by cases hfunction
  | first :: rest, hfunction =>
    exists_mem_append ((List.mem_append.mp hfunction).imp
      (Statement.breaks_of_mem_definitions haround first)
      (Statement.breaksOfEach_of_mem_definitions haround rest))

theorem Branch.breaks_of_mem_definitions
    (haround : around ∈ function.body.breaks) :
    (options : List Branch) → function ∈ Branch.definitionsOfEach options →
      ∃ outer, around ++ .function :: outer ∈ Branch.breaksOfEach options
  | [], hfunction => by cases hfunction
  | .mk _ body :: rest, hfunction =>
    exists_mem_append ((List.mem_append.mp hfunction).imp
      (Block.breaks_of_mem_definitions haround body)
      (Branch.breaks_of_mem_definitions haround rest))

theorem Block.breaksOption_of_mem_definitions
    (haround : around ∈ function.body.breaks) :
    (otherwise : Option Block) → function ∈ Block.definitionsOfOption otherwise →
      ∃ outer, around ++ .function :: outer ∈ Block.breaksOfOption otherwise
  | none, hfunction => by cases hfunction
  | some body, hfunction => Block.breaks_of_mem_definitions haround body hfunction

/-- What stands around a `break` in a function stands around it in the block that defines the
function, with the function further out. -/
theorem Block.breaks_of_mem_definitions
    (haround : around ∈ function.body.breaks) :
    (body : Block) → function ∈ body.definitions →
      ∃ outer, around ++ .function :: outer ∈ body.breaks
  | .mk statements _, hfunction =>
    Statement.breaksOfEach_of_mem_definitions haround statements hfunction

end

end Functions

/-! ## Breaks that belong to nothing -/

/-- Some `break` has neither a loop nor a function around it. -/
def HasUnbound (breaks : List (List Surrounding)) : Prop := ∃ around ∈ breaks, Unbound around

namespace HasUnbound

variable {breaks left right : List (List Surrounding)}

theorem append_left (hleft : HasUnbound left) : HasUnbound (left ++ right) := by
  obtain ⟨around, haround, hunbound⟩ := hleft
  exact ⟨around, List.mem_append_left _ haround, hunbound⟩

theorem append_right (hright : HasUnbound right) : HasUnbound (left ++ right) := by
  obtain ⟨around, haround, hunbound⟩ := hright
  exact ⟨around, List.mem_append_right _ haround, hunbound⟩

/-- Neither a branch nor a block with its own frame binds a `break`. -/
theorem map_append {place : Surrounding} (hplace : place = .branch ∨ place = .block)
    (hbreaks : HasUnbound breaks) : HasUnbound (breaks.map (· ++ [place])) := by
  obtain ⟨around, haround, hunbound⟩ := hbreaks
  refine ⟨around ++ [place], List.mem_map_of_mem haround, ?_⟩
  intro other hother
  rcases List.mem_append.mp hother with hmember | hmember
  · exact hunbound other hmember
  · rwa [List.mem_singleton.mp hmember]

end HasUnbound

section Bound

variable {program : Block} (hbound : ∀ around ∈ program.breaks, InOwnLoop around)

include hbound

/-- Where every `break` has its loop, the program itself has none that belongs to nothing. -/
theorem not_hasUnbound_program : ¬ HasUnbound program.breaks := by
  rintro ⟨around, haround, hunbound⟩
  obtain ⟨inner, outer, rfl, -⟩ := hbound around haround
  rcases hunbound .loop (by simp) with hplace | hplace <;> cases hplace

/-- Nor has any of its functions. -/
theorem not_hasUnbound_function {function : Function} (hfunction : function ∈ program.definitions) :
    ¬ HasUnbound function.body.breaks := by
  rintro ⟨around, haround, hunbound⟩
  obtain ⟨outer, houter⟩ := Block.breaks_of_mem_definitions haround program hfunction
  exact hunbound.not_inOwnLoop outer (hbound _ houter)

end Bound

end TableScript
