import TableScript.Proofs.Syntax.Soundness.Programs

/-!
# What a tree keeps of its tokens

Every node of a tree keeps a place for messages about it, and a number literal keeps the text that
it was written with, which is read when the literal is evaluated.  These are the *marks* of a tree:
those of the node itself, of its parts, and of the functions defined inside it.  The readers make up
no marks, so that each is a mark of one of the tokens that write the tree (`Written.markedBy`).
-/

namespace TableScript

/-- A number literal, which is read when it is evaluated. -/
structure NumberLiteral where
  form : NumberForm
  text : String
  deriving DecidableEq, Repr

/-- Something that a node of a tree keeps of the text. -/
inductive Mark where
  /-- The place of the node. -/
  | place (position : Position)
  /-- The node is a number literal. -/
  | number (literal : NumberLiteral)

/-- The number literal that is kept, if it is one. -/
def Mark.number? : Mark → Option NumberLiteral
  | place _ => none
  | number literal => some literal

namespace Token

/-- The number literal that a token stands for. -/
def numberLiteral? : Token → Option NumberLiteral
  | ⟨.integer text, _⟩ => some ⟨.integer, text⟩
  | ⟨.float text, _⟩ => some ⟨.float, text⟩
  | _ => none

/-- What can be kept of a token. -/
def marks (token : Token) : List Mark :=
  .place token.position :: token.numberLiteral?.toList.map .number

end Token

/-! ## All marks -/

mutual

/-- All marks in an expression. -/
def Expression.marks : Expression → List Mark
  | .nil position | .boolean _ position | .string _ position => [.place position]
  | .number form text position => [.place position, .number ⟨form, text⟩]
  | .variable _ path position => .place position :: Expression.marksOfEach path
  | .table fields position => .place position :: Field.marksOfEach fields
  | .invoke invocation => invocation.marks
  | .binary _ left right position => .place position :: (left.marks ++ right.marks)
  | .unary _ operand position => .place position :: operand.marks
  | .parenthesized inner position => .place position :: inner.marks

def Expression.marksOfEach : List Expression → List Mark
  | [] => []
  | first :: rest => first.marks ++ Expression.marksOfEach rest

def Expression.marksOfOption : Option Expression → List Mark
  | none => []
  | some value => value.marks

/-- All marks in an invocation. -/
def Invocation.marks : Invocation → List Mark
  | .call _ arguments position => .place position :: Expression.marksOfEach arguments
  | .print arguments position => .place position :: Expression.marksOfEach arguments
  | .read format position => .place position :: Expression.marksOfOption format

def Field.marks : Field → List Mark
  | .positional value => value.marks
  | .keyed key value => key.marks ++ value.marks

def Field.marksOfEach : List Field → List Mark
  | [] => []
  | first :: rest => first.marks ++ Field.marksOfEach rest

end

/-- All marks in a `return`. -/
def Return.marks (result : Return) : List Mark :=
  .place result.position :: Expression.marksOfEach result.values

def Return.marksOfOption : Option Return → List Mark
  | none => []
  | some result => result.marks

mutual

/-- All marks in a statement. -/
def Statement.marks : Statement → List Mark
  | .empty position | .break_ position => [.place position]
  | .declare _ namePosition value position =>
    .place position :: .place namePosition :: value.marks
  | .assign _ path value position =>
    .place position :: (Expression.marksOfEach path ++ value.marks)
  | .choose options otherwise position =>
    .place position :: (Branch.marksOfEach options ++ Block.marksOfOption otherwise)
  | .define _ _ body position => .place position :: body.marks
  | .while_ condition body position => .place position :: (condition.marks ++ body.marks)
  | .repeat_ body condition position => .place position :: (body.marks ++ condition.marks)
  | .for_ _ start limit step body position =>
    .place position ::
      (start.marks ++ limit.marks ++ Expression.marksOfOption step ++ body.marks)
  | .do_ body position => .place position :: body.marks
  | .invoke invocation => invocation.marks

def Statement.marksOfEach : List Statement → List Mark
  | [] => []
  | first :: rest => first.marks ++ Statement.marksOfEach rest

def Branch.marksOfEach : List Branch → List Mark
  | [] => []
  | .mk condition body :: rest => condition.marks ++ body.marks ++ Branch.marksOfEach rest

def Block.marksOfOption : Option Block → List Mark
  | none => []
  | some body => body.marks

/-- All marks in a block. -/
def Block.marks : Block → List Mark
  | .mk statements result => Statement.marksOfEach statements ++ Return.marksOfOption result

end

/-- All number literals in a block. -/
def Block.literals (block : Block) : List NumberLiteral := block.marks.filterMap Mark.number?

theorem Block.mem_literals_iff {block : Block} {literal : NumberLiteral} :
    literal ∈ block.literals ↔ .number literal ∈ block.marks := by
  rw [literals, List.mem_filterMap]
  constructor
  · rintro ⟨position | found, hmark, hnumber⟩
    · cases hnumber
    · cases hnumber
      exact hmark
  · exact fun hmark => ⟨.number literal, hmark, rfl⟩

/-- The place that messages about an invocation name is one of its marks. -/
theorem Invocation.place_mem_marks (invocation : Invocation) :
    .place invocation.position ∈ invocation.marks := by
  cases invocation <;> exact List.mem_cons_self

/-- The place that messages about an expression name is one of its marks. -/
theorem Expression.place_mem_marks (tree : Expression) : .place tree.position ∈ tree.marks := by
  cases tree with
  | invoke invocation => exact invocation.place_mem_marks
  | _ => exact List.mem_cons_self

/-! ## The marks of what is read -/

/-- All marks in a phrase are among the given ones.  Where a left operand was read before, this is
said of its marks too. -/
def Phrase.MarkedBy (allowed : List Mark) : Phrase → Prop
  | .expression _ value | .primary value => value.marks ⊆ allowed
  | .continuation _ left value => left.marks ⊆ allowed → value.marks ⊆ allowed
  | .path keys => Expression.marksOfEach keys ⊆ allowed
  | .expressionList values | .arguments values => Expression.marksOfEach values ⊆ allowed
  | .fields trees => Field.marksOfEach trees ⊆ allowed
  | .field tree => tree.marks ⊆ allowed
  | .invocation tree => tree.marks ⊆ allowed
  | .format value | .step value => Expression.marksOfOption value ⊆ allowed
  | .parameters _ => True
  | .result last => last.marks ⊆ allowed
  | .block _ body => body.marks ⊆ allowed
  | .statements _ trees => Statement.marksOfEach trees ⊆ allowed
  | .statement _ tree => tree.marks ⊆ allowed
  | .branches _ options otherwise =>
    Branch.marksOfEach options ++ Block.marksOfOption otherwise ⊆ allowed

/-- A token that writes an expression by itself gives it its own marks. -/
theorem Token.marks_of_literal? {token : Token} {value : Expression}
    (hliteral : token.literal? = some value) : value.marks = token.marks := by
  unfold Token.literal? at hliteral
  split at hliteral <;> cases hliteral <;> rfl

/-- **All marks in what is read are marks of tokens** that write it. -/
theorem Written.markedBy {phrase : Phrase} {tokens : List Token} (hwritten : Written phrase tokens)
    {allowed : List Mark} (htokens : tokens.flatMap Token.marks ⊆ allowed) :
    phrase.MarkedBy allowed := by
  induction hwritten with
  | literal hliteral =>
      rw [Phrase.MarkedBy, Token.marks_of_literal? hliteral]
      simpa using htokens
  | chained hleft _ _ ihFirst ihRest =>
      simp only [List.flatMap_append, List.append_subset] at htokens
      exact ihRest htokens.2 (ihFirst htokens.1)
  | continuation_end => exact id
  | continuation_operator hlevel _ _ ihRight ihRest =>
      simp only [List.flatMap_cons, List.flatMap_append, List.append_subset, Token.marks,
        List.cons_subset] at htokens
      obtain ⟨⟨hplace, -⟩, hbefore, hafter⟩ := htokens
      intro hleft
      -- the operation so far has the marks of both operands and the place of the operator
      refine ihRest hafter ?_
      simp only [Expression.marks, List.cons_subset, List.append_subset]
      exact ⟨hplace, hleft, ihRight hbefore⟩
  | _ =>
      -- no other rule has number tokens of its own: places apart, the marks are those of the parts
      simp_all [Phrase.MarkedBy, Token.marks, Token.numberLiteral?, Expression.marks,
        Expression.marksOfEach, Expression.marksOfOption, Invocation.marks, Field.marks,
        Field.marksOfEach, Return.marks, Return.marksOfOption, Statement.marks,
        Statement.marksOfEach, Branch.marksOfEach, Block.marks, Block.marksOfOption]

/-- All marks in a program that is read are marks of its tokens. -/
theorem exists_token_of_parse {tokens : Tokens} {program : Block}
    (hparse : parse tokens = .ok program) {mark : Mark} (hmark : mark ∈ program.marks) :
    ∃ token ∈ tokens.list, mark ∈ token.marks :=
  List.mem_flatMap.mp ((written_of_parse hparse).markedBy (List.Subset.refl _) hmark)

/-- All number literals in a program that is read are tokens of it. -/
theorem exists_token_of_literal {tokens : Tokens} {program : Block}
    (hparse : parse tokens = .ok program) {literal : NumberLiteral}
    (hliteral : literal ∈ program.literals) :
    ∃ token ∈ tokens.list, token.numberLiteral? = some literal := by
  obtain ⟨token, hmember, hmark⟩ :=
    exists_token_of_parse hparse (Block.mem_literals_iff.mp hliteral)
  exact ⟨token, hmember, by simpa [Token.marks] using hmark⟩

end TableScript
