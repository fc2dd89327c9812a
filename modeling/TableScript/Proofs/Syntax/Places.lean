import TableScript.Tree.Parser

/-!
# Forgetting places

Trees and tokens carry places that depend on how a program is laid out.  `erase` puts every place of
a tree at the start of the text, so that two trees are the same up to places if they are equal after
it; `kindsOf` keeps the kinds of tokens only, and `stamp` gives tokens of given kinds back, all at
one place.
-/

namespace TableScript

/-! ## Trees without places -/

mutual

/-- An expression with all its places forgotten. -/
def Expression.erase : Expression → Expression
  | .nil _ => .nil .start
  | .boolean value _ => .boolean value .start
  | .number form text _ => .number form text .start
  | .string contents _ => .string contents .start
  | .variable name path _ => .variable name (Expression.eraseList path) .start
  | .table fields _ => .table (Field.eraseList fields) .start
  | .invoke invocation => .invoke invocation.erase
  | .binary operator left right _ => .binary operator left.erase right.erase .start
  | .unary operator operand _ => .unary operator operand.erase .start
  | .parenthesized inner _ => .parenthesized inner.erase .start

/-- The places in a list of expressions forgotten. -/
def Expression.eraseList : List Expression → List Expression
  | [] => []
  | first :: rest => first.erase :: Expression.eraseList rest

def Expression.eraseOption : Option Expression → Option Expression
  | none => none
  | some value => some value.erase

def Invocation.erase : Invocation → Invocation
  | .call callee values _ => .call callee (Expression.eraseList values) .start
  | .print values _ => .print (Expression.eraseList values) .start
  | .read format _ => .read (Expression.eraseOption format) .start

def Field.erase : Field → Field
  | .positional value => .positional value.erase
  | .keyed key value => .keyed key.erase value.erase

def Field.eraseList : List Field → List Field
  | [] => []
  | first :: rest => first.erase :: Field.eraseList rest

end

/-- A `return` with all its places forgotten. -/
def Return.erase (result : Return) : Return := ⟨Expression.eraseList result.values, .start⟩

mutual

/-- A statement with all its places forgotten. -/
def Statement.erase : Statement → Statement
  | .empty _ => .empty .start
  | .break_ _ => .break_ .start
  | .declare name _ value _ => .declare name .start value.erase .start
  | .assign name path value _ => .assign name (Expression.eraseList path) value.erase .start
  | .choose branches otherwise _ =>
    .choose (Branch.eraseList branches) (Block.eraseOption otherwise) .start
  | .define name parameters body _ => .define name parameters body.erase .start
  | .while_ condition body _ => .while_ condition.erase body.erase .start
  | .repeat_ body condition _ => .repeat_ body.erase condition.erase .start
  | .for_ name start limit step body _ =>
    .for_ name start.erase limit.erase (Expression.eraseOption step) body.erase .start
  | .do_ body _ => .do_ body.erase .start
  | .invoke invocation => .invoke invocation.erase

def Statement.eraseList : List Statement → List Statement
  | [] => []
  | first :: rest => first.erase :: Statement.eraseList rest

def Branch.erase : Branch → Branch
  | .mk condition body => .mk condition.erase body.erase

def Branch.eraseList : List Branch → List Branch
  | [] => []
  | first :: rest => first.erase :: Branch.eraseList rest

def Block.eraseOption : Option Block → Option Block
  | none => none
  | some body => some body.erase

/-- A block with all its places forgotten. -/
def Block.erase : Block → Block
  | .mk statements result => .mk (Statement.eraseList statements) (result.map Return.erase)

end

mutual

theorem Expression.erase_erase : ∀ value : Expression, value.erase.erase = value.erase
  | .nil _ | .boolean _ _ | .number _ _ _ | .string _ _ => rfl
  | .variable _ path _ => by
      rw [Expression.erase, Expression.erase, Expression.eraseList_eraseList path]
  | .table fields _ => by rw [Expression.erase, Expression.erase, Field.eraseList_eraseList fields]
  | .invoke invocation => by
      rw [Expression.erase, Expression.erase, Invocation.erase_erase invocation]
  | .binary _ left right _ => by
      rw [Expression.erase, Expression.erase, Expression.erase_erase left,
        Expression.erase_erase right]
  | .unary _ operand _ => by rw [Expression.erase, Expression.erase, Expression.erase_erase operand]
  | .parenthesized inner _ => by
      rw [Expression.erase, Expression.erase, Expression.erase_erase inner]

theorem Expression.eraseList_eraseList : ∀ values : List Expression,
    Expression.eraseList (Expression.eraseList values) = Expression.eraseList values
  | [] => rfl
  | value :: values => by
      rw [Expression.eraseList, Expression.eraseList, Expression.erase_erase value,
        Expression.eraseList_eraseList values]

theorem Expression.eraseOption_eraseOption : ∀ value : Option Expression,
    Expression.eraseOption (Expression.eraseOption value) = Expression.eraseOption value
  | none => rfl
  | some value => by
      rw [Expression.eraseOption, Expression.eraseOption, Expression.erase_erase value]

theorem Invocation.erase_erase : ∀ invocation : Invocation,
    invocation.erase.erase = invocation.erase
  | .call _ values _ => by
      rw [Invocation.erase, Invocation.erase, Expression.eraseList_eraseList values]
  | .print values _ => by
      rw [Invocation.erase, Invocation.erase, Expression.eraseList_eraseList values]
  | .read format _ => by
      rw [Invocation.erase, Invocation.erase, Expression.eraseOption_eraseOption format]

theorem Field.erase_erase : ∀ field : Field, field.erase.erase = field.erase
  | .positional value => by rw [Field.erase, Field.erase, Expression.erase_erase value]
  | .keyed key value => by
      rw [Field.erase, Field.erase, Expression.erase_erase key, Expression.erase_erase value]

theorem Field.eraseList_eraseList : ∀ fields : List Field,
    Field.eraseList (Field.eraseList fields) = Field.eraseList fields
  | [] => rfl
  | field :: fields => by
      rw [Field.eraseList, Field.eraseList, Field.erase_erase field,
        Field.eraseList_eraseList fields]

end

theorem Return.erase_erase (result : Return) : result.erase.erase = result.erase := by
  rw [Return.erase, Return.erase, Expression.eraseList_eraseList]

mutual

theorem Statement.erase_erase : ∀ statement : Statement, statement.erase.erase = statement.erase
  | .empty _ | .break_ _ => rfl
  | .declare _ _ value _ => by rw [Statement.erase, Statement.erase, value.erase_erase]
  | .assign _ path value _ => by
      rw [Statement.erase, Statement.erase, Expression.eraseList_eraseList path, value.erase_erase]
  | .choose branches otherwise _ => by
      rw [Statement.erase, Statement.erase, Branch.eraseList_eraseList branches,
        Block.eraseOption_eraseOption otherwise]
  | .define _ _ body _ => by rw [Statement.erase, Statement.erase, Block.erase_erase body]
  | .while_ condition body _ => by
      rw [Statement.erase, Statement.erase, condition.erase_erase, Block.erase_erase body]
  | .repeat_ body condition _ => by
      rw [Statement.erase, Statement.erase, Block.erase_erase body, condition.erase_erase]
  | .for_ _ start limit step body _ => by
      rw [Statement.erase, Statement.erase, start.erase_erase, limit.erase_erase,
        Expression.eraseOption_eraseOption step, Block.erase_erase body]
  | .do_ body _ => by rw [Statement.erase, Statement.erase, Block.erase_erase body]
  | .invoke invocation => by rw [Statement.erase, Statement.erase, invocation.erase_erase]

theorem Statement.eraseList_eraseList : ∀ statements : List Statement,
    Statement.eraseList (Statement.eraseList statements) = Statement.eraseList statements
  | [] => rfl
  | statement :: statements => by
      rw [Statement.eraseList, Statement.eraseList, Statement.erase_erase statement,
        Statement.eraseList_eraseList statements]

theorem Branch.eraseList_eraseList : ∀ branches : List Branch,
    Branch.eraseList (Branch.eraseList branches) = Branch.eraseList branches
  | [] => rfl
  | .mk condition body :: branches => by
      rw [Branch.eraseList, Branch.erase, Branch.eraseList, Branch.erase, condition.erase_erase,
        Block.erase_erase body, Branch.eraseList_eraseList branches]

theorem Block.eraseOption_eraseOption : ∀ body : Option Block,
    Block.eraseOption (Block.eraseOption body) = Block.eraseOption body
  | none => rfl
  | some body => by rw [Block.eraseOption, Block.eraseOption, Block.erase_erase body]

/-- Places are forgotten at once. -/
theorem Block.erase_erase : ∀ block : Block, block.erase.erase = block.erase
  | .mk statements none => by
      rw [Block.erase, Option.map_none, Block.erase, Statement.eraseList_eraseList statements,
        Option.map_none]
  | .mk statements (some result) => by
      rw [Block.erase, Option.map_some, Block.erase, Statement.eraseList_eraseList statements,
        Option.map_some, result.erase_erase]

end

/-! ## Tokens without places -/

/-- The kinds of a list of tokens. -/
def kindsOf (tokens : List Token) : List Token.Kind := tokens.map Token.kind

@[simp] theorem kindsOf_nil : kindsOf [] = [] := rfl

@[simp] theorem kindsOf_cons (token : Token) (rest : List Token) :
    kindsOf (token :: rest) = token.kind :: kindsOf rest := rfl

@[simp] theorem kindsOf_append (before after : List Token) :
    kindsOf (before ++ after) = kindsOf before ++ kindsOf after := List.map_append

theorem kindsOf_eq_cons {tokens : List Token} {kind : Token.Kind} {kinds : List Token.Kind} :
    kindsOf tokens = kind :: kinds ↔
      ∃ place rest, tokens = ⟨kind, place⟩ :: rest ∧ kindsOf rest = kinds := by
  constructor
  · intro hkinds
    obtain ⟨⟨found, place⟩, rest, rfl, rfl, hrest⟩ := List.map_eq_cons_iff.mp hkinds
    exact ⟨place, rest, rfl, hrest⟩
  · rintro ⟨place, rest, rfl, rfl⟩
    rfl

theorem firstKind?_eq {tokens : List Token} : firstKind? tokens = (kindsOf tokens).head? := by
  cases tokens <;> rfl

/-- Tokens of the given kinds, all at one place. -/
def stamp (kinds : List Token.Kind) : List Token := kinds.map fun kind => ⟨kind, .start⟩

@[simp] theorem stamp_nil : stamp [] = [] := rfl

@[simp] theorem stamp_cons (kind : Token.Kind) (kinds : List Token.Kind) :
    stamp (kind :: kinds) = ⟨kind, .start⟩ :: stamp kinds := rfl

@[simp] theorem stamp_append (before after : List Token.Kind) :
    stamp (before ++ after) = stamp before ++ stamp after := List.map_append

@[simp] theorem kindsOf_stamp (kinds : List Token.Kind) : kindsOf (stamp kinds) = kinds := by
  induction kinds with
  | nil => rfl
  | cons kind kinds ih => rw [stamp_cons, kindsOf_cons, ih]

end TableScript
