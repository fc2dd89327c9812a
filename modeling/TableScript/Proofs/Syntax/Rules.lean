import TableScript.Proofs.Syntax.Rests
import TableScript.Proofs.Syntax.Soundness.Programs

/-!
# The rules of the grammar

There is one reader for each rule of the grammar, and much can be said of all of them alike.  A
`Rule` names a reader, with what the reader is told besides the tokens, and is indexed by what the
reader gives; so a statement about every reader is one about every rule.
-/

namespace TableScript.Parser

open Reader

/-- The readers, by what they give. -/
inductive Rule : Type → Type where
  | expression (level : Level) : Rule Expression
  | chain (level : Level) (left : Expression) : Rule Expression
  | primary : Rule Expression
  | indexPath : Rule (List Expression)
  | expressionList : Rule (List Expression)
  | fieldList : Rule (List Field)
  | field : Rule Field
  | invocation : Rule Invocation
  | argumentList : Rule (List Expression)
  | readFormat : Rule (Option Expression)
  | parameterList : Rule (List String)
  | returnClause : Rule Return
  | declaration (position : Position) : Rule Statement
  | forStep : Rule (Option Expression)
  | block (inLoop : Bool) : Rule Block
  | statementList (inLoop : Bool) : Rule (List Statement)
  | statement (inLoop : Bool) : Rule Statement
  | branchList (inLoop : Bool) : Rule (List Branch × Option Block)

namespace Rule

/-- The reader of a rule. -/
def read (steps : Nat) : {α : Type} → Rule α → Reader α
  | _, .expression level => expressionAt steps level
  | _, .chain level left => Parser.chain steps level left
  | _, .primary => Parser.primary steps
  | _, .indexPath => Parser.indexPath steps
  | _, .expressionList => Parser.expressionList steps
  | _, .fieldList => Parser.fieldList steps
  | _, .field => Parser.field steps
  | _, .invocation => Parser.invocation steps
  | _, .argumentList => Parser.argumentList steps
  | _, .readFormat => Parser.readFormat steps
  | _, .parameterList => Parser.parameterList steps
  | _, .returnClause => Parser.returnClause steps
  | _, .declaration position => Parser.declaration steps position
  | _, .forStep => Parser.forStep steps
  | _, .block inLoop => Parser.block steps inLoop
  | _, .statementList inLoop => Parser.statementList steps inLoop
  | _, .statement inLoop => Parser.statement steps inLoop
  | _, .branchList inLoop => Parser.branchList steps inLoop

/-- Whether tokens write what the reader of a rule gives.  The first word of a declaration is not
among the tokens of its reader. -/
def Writes : {α : Type} → Rule α → α → List Token → Prop
  | _, .expression level, value => Written (.expression level value)
  | _, .chain level left, value => Written (.continuation level left value)
  | _, .primary, value => Written (.primary value)
  | _, .indexPath, value => Written (.path value)
  | _, .expressionList, value => Written (.expressionList value)
  | _, .fieldList, value => Written (.fields value)
  | _, .field, value => Written (.field value)
  | _, .invocation, value => Written (.invocation value)
  | _, .argumentList, value => Written (.arguments value)
  | _, .readFormat, value => Written (.format value)
  | _, .parameterList, value => Written (.parameters value)
  | _, .returnClause, value => Written (.result value)
  | _, .declaration position, value => fun tokens =>
    ∀ inLoop, Written (.statement inLoop value) (⟨.keyword .local_, position⟩ :: tokens)
  | _, .forStep, value => Written (.step value)
  | _, .block inLoop, value => Written (.block inLoop value)
  | _, .statementList inLoop, value => Written (.statements inLoop value)
  | _, .statement inLoop, value => Written (.statement inLoop value)
  | _, .branchList inLoop, value => Written (.branches inLoop value.1 value.2)

variable {α : Type} {steps : Nat}

/-- Every reader leaves the end of its tokens. -/
theorem trims (rule : Rule α) : Trims (rule.read steps) := by
  have hexpressions := expressionsTrim steps
  have hstatements := statementsTrim steps
  -- what was shown for each reader, by the name of its rule
  cases rule with
  | expression level => exact hexpressions.expressionAt level
  | chain level left => exact hexpressions.chain level left
  | primary => exact hexpressions.primary
  | indexPath => exact hexpressions.indexPath
  | expressionList => exact hexpressions.expressionList
  | fieldList => exact hexpressions.fieldList
  | field => exact hexpressions.field
  | invocation => exact hexpressions.invocation
  | argumentList => exact hexpressions.argumentList
  | readFormat => exact hexpressions.readFormat
  | parameterList => exact parameterList_trims steps
  | returnClause => exact returnClause_trims steps
  | declaration position => exact declaration_trims steps position
  | forStep => exact forStep_trims steps
  | block inLoop => exact hstatements.block inLoop
  | statementList inLoop => exact hstatements.statementList inLoop
  | statement inLoop => exact hstatements.statement inLoop
  | branchList inLoop => exact hstatements.branchList inLoop

/-- What a reader gives was written by the tokens that it took. -/
theorem writes_of_accepted (rule : Rule α) {value : α} {tokens rest : List Token}
    (hread : rule.read steps tokens = .accepted value rest) :
    ∃ taken, tokens = taken ++ rest ∧ rule.Writes value taken := by
  have hsound := sound steps
  cases rule with
  | expression level => exact hsound (.expression level value) hread
  | chain level left => exact hsound (.continuation level left value) hread
  | primary => exact hsound (.primary value) hread
  | indexPath => exact hsound (.path value) hread
  | expressionList => exact hsound (.expressionList value) hread
  | fieldList => exact hsound (.fields value) hread
  | field => exact hsound (.field value) hread
  | invocation => exact hsound (.invocation value) hread
  | argumentList => exact hsound (.arguments value) hread
  | readFormat => exact hsound (.format value) hread
  | parameterList => exact hsound (.parameters value) hread
  | returnClause => exact hsound (.result value) hread
  -- the word `local` was taken before the reader was called, so it is put in front and cancelled
  -- again
  | declaration position =>
      obtain ⟨taken, rfl⟩ := (declaration_trims steps position).of_accepted hread
      refine ⟨taken, rfl, fun inLoop => ?_⟩
      obtain ⟨written, hwritten, hdeclared⟩ :
          (Phrase.statement inLoop value).TakenFrom
            (⟨.keyword .local_, position⟩ :: (taken ++ rest)) rest :=
        declaration_sound hsound hread
      obtain rfl : ⟨.keyword .local_, position⟩ :: taken = written :=
        List.append_cancel_right hwritten
      exact hdeclared
  | forStep => exact hsound (.step value) hread
  | block inLoop => exact hsound (.block inLoop value) hread
  | statementList inLoop => exact hsound (.statements inLoop value) hread
  | statement inLoop => exact hsound (.statement inLoop value) hread
  | branchList inLoop => exact hsound (.branches inLoop value.1 value.2) hread

end Rule

end TableScript.Parser
