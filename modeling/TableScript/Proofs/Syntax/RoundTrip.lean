import TableScript.Proofs.Syntax.Unparse

/-!
# Reading back what was written down

A normal tree is read back from its tokens, and the readers give nothing but normal trees.  Both go
through `Written`: the first is an induction on the tree, the second one on the rules.
-/

namespace TableScript

/-! ## What writes a normal tree -/

/-- A binary operator takes operands of the levels that its sides ask for. -/
theorem Written.binary {operator : BinaryOperator} {left right : Expression}
    {before after : List Token} {place : Position}
    (hleft : Written (.expression operator.leftLevel left) before)
    (hright : Written (.expression operator.rightLevel right) after) :
    Written (.expression operator.level (.binary operator left right place))
      (before ++ ⟨operator.token, place⟩ :: after) := by
  cases operator with
  | concat => exact .concatenation hleft hright
  | power => exact .power hleft hright
  | _ => exact Written.binary_left rfl hleft hright

/-- The expression is written by its tokens wherever any expression may stand. -/
def Expression.ReadsBack (value : Expression) : Prop :=
  Written (.expression .disjunction value.erase) (stamp value.unparse)

def Field.ReadsBack (field : Field) : Prop := Written (.field field.erase) (stamp field.unparse)

theorem written_unparsePath {keys : List Expression} (hkeys : ∀ key ∈ keys, key.ReadsBack) :
    Written (.path (Expression.eraseList keys)) (stamp (Expression.unparsePath keys)) := by
  induction keys with
  | nil => exact .path_end
  | cons key keys ih =>
      have hkey : key.ReadsBack := hkeys key List.mem_cons_self
      have hpath := ih fun other hother => hkeys other (List.mem_cons_of_mem _ hother)
      simp only [Expression.unparsePath, stamp_cons, stamp_append]
      exact .path_key hkey hpath

theorem written_unparseEach {value : Expression} {values : List Expression}
    (hvalues : ∀ other ∈ value :: values, other.ReadsBack) :
    Written (.expressionList (Expression.eraseList (value :: values)))
      (stamp ([.symbol .comma].intercalate (Expression.unparseEach (value :: values)))) := by
  induction values generalizing value with
  | nil =>
      have hvalue : value.ReadsBack := hvalues value List.mem_cons_self
      simpa [Expression.unparseEach, Expression.eraseList] using Written.expressionList_last hvalue
  | cons second values ih =>
      have hvalue : value.ReadsBack := hvalues value List.mem_cons_self
      have hrest := ih fun other hother => hvalues other (List.mem_cons_of_mem _ hother)
      simp only [Expression.unparseEach, List.intercalate_cons_cons, stamp_append, stamp_cons,
        List.append_assoc, List.cons_append, List.nil_append]
      exact .expressionList_more hvalue hrest

theorem written_unparseArguments {values : List Expression}
    (hvalues : ∀ value ∈ values, value.ReadsBack) :
    Written (.arguments (Expression.eraseList values))
      (stamp ([.symbol .comma].intercalate (Expression.unparseEach values) ++
        [.symbol .closeParen])) := by
  cases values with
  | nil => exact .arguments_none
  | cons value values =>
      rw [stamp_append]
      exact .arguments_some (written_unparseEach hvalues)

theorem written_unparseFields {fields : List Field} (hfields : ∀ field ∈ fields, field.ReadsBack) :
    Written (.fields (Field.eraseList fields))
      (stamp ([.symbol .comma].intercalate (Field.unparseEach fields))) := by
  induction fields with
  | nil => exact .fields_end
  | cons field fields ih =>
      have hfield : field.ReadsBack := hfields field List.mem_cons_self
      have hrest := ih fun other hother => hfields other (List.mem_cons_of_mem _ hother)
      cases fields with
      | nil => simpa [Field.unparseEach, Field.eraseList] using Written.fields_last hfield
      | cons second fields =>
          simp only [Field.unparseEach, List.intercalate_cons_cons, stamp_append, stamp_cons,
        List.append_assoc, List.cons_append, List.nil_append]
          exact .fields_more (.inl rfl) hfield hrest

mutual

/-- A normal expression is written by its tokens, at its own level. -/
theorem Expression.written_unparse : ∀ value : Expression, value.isNormal = true →
    Written (.expression value.level value.erase) (stamp value.unparse)
  | .nil _, _ => .atPrimary (.literal rfl)
  | .boolean true _, _ => .atPrimary (.literal rfl)
  | .boolean false _, _ => .atPrimary (.literal rfl)
  | .number .integer _ _, _ => .atPrimary (.literal rfl)
  | .number .float _ _, _ => .atPrimary (.literal rfl)
  | .string _ _, _ => .atPrimary (.literal rfl)
  | .variable name path _, hnormal => by
      have hpath := Expression.readsBack_each path (by simpa [Expression.isNormal] using hnormal)
      exact .atPrimary (.variable (written_unparsePath hpath))
  | .table fields _, hnormal => by
      have hfields := Field.readsBack_each fields (by simpa [Expression.isNormal] using hnormal)
      simp only [Expression.unparse, stamp_cons, stamp_append]
      exact .atPrimary (.table (written_unparseFields hfields))
  | .invoke invocation, hnormal => by
      have hinvocation := Invocation.written_unparse invocation
        (by simpa [Expression.isNormal] using hnormal)
      exact .atPrimary (.invoke hinvocation)
  -- the operands fit their levels, so no parentheses are needed around them
  | .binary operator left right _, hnormal => by
      simp only [Expression.isNormal, Expression.fits, Bool.and_eq_true,
        decide_eq_true_eq] at hnormal
      obtain ⟨⟨hleft, hleftFits⟩, hright, hrightFits⟩ := hnormal
      have hbefore := (Expression.written_unparse left hleft).loosen hleftFits
      have hafter := (Expression.written_unparse right hright).loosen hrightFits
      simp only [Expression.unparse, stamp_cons, stamp_append]
      exact .binary hbefore hafter
  | .unary operator operand _, hnormal => by
      simp only [Expression.isNormal, Expression.fits, Bool.and_eq_true,
        decide_eq_true_eq] at hnormal
      exact .unary ((Expression.written_unparse operand hnormal.1).loosen hnormal.2)
  | .parenthesized inner _, hnormal => by
      have hinner := Expression.written_unparse inner (by simpa [Expression.isNormal] using hnormal)
      simp only [Expression.unparse, stamp_cons, stamp_append]
      exact .atPrimary (.parenthesized hinner.loosest)

theorem Expression.readsBack_each : ∀ values : List Expression, Expression.areNormal values = true →
    ∀ value ∈ values, value.ReadsBack
  | [], _ => by simp
  | value :: values, hnormal => by
      simp only [Expression.areNormal, Bool.and_eq_true] at hnormal
      have hvalue := (Expression.written_unparse value hnormal.1).loosest
      have hrest := Expression.readsBack_each values hnormal.2
      exact List.forall_mem_cons.mpr ⟨hvalue, hrest⟩

theorem Expression.written_unparseFormat : ∀ format : Option Expression,
    Expression.isNormalOption format = true →
    Written (.format (Expression.eraseOption format))
      (stamp (Expression.unparseOption format ++ [.symbol .closeParen]))
  | none, _ => .format_none
  | some value, hnormal => by
      have hvalue := Expression.written_unparse value
        (by simpa [Expression.isNormalOption] using hnormal)
      rw [stamp_append]
      exact .format_some hvalue.loosest

theorem Invocation.written_unparse : ∀ invocation : Invocation, invocation.isNormal = true →
    Written (.invocation invocation.erase) (stamp invocation.unparse)
  | .call callee values _, hnormal => by
      simp only [Invocation.isNormal, Bool.and_eq_true, bne_iff_ne] at hnormal
      have hvalues := Expression.readsBack_each values hnormal.2
      exact .call hnormal.1 (written_unparseArguments hvalues)
  | .print values _, hnormal => by
      have hvalues := Expression.readsBack_each values
        (by simpa [Invocation.isNormal] using hnormal)
      exact .print (written_unparseArguments hvalues)
  | .read format _, hnormal => by
      have hformat := Expression.written_unparseFormat format
        (by simpa [Invocation.isNormal] using hnormal)
      exact .read hformat

theorem Field.readsBack : ∀ field : Field, field.isNormal = true → field.ReadsBack
  | .positional value, hnormal => by
      have hvalue := Expression.written_unparse value (by simpa [Field.isNormal] using hnormal)
      exact .field_positional hvalue.loosest
  | .keyed key value, hnormal => by
      simp only [Field.isNormal, Bool.and_eq_true] at hnormal
      have hkey := (Expression.written_unparse key hnormal.1).loosest
      have hvalue := (Expression.written_unparse value hnormal.2).loosest
      simp only [Field.ReadsBack, Field.unparse, stamp_cons, stamp_append]
      exact .field_keyed hkey hvalue

theorem Field.readsBack_each : ∀ fields : List Field, Field.areNormal fields = true →
    ∀ field ∈ fields, field.ReadsBack
  | [], _ => by simp
  | field :: fields, hnormal => by
      simp only [Field.areNormal, Bool.and_eq_true] at hnormal
      have hrest := Field.readsBack_each fields hnormal.2
      exact List.forall_mem_cons.mpr ⟨Field.readsBack field hnormal.1, hrest⟩

end

theorem Expression.readsBack {value : Expression} (hnormal : value.isNormal = true) :
    value.ReadsBack :=
  (value.written_unparse hnormal).loosest

theorem Return.written_unparse {result : Return}
    (hnormal : Expression.areNormal result.values = true) :
    Written (.result result.erase) (stamp result.unparse) := by
  obtain ⟨values, place⟩ := result
  cases values with
  | nil => exact .result_none (.inl rfl)
  | cons value values =>
      have hvalues := written_unparseEach (Expression.readsBack_each _ hnormal)
      have hresult : Written (.result ⟨_, .start⟩) (⟨.keyword .return_, .start⟩ :: (_ ++ [])) :=
        .result_some hvalues (.inl rfl)
      rwa [List.append_nil] at hresult

theorem Expression.written_unparseStep {step : Option Expression}
    (hnormal : Expression.isNormalOption step = true) :
    Written (.step (Expression.eraseOption step)) (stamp (Expression.unparseStep step)) := by
  cases step with
  | none => exact .step_none
  | some value => exact .step_some (Expression.readsBack hnormal)

def Block.ReadsBack (inLoop : Bool) (block : Block) : Prop :=
  Written (.block inLoop block.erase) (stamp block.unparse)

def Branch.ReadsBack (inLoop : Bool) : Branch → Prop
  | .mk condition body => condition.ReadsBack ∧ body.ReadsBack inLoop

theorem written_unparseBranches {inLoop : Bool} {branch : Branch} {branches : List Branch}
    {otherwise : Option Block} (hbranches : ∀ other ∈ branch :: branches, other.ReadsBack inLoop)
    (hotherwise : ∀ body ∈ otherwise, body.ReadsBack inLoop) :
    Written (.branches inLoop (Branch.eraseList (branch :: branches)) (Block.eraseOption otherwise))
      (stamp ([.keyword .elseif_].intercalate (Branch.unparseEach (branch :: branches)) ++
        Block.unparseElse otherwise)) := by
  -- `elseif` stands between the branches, so it is written from the second one on
  induction branches generalizing branch with
  | nil =>
      obtain ⟨condition, body⟩ := branch
      obtain ⟨hcondition, hbody⟩ := hbranches _ List.mem_cons_self
      rw [stamp_append]
      cases otherwise with
      | none =>
          simpa [Branch.unparseEach, Block.unparseElse, Branch.eraseList, Branch.erase,
            Block.eraseOption] using Written.branches_last hcondition hbody
      | some otherwise =>
          have hlast := hotherwise otherwise rfl
          simpa [Branch.unparseEach, Block.unparseElse, Branch.eraseList, Branch.erase,
            Block.eraseOption] using Written.branches_else hcondition hbody hlast
  | cons second branches ih =>
      obtain ⟨condition, body⟩ := branch
      obtain ⟨hcondition, hbody⟩ := hbranches _ List.mem_cons_self
      have hrest := ih fun other hother => hbranches other (List.mem_cons_of_mem _ hother)
      obtain ⟨next, nextBody⟩ := second
      simp only [Branch.unparseEach, List.intercalate_cons_cons, stamp_append, stamp_cons,
        List.append_assoc, List.cons_append, List.nil_append] at hrest ⊢
      exact .branches_more hcondition hbody hrest

mutual

/-- A normal statement is written by its tokens. -/
theorem Statement.written_unparse : ∀ (statement : Statement) (inLoop : Bool),
    statement.isNormal inLoop = true →
    Written (.statement inLoop statement.erase) (stamp statement.unparse)
  | .empty _, _, _ => .empty
  | .break_ _, inLoop, hnormal => by
      obtain rfl : inLoop = true := hnormal
      exact .break_
  | .declare name _ value _, _, hnormal => .declare (Expression.readsBack hnormal)
  | .assign name path value _, _, hnormal => by
      simp only [Statement.isNormal, Bool.and_eq_true] at hnormal
      have hpath := written_unparsePath (Expression.readsBack_each path hnormal.1)
      simp only [Statement.unparse, stamp_cons, stamp_append]
      exact .assign hpath (Expression.readsBack hnormal.2)
  | .choose [] _ _, _, hnormal => by simp [Statement.isNormal] at hnormal
  -- a choice without branches cannot be written, and is not normal
  | .choose (branch :: branches) otherwise _, inLoop, hnormal => by
      simp only [Statement.isNormal, Bool.and_eq_true] at hnormal
      obtain ⟨-, hbranches, hotherwise⟩ := hnormal
      have hwhole := written_unparseBranches (Branch.readsBack_each _ inLoop hbranches)
        (Block.readsBack_option otherwise inLoop hotherwise)
      simp only [Statement.unparse, stamp_cons, ← List.append_assoc]
      rw [stamp_append]
      exact .choose hwhole
  -- a function is outside of the loops around it
  | .define name parameters body _, _, hnormal => by
      have hbody := Block.readsBack body false hnormal
      simp only [Statement.unparse, stamp_cons, stamp_append]
      exact .define (written_parameters parameters) hbody
  | .while_ condition body _, _, hnormal => by
      simp only [Statement.isNormal, Bool.and_eq_true] at hnormal
      have hbody := Block.readsBack body true hnormal.2
      simp only [Statement.unparse, stamp_cons, stamp_append]
      exact .while_ (Expression.readsBack hnormal.1) hbody
  | .repeat_ body condition _, _, hnormal => by
      simp only [Statement.isNormal, Bool.and_eq_true] at hnormal
      have hbody := Block.readsBack body true hnormal.1
      simp only [Statement.unparse, stamp_cons, stamp_append]
      exact .repeat_ hbody (Expression.readsBack hnormal.2)
  | .for_ name start limit step body _, _, hnormal => by
      simp only [Statement.isNormal, Bool.and_eq_true] at hnormal
      obtain ⟨hstart, hlimit, hstep, hbody⟩ := hnormal
      have hblock := Block.readsBack body true hbody
      simp only [Statement.unparse, stamp_cons, stamp_append]
      exact .for_ (Expression.readsBack hstart) (Expression.readsBack hlimit)
        (Expression.written_unparseStep hstep) hblock
  | .do_ body _, inLoop, hnormal => by
      have hbody := Block.readsBack body inLoop hnormal
      simp only [Statement.unparse, stamp_cons, stamp_append]
      exact .do_ hbody
  | .invoke invocation, _, hnormal => .perform (invocation.written_unparse hnormal)

theorem Statement.written_unparseList : ∀ (statements : List Statement) (inLoop : Bool),
    Statement.areNormal inLoop statements = true →
    Written (.statements inLoop (Statement.eraseList statements))
      (stamp (Statement.unparseList statements))
  | [], _, _ => .statements_end
  | statement :: statements, inLoop, hnormal => by
      simp only [Statement.areNormal, Bool.and_eq_true] at hnormal
      have hstatement := Statement.written_unparse statement inLoop hnormal.1
      have hrest := Statement.written_unparseList statements inLoop hnormal.2
      simp only [Statement.unparseList, stamp_append]
      exact .statements_more hstatement hrest

theorem Branch.readsBack_each : ∀ (branches : List Branch) (inLoop : Bool),
    Branch.areNormal inLoop branches = true → ∀ branch ∈ branches, branch.ReadsBack inLoop
  | [], _, _ => by simp
  | .mk condition body :: branches, inLoop, hnormal => by
      simp only [Branch.areNormal, Bool.and_eq_true] at hnormal
      have hbody := Block.readsBack body inLoop hnormal.1.2
      have hrest := Branch.readsBack_each branches inLoop hnormal.2
      exact List.forall_mem_cons.mpr ⟨⟨Expression.readsBack hnormal.1.1, hbody⟩, hrest⟩

theorem Block.readsBack_option : ∀ (otherwise : Option Block) (inLoop : Bool),
    Block.isNormalOption inLoop otherwise = true → ∀ body ∈ otherwise, body.ReadsBack inLoop
  | none, _, _ => by simp
  | some body, inLoop, hnormal => by
      rintro _ ⟨⟩
      exact Block.readsBack body inLoop hnormal

/-- A normal block is written by its tokens. -/
theorem Block.readsBack : ∀ (block : Block) (inLoop : Bool), block.isNormal inLoop = true →
    block.ReadsBack inLoop
  | .mk statements none, inLoop, hnormal =>
      .block_open (Statement.written_unparseList statements inLoop hnormal)
  | .mk statements (some result), inLoop, hnormal => by
      simp only [Block.isNormal, Bool.and_eq_true] at hnormal
      have hstatements := Statement.written_unparseList statements inLoop hnormal.1
      simp only [Block.ReadsBack, Block.unparse, stamp_append]
      exact .block_result hstatements (Return.written_unparse hnormal.2)

end

/-! ## What is written is normal -/

/-- What a phrase says about the normality of its tree. -/
def Phrase.Normal : Phrase → Prop
  | .expression level value => value.isNormal = true ∧ value.fits level = true
  | .continuation level left value => level.associatesLeft = true →
      left.isNormal = true ∧ left.fits level = true →
        value.isNormal = true ∧ value.fits level = true
  | .primary value => value.isNormal = true ∧ value.level = .primary
  | .path values | .expressionList values | .arguments values => Expression.areNormal values = true
  | .fields values => Field.areNormal values = true
  | .field value => value.isNormal = true
  | .invocation value => value.isNormal = true
  | .format value | .step value => Expression.isNormalOption value = true
  | .parameters _ => True
  | .result value => Expression.areNormal value.values = true
  | .block inLoop value => value.isNormal inLoop = true
  | .statements inLoop values => Statement.areNormal inLoop values = true
  | .statement inLoop value => value.isNormal inLoop = true
  | .branches inLoop values otherwise => values ≠ [] ∧
      Branch.areNormal inLoop values = true ∧ Block.isNormalOption inLoop otherwise = true

theorem Expression.fits_of_next {value : Expression} {level : Level}
    (hfits : value.fits level.next = true) :
    value.fits level = true := by
  simp only [Expression.fits, decide_eq_true_eq] at hfits ⊢
  by_cases hprimary : level = .primary
  · subst hprimary
    exact hfits
  · have hnext := Level.rank_next hprimary
    omega

theorem Token.isNormal_of_literal? {token : Token} {value : Expression}
    (hliteral : token.literal? = some value) : value.isNormal = true ∧ value.level = .primary := by
  obtain ⟨kind, place⟩ := token
  cases kind with
  | keyword word => cases word <;> cases hliteral <;> exact ⟨rfl, rfl⟩
  | symbol mark => cases hliteral
  | name text => cases hliteral
  | _ =>
      cases hliteral
      exact ⟨rfl, rfl⟩

/-- A left-associative operator after a left operand of its level. -/
theorem Expression.isNormal_binary_left {operator : BinaryOperator} {left right : Expression}
    {place : Position} (hassociates : operator.level.associatesLeft = true)
    (hleft : left.isNormal = true ∧ left.fits operator.level = true)
    (hright : right.isNormal = true ∧ right.fits operator.level.next = true) :
    (Expression.binary operator left right place).isNormal = true := by
  have hleftLevel : operator.leftLevel = operator.level := if_pos hassociates
  have hrightLevel : operator.rightLevel = operator.level.next := by
    cases operator with
    | concat => cases hassociates
    | power => cases hassociates
    | _ => rfl
  simp only [Expression.isNormal, hleftLevel, hrightLevel, hleft, hright, Bool.and_self]

/-- **Only normal trees are written.** -/
theorem Written.normal {phrase : Phrase} {tokens : List Token} (hwritten : Written phrase tokens) :
    phrase.Normal := by
  -- with an expression comes that it fits the level at which it is written
  induction hwritten with
  | literal hliteral => exact Token.isNormal_of_literal? hliteral
  | parenthesized _ ih => exact ⟨ih.1, rfl⟩
  | table _ ih => exact ⟨ih, rfl⟩
  | invoke _ ih => exact ⟨ih, rfl⟩
  | «variable» _ ih => exact ⟨ih, rfl⟩
  | atPrimary _ ih =>
      refine ⟨ih.1, ?_⟩
      rw [Expression.fits, ih.2]
      rfl
  | power _ _ ihBase ihExponent =>
      refine ⟨?_, rfl⟩
      simp only [Expression.isNormal, Bool.and_eq_true]
      exact ⟨ihBase, ihExponent⟩
  | unary _ ih =>
      refine ⟨?_, rfl⟩
      simp only [Expression.isNormal, Bool.and_eq_true]
      exact ih
  | concatenation _ _ ihLeft ihRight =>
      refine ⟨?_, rfl⟩
      simp only [Expression.isNormal, Bool.and_eq_true]
      exact ⟨ihLeft, ihRight⟩
  | tighter _ _ _ ih => exact ⟨ih.1, Expression.fits_of_next ih.2⟩
  | chained hleft _ _ ihFirst ihRest =>
      exact ihRest hleft ⟨ihFirst.1, Expression.fits_of_next ihFirst.2⟩
  | continuation_end => exact fun _ hvalue => hvalue
  -- each operator makes the operand of the next one, and that stands at the left of its level
  | continuation_operator hlevel _ _ ihRight ihRest =>
      subst hlevel
      intro hassociates hleft
      refine ihRest hassociates ⟨Expression.isNormal_binary_left hassociates hleft ihRight, ?_⟩
      simp only [Expression.fits, Expression.level, Nat.le_refl, decide_true]
  | path_end => rfl
  | path_name _ ih => exact ih
  | path_key _ _ ihKey ihPath =>
      simp only [Phrase.Normal, Expression.areNormal, Bool.and_eq_true]
      exact ⟨ihKey.1, ihPath⟩
  | expressionList_last _ ih =>
      simp only [Phrase.Normal, Expression.areNormal, Bool.and_true]
      exact ih.1
  | expressionList_more _ _ ihValue ihValues =>
      simp only [Phrase.Normal, Expression.areNormal, Bool.and_eq_true]
      exact ⟨ihValue.1, ihValues⟩
  | fields_end => rfl
  | fields_last _ ih =>
      simp only [Phrase.Normal, Field.areNormal, Bool.and_true]
      exact ih
  | fields_more _ _ _ ihField ihFields =>
      simp only [Phrase.Normal, Field.areNormal, Bool.and_eq_true]
      exact ⟨ihField, ihFields⟩
  | field_named _ ih => exact ih.1
  | field_keyed _ _ ihKey ihValue =>
      simp only [Phrase.Normal, Field.isNormal, Bool.and_eq_true]
      exact ⟨ihKey.1, ihValue.1⟩
  | field_positional _ ih => exact ih.1
  -- a call is one of `print` only by the rule for it, so the name is another
  | call hname _ ih =>
      simp only [Phrase.Normal, Invocation.isNormal, Bool.and_eq_true, bne_iff_ne]
      exact ⟨hname, ih⟩
  | print _ ih => exact ih
  | read _ ih => exact ih
  | arguments_none => rfl
  | arguments_some _ ih => exact ih
  | format_none => rfl
  | format_some _ ih => exact ih.1
  | parameters_end => trivial
  | parameters_last => trivial
  | parameters_more => trivial
  | result_none => rfl
  | result_some _ _ ih => exact ih
  | step_none => rfl
  | step_some _ ih => exact ih.1
  | block_open _ ih => exact ih
  | block_result _ _ ihStatements ihResult =>
      simp only [Phrase.Normal, Block.isNormal, Bool.and_eq_true]
      exact ⟨ihStatements, ihResult⟩
  | statements_end => rfl
  | statements_more _ _ ihStatement ihStatements =>
      simp only [Phrase.Normal, Statement.areNormal, Bool.and_eq_true]
      exact ⟨ihStatement, ihStatements⟩
  -- a list of branches is never empty
  | branches_last _ _ ihCondition ihBody =>
      refine ⟨by simp, ?_, rfl⟩
      simp only [Branch.areNormal, Bool.and_eq_true]
      exact ⟨⟨ihCondition.1, ihBody⟩, trivial⟩
  | branches_else _ _ _ ihCondition ihBody ihOtherwise =>
      refine ⟨by simp, ?_, ihOtherwise⟩
      simp only [Branch.areNormal, Bool.and_eq_true]
      exact ⟨⟨ihCondition.1, ihBody⟩, trivial⟩
  | branches_more _ _ _ ihCondition ihBody ihBranches =>
      refine ⟨by simp, ?_, ihBranches.2.2⟩
      simp only [Branch.areNormal, Bool.and_eq_true]
      exact ⟨⟨ihCondition.1, ihBody⟩, ihBranches.2.1⟩
  | empty => rfl
  | break_ => rfl
  | declare _ ih => exact ih.1
  | assign _ _ ihPath ihValue =>
      simp only [Phrase.Normal, Statement.isNormal, Bool.and_eq_true]
      exact ⟨ihPath, ihValue.1⟩
  | choose _ ih =>
      simp only [Phrase.Normal, Statement.isNormal, Bool.and_eq_true]
      exact ⟨by simpa using ih.1, ih.2⟩
  | define _ _ _ ih => exact ih
  | while_ _ _ ihCondition ihBody =>
      simp only [Phrase.Normal, Statement.isNormal, Bool.and_eq_true]
      exact ⟨ihCondition.1, ihBody⟩
  | repeat_ _ _ ihBody ihCondition =>
      simp only [Phrase.Normal, Statement.isNormal, Bool.and_eq_true]
      exact ⟨ihBody, ihCondition.1⟩
  | for_ _ _ _ _ ihStart ihLimit ihStep ihBody =>
      simp only [Phrase.Normal, Statement.isNormal, Bool.and_eq_true]
      exact ⟨ihStart.1, ihLimit.1, ihStep, ihBody⟩
  | do_ _ ih => exact ih
  | perform _ ih => exact ih

/-! ## Round trip -/

/-- **Reading is the inverse of writing.**  From tokens of the kinds that write a normal chunk, at
any places, the chunk is read, up to its places; and every chunk that is read is normal. -/
theorem parse_unparse (chunk : Block) (tokens : Tokens) :
    (chunk.isNormal false = true → kindsOf tokens.list = chunk.unparse →
      ∃ parsed, parse tokens = .ok parsed ∧ parsed.erase = chunk.erase) ∧
    (parse tokens = .ok chunk → chunk.isNormal false = true) := by
  constructor
  · intro hnormal hkinds
    -- read it at one place first, and then move the tokens
    have hread : parse ⟨stamp chunk.unparse, .start⟩ = .ok chunk.erase :=
      parse_eq_ok_iff.mpr (Block.readsBack chunk false hnormal)
    have hsame : kindsOf (stamp chunk.unparse) = kindsOf tokens.list := by
      rw [kindsOf_stamp, hkinds]
    obtain ⟨parsed, hparsed, herase⟩ := parse_alike hsame hread
    exact ⟨parsed, hparsed, herase.trans chunk.erase_erase⟩
  · -- what is read is written, and only normal trees are
    intro hparse
    exact (parse_eq_ok_iff.mp hparse).normal

/-- The tree of `while -a ^ -2 .. b .. c - 1 - d do break end`, without its places. -/
def loopOverOperators : Block :=
  let power : Expression :=
    .binary .power (.variable "a" [] .start)
      (.unary .negate (.number .integer "2" .start) .start) .start
  let difference : Expression :=
    .binary .subtract
      (.binary .subtract (.variable "c" [] .start) (.number .integer "1" .start) .start)
      (.variable "d" [] .start) .start
  let condition : Expression :=
    .binary .concat (.unary .negate power .start)
      (.binary .concat (.variable "b" [] .start) difference .start) .start
  .mk [.while_ condition (.mk [.break_ .start] none) .start] none

theorem parse_unparse_loopOverOperators :
    parse ⟨stamp loopOverOperators.unparse, .start⟩ = .ok loopOverOperators ∧
      loopOverOperators.isNormal false = true ∧
      ∃ parsed, parse ⟨stamp loopOverOperators.unparse, .start⟩ = .ok parsed ∧
        parsed.erase = loopOverOperators.erase := by
  have hread : parse ⟨stamp loopOverOperators.unparse, .start⟩ = .ok loopOverOperators := rfl
  have hnormal := (parse_unparse loopOverOperators _).2 hread
  exact ⟨hread, hnormal, (parse_unparse loopOverOperators _).1 hnormal (kindsOf_stamp _)⟩

end TableScript
