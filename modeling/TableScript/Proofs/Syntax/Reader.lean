import TableScript.Tree.Parser

/-!
# When a reader accepts

For each basic reader, exactly when it accepts and what it leaves.  A statement about a reader that
is built from these is opened from the left, one reader at a time; read in the other direction the
same statements put an acceptance together.
-/

namespace TableScript.Reader

variable {α β : Type}

@[simp] theorem bind_eq_accepted {reader : Reader α} {next : α → Reader β}
    {tokens rest : List Token} {value : β} :
    (reader >>= next) tokens = .accepted value rest ↔
      ∃ first middle, reader tokens = .accepted first middle ∧
        next first middle = .accepted value rest := by
  change Reader.bind reader next tokens = _ ↔ _
  unfold Reader.bind
  cases reader tokens with
  | accepted first middle =>
      constructor
      · intro hnext
        exact ⟨first, middle, rfl, hnext⟩
      · rintro ⟨_, _, heq, hnext⟩
        cases heq
        exact hnext
  | rejected problem rest => simp
  | exhausted => simp

@[simp] theorem pure_eq_accepted {first value : α} {tokens rest : List Token} :
    (pure first : Reader α) tokens = .accepted value rest ↔ first = value ∧ tokens = rest := by
  change Parsed.accepted first tokens = _ ↔ _
  simp

@[simp] theorem exhausted_ne_accepted {value : α} {tokens rest : List Token} :
    ¬ (exhausted : Reader α) tokens = .accepted value rest := by
  simp [exhausted]

@[simp] theorem refuse_ne_accepted {problem : Option Token.Kind → Problem} {value : α}
    {tokens rest : List Token} :
    ¬ (refuse problem : Reader α) tokens = .accepted value rest := by
  simp [refuse]

@[simp] theorem peek?_eq_accepted {kind : Option Token.Kind} {tokens rest : List Token} :
    peek? tokens = .accepted kind rest ↔ firstKind? tokens = kind ∧ tokens = rest := by
  simp [peek?]

@[simp] theorem expect_eq_accepted {kind : Token.Kind} {position : Position}
    {tokens rest : List Token} :
    expect kind tokens = .accepted position rest ↔ tokens = ⟨kind, position⟩ :: rest := by
  cases tokens with
  | nil => simp [expect]
  | cons token tokens =>
      obtain ⟨found, place⟩ := token
      by_cases hkind : found = kind <;> simp [expect, hkind]

@[simp] theorem expectName_eq_accepted {name : String × Position} {tokens rest : List Token} :
    expectName tokens = .accepted name rest ↔ tokens = ⟨.name name.1, name.2⟩ :: rest := by
  obtain ⟨name, position⟩ := name
  unfold expectName
  split
  · simp
  · next hname =>
      constructor
      · simp
      · rintro rfl
        exact absurd rfl (hname name position rest)

/-- A token that is asked for is taken if it is there. -/
@[simp] theorem accept_eq_true {kind : Token.Kind} {tokens rest : List Token} :
    accept kind tokens = .accepted true rest ↔ ∃ position, tokens = ⟨kind, position⟩ :: rest := by
  cases tokens with
  | nil => simp [accept]
  | cons token tokens =>
      obtain ⟨found, place⟩ := token
      by_cases hkind : found = kind <;> simp [accept, hkind]

/-- A token that is asked for and not there is not taken, and nothing else is. -/
@[simp] theorem accept_eq_false {kind : Token.Kind} {tokens rest : List Token} :
    accept kind tokens = .accepted false rest ↔ tokens = rest ∧ firstKind? tokens ≠ some kind := by
  cases tokens with
  | nil => simp [accept, firstKind?]
  | cons token tokens =>
      obtain ⟨found, place⟩ := token
      by_cases hkind : found = kind <;> simp [accept, firstKind?, hkind]

/-- A token that is asked for is there or not. -/
theorem accept_cases {kind : Token.Kind} {found : Bool} {tokens rest : List Token}
    (hfound : accept kind tokens = .accepted found rest) :
    (found = true ∧ ∃ place, tokens = ⟨kind, place⟩ :: rest) ∨
      (found = false ∧ tokens = rest ∧ firstKind? tokens ≠ some kind) := by
  cases found with
  | true => exact .inl ⟨rfl, accept_eq_true.mp hfound⟩
  | false => exact .inr ⟨rfl, accept_eq_false.mp hfound⟩

@[simp] theorem acceptMap_eq_some {select : Token.Kind → Option α} {value : α × Position}
    {tokens rest : List Token} :
    acceptMap select tokens = .accepted (some value) rest ↔
      ∃ kind, tokens = ⟨kind, value.2⟩ :: rest ∧ select kind = some value.1 := by
  obtain ⟨value, position⟩ := value
  cases tokens with
  | nil => simp [acceptMap]
  | cons token tokens =>
      obtain ⟨found, place⟩ := token
      cases hselect : select found with
      | none => simp [acceptMap, hselect]
      | some other => simp [acceptMap, hselect]; grind

@[simp] theorem acceptMap_eq_none {select : Token.Kind → Option α} {tokens rest : List Token} :
    acceptMap select tokens = .accepted none rest ↔
      tokens = rest ∧ (firstKind? tokens).bind select = none := by
  cases tokens with
  | nil => simp [acceptMap, firstKind?]
  | cons token tokens =>
      obtain ⟨found, place⟩ := token
      cases hselect : select found <;> simp [acceptMap, firstKind?, hselect]

end TableScript.Reader

namespace TableScript.Parser

/-! ## Recognizing calls -/

theorem afterReadCall?_eq_some {tokens rest : List Token} :
    afterReadCall? tokens = some rest ↔ ∃ place dot name opening,
      tokens = ⟨.name "io", place⟩ :: ⟨.symbol .dot, dot⟩ :: ⟨.name "read", name⟩ ::
        ⟨.symbol .openParen, opening⟩ :: rest := by
  unfold afterReadCall?
  split
  · constructor
    · intro hsome
      -- the two names are compared as texts, which the match on kinds cannot do
      split at hsome
      · next hnames =>
          obtain ⟨rfl, rfl⟩ := hnames
          cases hsome
          exact ⟨_, _, _, _, rfl⟩
      · cases hsome
    · rintro ⟨_, _, _, _, htokens⟩
      cases htokens
      simp
  · next hshape =>
      constructor
      · simp
      · rintro ⟨place, dot, name, opening, rfl⟩
        exact absurd rfl (hshape _ _ _ _ _ _ _)

theorem beginsInvocation_eq_true {tokens : List Token} :
    beginsInvocation tokens = true ↔
      (∃ name place opening rest,
        tokens = ⟨.name name, place⟩ :: ⟨.symbol .openParen, opening⟩ :: rest) ∨
      ∃ rest, afterReadCall? tokens = some rest := by
  unfold beginsInvocation
  split
  · simp
  · next hshape =>
      rw [Option.isSome_iff_exists]
      constructor
      · exact .inr
      · rintro (⟨name, place, opening, rest, rfl⟩ | hread)
        · exact absurd rfl (hshape name place opening rest)
        · exact hread

end TableScript.Parser
