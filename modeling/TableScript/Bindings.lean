/-!
# Bindings of names

Names with what they are bound to.  A name is bound once: binding it again replaces what it was
bound to.  Variables and functions have names that are written; the name of a table is its address.
-/

namespace TableScript

/-- Names, each bound to something. -/
structure Bindings (ν α : Type) where
  entries : List (ν × α)
  deriving Inhabited

namespace Bindings

variable {ν α : Type}

/-- No names. -/
def empty : Bindings ν α := ⟨[]⟩

/-- Binds a name that was not bound. -/
def push (bindings : Bindings ν α) (name : ν) (value : α) : Bindings ν α :=
  ⟨(name, value) :: bindings.entries⟩

/-- The names that are bound. -/
def names (bindings : Bindings ν α) : List ν := bindings.entries.map Prod.fst

variable [DecidableEq ν]

/-- What the first entry with a name binds it to. -/
def findIn? (name : ν) : List (ν × α) → Option α
  | [] => none
  | (bound, value) :: rest => if bound = name then some value else findIn? name rest

/-- What a name is bound to. -/
def find? (bindings : Bindings ν α) (name : ν) : Option α := findIn? name bindings.entries

/-- Replaces what a name is bound to, or puts the name at the end. -/
def insertEntry (name : ν) (value : α) : List (ν × α) → List (ν × α)
  | [] => [(name, value)]
  | (bound, other) :: rest =>
    if bound = name then (bound, value) :: rest else (bound, other) :: insertEntry name value rest

/-- Binds a name. -/
def insert (bindings : Bindings ν α) (name : ν) (value : α) : Bindings ν α :=
  ⟨insertEntry name value bindings.entries⟩

theorem findIn?_insertEntry (name other : ν) (value : α) (entries : List (ν × α)) :
    findIn? other (insertEntry name value entries) =
      if name = other then some value else findIn? other entries := by
  induction entries with
  | nil => simp [insertEntry, findIn?]
  | cons entry rest ih => grind [insertEntry, findIn?]

/-- After a name is bound, it is found so, and other names are found as before. -/
theorem find?_insert (bindings : Bindings ν α) (name other : ν) (value : α) :
    (bindings.insert name value).find? other =
      if name = other then some value else bindings.find? other :=
  findIn?_insertEntry name other value bindings.entries

theorem find?_push (bindings : Bindings ν α) (name other : ν) (value : α) :
    (bindings.push name value).find? other =
      if name = other then some value else bindings.find? other :=
  rfl

end Bindings

end TableScript
