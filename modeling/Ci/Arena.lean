-- Arenas. The parts of a program stand in numbered slots, and everything that
-- refers to a part holds its number. A slot is never given back, so a handle
-- that once led to a part leads to it for ever.

namespace Ci

/-- What a handle leads to. -/
inductive Kind where
  | file
  | expr
  | stmt
  | classDecl
  | enumDecl
  | const
  | field
  | method
  | var
deriving DecidableEq, Repr

/-- The number of a slot in the arena of one kind. -/
structure Handle (k : Kind) where
  index : UInt32
deriving DecidableEq, Repr

abbrev FileId := Handle .file
abbrev ExprId := Handle .expr
abbrev StmtId := Handle .stmt
abbrev ClassId := Handle .classDecl
abbrev EnumId := Handle .enumDecl
abbrev ConstId := Handle .const
abbrev FieldId := Handle .field
abbrev MethodId := Handle .method
abbrev VarId := Handle .var

namespace Handle

/-- The slot as a position. -/
def slot {k : Kind} (h : Handle k) : Nat := h.index.toNat

/-- The handle of a position. There are no handles beyond the last 32-bit word. -/
def ofSlot {k : Kind} (n : Nat) : Handle k := ⟨UInt32.ofNatClamp n⟩

end Handle

/-- The parts of one kind, in the order in which they came. -/
structure Arena (k : Kind) (α : Type) where
  items : Array α
deriving DecidableEq, Repr

namespace Arena

variable {k : Kind} {α : Type}

/-- No parts. -/
def empty : Arena k α := ⟨#[]⟩

instance : EmptyCollection (Arena k α) := ⟨empty⟩

/-- The number of parts. -/
def size (a : Arena k α) : Nat := a.items.size

/-- The part that a handle leads to, if it leads anywhere. -/
def get? (a : Arena k α) (h : Handle k) : Option α := a.items[h.slot]?

/-- Puts a part in place of the one that a handle leads to. -/
def set (a : Arena k α) (h : Handle k) (x : α) : Arena k α := ⟨a.items.setIfInBounds h.slot x⟩

/-- The handle that the next part gets. -/
def next (a : Arena k α) : Handle k := Handle.ofSlot a.size

/-- Adds a part at the end. -/
def push (a : Arena k α) (x : α) : Arena k α := ⟨a.items.push x⟩

/-- The handles of all the parts, in order. -/
def handles (a : Arena k α) : List (Handle k) := (List.range a.size).map Handle.ofSlot

/-- The parts, in order. -/
def toList (a : Arena k α) : List α := a.items.toList

/-- The arena with the given parts. -/
def ofList (xs : List α) : Arena k α := ⟨xs.toArray⟩

end Arena

end Ci
