-- The operators of expressions.
import Ci.Number.IntOp
import Ci.Number.Relation

namespace Ci

/-- An operator before its operand. -/
inductive PrefixOp where
  | increment
  | decrement
  | minus
  /-- Bitwise complement. -/
  | tilde
  /-- Logical not. -/
  | not
  | new
  /-- An upper bound that is not included, in a type. -/
  | less
  /-- An upper bound that is included, in a type. -/
  | lessOrEqual
deriving DecidableEq, Repr

/-- An operator after its operand. -/
inductive PostfixOp where
  | increment
  | decrement
  /-- The mark of a pointer through which one may write, in a type. -/
  | bang
deriving DecidableEq, Repr

/-- An operator between its operands, among them member access, calls, indexing and
assignments. -/
inductive BinaryOp where
  | dot
  | call
  | index
  | arith (op : IntOp)
  | equal
  | notEqual
  | order (r : Relation)
  | condAnd
  | condOr
  | assign
  /-- An assignment that first applies an operator. -/
  | update (op : IntOp)
deriving DecidableEq, Repr

namespace PrefixOp

def all : List PrefixOp := [increment, decrement, minus, tilde, not, new, less, lessOrEqual]

def name : PrefixOp → String
  | increment => "Increment"
  | decrement => "Decrement"
  | minus => "Minus"
  | tilde => "Tilde"
  | not => "Not"
  | new => "New"
  | less => "Less"
  | lessOrEqual => "LessOrEqual"

end PrefixOp

namespace PostfixOp

def all : List PostfixOp := [increment, decrement, bang]

def name : PostfixOp → String
  | increment => "Increment"
  | decrement => "Decrement"
  | bang => "Bang"

end PostfixOp

namespace IntOp

def name : IntOp → String
  | add => "Add"
  | sub => "Sub"
  | mul => "Mul"
  | div => "Div"
  | mod => "Mod"
  | and => "And"
  | or => "Or"
  | xor => "Xor"
  | shiftLeft => "ShiftLeft"
  | shiftRight => "ShiftRight"

/-- Operators that take integers only. -/
def integerOnly : IntOp → Bool
  | mod | and | or | xor | shiftLeft | shiftRight => true
  | _ => false

end IntOp

namespace Relation

def name : Relation → String
  | less => "Less"
  | lessOrEqual => "LessOrEqual"
  | greater => "Greater"
  | greaterOrEqual => "GreaterOrEqual"

end Relation

namespace BinaryOp

def all : List BinaryOp :=
  [dot, call, index] ++ IntOp.all.map arith
    ++ [equal, notEqual] ++ Relation.all.map order ++ [condAnd, condOr, assign]
    ++ IntOp.all.map update

def name : BinaryOp → String
  | dot => "Dot"
  | call => "Call"
  | index => "Index"
  | arith op => op.name
  | equal => "Equal"
  | notEqual => "NotEqual"
  | order r => r.name
  | condAnd => "CondAnd"
  | condOr => "CondOr"
  | assign => "Assign"
  | update op => op.name ++ "Assign"

/-- The operator on integers that the operator is. -/
def intOp? : BinaryOp → Option IntOp
  | arith op => some op
  | _ => none

/-- The operator that an assignment applies first. -/
def updateBase? : BinaryOp → Option BinaryOp
  | update op => some (arith op)
  | _ => none

/-- Assignments of both kinds. -/
def isAssignment : BinaryOp → Bool
  | assign => true
  | update _ => true
  | _ => false

/-- Operators that take integers only. -/
def isIntegerOnly : BinaryOp → Bool
  | arith op => op.integerOnly
  | _ => false

/-- Comparisons by order. -/
def isRelational : BinaryOp → Bool
  | order _ => true
  | _ => false

end BinaryOp

end Ci
