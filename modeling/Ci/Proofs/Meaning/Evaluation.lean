-- What expressions on integers and truth values mean. The value of an expression
-- is found from those of its operands. A name is read where it stands: a variable has
-- the value that it is given, and a constant that of its initializer, read where
-- the constant is declared.
import Ci.Proofs.Pass.Keeps

namespace Ci

/-! ## Values -/

/-- A value of an expression. -/
inductive Value where
  | int (n : Int64)
  | bool (b : Bool)
deriving DecidableEq, Repr

/-- The value that a literal is. -/
def Literal.value? : Literal → Option Value
  | .int n => some (.int n)
  | .bool b => some (.bool b)
  | _ => none

/-- The values that a variable of a type can have, for ranges, `int`, `long` and `bool`. -/
def Ty.Holds : Ty → Value → Prop
  | .range i, .int n => i.Mem n
  | .integer .int32, .int n => -2147483648 ≤ n ∧ n ≤ 2147483647
  | .integer .int64, .int _ => True
  | .bool, .bool _ => True
  | _, _ => False

/-- Ranges, `int`, `long` and `bool`. -/
def Ty.isScalar : Ty → Bool
  | .range _ | .integer _ | .bool => true
  | _ => false

/-! ## Operators -/

/-- The operators `-`, `~` and `!`. -/
def PrefixOp.isPlain : PrefixOp → Bool
  | .minus | .tilde | .not => true
  | _ => false

/-- Operators on numbers, comparisons, `&&` and `||`. -/
def BinaryOp.isPlain : BinaryOp → Bool
  | .arith _ | .equal | .notEqual | .order _ | .condAnd | .condOr => true
  | _ => false

/-- The value of an operator before its operand. The least word has no opposite. -/
def PrefixOp.eval : PrefixOp → Value → Option Value
  | .minus, .int a => (IntOp.exact (-a.toInt)).map .int
  | .tilde, .int a => some (.int (~~~a))
  | .not, .bool b => some (.bool !b)
  | _, _ => none

/-- Whether two values of one kind are equal. -/
def Value.equal? : Value → Value → Option Bool
  | .int a, .int b => some (a == b)
  | .bool a, .bool b => some (a == b)
  | _, _ => none

/-- The value of an operator that takes both its operands. -/
def BinaryOp.eval : BinaryOp → Value → Value → Option Value
  | .arith op, .int a, .int b => (op.eval a b).map .int
  | .equal, v, w => (v.equal? w).map .bool
  | .notEqual, v, w => (v.equal? w).map fun b => .bool !b
  | .order r, .int a, .int b => some (.bool (r.holds a b))
  | _, _, _ => none

/-- The value of a logical operator. If the left side decides, the right side needs no value. -/
def shortCircuit (decisive : Bool) : Option Value → Option Value → Option Value
  | some (.bool b), right =>
    if b = decisive then some (.bool b)
    else match right with
      | some (.bool c) => some (.bool c)
      | _ => none
  | _, _ => none

/-- The value of an operator between two operands. -/
def BinaryOp.combine : BinaryOp → Option Value → Option Value → Option Value
  | .condAnd, x, y => shortCircuit false x y
  | .condOr, x, y => shortCircuit true x y
  | op, x, y => do op.eval (← x) (← y)

/-- The value of a choice. The side that is not taken needs no value. -/
def choose : Option Value → Option Value → Option Value → Option Value
  | some (.bool true), onTrue, _ => onTrue
  | some (.bool false), _, onFalse => onFalse
  | _, _, _ => none

/-! ## Expressions -/

/-- What a symbol stands for, if it is a variable or a constant. -/
def Symbol.eval (env : VarId → Value) (const : ConstId → Option Value) : Symbol → Option Value
  | .var v => some (env v)
  | .const k => const k
  | _ => none

/-- The value of an expression, found from what names stand for and from the values of its
parts. -/
def Expr.eval (name : String → Option Symbol → Option Value) (part : ExprId → Option Value) :
    Expr → Option Value
  | .literal v => v.value?
  | .name text known => name text known
  | .before op inner => do op.eval (← part inner)
  | .binary op left (.expr right) => op.combine (part left) (part right)
  | .conditional cond onTrue onFalse => choose (part cond) (part onTrue) (part onFalse)
  | _ => none

/-- The parts of an expression that its value is found from. -/
def Expr.operands : Expr → List ExprId
  | .before op inner => if op.isPlain then [inner] else []
  | .binary op left (.expr right) => if op.isPlain then [left, right] else []
  | .conditional cond onTrue onFalse => [cond, onTrue, onFalse]
  | _ => []

/-- The value of an expression that is seen from a scope. It is said what a name stands for in a
scope, and from which scope a constant of an owner is read. The number bounds the depth. -/
def Program.evalVia (q : Program) (env : VarId → Value)
    (look : ScopeId → String → Option Symbol → Option Symbol) (home : ScopeId → Owner → ScopeId) :
    Nat → ScopeId → ExprId → Option Value
  | 0, _, _ => none
  | n + 1, scope, e => do
    let node ← q.exprs.get? e
    node.kind.eval
      (fun text known => do
        (← look scope text known).eval env fun k => do
          let d ← q.consts.get? k
          evalVia q env look home n (home scope d.owner) (← d.value))
      (evalVia q env look home n scope)

/-- The value of an expression by what its names are known to stand for. -/
def Program.valueWithin (q : Program) (env : VarId → Value) (n : Nat) (e : ExprId) : Option Value :=
  q.evalVia env (fun _ _ known => known) (fun scope _ => scope) n .program e

namespace Pass.State

/-- What a name stands for, as it is remembered or as it is looked up from a scope. -/
def denotes (s : State) (scope : ScopeId) (text : String) : Option Symbol → Option Symbol
  | some symbol => some symbol
  | none => (s.table.lookup scope text).toOption.join

/-- The scope in which a constant of an owner is declared. One of a body is declared here. -/
def home (s : State) (scope : ScopeId) : Owner → ScopeId
  | .program _ => .program
  | .classDecl c => (s.classScopes.get? c).getD .program
  | .enumDecl e => (s.enumScopes.get? e).getD .program
  | .body => scope

/-- The value of an expression that is seen from a scope, if the names in it are looked up. -/
def evalWithin (s : State) (env : VarId → Value) : Nat → ScopeId → ExprId → Option Value :=
  s.program.evalVia env s.denotes s.home

/-- The variables have values within their types. -/
def Admits (s : State) (env : VarId → Value) : Prop :=
  ∀ v d t, s.program.vars.get? v = some d → d.ty = some t → t.isScalar → t.Holds (env v)

end Pass.State

/-- An expression, seen from a scope, is built from integer and boolean literals, names of variables
that are ranges, `int`, `long` or `bool`, names of constants whose initializers are such expressions
where the constants are declared, and operators on them. The types that are declared for the
constants may be of any form. -/
inductive PlainExpr (s : Pass.State) : ScopeId → ExprId → Prop
  | literal {scope e node v} : s.program.exprs.get? e = some node → node.kind = .literal v →
    v.value?.isSome → PlainExpr s scope e
  | var {scope e node text known v d t} : s.program.exprs.get? e = some node →
    node.kind = .name text known → s.denotes scope text known = some (.var v) →
    s.program.vars.get? v = some d → d.ty = some t → t.isScalar → PlainExpr s scope e
  | const {scope e node text known k d value} : s.program.exprs.get? e = some node →
    node.kind = .name text known → s.denotes scope text known = some (.const k) →
    s.program.consts.get? k = some d → d.value = some value →
    PlainExpr s (s.home scope d.owner) value → PlainExpr s scope e
  | before {scope e node op inner} : s.program.exprs.get? e = some node →
    node.kind = .before op inner → op.isPlain → PlainExpr s scope inner → PlainExpr s scope e
  | binary {scope e node op left right} : s.program.exprs.get? e = some node →
    node.kind = .binary op left (.expr right) → op.isPlain → PlainExpr s scope left →
    PlainExpr s scope right → PlainExpr s scope e
  | conditional {scope e node cond onTrue onFalse} : s.program.exprs.get? e = some node →
    node.kind = .conditional cond onTrue onFalse → PlainExpr s scope cond →
    PlainExpr s scope onTrue → PlainExpr s scope onFalse → PlainExpr s scope e

/-- Every value of one expression is a value of another. -/
def Implies (x y : Option Value) : Prop := ∀ v, x = some v → y = some v

namespace Implies

variable {x y z x' y' x'' y'' : Option Value}

theorem refl (x : Option Value) : Implies x x := fun _ h => h

theorem trans (h : Implies x y) (h' : Implies y z) : Implies x z := fun v hv => h' v (h v hv)

theorem bind {f : Value → Option Value} (h : Implies x y) : Implies (x.bind f) (y.bind f) := by
  intro v hv
  obtain ⟨a, ha, hv⟩ := Option.bind_eq_some_iff.1 hv
  exact Option.bind_eq_some_iff.2 ⟨a, h a ha, hv⟩

theorem bind₂ {f : Value → Value → Option Value} (h : Implies x y) (h' : Implies x' y') :
    Implies (x.bind fun a => x'.bind (f a)) (y.bind fun a => y'.bind (f a)) := by
  intro v hv
  obtain ⟨a, ha, hv⟩ := Option.bind_eq_some_iff.1 hv
  exact Option.bind_eq_some_iff.2 ⟨a, h a ha, bind h' v hv⟩

theorem shortCircuit {decisive : Bool} (h : Implies x y) (h' : Implies x' y') :
    Implies (shortCircuit decisive x x') (shortCircuit decisive y y') := by
  intro v hv
  unfold Ci.shortCircuit at hv
  split at hv
  · rw [h _ rfl]
    unfold Ci.shortCircuit
    split at hv
    · simpa [*] using hv
    · split at hv
      · rw [h' _ rfl]
        simp [*]
      · cases hv
  · cases hv

theorem combine {op : BinaryOp} (h : Implies x y) (h' : Implies x' y') :
    Implies (op.combine x x') (op.combine y y') := by
  cases op with
  | condAnd => exact h.shortCircuit h'
  | condOr => exact h.shortCircuit h'
  | _ => exact h.bind₂ h'

theorem choose (h : Implies x y) (h' : Implies x' y') (h'' : Implies x'' y'') :
    Implies (choose x x' x'') (choose y y' y'') := by
  intro v hv
  unfold Ci.choose at hv
  split at hv
  · rw [h _ rfl]
    exact h' v hv
  · rw [h _ rfl]
    exact h'' v hv
  · cases hv

end Implies

theorem BinaryOp.combine_eq_none {op : BinaryOp} (h : op.isPlain = false) (x y : Option Value) :
    op.combine x y = none := by
  cases op <;> cases x <;> cases y <;> simp_all [combine, isPlain, eval]

theorem PrefixOp.eval_eq_none {op : PrefixOp} (h : op.isPlain = false) (v : Value) :
    op.eval v = none := by
  cases op <;> simp_all [eval, isPlain]

/-- The value of an expression stays if its operands have the values that they had. -/
theorem Expr.eval_implies {kind : Expr} {name name' : String → Option Symbol → Option Value}
    {part part' : ExprId → Option Value}
    (hn : ∀ text known, kind = .name text known → Implies (name text known) (name' text known))
    (hp : ∀ e ∈ kind.operands, Implies (part e) (part' e)) :
    Implies (kind.eval name part) (kind.eval name' part') := by
  cases kind with
  | literal => exact .refl _
  | name text known => exact hn text known rfl
  | before op inner =>
    by_cases hop : op.isPlain
    · exact (hp inner (by simp [operands, hop])).bind
    · simp [eval, Implies, PrefixOp.eval_eq_none (by simpa using hop)]
  | binary op left right =>
    cases right with
    | expr right =>
      by_cases hop : op.isPlain
      · exact (hp left (by simp [operands, hop])).combine (hp right (by simp [operands, hop]))
      · simp [eval, Implies, BinaryOp.combine_eq_none (by simpa using hop)]
    | _ => simp [eval, Implies]
  | conditional cond onTrue onFalse =>
    exact (hp cond (by simp [operands])).choose (hp onTrue (by simp [operands]))
      (hp onFalse (by simp [operands]))
  | after _ _ => simp [eval, Implies]
  | collection _ => simp [eval, Implies]
  | var _ => simp [eval, Implies]

section

variable {q q' : Program} {env : VarId → Value} {n n' : Nat} {scope scope' : ScopeId} {e : ExprId}
  {m : ExprNode} {look look' : ScopeId → String → Option Symbol → Option Symbol}
  {home home' : ScopeId → Owner → ScopeId} {s : Pass.State}

theorem Program.evalVia_eq (hm : q.exprs.get? e = some m) :
    q.evalVia env look home (n + 1) scope e = m.kind.eval
      (fun text known => (look scope text known).bind fun symbol => symbol.eval env fun k =>
        (q.consts.get? k).bind fun d =>
        d.value.bind (q.evalVia env look home n (home scope d.owner)))
      (q.evalVia env look home n scope) := by
  rw [evalVia, hm]
  rfl

/-- An expression has the values that it had if its names stand for the same and its operands, and
the constants that it names, have the values that they had. -/
theorem Program.evalVia_implies (hm : q.exprs.get? e = some m) (hm' : q'.exprs.get? e = some m)
    (hlook : ∀ text known symbol, m.kind = .name text known → look scope text known = some symbol →
      look' scope' text known = some symbol)
    (hconst : ∀ text known k d x, m.kind = .name text known →
      look scope text known = some (.const k) → q.consts.get? k = some d → d.value = some x →
      ∃ d', q'.consts.get? k = some d' ∧ d'.value = some x ∧
        Implies (q.evalVia env look home n (home scope d.owner) x)
          (q'.evalVia env look' home' n' (home' scope' d'.owner) x))
    (ho : ∀ c ∈ m.kind.operands, Implies (q.evalVia env look home n scope c)
      (q'.evalVia env look' home' n' scope' c)) :
    Implies (q.evalVia env look home (n + 1) scope e)
      (q'.evalVia env look' home' (n' + 1) scope' e) := by
  rw [evalVia_eq hm, evalVia_eq hm']
  refine Expr.eval_implies (fun text known hk v hv => ?_) ho
  obtain ⟨symbol, hs, hv⟩ := Option.bind_eq_some_iff.1 hv
  rw [hlook text known symbol hk hs, Option.bind_some]
  cases symbol with
  | const k =>
    obtain ⟨d, hd, hv⟩ := Option.bind_eq_some_iff.1 hv
    obtain ⟨x, hx, hv⟩ := Option.bind_eq_some_iff.1 hv
    obtain ⟨d', hd', hx', himp⟩ := hconst text known k d x hk hs hd hx
    simpa [Symbol.eval, hd', hx'] using himp v hv
  | _ => exact hv

/-- What has a value has it at every greater depth. -/
theorem Program.evalVia_mono (h : n ≤ n') :
    Implies (q.evalVia env look home n scope e) (q.evalVia env look home n' scope e) := by
  induction n generalizing n' scope e with
  | zero => simp [evalVia, Implies]
  | succ n ih =>
    obtain ⟨n', rfl⟩ := Nat.exists_eq_add_of_le' (Nat.succ_le_of_lt h)
    intro v hv
    obtain ⟨m, hm, -⟩ := Option.bind_eq_some_iff.1 hv
    refine evalVia_implies hm hm (fun _ _ _ _ h => h) (fun _ _ k d x _ _ hd hx => ?_)
      (fun c _ => ih (Nat.le_of_succ_le_succ h)) v hv
    exact ⟨d, hd, hx, ih (Nat.le_of_succ_le_succ h)⟩

theorem Program.valueWithin_mono (h : n ≤ n') :
    Implies (q.valueWithin env n e) (q.valueWithin env n' e) := evalVia_mono h

end

end Ci
