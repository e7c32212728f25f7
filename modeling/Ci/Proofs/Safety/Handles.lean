-- Handles that lead somewhere. A program stores handles in the slots of its parts,
-- in recorded types, in what names stand for, and in its lists. Where nothing stands
-- inside itself, the number of expressions below a node bounds the way down, also if
-- some handles lead nowhere.
import Ci.Proofs.Frame.Moves

namespace Ci

open Arena

/-! ## What refers to what -/

/-- What a type refers to. -/
def Ty.refs : Ty → List Node
  | .arrayPointer t _ | .arrayStorage t _ => t.refs
  | .classPointer c _ | .classStorage c => [.classDecl c]
  | .enumeration e => [.enumDecl e]
  | _ => []

/-- What a meaning of a name refers to. -/
def Symbol.refs : Symbol → List Node
  | .type t => t.refs
  | .classDecl c => [.classDecl c]
  | .enumDecl e => [.enumDecl e]
  | .const k => [.const k]
  | .field f => [.field f]
  | .method m => [.method m]
  | .var v => [.var v]
  | .stringLength => []

/-- What the owner of a constant refers to. -/
def Owner.refs : Owner → List Node
  | .classDecl c => [.classDecl c]
  | .enumDecl e => [.enumDecl e]
  | .program _ | .body => []

/-- What a recorded type refers to. -/
def Ty.recordedRefs (t : Option Ty) : List Node := t.elim [] Ty.refs

/-- What an expression refers to: its parts, and what it stands for if it is a name. -/
def Expr.refs : Expr → List Node
  | .name _ symbol => symbol.elim [] Symbol.refs
  | kind => kind.parts

def ExprNode.refs (n : ExprNode) : List Node := n.kind.refs ++ Ty.recordedRefs n.ty

def StmtNode.refs (n : StmtNode) : List Node := n.kind.parts

def ClassDecl.refs (d : ClassDecl) : List Node := d.parts ++ d.base.toList.map .classDecl

def Const.refs (d : Const) : List Node := d.parts ++ d.owner.refs ++ Ty.recordedRefs d.ty

def Field.refs (d : Field) : List Node := d.parts ++ Ty.recordedRefs d.ty

def Method.refs (d : Method) : List Node := d.parts ++ Ty.recordedRefs d.ty

def Var.refs (d : Var) : List Node := d.parts ++ Ty.recordedRefs d.ty

/-- The position of a node in its arena. -/
def Node.slot : Node → Nat
  | .classDecl c => c.slot
  | .enumDecl e => e.slot
  | .const k => k.slot
  | .field f => f.slot
  | .method m => m.slot
  | .var v => v.slot
  | .stmt x => x.slot
  | .expr e => e.slot

namespace Program

/-- The size of the arena of a node. -/
def room (p : Program) : Node → Nat
  | .classDecl _ => p.classes.size
  | .enumDecl _ => p.enums.size
  | .const _ => p.consts.size
  | .field _ => p.fields.size
  | .method _ => p.methods.size
  | .var _ => p.vars.size
  | .stmt _ => p.stmts.size
  | .expr _ => p.exprs.size

/-- The handle of a node leads somewhere. -/
def Has (p : Program) (y : Node) : Prop := y.slot < p.room y

instance (p : Program) (y : Node) : Decidable (p.Has y) := Nat.decLt _ _

/-- Every handle that a program stores, apart from those of its files, is one of the given
nodes. -/
structure Refers (p : Program) (V : Node → Prop) : Prop where
  exprs : ∀ n ∈ p.exprs.toList, ∀ w ∈ n.refs, V w
  stmts : ∀ n ∈ p.stmts.toList, ∀ w ∈ n.refs, V w
  classes : ∀ d ∈ p.classes.toList, ∀ w ∈ d.refs, V w
  enums : ∀ d ∈ p.enums.toList, ∀ w ∈ d.parts, V w
  consts : ∀ d ∈ p.consts.toList, ∀ w ∈ d.refs, V w
  fields : ∀ d ∈ p.fields.toList, ∀ w ∈ d.refs, V w
  methods : ∀ d ∈ p.methods.toList, ∀ w ∈ d.refs, V w
  vars : ∀ d ∈ p.vars.toList, ∀ w ∈ d.refs, V w
  globals : ∀ k ∈ p.globals, V (.const k)
  ordered : ∀ c ∈ p.ordered, V (.classDecl c)

/-- Every handle that a program stores leads somewhere. -/
def InRange (p : Program) : Prop := p.Refers p.Has

/-- One node stands inside another one. -/
def Contains (p : Program) : Node → Node → Prop := Relation.TransGen fun y w => w ∈ p.parts y

/-- Nothing stands inside itself. -/
def Acyclic (p : Program) : Prop := ∀ y, ¬ p.Contains y y

/-- A class has a base. -/
def HasBase (p : Program) (c b : ClassId) : Prop :=
  ∃ d, p.classes.get? c = some d ∧ d.base = some b

/-- A class derives from itself. -/
def CircularBases (p : Program) : Prop := ∃ c, Relation.TransGen p.HasBase c c

end Program

/-! ## Looking handles up -/

theorem Expr.mem_refs_of_mem_parts {kind : Expr} {w : Node} (hw : w ∈ kind.parts) :
    w ∈ kind.refs := by
  cases kind with
  | name => simp at hw
  | _ => exact hw

namespace Program

variable {p q : Program} {V W : Node → Prop}

namespace Refers

section

variable (h : p.Refers V)

include h

theorem mono (hv : ∀ y, V y → W y) : p.Refers W where
  exprs n hn w hw := hv w (h.exprs n hn w hw)
  stmts n hn w hw := hv w (h.stmts n hn w hw)
  classes d hd w hw := hv w (h.classes d hd w hw)
  enums d hd w hw := hv w (h.enums d hd w hw)
  consts d hd w hw := hv w (h.consts d hd w hw)
  fields d hd w hw := hv w (h.fields d hd w hw)
  methods d hd w hw := hv w (h.methods d hd w hw)
  vars d hd w hw := hv w (h.vars d hd w hw)
  globals k hk := hv _ (h.globals k hk)
  ordered c hc := hv _ (h.ordered c hc)

theorem setExpr {e : ExprId} {n : ExprNode} (hn : ∀ w ∈ n.refs, V w) :
    { p with exprs := p.exprs.set e n }.Refers V :=
  { h with exprs := forall_set h.exprs hn }

theorem addExpr {n : ExprNode} (hn : ∀ w ∈ n.refs, V w) :
    { p with exprs := p.exprs.push n }.Refers V :=
  { h with exprs := forall_push h.exprs hn }

theorem setStmt {x : StmtId} {n : StmtNode} (hn : ∀ w ∈ n.refs, V w) :
    { p with stmts := p.stmts.set x n }.Refers V :=
  { h with stmts := forall_set h.stmts hn }

theorem setClass {c : ClassId} {d : ClassDecl} (hd : ∀ w ∈ d.refs, V w) :
    { p with classes := p.classes.set c d }.Refers V :=
  { h with classes := forall_set h.classes hd }

theorem setConst {k : ConstId} {d : Const} (hd : ∀ w ∈ d.refs, V w) :
    { p with consts := p.consts.set k d }.Refers V :=
  { h with consts := forall_set h.consts hd }

theorem setField {f : FieldId} {d : Field} (hd : ∀ w ∈ d.refs, V w) :
    { p with fields := p.fields.set f d }.Refers V :=
  { h with fields := forall_set h.fields hd }

theorem setMethod {m : MethodId} {d : Method} (hd : ∀ w ∈ d.refs, V w) :
    { p with methods := p.methods.set m d }.Refers V :=
  { h with methods := forall_set h.methods hd }

theorem setVar {v : VarId} {d : Var} (hd : ∀ w ∈ d.refs, V w) :
    { p with vars := p.vars.set v d }.Refers V :=
  { h with vars := forall_set h.vars hd }

end

end Refers

/-! ## The way down -/

variable {k : Kind} {g : Handle k → Node} {y w : Node}

/-- How many nodes of one kind there are inside a node, itself included. -/
noncomputable def inside (p : Program) (g : Handle k → Node) (y : Node) : Nat :=
  Set.ncard {h | p.Has (g h) ∧ Relation.ReflTransGen (fun y w => w ∈ p.parts y) y (g h)}

theorem finite_slots (n : Nat) : {h : Handle k | h.slot < n}.Finite :=
  (Set.finite_lt_nat n).preimage fun _ _ _ _ h => Handle.slot_inj.1 h

theorem ncard_slots_le (n : Nat) : Set.ncard {h : Handle k | h.slot < n} ≤ n := by
  have hinj : Set.InjOn Handle.slot {h : Handle k | h.slot < n} :=
    fun _ _ _ _ h => Handle.slot_inj.1 h
  have hsub : Handle.slot '' {h : Handle k | h.slot < n} ⊆ (Finset.range n : Set Nat) := by
    rintro _ ⟨h, hh, rfl⟩
    simpa using hh
  calc Set.ncard {h : Handle k | h.slot < n}
      = Set.ncard (Handle.slot '' {h : Handle k | h.slot < n}) := (Set.InjOn.ncard_image hinj).symm
    _ ≤ Set.ncard (Finset.range n : Set Nat) := Set.ncard_le_ncard hsub (Finset.finite_toSet _)
    _ = n := by rw [Set.ncard_coe_finset, Finset.card_range]

theorem Contains.source (hw : p.Contains y w) : p.Has y := by
  have hheld : ∃ z, z ∈ p.parts y := by
    induction hw using Relation.TransGen.head_induction_on with
    | single hz => exact ⟨_, hz⟩
    | head hz _ _ => exact ⟨_, hz⟩
  obtain ⟨z, hz⟩ := hheld
  by_contra hn
  rw [Has, not_lt] at hn
  cases y <;> simp [Program.parts, Arena.get?_eq_none hn] at hz

/-- The nodes of a program, arena by arena. -/
def nodes (p : Program) : List Node :=
  p.classes.handles.map .classDecl ++ p.enums.handles.map .enumDecl ++ p.consts.handles.map .const
    ++ p.fields.handles.map .field ++ p.methods.handles.map .method ++ p.vars.handles.map .var
    ++ p.stmts.handles.map .stmt ++ p.exprs.handles.map .expr

theorem mem_nodes : y ∈ p.nodes ↔ p.Has y := by
  cases y <;> simp [nodes, mem_handles, Has, room, Node.slot]

/-- A number that goes down from each node to its parts shows that nothing stands inside
itself. -/
theorem acyclic_of_lower (f : Node → Nat) (h : ∀ y ∈ p.nodes, ∀ w ∈ p.parts y, f w < f y) :
    p.Acyclic := by
  have hlower : ∀ {y w}, p.Contains y w → f w < f y := by
    intro y w hw
    induction hw with
    | single hz => exact h _ (mem_nodes.2 (Contains.source (.single hz))) _ hz
    | tail _ hz ih => exact (h _ (mem_nodes.2 (Contains.source (.single hz))) _ hz).trans ih
  exact fun y hy => Nat.lt_irrefl _ (hlower hy)

section

variable {n : Nat} (hroom : ∀ i, p.room (g i) = n) (hslot : ∀ i, (g i).slot = i.slot)
include hroom hslot

theorem inside_subset :
    {i | p.Has (g i) ∧ Relation.ReflTransGen (fun y w => w ∈ p.parts y) y (g i)} ⊆
      {i : Handle k | i.slot < n} := by
  rintro i ⟨hi, -⟩
  rwa [Has, hroom, hslot] at hi

theorem inside_le : p.inside g y ≤ n :=
  (Set.ncard_le_ncard (inside_subset hroom hslot) (finite_slots n)).trans (ncard_slots_le n)

theorem inside_mono (hw : w ∈ p.parts y) : p.inside g w ≤ p.inside g y :=
  Set.ncard_le_ncard (fun _ hi => ⟨hi.1, .head hw hi.2⟩)
    ((finite_slots n).subset (inside_subset hroom hslot))

/-- There is less inside a part of a node that does not stand inside itself. -/
theorem inside_lt {i : Handle k} (ha : ¬ p.Contains (g i) (g i)) (hw : w ∈ p.parts (g i)) :
    p.inside g w < p.inside g (g i) := by
  refine Set.ncard_lt_ncard ⟨fun _ hi => ⟨hi.1, .head hw hi.2⟩, fun hsub => ?_⟩
    ((finite_slots n).subset (inside_subset hroom hslot))
  have hback := hsub ⟨Contains.source (.single hw), .refl⟩
  exact ha (.head' hw hback.2)

end

end Program

/-- How far down it is from a node, as far as the pass follows it. -/
structure Ranking where
  rank : Node → Nat
  /-- The number of expressions at the start. -/
  exprs : Nat
  /-- The number of statements. -/
  stmts : Nat
  expr_le : ∀ e, rank (.expr e) ≤ exprs
  stmt_le : ∀ x, rank (.stmt x) ≤ stmts
  /-- Nothing stands inside what is added. -/
  added : ∀ e : ExprId, exprs ≤ e.slot → rank (.expr e) = 0
  /-- Handles may lead nowhere. -/
  loose : Prop

/-- The ranks go down from a node to its parts. -/
structure Ranking.Fits (ρ : Ranking) (p : Program) : Prop where
  expr : ∀ e n, p.exprs.get? e = some n →
    (∀ c ∈ n.kind.children, ρ.rank (.expr c) < ρ.rank (.expr e)) ∧
      ∀ v, n.kind = .var v → ρ.rank (.var v) ≤ ρ.rank (.expr e)
  var : ∀ v d, p.vars.get? v = some d → ∀ c, .expr c ∈ d.parts → ρ.rank (.expr c) < ρ.rank (.var v)
  stmt : ∀ x n, p.stmts.get? x = some n → ∀ y,
    .stmt y ∈ n.kind.parts → ρ.rank (.stmt y) < ρ.rank (.stmt x)

namespace Program

variable {p : Program}

/-- Statements are ranked by the statements inside them, all other nodes by the expressions. -/
noncomputable def rank (p : Program) : Node → Nat
  | .stmt x => p.inside .stmt (.stmt x)
  | .var v => p.inside .expr (.var v) + 1
  | y => p.inside .expr y

/-- A program in which no expression and no statement stands inside itself has ranks. -/
theorem exists_ranking (loose : Prop) (he : ∀ e, ¬ p.Contains (.expr e) (.expr e))
    (hs : ∀ x, ¬ p.Contains (.stmt x) (.stmt x)) :
    ∃ ρ : Ranking, ρ.loose = loose ∧ ρ.exprs = p.exprs.size ∧ ρ.stmts = p.stmts.size ∧
    ρ.Fits p := by
  have hlt : ∀ {e w}, w ∈ p.parts (.expr e) → p.inside .expr w < p.inside .expr (.expr e) :=
    fun {e _} hw => inside_lt (g := Node.expr) (fun _ => rfl) (fun _ => rfl) (he e) hw
  refine ⟨⟨p.rank, p.exprs.size, p.stmts.size, fun e => ?_, fun x => ?_, fun e he => ?_, loose⟩,
    rfl, rfl, rfl, ⟨fun e n hn => ⟨fun c hc => ?_, fun v hv => ?_⟩, fun v d hd c hc => ?_,
      fun x n hn y hy => ?_⟩⟩
  · exact inside_le (g := Node.expr) (fun _ => rfl) fun _ => rfl
  · exact inside_le (g := Node.stmt) (fun _ => rfl) fun _ => rfl
  · -- a handle that leads nowhere holds nothing, and does not count itself
    have hempty : {i | p.Has (.expr i) ∧
        Relation.ReflTransGen (fun y w => w ∈ p.parts y) (.expr e) (.expr i)} = ∅ := by
      refine Set.eq_empty_of_forall_notMem ?_
      rintro i ⟨hi, hway⟩
      have hhas : p.Has (.expr e) := by
        rcases Relation.reflTransGen_iff_eq_or_transGen.1 hway with heq | hway
        · exact heq ▸ hi
        · exact Contains.source hway
      exact absurd hhas (not_lt.2 he)
    exact (congrArg Set.ncard hempty).trans (Set.ncard_empty _)
  · refine hlt ?_
    rw [parts_expr hn]
    cases hk : n.kind <;> simp_all
  · refine hlt ?_
    rw [parts_expr hn, hv]
    exact List.mem_singleton_self _
  · refine Nat.lt_succ_of_le (inside_mono (g := Node.expr) (fun _ => rfl) (fun _ => rfl) ?_)
    simpa [Program.parts, hd] using hc
  · refine inside_lt (g := Node.stmt) (fun _ => rfl) (fun _ => rfl) (hs x) ?_
    rwa [parts_stmt hn]

end Program

/-! ## As far as handles are known -/

namespace Ranking

variable {ρ : Ranking} {p q : Program}

/-- A handle leads somewhere, unless handles may lead nowhere. -/
def Sees (ρ : Ranking) (p : Program) (y : Node) : Prop := ρ.loose ∨ p.Has y

def SeesAll (ρ : Ranking) (p : Program) (ws : List Node) : Prop := ∀ w ∈ ws, ρ.Sees p w

/-- Every handle that a program stores leads somewhere, unless handles may lead nowhere. -/
def Covers (ρ : Ranking) (p : Program) : Prop := p.Refers (ρ.Sees p)

theorem covers_of_inRange (h : p.InRange) : ρ.Covers p := Program.Refers.mono h fun _ => .inr

theorem Covers.inRange (h : ρ.Covers p) (hρ : ¬ ρ.loose) : p.InRange :=
  Program.Refers.mono h fun _ hy => hy.resolve_left hρ

theorem covers_of_loose (hρ : ρ.loose) : ρ.Covers p := by
  constructor <;> intros <;> exact .inl hρ

end Ranking

end Ci
