-- Where a pass is. A part of a pass may go to another file and scope, into a method
-- or into a loop. On every way out it gives back the place in which it began, also
-- if it stops at a fault somewhere deep inside.
import Ci.Proofs.Frame.Rules
import Ci.Proofs.Pass.Abiding

namespace Ci

open Pass

variable {α : Type} {x : Pass α} {s s0 : State} {i : ScopeId}

/-- The state in which a part of a pass ends or stops. -/
def Pass.after (x : Pass α) (s : State) : State :=
  match x s with
  | .ok _ s' => s'
  | .error _ s' => s'

/-- Why a part of a pass stops, if it does. -/
def Pass.stop (x : Pass α) (s : State) : Option Abort :=
  match x s with
  | .ok _ _ => none
  | .error b _ => some b

/-- What a part of a pass gives, if it comes to its end. -/
def Pass.value? (x : Pass α) (s : State) : Option α :=
  match x s with
  | .ok a _ => some a
  | .error _ _ => none

theorem Pass.eq_ok_of_value? {a : α} (h : x.value? s = some a) : x s = .ok a (x.after s) := by
  unfold Pass.value? at h
  unfold Pass.after
  split at h
  · rename_i hx
    rw [hx]
    cases h
    rfl
  · cases h

/-- The part ends or stops in the place in which it began, wherever it begins. -/
def Pass.Restores (x : Pass α) : Prop := ∀ s, SamePlace s (x.after s)

theorem Pass.Preserves.after {I : State → Prop} (h : Preserves I x) (hi : I s) : I (x.after s) := by
  have hx := (h s).holds hi
  unfold Pass.after
  cases hr : x s with
  | ok =>
    rw [hr] at hx
    exact hx.1
  | error =>
    rw [hr] at hx
    exact hx

theorem Pass.Restores.of_preserves (h : ∀ s0, Preserves (SamePlace s0) x) : x.Restores :=
  fun s => (h s).after (.refl s)

namespace SamePlace

/-- Expressions, types, constants and statements work inside the whole program. -/
theorem of_moves {R : State → α → State → Prop}
    (h : ∀ s, Keeps (Moves Set.univ s) x s (R s)) : Preserves (SamePlace s0) x := fun s =>
  Preserves.of_keeps (Moves.weaken .univ (h s) fun _ hm hs => hs.trans hm.place)

theorem change {g : Program → Query Program} : Preserves (SamePlace s0) (change g) :=
  .change fun _ _ _ => set_program

theorem defineIn {line : UInt32} {name : String} {symbol : Symbol} :
    Preserves (SamePlace s0) (defineIn i line name symbol) := fun s => by
  refine Preserves.of_keeps (.defineIn fun t ht hs => ?_)
  obtain ⟨c, -, -, rfl⟩ := ScopeTable.define?_ok ht
  exact { hs with }

theorem within {file : FileId} (hx : ∀ s0, Preserves (SamePlace s0) x) :
    Preserves (SamePlace s0) (within file i x) := fun s => Keeps.of_inv fun hs =>
  Preserves.of_keeps (.within (fun _ => .refl _) (hx { s with file, table := s.table.enter i } _)
    fun _ hin =>
    ⟨hs.current, hs.file, hin.method.trans hs.method, hin.breakables.trans hs.breakables,
      hin.classScopes.trans hs.classScopes, hin.enumScopes.trans hs.enumScopes⟩)

/-! ## Classes -/

theorem nestScope {c base : ClassId} : Preserves (SamePlace s0) (Resolve.nestScope c base) := by
  refine Preserves.classScope.bind fun i => Preserves.classScope.bind fun j s =>
    Keeps.askTable_bind fun t ht => Preserves.of_keeps (.modify fun hs => ?_)
  simp only [ScopeTable.setParent, Query.bind_ok, Query.pure_ok] at ht
  obtain ⟨c, -, rfl⟩ := ht
  exact { hs with }

theorem linkBase {recur : ClassId → Pass Unit} (hrec : ∀ c, Preserves (SamePlace s0) (recur c))
    (c : ClassId) : Preserves (SamePlace s0) (Resolve.linkBase recur c) := by
  refine Preserves.ask.bind fun d => ?_
  cases d.baseName with
  | none => exact .pure
  | some =>
    exact Preserves.bind (fun _ => Preserves.of_keeps Linking.findBase) fun base =>
      change.bind fun _ =>
      (hrec base).bind fun _ => nestScope

theorem classWithin (n : Nat) (c : ClassId) :
    Preserves (SamePlace s0) (Resolve.classWithin n c) := by
  induction n generalizing c s0 with
  | zero => exact .silent .answer
  | succ _ ih =>
    refine Preserves.ask.bind fun _ => Preserves.classScope.bind fun _ => within fun s0 => ?_
    refine Preserves.once ((linkBase ih c).bind fun _ => ?_) fun _ => change
    exact (Preserves.modify fun _ => set_program).bind fun _ => Preserves.classScope.bind fun _ =>
      Preserves.ask.bind fun _ => .forM fun _ _ => defineIn

theorem resolveClasses : Preserves (SamePlace s0) Resolve.resolveClasses :=
  Preserves.get.bind fun _ => .forM fun c _ => Preserves.get.bind fun _ => classWithin _ c

/-! ## Members -/

theorem resolveType (e : ExprId) : Preserves (SamePlace s0) (Resolve.resolveType e) :=
  of_moves fun _ => Moves.resolveType (.inl trivial)

theorem resolveStmt (x : StmtId) : Preserves (SamePlace s0) (Resolve.resolveStmt x) :=
  of_moves fun _ => Moves.resolveStmt trivial

theorem resolveSignature (m : MethodId) :
    Preserves (SamePlace s0) (Resolve.resolveSignature m) := by
  refine Preserves.ask.bind fun d => Preserves.bind ?_ fun _ => change.bind fun _ =>
    Preserves.ask.bind fun _ => .forM fun _ _ => Preserves.ask.bind fun _ =>
      (resolveType _).bind fun _ => change
  cases d.typeExpr with
  | none => exact .pure
  | some e => exact resolveType e

theorem resolveTypes (c : ClassId) : Preserves (SamePlace s0) (Resolve.resolveTypes c) :=
  Preserves.ask.bind fun _ => Preserves.classScope.bind fun _ => within fun _ =>
    Preserves.ask.bind fun _ => Preserves.bind (.forM fun _ _ => Preserves.ask.bind fun _ =>
      (resolveType _).bind fun _ => change) fun _ =>
        Preserves.ask.bind fun _ => .forM fun m _ => resolveSignature m

/-- The body of a method leaves no method behind, so it gives back the place if there was none. -/
theorem inMethod {m : MethodId} (h0 : s0.method = none) (hx : ∀ s0, Preserves (SamePlace s0) x) :
    Preserves (SamePlace s0) (inMethod m x) := fun s => Keeps.of_inv fun hs =>
  Preserves.of_keeps (.inMethod (fun _ => .refl _) (hx { s with method := some m } _) fun _ hin =>
    ⟨hin.current.trans hs.current, hin.file.trans hs.file, h0.symm,
      hin.breakables.trans hs.breakables,
      hin.classScopes.trans hs.classScopes, hin.enumScopes.trans hs.enumScopes⟩)

theorem resolveMethod {file : FileId} (h0 : s0.method = none) (m : MethodId) :
    Preserves (SamePlace s0) (Resolve.resolveMethod file i m) := by
  refine Preserves.ask.bind fun d => ?_
  cases d.body with
  | none => exact .pure
  | some body =>
    refine Preserves.bind (fun _ => Preserves.of_keeps (.addScope fun hs => { hs with }))
      fun _ => ?_
    exact inMethod h0 fun _ => within fun _ => Preserves.ask.bind fun _ =>
      Preserves.bind (.forM fun _ _ => Preserves.ask.bind fun _ => Preserves.get.bind fun _ =>
        defineIn) fun _ => resolveStmt body

theorem resolveCode (h0 : s0.method = none) (c : ClassId) :
    Preserves (SamePlace s0) (Resolve.resolveCode c) :=
  Preserves.ask.bind fun _ => Preserves.classScope.bind fun _ => Preserves.ask.bind fun _ =>
    .forM fun m _ => resolveMethod h0 m

end SamePlace

/-! ## All calls -/

/-- Every call gives back the file, the scope, the method and the loops around on both ways out,
at whatever depth it is made. The code of a class does if no method is being resolved. -/
theorem calls_restore_place :
    (∀ n e, ((Resolve.callsWithin n).expr e).Restores) ∧
      (∀ n e, ((Resolve.callsWithin n).type e).Restores) ∧
      (∀ n k, ((Resolve.callsWithin n).const k).Restores) ∧
      (∀ n x, (Resolve.stmtWithin n x).Restores) ∧ (∀ n c, (Resolve.classWithin n c).Restores) ∧
      (∀ e, (Resolve.resolveExpr e).Restores) ∧ (∀ e, (Resolve.resolveType e).Restores) ∧
      (∀ k, (Resolve.resolveConst k).Restores) ∧ (∀ x, (Resolve.resolveStmt x).Restores) ∧
      (∀ c, (Resolve.resolveClass c).Restores) ∧ (∀ c, (Resolve.resolveTypes c).Restores) ∧
      ∀ c s, s.method = none → SamePlace s ((Resolve.resolveCode c).after s) := by
  have stay := Moves.stay_callsWithin Set.univ
  refine ⟨fun n e => .of_preserves fun _ => ?_, fun n e => .of_preserves fun _ => ?_,
    fun n k => .of_preserves fun _ => ?_, fun n x => .of_preserves fun _ => ?_,
    fun n c => .of_preserves fun _ => SamePlace.classWithin n c, fun e => .of_preserves fun _ => ?_,
    fun e => .of_preserves fun _ => SamePlace.resolveType e, fun k => .of_preserves fun _ => ?_,
    fun x => .of_preserves fun _ => SamePlace.resolveStmt x, fun c => .of_preserves fun _ => ?_,
    fun c => .of_preserves fun _ => SamePlace.resolveTypes c,
    fun c s h => (SamePlace.resolveCode h c).after (.refl s)⟩
  · exact SamePlace.of_moves fun s => (stay n).expr s e (.inl trivial)
  · exact SamePlace.of_moves fun s => (stay n).type s e (.inl trivial)
  · exact SamePlace.of_moves fun s => (stay n).const s k (.inl trivial)
  · exact SamePlace.of_moves fun s => Moves.stmtWithin n trivial
  · exact SamePlace.of_moves fun _ => Moves.resolveExpr (.inl trivial)
  · exact SamePlace.of_moves fun _ => Moves.resolveConst (.inl trivial)
  · exact Preserves.get.bind fun _ => SamePlace.classWithin _ c

/-- A loop in a case of a choice in another loop, with a name that stands for nothing. -/
def maze : Program :=
  let expr (kind : Expr) : ExprNode := ⟨kind, 1, none⟩
  { Program.empty with
    files := .ofList ["maze.ci"]
    exprs := .ofList [expr (.literal (.int 1)), expr (.literal (.int 1)),
      expr (.literal (.bool true)), ⟨.name "exit" none, 2, none⟩]
    stmts := .ofList [⟨.expr ⟨3⟩, 2⟩, ⟨.whileLoop ⟨2⟩ ⟨0⟩, 1⟩,
      ⟨.switch ⟨0⟩ [⟨[⟨1⟩], [⟨1⟩]⟩] none, 1⟩, ⟨.forLoop none none none ⟨2⟩, 1⟩, ⟨.block [⟨3⟩], 1⟩]
    classes := .ofList [⟨"Maze", ⟨0⟩, 1, false, .normal, none, none, [], [], [⟨0⟩], .unvisited⟩]
    methods := .ofList [⟨"walk", 1, .hidden, .normal, false, none, [], some ⟨4⟩, none⟩] }

/-- The state in which the code of the maze is resolved. -/
def mazeState : State :=
  Pass.after (do Resolve.registerDeclarations; Resolve.resolveClasses) (.start maze)

theorem maze_restores_place :
    mazeState.method = none ∧
      (Resolve.resolveCode ⟨0⟩).stop mazeState
        = some (.fault ⟨"maze.ci", 2, .symbolNotFound "exit"⟩) ∧
      mazeState.table.scopes.size + 4 =
      ((Resolve.resolveCode ⟨0⟩).after mazeState).table.scopes.size ∧
      SamePlace mazeState ((Resolve.resolveCode ⟨0⟩).after mazeState) := by
  have h : mazeState.method = none := by decide +kernel
  obtain ⟨-, -, -, -, -, -, -, -, -, -, -, hcode⟩ := calls_restore_place
  exact ⟨h, by decide +kernel, by decide +kernel, hcode ⟨0⟩ mazeState h⟩

end Ci
