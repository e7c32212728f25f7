-- The whole pass keeps to handles that lead somewhere. The members are resolved rule
-- by rule once names are registered and classes are linked.
import Ci.Proofs.Safety.Classes
import Ci.Proofs.Safety.Statements

namespace Ci

open Pass Resolve Program

variable {p : Program} {ρ : Ranking} {s s' s'' : State} {c : ClassId}

/-! ## Members -/

namespace Safe

theorem resolveField {f : FieldId} (hf : ρ.Sees s.program (.field f)) :
    Safe ρ (Resolve.resolveField f) s fun _ _ => True := by
  refine ask_bind (fun _ => .fetch hf) fun d hd => of_sound fun hs => ?_
  have htype : ρ.Sees s.program (.expr d.typeExpr) :=
    hs.handles.fields d (Arena.mem_toList_of_get? hd) _ (by simp [Field.refs, Field.parts])
  refine (resolveType htype).bind fun t s1 hw1 ht => ?_
  refine updateField (g := fun d => { d with ty := some t }) (hw1.program.sees hf)
    fun d1 hs1 hd1 w hw => ?_
  rcases List.mem_append.1 hw with hw | hw
  · exact hs1.handles.fields d1 (Arena.mem_toList_of_get? hd1) w (List.mem_append_left _ hw)
  · exact ht w hw

theorem resolveParam {v : VarId} (hv : ρ.Sees s.program (.var v)) :
    Safe ρ (Resolve.resolveParam v) s fun _ _ => True := by
  refine ask_bind (fun _ => .fetch hv) fun d hd => of_sound fun hs => ?_
  have htype : ρ.Sees s.program (.expr d.typeExpr) :=
    hs.handles.vars d (Arena.mem_toList_of_get? hd) _ (by simp [Var.refs, Var.parts])
  refine (resolveType htype).bind fun t s1 hw1 ht => ?_
  refine updateVar (g := fun d => { d with ty := some t }) (hw1.program.sees hv)
    (fun d1 hs1 hd1 w hw => ?_) fun d1 hs1 hd1 => hs1.ranks.var v d1 hd1
  rcases List.mem_append.1 hw with hw | hw
  · exact hs1.handles.vars d1 (Arena.mem_toList_of_get? hd1) w (List.mem_append_left _ hw)
  · exact ht w hw

theorem resolveSignature {m : MethodId} (hm : ρ.Sees s.program (.method m)) :
    Safe ρ (Resolve.resolveSignature m) s fun _ _ => True := by
  refine ask_bind (fun _ => .fetch hm) fun d hd => of_sound fun hs => ?_
  have hreturn : Safe ρ (resolveReturn d.typeExpr) s fun t s' => ρ.SeesAll s'.program t.refs := by
    unfold resolveReturn
    split
    · rename_i i hi
      refine resolveType (hs.handles.methods d (Arena.mem_toList_of_get? hd) _ ?_)
      simp [Method.refs, Method.parts, hi]
    · exact pure fun _ => seesAll_nil
  refine hreturn.bind fun t s1 hw1 ht => ?_
  refine (updateMethod (g := fun d => { d with ty := some t }) (hw1.program.sees hm)
    fun d1 hs1 hd1 w hw => ?_).bind fun _ s2 hw2 _ => ?_
  · rcases List.mem_append.1 hw with hw | hw
    · exact hs1.handles.methods d1 (Arena.mem_toList_of_get? hd1) w (List.mem_append_left _ hw)
    · exact ht w hw
  refine ask_bind (fun _ => .fetch ((hw1.trans hw2).program.sees hm)) fun d2 hd2 =>
    of_sound fun hs2 => ?_
  refine forM fun v hv s' hw => resolveParam (hw.program.sees ?_)
  exact hs2.handles.methods d2 (Arena.mem_toList_of_get? hd2) _
    (by simp [Method.refs, Method.parts, hv])

/-- What a class holds is there. -/
theorem hasPart {d : ClassDecl} {w : Node} (hs : Sound ρ s) (hd : s.program.classes.get? c = some d)
    (hw : w ∈ d.parts) : ρ.Sees s.program w :=
  hs.handles.classes d (Arena.mem_toList_of_get? hd) w (List.mem_append_left _ hw)

theorem resolveTypes (hc : ρ.Sees s.program (.classDecl c)) :
    Safe ρ (Resolve.resolveTypes c) s fun _ _ => True := by
  refine ask_bind (fun _ => .fetch hc) fun d _ => classScope_bind hc fun i _ hi => within hi ?_
  refine ask_bind (fun _ => .fetch hc) fun d1 hd1 => of_sound fun hs1 => ?_
  refine (forM fun f hf s' hw => resolveField (hw.program.sees (hasPart hs1 hd1 ?_))).bind
    fun _ s2 hw2 _ => ?_
  · simp [ClassDecl.parts, hf]
  refine ask_bind (fun _ => .fetch (hw2.program.sees hc)) fun d2 hd2 => of_sound fun hs2 => ?_
  refine forM fun m hm s' hw => resolveSignature (hw.program.sees (hasPart hs2 hd2 ?_))
  simp [ClassDecl.parts, hm]

theorem resolveMethod {file : FileId} {i : ScopeId} {m : MethodId}
    (hi : i.slot < s.table.scopes.size)
    (hm : ρ.Sees s.program (.method m)) :
    Safe ρ (Resolve.resolveMethod file i m) s fun _ _ => True := by
  refine ask_bind (fun _ => .fetch hm) fun d hd => of_sound fun hs => ?_
  split
  · exact pure fun _ => trivial
  · rename_i body hbody
    have hhas : ρ.Sees s.program (.stmt body) :=
      hs.handles.methods d (Arena.mem_toList_of_get? hd) _
      (by simp [Method.refs, Method.parts, hbody])
    refine (addScope hi).bind fun j s1 hw1 hj => inMethod (hw1.program.sees hm) (within hj ?_)
    refine ask_bind (fun _ => .fetch (hw1.program.sees hm)) fun d1 hd1 => of_sound fun hs1 => ?_
    refine (forM fun v hv s' hw => ?_).bind fun _ s2 hw2 _ =>
      resolveStmt (hw2.program.sees (hw1.program.sees hhas))
    have hvar : ρ.Sees s1.program (.var v) :=
      hs1.handles.methods d1 (Arena.mem_toList_of_get? hd1) _
      (by simp [Method.refs, Method.parts, hv])
    refine ask_bind (fun _ => .fetch (hw.program.sees hvar)) fun _ _ => define fun w hw' => ?_
    obtain rfl := List.mem_singleton.1 hw'
    exact hw.program.sees hvar

theorem resolveCode (hc : ρ.Sees s.program (.classDecl c)) :
    Safe ρ (Resolve.resolveCode c) s fun _ _ => True := by
  refine ask_bind (fun _ => .fetch hc) fun d _ => classScope_bind hc fun i _ hi => ?_
  refine ask_bind (fun _ => .fetch hc) fun d1 hd1 => of_sound fun hs1 => ?_
  refine forM fun m hm s' hw => resolveMethod (Nat.lt_of_lt_of_le hi hw.scopes)
    (hw.program.sees (hasPart hs1 hd1 ?_))
  simp [ClassDecl.parts, hm]

theorem resolveConsts : Safe ρ Resolve.resolveConsts s fun _ _ => True := by
  refine get_bind (of_sound fun hs => ?_)
  refine (forM fun k hk s' hw => resolveConst (hw.program.sees (hs.handles.globals k hk))).bind
    fun _ s1 hw1 _ => get_bind ?_
  refine (forM fun e he s' hw => ?_).bind fun _ s2 hw2 _ => get_bind (of_sound fun hs2 => ?_)
  · have henum : ρ.Sees s'.program (.enumDecl e) := hw.program.sees (.inr (Arena.mem_handles.1 he))
    refine ask_bind (fun _ => .fetch henum) fun d hd => of_sound fun hs' => forM
      fun k hk s'' hw' => ?_
    exact resolveConst (hw'.program.sees
      (hs'.handles.enums d (Arena.mem_toList_of_get? hd) _ (by simp [EnumDecl.parts, hk])))
  · refine forM fun c hc s' hw => ?_
    have hclass : ρ.Sees s'.program (.classDecl c) := hw.program.sees (hs2.handles.ordered c hc)
    refine ask_bind (fun _ => .fetch hclass) fun d hd => of_sound fun hs' =>
      forM fun k hk s'' hw' => ?_
    exact resolveConst (hw'.program.sees (hasPart hs' hd (by simp [ClassDecl.parts, hk])))

theorem resolveMembers : Safe ρ Resolve.resolveMembers s fun _ _ => True := by
  refine resolveConsts.bind fun _ s1 _ _ => get_bind (of_sound fun hs1 => ?_)
  refine (forM fun c hc s' hw => resolveTypes (hw.program.sees (hs1.handles.ordered c hc))).bind
    fun _ s2 hw2 _ => ?_
  exact forM fun c hc s' hw => resolveCode ((hw2.trans hw).program.sees (hs1.handles.ordered c hc))

end Safe

/-! ## The whole pass -/

/-- All handles lead somewhere at the end, and only two reasons remain for which handles stop the
pass. -/
theorem resolve_excuses (hp : p.InRange) (hexpr : ∀ e, ¬ p.Contains (.expr e) (.expr e))
    (hstmt : ∀ x, ¬ p.Contains (.stmt x) (.stmt x)) : p.resolve.program.InRange ∧
      ∀ w, p.resolve.abort = some (.broken w) → p.resolve.program.Excuses w := by
  obtain ⟨ρ, hloose, he, hs, hf⟩ := exists_ranking False hexpr hstmt
  have hρ : ¬ ρ.loose := fun h => hloose ▸ h
  have hcovers : ρ.Covers p := Ranking.covers_of_inRange hp
  have hprepare := sound_of_prepare hcovers hf he hs
  unfold resolve
  rw [run_eq_prepare]
  cases hreg : prepare (.start p) with
  | error b s1 =>
    rw [bind_error hreg]
    have hheld : Held p ρ s1 := (Held.prepare _).of_error (.start hcovers) hreg
    refine ⟨hheld.handles.inRange hρ, fun w hw => absurd ?_ hρ⟩
    exact (hprepare.error b s1 hreg w (Option.some.inj hw)).1
  | ok u s1 =>
    have hsound := (hprepare.ok u s1 hreg).1
    have hsafe : Safe ρ Resolve.resolveMembers s1 fun _ _ => True := Safe.resolveMembers
    rw [bind_ok hreg]
    cases hmembers : Resolve.resolveMembers s1 with
    | ok => exact ⟨(hsafe.of_ok hsound hmembers).1.handles.inRange hρ, fun w hw => (nomatch hw)⟩
    | error =>
      obtain ⟨hrange, hexcuse⟩ := hsafe.of_error hsound hmembers
      refine ⟨hrange.inRange hρ, fun w hw => ?_⟩
      exact (hexcuse w (Option.some.inj hw)).resolve_right fun h => hρ h.1

theorem resolve_safe (hp : p.InRange) (ha : p.Acyclic) : p.resolve.program.InRange ∧
      ∀ w, p.resolve.abort = some (.broken w) → p.resolve.program.Excuses w :=
  resolve_excuses hp (fun e => ha (.expr e)) fun x => ha (.stmt x)

/-- Resolution of a program whose handles lead somewhere and in which nothing stands inside itself
never follows a handle that leads nowhere, and all handles of the result lead somewhere, whether it
comes to its end or not. If handles stop it at all, then a class derives from itself in the result,
or there are no handles left for more expressions. -/
theorem resolve_handles_in_range (p : Program) (hp : p.InRange) (ha : p.Acyclic) :
    p.resolve.program.InRange ∧ p.resolve.abort ≠ some (.broken .dangling) ∧
      (p.resolve.abort = some (.broken .cyclic) → p.resolve.program.CircularBases) ∧
      (p.resolve.abort = some (.broken .full) → UInt32.size ≤ p.resolve.program.exprs.size) := by
  obtain ⟨hrange, hexcuse⟩ := resolve_safe hp ha
  exact ⟨hrange, fun h => hexcuse .dangling h, hexcuse .cyclic, hexcuse .full⟩

/-- A class with a constant that is folded, a type expression that is shared and resolved in part,
and a body with a name that stands for nothing. -/
def cabinet : Program :=
  let expr (kind : Expr) : ExprNode := ⟨kind, 1, none⟩
  { Program.empty with
    exprs := .ofList [expr (.literal (.int 1)), expr (.literal (.int 2)),
      expr (.binary (.arith .add) ⟨0⟩ (.expr ⟨1⟩)), expr (.name "Missing" none),
      ⟨.name "Cabinet" (some (.classDecl ⟨0⟩)), 1, some (.classPointer ⟨0⟩ false)⟩]
    stmts := .ofList [⟨.ret (some ⟨3⟩), 1⟩]
    classes := .ofList [
      ⟨"Cabinet", ⟨0⟩, 1, false, .normal, none, none, [], [⟨0⟩], [⟨0⟩], .unvisited⟩]
    consts := .ofList [⟨"Drawers", 1, .program ⟨0⟩, .hidden, none, some ⟨2⟩, .unvisited, none⟩]
    fields := .ofList [⟨"next", 1, .hidden, ⟨4⟩, none⟩]
    methods := .ofList [⟨"open", 1, .hidden, .normal, false, some ⟨4⟩, [], some ⟨0⟩, none⟩]
    globals := [⟨0⟩] }

/-- A number that goes down along the parts of the cabinet. -/
def cabinetRank : Node → Nat
  | .expr e => e.slot
  | .stmt _ => 10
  | .const _ | .field _ | .method _ => 20
  | _ => 30

theorem cabinet_handles_in_range :
    cabinet.InRange ∧ cabinet.Acyclic ∧ cabinet.exprs.size = 5 ∧
      cabinet.resolve.abort = some (.fault ⟨"", 1, .symbolNotFound "Missing"⟩) ∧
      cabinet.resolve.program.exprs.size = 6 ∧ cabinet.resolve.program.InRange ∧
      cabinet.resolve.abort ≠ some (.broken .dangling) := by
  have hp : cabinet.InRange := by constructor <;> decide
  have ha : cabinet.Acyclic := Program.acyclic_of_lower cabinetRank (by decide)
  have h := resolve_handles_in_range cabinet hp ha
  exact ⟨hp, ha, rfl, by decide +kernel, by decide +kernel, h.1, h.2.1⟩

end Ci
