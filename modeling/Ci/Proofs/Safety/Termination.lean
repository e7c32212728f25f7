-- Resolution comes to an end. If no expression and no statement stands inside itself
-- and no class has a base at first, no way along handles, bases or scopes is longer
-- than the depth that the pass allows it. It does not matter what has been visited
-- before, which parts are shared and whether handles lead anywhere.
import Ci.Proofs.Hierarchy.Linearization
import Ci.Proofs.Safety.Run

namespace Ci

open Pass Resolve

variable {p q : Program} {ρ : Ranking} {s : State}

/-- A pass that stops has not run out of depth. -/
def Deep (a : Abort) : Prop := a ≠ .broken .cyclic

theorem Program.CircularBases.congr (h : p.CircularBases) (hc : q.classes = p.classes) :
    q.CircularBases := by
  have hbase : q.HasBase = p.HasBase := by
    unfold HasBase
    rw [hc]
  unfold CircularBases at h ⊢
  rwa [hbase]

theorem resolveMembers_deep (h : Sound ρ s) (hcirc : ¬ s.program.CircularBases) :
    Ends Deep resolveMembers s fun _ _ => True := by
  refine ⟨fun _ _ _ => trivial, fun a s' run hdeep => ?_⟩
  have hsafe : Safe ρ resolveMembers s fun _ _ => True := Safe.resolveMembers
  have hkept : s'.program.classes = s.program.classes :=
    ((HasOrder.resolveMembers s).of_error ⟨rfl, rfl⟩ run).1
  rcases (hsafe.of_error h run).2 .cyclic hdeep with hcirc' | ⟨-, hw⟩
  · exact hcirc (hcirc'.congr hkept.symm)
  · cases hw

/-- The whole pass has depth enough. -/
theorem run_deep (he : ∀ e, ¬ p.Contains (.expr e) (.expr e)) (hs : ∀ x,
    ¬ p.Contains (.stmt x) (.stmt x))
    (hb : ∀ d ∈ p.classes.toList, d.base = none) :
    Ends Deep Resolve.run (.start p) fun _ _ => True := by
  -- where handles may lead nowhere, they are all covered
  obtain ⟨ρ, hρ, hexprs, hstmts, hfits⟩ := Program.exists_ranking True he hs
  have hcovers : ρ.Covers p := Ranking.covers_of_loose (hρ.symm ▸ trivial)
  rw [run_eq_prepare]
  refine ((sound_of_prepare hcovers hfits hexprs hstmts).mono (fun _ _ h => h) fun a ha hdeep =>
    ?_).bind fun _ s h => resolveMembers_deep h.1 (h.2 hb)
  cases (ha .cyclic hdeep).2

/-- Resolution comes to an end, whatever has been visited before, if no expression and no statement
stands inside itself and no class has a base at first: every recursion and every way along handles,
bases and scopes stays within its depth. If all handles lead somewhere, the pass does not stop at
one of them either. -/
theorem resolve_terminates (p : Program) (he : ∀ e, ¬ p.Contains (.expr e) (.expr e))
    (hs : ∀ x, ¬ p.Contains (.stmt x) (.stmt x)) (hb : ∀ d ∈ p.classes.toList, d.base = none) :
    p.resolve.abort ≠ some (.broken .cyclic) ∧
      (p.InRange → p.resolve.abort ≠ some (.broken .dangling)) := by
  refine ⟨fun h => ?_, fun hp h => (resolve_excuses hp he hs).2 .dangling h⟩
  have hrun := run_deep he hs hb
  unfold Program.resolve at h
  cases hr : Resolve.run (.start p) with
  | ok u s =>
    rw [hr] at h
    cases h
  | error a s =>
    rw [hr] at h
    exact hrun.error a s hr (Option.some.inj h)

/-- A wheel that names a mill as its base, and a mill that names the wheel but counts as resolved. A
number is shared by both sides of a sum, and a constant has been left half resolved. -/
def mill : Program :=
  let expr (kind : Expr) : ExprNode := ⟨kind, 1, none⟩
  { Program.empty with
    exprs := .ofList [expr (.literal (.int 1)), expr (.binary (.arith .add) ⟨0⟩ (.expr ⟨0⟩)),
      expr (.name "Spokes" none)]
    classes := .ofList [
      ⟨"Wheel", ⟨0⟩, 1, false, .normal, some "Mill", none, [⟨0⟩], [], [], .unvisited⟩,
      ⟨"Mill", ⟨0⟩, 2, false, .normal, some "Wheel", none, [⟨1⟩], [], [], .resolved⟩]
    consts := .ofList [⟨"Spokes", 1, .classDecl ⟨0⟩, .hidden, none, some ⟨1⟩, .unvisited, none⟩,
      ⟨"Stones", 2, .classDecl ⟨1⟩, .hidden, none, some ⟨2⟩, .inProgress, none⟩] }

theorem mill_resolve_terminates :
    (∀ e, ¬ mill.Contains (.expr e) (.expr e)) ∧ (∀ x, ¬ mill.Contains (.stmt x) (.stmt x)) ∧
      (∀ d ∈ mill.classes.toList, d.base = none) ∧ mill.resolve.abort = none ∧
      mill.resolve.abort ≠ some (.broken .cyclic) := by
  have ha : mill.Acyclic := Program.acyclic_of_lower cabinetRank (by decide)
  have hb : ∀ d ∈ mill.classes.toList, d.base = none := by decide
  have h := resolve_terminates mill (fun e => ha _) (fun x => ha _) hb
  exact ⟨fun e => ha _, fun x => ha _, hb, by decide +kernel, h.1⟩

end Ci
