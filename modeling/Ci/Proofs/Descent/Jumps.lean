-- Jumps are checked exactly. The loops and choices that are open when a jump is visited are
-- those that stand around it in the body of its method.
import Ci.Proofs.Descent.Phases

namespace Ci

variable {p : Program}

/-- The locale in which statements are visited only as they stand in the bodies of methods. -/
def Locale.bodies (p : Program) : Locale p where
  Here _ _ := True
  Free _ := True
  Lines _ _ := True
  Occurs around x := ∃ c body, p.BodyOf c body ∧ p.Inside ([], body) (around, x)
  home _ _ _ := trivial
  free _ _ _ := trivial
  line _ _ _ _ := trivial
  inner := by
    rintro around x n b ⟨c, body, hbody, hx⟩ hn hb
    exact ⟨c, body, hbody, hx.tail ⟨n, hn, hb⟩⟩

theorem Locale.bodies_opens : (Locale.bodies p).Opens where
  classes _ := trivial
  enums _ := trivial
  globals _ _ _ := trivial
  listed _ := trivial
  bodies h := ⟨_, _, h, .refl⟩

/-- A program is resolved only if every jump in the body of a method has a loop or a choice around
it to leave, or a loop to repeat. It is refused because of a jump only if one of them has not. -/
theorem resolve_checks_jumps (p : Program) (hf : Fresh p) :
    (p.resolve.abort = none → ∀ c x, p.BodyOf c x → p.JumpsLand [] x) ∧
      ∀ d, p.resolve.abort = some (.fault d) → d.fault.isJump = true →
        ∃ c x, p.BodyOf c x ∧ ¬ p.JumpsLand [] x := by
  obtain ⟨hok, hfault⟩ := (Locale.bodies_opens (p := p)).resolve hf
  refine ⟨hok, fun d hd hj => ?_⟩
  obtain ⟨around, x, n, ⟨c, body, hbody, hx⟩, hn, hlands⟩ := (hfault d hd).2 hj
  exact ⟨c, body, hbody, fun h => hlands (h (around, x) n hx hn)⟩

/-- A class with one of two methods. One has a loop that is left from a branch and repeated from a
case, the other a jump after that loop. -/
def carousel (m : MethodId) : Program :=
  let expr (kind : Expr) : ExprNode := ⟨kind, 1, none⟩
  { Program.empty with
    exprs := .ofList [expr (.literal (.bool true)), expr (.literal (.int 1)),
      expr (.literal (.int 1))]
    stmts := .ofList [⟨.leave, 1⟩, ⟨.next, 2⟩, ⟨.ifThen ⟨0⟩ ⟨0⟩ none, 3⟩,
      ⟨.switch ⟨1⟩ [⟨[⟨2⟩], [⟨1⟩]⟩] (some [⟨2⟩]), 4⟩, ⟨.whileLoop ⟨0⟩ ⟨3⟩, 5⟩, ⟨.leave, 6⟩,
      ⟨.block [⟨4⟩, ⟨5⟩], 7⟩]
    classes := .ofList [⟨"Carousel", ⟨0⟩, 1, false, .normal, none, none, [], [], [m], .unvisited⟩]
    methods := .ofList [⟨"turn", 1, .hidden, .normal, false, none, [], some ⟨4⟩, none⟩,
      ⟨"fling", 1, .hidden, .normal, false, none, [], some ⟨6⟩, none⟩] }

theorem resolve_checks_jumps_carousel :
    (carousel ⟨0⟩).resolve.abort = none ∧ (carousel ⟨0⟩).JumpsLand [] ⟨4⟩ ∧
      (carousel ⟨1⟩).resolve.abort = some
      (.fault ⟨"", 6, .invalidStatement "break outside loop or switch"⟩) ∧
      ∃ c x, (carousel ⟨1⟩).BodyOf c x ∧ ¬ (carousel ⟨1⟩).JumpsLand [] x := by
  have hturn : (carousel ⟨0⟩).BodyOf ⟨0⟩ ⟨4⟩ := ⟨⟨0⟩, by decide +kernel, by decide +kernel⟩
  have hok : (carousel ⟨0⟩).resolve.abort = none := by decide +kernel
  have hfling : (carousel ⟨1⟩).resolve.abort =
      some (.fault ⟨"", 6, .invalidStatement "break outside loop or switch"⟩) := by decide +kernel
  exact ⟨hok, (resolve_checks_jumps _ (by decide +kernel)).1 hok _ _ hturn, hfling,
    (resolve_checks_jumps _ (by decide +kernel)).2 _ hfling rfl⟩

/-- A method that belongs to no class may jump from anywhere. -/
theorem carousel_flings :
    Fresh (carousel ⟨0⟩) ∧ (carousel ⟨0⟩).resolve.abort = none ∧
      .stmt ⟨6⟩ ∈ (carousel ⟨0⟩).parts (.method ⟨1⟩) ∧ ¬ (carousel ⟨0⟩).JumpsLand [] ⟨6⟩ := by
  refine ⟨by decide +kernel, by decide +kernel, by decide +kernel, fun h => ?_⟩
  exact h ([], ⟨5⟩) ⟨.leave, 6⟩ (.single ⟨⟨.block [⟨4⟩, ⟨5⟩], 7⟩, rfl, by decide⟩) rfl rfl

end Ci
