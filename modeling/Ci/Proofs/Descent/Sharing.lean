-- Resolution introduces no sharing. If no expression is held by two slots, then
-- what the slots come to lies in trees that do not meet, unless one holds the
-- other; and of two live slots the upper one has come to something that still
-- leads down to the lower one.
import Ci.Proofs.Descent.Run
import Ci.Proofs.Program.Tree

namespace Ci

/-! ## Slots -/

/-- The expression that a node is. -/
def Node.expr? : Node → Option ExprId
  | .expr e => some e
  | _ => none

namespace Program

variable {p q : Program} {x y : Node} {i j : Nat} {e : ExprId}

/-- A slot of a node holds an expression. -/
def HoldsAt (p : Program) (x : Node) (i : Nat) (e : ExprId) :
    Prop := (p.parts x)[i]? = some (.expr e)

/-- No two of the slots of some nodes hold the same expression. -/
def UnsharedAmong (p : Program) (S : Node → Prop) : Prop :=
  ∀ x y i j e, S x → S y → p.HoldsAt x i e → p.HoldsAt y j e → x = y ∧ i = j

/-- Every expression that a slot holds is there. -/
def HoldsPresent (p : Program) : Prop := ∀ x i e, p.HoldsAt x i e → e.slot < p.exprs.size

/-- The node can be reached from a declaration. -/
def Declared (p : Program) (x : Node) : Prop :=
  ∃ d : Node, (∀ e, d ≠ .expr e) ∧ (∀ s, d ≠ .stmt s) ∧ x ∈ p.region d

theorem HoldsAt.mem (h : p.HoldsAt x i e) : .expr e ∈ p.parts x := List.mem_of_getElem? h

theorem exists_holdsAt (h : .expr e ∈ p.parts x) : ∃ i, p.HoldsAt x i e := List.mem_iff_getElem?.1 h

theorem declared_method (m : MethodId) : p.Declared (.method m) := ⟨_, by simp, by simp, .refl⟩

theorem declared_const (k : ConstId) : p.Declared (.const k) := ⟨_, by simp, by simp, .refl⟩

theorem Declared.part (h : p.Declared x) (hy : y ∈ p.parts x) : p.Declared y := by
  obtain ⟨d, he, hs, hx⟩ := h
  exact ⟨d, he, hs, hx.tail hy⟩

theorem holdsPresent_of_held (h : ∀ e ∈ p.held.filterMap Node.expr?, e.slot < p.exprs.size) :
    p.HoldsPresent :=
  fun _ _ e he => h e (List.mem_filterMap.2 ⟨.expr e, mem_held he.mem, rfl⟩)

theorem TreeShaped.unshared (h : p.TreeShaped) : p.UnsharedAmong fun _ => True := by
  intro x y i j e _ _ hx hy
  obtain rfl := h.holder_unique hx.mem hy.mem
  exact ⟨rfl, (List.getElem?_inj (List.getElem?_eq_some_iff.1 hx).1 (h.parts_nodup x)).1
    (hx.trans hy.symm)⟩

end Program

/-! ## What the slots come to -/

section

variable {p q : Program} {w : List ExprId} {a b c r : ExprId} {x y : Node} {i : Nat}

/-- A node that can be reached, with the number of expressions on the way. -/
inductive Lives (q : Program) : Nat → Node → Prop
  | root {x : Node} (h : ∀ e, x ≠ .expr e) : Lives q 0 x
  | part {n : Nat} {x : Node} {e : ExprId} (h : Lives q n x) (he : .expr e ∈ q.parts x) :
    Lives q (n + 1) (.expr e)

theorem Program.Declared.lives (h : q.Declared x) : ∃ n, Lives q n x := by
  obtain ⟨d, hd, -, hx⟩ := h
  induction hx with
  | refl => exact ⟨0, .root hd⟩
  | @tail _ z _ hz ih =>
    obtain ⟨n, hn⟩ := ih
    by_cases he : ∃ e, z = .expr e
    · obtain ⟨e, rfl⟩ := he
      exact ⟨n + 1, .part hn hz⟩
    · exact ⟨0, .root fun e heq => he ⟨e, heq⟩⟩

variable (hu : p.UnsharedAmong fun _ => True) (hr : p.HoldsPresent)
  (hs : ∀ x, Slots (Under p w) (p.parts x) (q.parts x))

section

include hu hr

theorem Spawns.unique (h : Spawns p w a c) (h' : Spawns p w b c) : a = b := by
  cases h with
  | part h =>
    obtain ⟨i, hi⟩ := Program.exists_holdsAt h
    cases h' with
    | part h' =>
      obtain ⟨j, hj⟩ := Program.exists_holdsAt h'
      simpa using (hu _ _ _ _ _ trivial trivial hi hj).1
    | literal =>
      have := hr _ _ _ hi
      omega
  | literal i ha =>
    cases h' with
    | part h' =>
      obtain ⟨j, hj⟩ := Program.exists_holdsAt h'
      have := hr _ _ _ hj
      omega
    | literal j hb =>
      obtain rfl : i = j := by omega
      exact ha.some_unique hb

/-- What comes before the expression in a slot at the start is the holder of the slot. -/
theorem Spawns.holder (h : Spawns p w b a) (ha : p.HoldsAt x i a) : x = .expr b := by
  cases h with
  | part h =>
    obtain ⟨j, hj⟩ := Program.exists_holdsAt h
    exact (hu _ _ _ _ _ trivial trivial ha hj).1
  | literal =>
    have := hr _ _ _ ha
    omega

/-- Of two expressions that lead to a third, one leads to the other. -/
theorem Under.total (h : Under p w a c) (h' : Under p w b c) : Under p w a b ∨ Under p w b a := by
  have hright : Relator.RightUnique (Function.swap (Spawns p w)) :=
    fun c a b ha hb => Spawns.unique hu hr ha hb
  have := Relation.ReflTransGen.total_of_right_unique hright h.swap h'.swap
  exact this.symm.imp (fun h => h.swap) fun h => h.swap

/-- Below an expression that comes from nothing there is no way back. -/
theorem not_transGen_self (hroot : ∀ b, ¬ Spawns p w b r) (h : Under p w r c) :
    ¬ Relation.TransGen (Spawns p w) c c := by
  induction h with
  | refl =>
    intro hc
    obtain ⟨b, -, hb⟩ := Relation.TransGen.tail'_iff.1 hc
    exact hroot b hb
  | @tail _ _ _ hbc ih =>
    intro hc
    obtain ⟨b', hb', hlast⟩ := Relation.TransGen.tail'_iff.1 hc
    obtain rfl := Spawns.unique hu hr hbc hlast
    exact ih (Relation.TransGen.head' hbc hb')

end

include hs

/-- What a slot holds comes from what it held at the start. -/
theorem exists_start (h : q.HoldsAt x i c) : ∃ a, p.HoldsAt x i a ∧ Under p w a c := by
  have hslot : ∀ {xs ys : List Node} {i : Nat}, Slots (Under p w) xs ys → ys[i]? = some (.expr c) →
      ∃ a, xs[i]? = some (.expr a) ∧ Under p w a c := by
    intro xs ys i hxy hy
    induction hxy generalizing i with
    | nil => simp at hy
    | cons hab _ ih =>
      cases i with
      | zero =>
        simp only [List.getElem?_cons_zero, Option.some.injEq] at hy ⊢
        subst hy
        cases hab with
        | same => exact ⟨c, rfl, .refl⟩
        | expr h => exact ⟨_, rfl, h⟩
      | succ => simpa using ih (by simpa using hy)
  exact hslot (hs x) h

include hu hr

/-- A live expression comes from one that comes from nothing. -/
theorem Lives.exists_root {n : Nat} (h : Lives q n (.expr c)) :
    ∃ r, (∀ b, ¬ Spawns p w b r) ∧ Under p w r c := by
  generalize hx : Node.expr c = x at h
  induction h generalizing c with
  | root hne => exact absurd hx.symm (hne c)
  | @part _ x e _ he ih =>
    obtain rfl : c = e := by simpa using hx
    obtain ⟨i, hi⟩ := Program.exists_holdsAt he
    obtain ⟨a, ha, hac⟩ := exists_start hs hi
    by_cases hb : ∃ b, x = .expr b
    · obtain ⟨b, rfl⟩ := hb
      obtain ⟨r, hroot, hrb⟩ := ih rfl
      exact ⟨r, hroot, (hrb.tail (.part ha.mem)).trans hac⟩
    · exact ⟨a, fun b hba => hb ⟨b, hba.holder hu hr ha⟩, hac⟩

/-- A live expression under what a live slot held at the start is under what the slot holds now. -/
theorem Lives.under {m n : Nat} (hm : Lives q m x) (ha : p.HoldsAt x i a) (hc : q.HoldsAt x i c)
    (hn : Lives q n (.expr b)) (hab : Under p w a b) : Under p w c b := by
  -- by induction on how far both are from where they can be reached
  induction hN : m + n using Nat.strong_induction_on generalizing m n x i a b c with
  | _ _ ih =>
    generalize hx : Node.expr b = y at hn
    cases hn with
    | root hne => exact absurd hx.symm (hne b)
    | @part n _ e hy he =>
      obtain rfl : b = e := by simpa using hx
      obtain ⟨j, hj⟩ := Program.exists_holdsAt he
      obtain ⟨a', ha', hab'⟩ := exists_start hs hj
      rcases Under.total hu hr hab hab' with haa | haa
      · rcases haa.cases_tail with rfl | ⟨d, had, hda⟩
        · -- the two slots are one
          obtain ⟨rfl, rfl⟩ := hu _ _ _ _ _ trivial trivial ha ha'
          obtain rfl : c = b := by simpa using hc.symm.trans hj
          exact .refl
        · -- the holder of the lower slot is under the upper slot
          obtain rfl := hda.holder hu hr ha'
          exact (ih (m + n) (by omega) hm ha hc hy had rfl).trans (.head hda hab')
      · rcases haa.cases_tail with rfl | ⟨d, had, hda⟩
        · obtain ⟨rfl, rfl⟩ := hu _ _ _ _ _ trivial trivial ha ha'
          obtain rfl : c = b := by simpa using hc.symm.trans hj
          exact .refl
        · -- the other way round there would be a way back
          obtain rfl := hda.holder hu hr ha
          have hbd := ih (n + m) (by omega) hy ha' hj hm had rfl
          obtain ⟨r, hroot, hrb⟩ := (Lives.part hy he).exists_root hu hr hs
          exact absurd (Relation.TransGen.trans_right hbd (.head' hda hab))
            (not_transGen_self hu hr hroot hrb)

/-- Two live slots never hold the same expression. -/
theorem unshared_of_slots : q.UnsharedAmong q.Declared := by
  intro x y i j c hx hy hi hj
  obtain ⟨m, hm⟩ := hx.lives
  obtain ⟨n, hn⟩ := hy.lives
  -- a slot whose start leads to that of the other is the other
  have hone : ∀ {m n : Nat} {x y : Node} {i j : Nat} {a a' : ExprId}, Lives q m x → Lives q n y →
      q.HoldsAt x i c → q.HoldsAt y j c → p.HoldsAt x i a → p.HoldsAt y j a' →
      Under p w a' c → Under p w a a' → x = y ∧ i = j := by
    intro m n x y i j a a' hm hn hi hj ha ha' hac haa
    rcases haa.cases_tail with rfl | ⟨d, had, hda⟩
    · exact hu _ _ _ _ _ trivial trivial ha ha'
    · obtain rfl := hda.holder hu hr ha'
      have hcd := hm.under hu hr hs ha hi hn had
      obtain ⟨r, hroot, hrc⟩ := (Lives.part hn hj.mem).exists_root hu hr hs
      exact absurd (Relation.TransGen.trans_right hcd (.head' hda hac))
        (not_transGen_self hu hr hroot hrc)
  obtain ⟨a, ha, hac⟩ := exists_start hs hi
  obtain ⟨a', ha', hac'⟩ := exists_start hs hj
  rcases Under.total hu hr hac hac' with haa | haa
  · exact hone hm hn hi hj ha ha' hac' haa
  · obtain ⟨rfl, rfl⟩ := hone hn hm hj hi ha' ha hac haa
    exact ⟨rfl, rfl⟩

end

/-! ## Resolution -/

/-- If no expression is held by two slots, and those that are held are there, then after resolution
no expression is held by two slots of nodes that declarations lead to, whether resolution comes to
its end or not. Nothing but a constant holds its value: what takes the place of its name is another
expression. -/
theorem resolve_introduces_no_sharing (p : Program) (hu : p.UnsharedAmong fun _ => True)
    (hr : p.HoldsPresent) :
    p.resolve.program.UnsharedAmong p.resolve.program.Declared ∧
      ∀ k d e x i, p.resolve.program.consts.get? k = some d → d.value = some e →
        p.resolve.program.Declared x → p.resolve.program.HoldsAt x i e → x = .const k := by
  obtain ⟨s, w, hs, hg⟩ := resolve_grown Interval.family_all p.within_all
  have hslots : ∀ x, Slots (Under p w.added) (p.parts x) (p.resolve.program.parts x) :=
    hs ▸ hg.slots
  have hmain := unshared_of_slots hu hr hslots
  refine ⟨hmain, fun k d e x i hd hv hx hi => ?_⟩
  obtain ⟨j, hj⟩ := Program.exists_holdsAt (p := p.resolve.program) (x := .const k) (e := e)
    (by simp [Program.parts_const hd, hv])
  exact (hmain x (.const k) i j e hx (Program.declared_const k) hi hj).1

/-- A statement that holds the first expression that is not there, after one whose value is
known. -/
def echo : Program :=
  let expr (kind : Expr) : ExprNode := ⟨kind, 1, none⟩
  { Program.empty with
    exprs := .ofList [expr (.literal (.int 1)), expr (.literal (.int 1)),
      expr (.binary (.arith .add) ⟨0⟩ (.expr ⟨1⟩))]
    stmts := .ofList [⟨.expr ⟨2⟩, 1⟩, ⟨.expr ⟨3⟩, 1⟩, ⟨.block [⟨0⟩, ⟨1⟩], 1⟩]
    classes := .ofList [⟨"Echo", ⟨0⟩, 1, false, .normal, none, none, [], [], [⟨0⟩], .unvisited⟩]
    methods := .ofList [⟨"call", 1, .hidden, .normal, false, none, [], some ⟨2⟩, none⟩] }

/-- The value takes the place that the second statement holds. -/
theorem echo_shares :
    echo.UnsharedAmong (fun _ => True) ∧ echo.resolve.abort = none ∧
      ¬ echo.resolve.program.UnsharedAmong echo.resolve.program.Declared := by
  have htree : echo.TreeShaped := by decide +kernel
  have h1 : .stmt ⟨2⟩ ∈ echo.resolve.program.parts (.method ⟨0⟩) := by decide +kernel
  have h2 : .stmt ⟨0⟩ ∈ echo.resolve.program.parts (.stmt ⟨2⟩) := by decide +kernel
  have h3 : .stmt ⟨1⟩ ∈ echo.resolve.program.parts (.stmt ⟨2⟩) := by decide +kernel
  have hfirst : echo.resolve.program.HoldsAt (.stmt ⟨0⟩) 0 ⟨3⟩ := by
    unfold Program.HoldsAt
    decide +kernel
  have hsecond : echo.resolve.program.HoldsAt (.stmt ⟨1⟩) 0 ⟨3⟩ := by
    unfold Program.HoldsAt
    decide +kernel
  refine ⟨htree.unshared, by decide +kernel, fun h => ?_⟩
  have hbody := (Program.declared_method ⟨0⟩).part h1
  exact absurd (h _ _ _ _ _ (hbody.part h2) (hbody.part h3) hfirst hsecond).1 (by decide)

/-- A constant with a literal value that two statements name, one of them inside an operator. -/
def chorus : Program :=
  let expr (kind : Expr) : ExprNode := ⟨kind, 1, none⟩
  let name (text : String) : ExprNode := expr (.name text none)
  { Program.empty with
    exprs := .ofList [expr (.literal (.int 2)), name "Voices", name "Voices",
      expr (.literal (.bool true)), name "Voices",
      expr (.conditional ⟨3⟩ ⟨2⟩ ⟨4⟩)]
    stmts := .ofList [⟨.expr ⟨1⟩, 1⟩, ⟨.expr ⟨5⟩, 1⟩, ⟨.block [⟨0⟩, ⟨1⟩], 1⟩]
    classes := .ofList [⟨"Chorus", ⟨0⟩, 1, false, .normal, none, none, [⟨0⟩], [],
      [⟨0⟩], .unvisited⟩]
    consts := .ofList [⟨"Voices", 1, .classDecl ⟨0⟩, .hidden, none, some ⟨0⟩, .unvisited, none⟩]
    methods := .ofList [⟨"sing", 1, .hidden, .normal, false, none, [], some ⟨2⟩, none⟩] }

theorem chorus_introduces_no_sharing :
    chorus.UnsharedAmong (fun _ => True) ∧ chorus.HoldsPresent ∧
      chorus.resolve.program.parts (.stmt ⟨0⟩) = [.expr ⟨6⟩] ∧
      chorus.resolve.program.parts (.stmt ⟨1⟩) = [.expr ⟨7⟩] ∧
      chorus.resolve.program.UnsharedAmong chorus.resolve.program.Declared := by
  have hu : chorus.UnsharedAmong fun _ => True := Program.TreeShaped.unshared (by decide +kernel)
  have hr : chorus.HoldsPresent := Program.holdsPresent_of_held (by decide +kernel)
  exact ⟨hu, hr,
    by decide +kernel, by decide +kernel, (resolve_introduces_no_sharing chorus hu hr).1⟩

end Ci
