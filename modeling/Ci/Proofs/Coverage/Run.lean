-- The whole pass leaves no hole: whatever can be reached in the program at the end
-- has its type. Parts of the program may be shared.
import Ci.Proofs.Coverage.Covered
import Ci.Proofs.Work.Run

namespace Ci

open Pass Resolve Program Arena

variable {p q : Program} {w : Set Node × Set Node} {π : Spot} {c : ClassId}
  {d : EnumId} {f : FieldId}
  {m : MethodId} {v : VarId} {y : Node} {α : Type} {x : Pass α} {Q : Set Node × Set Node → α → Prop}

theorem Program.Retains.live_class (h : p.Retains q) :
    q.live (.classDecl c) = p.live (.classDecl c) := by
  simp only [live, parts, h.classes]

theorem Program.Retains.live_enum (h : p.Retains q) :
    q.live (.enumDecl d) = p.live (.enumDecl d) := by
  simp only [live, parts, h.enums]

namespace Covering

/-- A declaration is covered once all is that it leads to. -/
theorem close (hk : ∀ k, y ≠ .const k) (he : ∀ e, y ≠ .expr e)
    (hy : ∀ {q}, p.Retains q → q.live y = p.live y) (h : Obeys (discipline p) π w x Q)
    (hq : ∀ w' a, w ≤ w' → Q w' a → ∀ z ∈ p.live y, z ∈ w'.2) :
    Obeys (discipline p) π w x fun w' _ => y ∈ w'.2 := by
  intro Δ s hs hπ
  obtain ⟨w1, hw1, hx⟩ := h s hs hπ
  cases hrun : x s with
  | ok a t =>
    rw [hrun] at hx
    obtain ⟨ht, hst, hqa⟩ := hx
    have htyped : t.program.Typed y ∧ t.program.member y = [] := by
      cases y with
      | expr e => exact absurd rfl (he e)
      | _ => exact ⟨trivial, rfl⟩
    obtain ⟨w2, hw2, ht2, hcov⟩ :=
      ht.cover (.refl _) rfl hk htyped.1 (by simp [htyped.2]) fun z hz =>
      .inl (hq w1 a hw1 hqa z (hy ht.retains ▸ hz))
    exact .of_ok hrun (hw1.trans hw2) ht2 hst hcov
  | error =>
    rw [hrun] at hx
    refine ⟨w1, hw1, ?_⟩
    rw [hrun]
    exact hx

theorem each {ι : Type} {g : ι → Pass Unit} {is : List ι} {D : Set Node × Set Node → ι → Prop}
    (hD : ∀ {w w' i}, w ≤ w' → D w i → D w' i)
    (h : ∀ i ∈ is, ∀ w', w ≤ w' → Obeys (discipline p) π w' (g i) fun w' _ => D w' i) :
    Obeys (discipline p) π w (is.forM g) fun w' _ => ∀ i ∈ is, D w' i :=
  .forM (P := fun w' => w ≤ w') (fun hle hw => hw.trans hle) hD le_rfl h

/-! ## Constants -/

theorem consts {ks : List ConstId} :
    Obeys (discipline p) π w (ks.forM resolveConst) fun w' _ => ∀ k ∈ ks, .const k ∈ w'.2 :=
  each (fun hw h => hw.2 h) fun _ _ _ _ => .resolveConst (.inr trivial)

theorem values : Obeys (discipline p) π w (resolveValues d) fun w' _ => .enumDecl d ∈ w'.2 := by
  refine .ask_bind fun s a hs ha =>
    close (by simp) (by simp) (·.live_enum) consts fun w' _ _ hk z hz => ?_
  rw [← hs.retains.live_enum] at hz
  simp only [live, parts, fetch_ok.1 ha, Option.elim, EnumDecl.parts, List.mem_map] at hz
  obtain ⟨k, hk', rfl⟩ := hz
  exact hk k hk'

/-- The constants of the class are covered. -/
def ConstsCovered (p : Program) (w : Set Node × Set Node) (c : ClassId) : Prop :=
  ∀ k, .const k ∈ p.live (.classDecl c) → .const k ∈ w.2

theorem classConsts :
    Obeys (discipline p) π w (resolveClassConsts c) fun w' _ => ConstsCovered p w' c := by
  refine .ask_bind fun s a hs ha => consts.imp fun w' _ _ hk k hmem => hk k ?_
  rw [← hs.retains.live_class] at hmem
  simpa [live, parts, fetch_ok.1 ha, ClassDecl.parts] using hmem

theorem allConsts : Obeys (discipline p) π w resolveConsts fun w' _ =>
    (∀ k ∈ p.globals, .const k ∈ w'.2) ∧ (∀ d ∈ p.enums.handles, .enumDecl d ∈ w'.2) ∧
      ∀ c ∈ p.ordered, ConstsCovered p w' c := by
  refine .get_bind fun s hs _ => .bind consts fun w1 _ _ h1 => .get_bind fun s1 hs1 _ =>
    .bind (each (D := fun w d => .enumDecl d ∈ w.2) (fun hw h => hw.2 h) fun _ _ _ _ => values)
      fun w2 _ hw2 h2 => .get_bind fun s2 hs2 _ => .imp (each (D := ConstsCovered p)
        (fun hw h k hk => hw.2 (h k hk)) fun _ _ _ _ => classConsts) fun w3 _ hw3 h3 => ?_
  rw [hs.retains.globals] at h1
  rw [hs1.retains.enums] at h2
  rw [hs2.retains.ordered] at h3
  exact ⟨fun k hk => (hw2.trans hw3).2 (h1 k hk), fun d hd => hw3.2 (h2 d hd), h3⟩

/-! ## Types -/

theorem field : Obeys (discipline p) π w (resolveField f) fun w' _ => .field f ∈ w'.2 := by
  refine .ask_bind fun s a hs ha => close (Q := fun w' _ => .expr a.typeExpr ∈ w'.2)
    (by simp) (by simp)
    (·.fields f) (.bind (.resolveType trivial) fun w1 t _ ht =>
      .imp (.changeHere fun s q hs hq => ?_)
      fun _ _ _ heq => heq ▸ ht.2) fun w' _ _ ht z hz => ?_
  · obtain ⟨a', ha', rfl⟩ := updateField_ok.1 hq
    exact hs.setField ha'
  · rw [← hs.retains.fields] at hz
    obtain rfl : z = .expr a.typeExpr := by simpa [live, parts, fetch_ok.1 ha, Field.parts] using hz
    exact ht

/-- The type of the parameter is covered. -/
def ParamCovered (p : Program) (w : Set Node × Set Node) (v : VarId) : Prop :=
  ∀ a, p.vars.get? v = some a → .expr a.typeExpr ∈ w.2

theorem param : Obeys (discipline p) π w (resolveParam v) fun w' _ => ParamCovered p w' v := by
  refine .ask_bind fun s a hs ha => .bind (.resolveType trivial) fun w1 t _ ht =>
    .imp (.changeHere fun s q hs hq => ?_) ?_
  · obtain ⟨a', ha', rfl⟩ := updateVar_ok.1 hq
    exact hs.setVarTy ha'
  · rintro _ - - rfl a0 ha0
    obtain ⟨a1, ha1, ho⟩ := hs.retains.vars v a (fetch_ok.1 ha)
    obtain rfl := ha0.some_unique ha1
    have hte : a.typeExpr = a0.typeExpr := (congrArg Var.typeExpr ho :)
    exact hte ▸ ht.2

/-- What the method returns and takes is covered. -/
def SignatureCovered (p : Program) (w : Set Node × Set Node) (m : MethodId) : Prop :=
  ∀ e, .expr e ∈ p.live (.method m) → .expr e ∈ w.2

theorem signature :
    Obeys (discipline p) π w (resolveSignature m) fun w' _ => SignatureCovered p w' m := by
  refine .ask_bind fun s a hs ha => .bind (Q := fun w' _ => ∀ e ∈ a.typeExpr, .expr e ∈ w'.2) ?_
    fun w1 t _ h1 => .then_bind (.changeHere fun s q hs hq => ?_) (.ask_bind fun s2 a2 hs2 ha2 =>
      .imp (each (D := ParamCovered p) (fun hw h a ha => hw.2 (h a ha)) fun _ _ _ _ => param)
        fun w2 _ hw2 h2 e he => ?_)
  · cases a.typeExpr with
    | none => exact .pure (by simp)
    | some e => exact (Obeys.resolveType trivial).imp fun _ _ _ ht _ he =>
      Option.mem_some_iff.1 he ▸ ht.2
  · obtain ⟨a', ha', rfl⟩ := updateMethod_ok.1 hq
    exact hs.setMethod ha'
  · obtain ⟨a0, ha0, ho⟩ := hs.retains.signatures m a (fetch_ok.1 ha)
    obtain ⟨a1, ha1, ho2⟩ := hs2.retains.signatures m a2 (fetch_ok.1 ha2)
    obtain rfl := ha0.some_unique ha1
    have hte : a.typeExpr = a0.typeExpr := (congrArg Method.typeExpr ho :)
    have hps : a2.params = a0.params := (congrArg Method.params ho2 :)
    simp only [live, ha0, Option.elim, List.mem_append, List.mem_map, Option.mem_toList,
      List.mem_flatMap, reduceCtorEq, and_false, exists_false, or_false] at he
    rcases he with ⟨e', he, heq⟩ | ⟨v, hv, b, hb, heq⟩
    · exact heq ▸ hw2.2 (h1 e' (hte ▸ he))
    · exact heq ▸ h2 v (hps ▸ hv) b hb

/-- The fields of the class are covered, and the signatures of its methods. -/
def TypesCovered (p : Program) (w : Set Node × Set Node) (c : ClassId) : Prop :=
  (∀ f, .field f ∈ p.live (.classDecl c) → .field f ∈ w.2) ∧
    ∀ m, .method m ∈ p.live (.classDecl c) → SignatureCovered p w m

theorem types : Obeys (discipline p) π w (resolveTypes c) fun w' _ => TypesCovered p w' c := by
  have hlive : ∀ {Δ w s a y}, Covering p Δ w s → s.program.classes.fetch c = .ok a →
      (y ∈ p.live (.classDecl c) ↔ y ∈ a.parts) := by
    intro Δ w s a y hs ha
    rw [← hs.retains.live_class]
    simp only [live, parts, fetch_ok.1 ha, Option.elim]
  refine .ask_bind fun _ _ _ _ => .look_bind .classScope fun _ =>
    .within (.ask_bind fun s1 a1 hs1 ha1 =>
    .bind (each (D := fun w f => .field f ∈ w.2) (fun hw h => hw.2 h) fun _ _ _ _ => field)
    fun w1 _ _ h1 =>
      .ask_bind fun s2 a2 hs2 ha2 => .imp (each (D := SignatureCovered p)
        (fun hw h e he => hw.2 (h e he)) fun _ _ _ _ => signature) fun w2 _ hw2 h2 =>
          ⟨fun f hf => ?_, fun m hm => ?_⟩)
  · exact hw2.2 (h1 f (by simpa [ClassDecl.parts] using (hlive hs1 ha1).1 hf))
  · exact h2 m (by simpa [ClassDecl.parts] using (hlive hs2 ha2).1 hm)

/-! ## Bodies -/

theorem method {i : ScopeId} {file : FileId} (hπ : π.method = none) (hm : SignatureCovered p w m) :
    Obeys (discipline p) π w (resolveMethod file i m) fun w' _ => .method m ∈ w'.2 := by
  refine .ask_bind fun s a hs ha => close (Q := fun w' _ => ∀ x ∈ a.body, .stmt x ∈ w'.2)
    (by simp) (by simp) (·.methods m) ?_ fun w' _ hw hb z hz => ?_
  · cases a.body with
    | none => exact .pure (by simp)
    | some body =>
      refine .bind (Q := fun _ _ => True)
        (fun _ s hs _ => .of_ok rfl le_rfl { hs with } ⟨rfl, rfl, rfl, rfl, rfl, rfl⟩ trivial)
        fun _ _ _ _ =>
        .inMethod hπ (.within
          (.ask_bind fun _ _ _ _ => .bind (each (D := fun _ _ => True) (fun _ h => h)
          fun _ _ _ _ => .ask_bind fun _ _ _ _ => .imp (.define trivial fun hs _ => { hs with })
            fun _ _ _ _ => trivial) fun _ _ _ _ =>
              (Obeys.resolveStmt trivial).imp fun _ _ _ hd x hx => ?_))
      exact Option.mem_some_iff.1 hx ▸ hd
  · have hlive := hs.retains.methods m
    by_cases he : ∃ e, z = .expr e
    · obtain ⟨e, rfl⟩ := he
      exact hw.2 (hm e hz)
    · rw [← hlive] at hz
      simp only [live, fetch_ok.1 ha, Option.elim, List.mem_append, List.mem_map, Option.mem_toList,
        List.mem_flatMap] at hz
      rcases hz with (⟨e, -, rfl⟩ | ⟨_, -, b, -, rfl⟩) | ⟨x, hx, rfl⟩
      · exact absurd ⟨_, rfl⟩ he
      · exact absurd ⟨_, rfl⟩ he
      · exact hb x hx

theorem code (hπ : π.method = none) (hk : ConstsCovered p w c) (ht : TypesCovered p w c) :
    Obeys (discipline p) π w (resolveCode c) fun w' _ => .classDecl c ∈ w'.2 := by
  refine .ask_bind fun _ _ _ _ => .look_bind .classScope fun _ => .ask_bind fun s a hs ha =>
    close (by simp)
    (by simp) (·.live_class) (each (D := fun w m => .method m ∈ w.2) (fun hw h => hw.2 h)
      fun m hm w' hw => method hπ fun e he => hw.2 (ht.2 m ?_ e he)) fun w' _ hw hm z hz => ?_
  · rw [← hs.retains.live_class]
    simp [live, parts, fetch_ok.1 ha, ClassDecl.parts, hm]
  · have hz' := hz
    rw [← hs.retains.live_class] at hz'
    simp only [live, parts, fetch_ok.1 ha, Option.elim, ClassDecl.parts, List.mem_append,
      List.mem_map] at hz'
    rcases hz' with (⟨k, -, rfl⟩ | ⟨f, -, rfl⟩) | ⟨m, hm', rfl⟩
    · exact hw.2 (hk k hz)
    · exact hw.2 (ht.1 f hz)
    · exact hm m hm'

/-! ## The whole pass -/

/-- The members of the classes that are in the order are covered at the end. -/
theorem members (hπ : π.method = none) (hall : ∀ c ∈ p.classes.handles, c ∈ p.ordered) :
    Obeys (discipline p) π w resolveMembers fun w' _ => ∀ y, p.Top y → y ∈ w'.2 := by
  refine .bind allConsts fun w1 _ _ h1 => .get_bind fun s hs _ => ?_
  rw [hs.retains.ordered]
  refine .bind (each (D := TypesCovered p)
    (fun hw h => ⟨fun f hf => hw.2 (h.1 f hf), fun m hm e he => hw.2 (h.2 m hm e he)⟩)
    fun _ _ _ _ => types)
    fun w2 _ hw2 h2 =>
      .imp (each (D := fun w c => .classDecl c ∈ w.2) (fun hw h => hw.2 h) fun c hc w' hw =>
      code hπ (fun k hk => (hw2.trans hw).2 (h1.2.2 c hc k hk)) ?_) fun w3 _ hw3 h3 y hy => ?_
  · exact ⟨fun f hf => hw.2 ((h2 c hc).1 f hf), fun m hm e he => hw.2 ((h2 c hc).2 m hm e he)⟩
  · cases y with
    | classDecl c => exact h3 c (hall c hy)
    | enumDecl d => exact (hw2.trans hw3).2 (h1.2.1 d hy)
    | const k => exact (hw2.trans hw3).2 (h1.1 k hy)
    | _ => exact hy.elim

/-- If nothing is owed, all that a covered node leads to is covered. -/
theorem of_leads {s : State} {z : Node} (h : Covering p ∅ w s) (hy : y ∈ w.2)
    (hz : s.program.Leads y z) :
    z ∈ w.2 := by
  induction hz with
  | refl => exact hy
  | tail _ hz ih =>
    obtain ⟨hseen, -, hm⟩ := h.covered _ ih
    exact (h.slots _ hseen _ hz).elim id fun h => h.elim (hm _) fun h =>
      absurd h (Set.notMem_empty _)

end Covering

/-- After a pass that has come to its end, every expression that the classes, the enumerations
and the global constants of the program lead to is there and has its type. -/
theorem resolve_types_reachable (p : Program)
    (hc : ∀ d ∈ p.classes.toList, d.status = .unvisited)
    (hk : ∀ d ∈ p.consts.toList, d.status = .unvisited) (h : p.resolve.abort = none) :
    ∀ y e, p.resolve.program.Top y → p.resolve.program.Leads y (.expr e) →
      ∃ n, p.resolve.program.exprs.get? e = some n ∧ n.ty ≠ none := by
  obtain ⟨s', run, hs'⟩ := run_of_resolve h
  rw [Resolve.run_eq] at run
  obtain ⟨_, s0, hregister, run⟩ := bind_eq_ok.1 run
  obtain ⟨_, s1, hclasses, hmembers⟩ := bind_eq_ok.1 run
  have hdeclared := declared_of_register hregister
  obtain ⟨hnest, hleaves, -, hresolved, ho⟩ :=
    (Nesting.start hc hdeclared).resolveClasses.ok _ _ hclasses
  obtain ⟨new, hnew⟩ := ho [] (.start hdeclared.program hc)
  have hall : ∀ c ∈ s1.program.classes.handles, c ∈ s1.program.ordered := fun c hc => by
    rw [hnew.ordered]
    exact List.mem_append_right _ ((hnew.mem c).2 (hresolved c (hnest.handles ▸ hc)))
  have hstart : Covering s1.program ∅ (∅, ∅) s1 := by
    refine ⟨by simp, by simp, fun k d hd => ?_, .refl _⟩
    obtain ⟨classes, ordered, hp⟩ := hnest.program
    rw [hp] at hd
    simp [hk d (mem_toList_of_get? hd)]
  obtain ⟨w, -, hrun⟩ := Covering.members (hleaves.method.trans hdeclared.method) hall s1 hstart rfl
  rw [hmembers] at hrun
  obtain ⟨hcov, -, htop⟩ := hrun
  intro y e hy hlead
  rw [hs'] at hy hlead ⊢
  have hy' : s1.program.Top y := by
    cases y with
    | classDecl => rwa [Program.Top, ← hcov.retains.classes]
    | enumDecl => rwa [Program.Top, ← hcov.retains.enums]
    | const => rwa [Program.Top, ← hcov.retains.globals]
    | _ => exact hy.elim
  exact (hcov.covered _ (hcov.of_leads (htop y hy') hlead)).2.1

/-- An array whose length is a constant. The body of the method shares the name of that constant
with the type of the field. -/
def shelf : Program :=
  let expr (kind : Expr) : ExprNode := ⟨kind, 1, none⟩
  { Program.empty with
    exprs := .ofList [expr (.literal (.int 2)), expr (.name "Size" none), expr (.name "int" none),
      expr (.binary .index ⟨2⟩ (.expr ⟨1⟩)), expr (.name "int" none)]
    stmts := .ofList [⟨.ret (some ⟨1⟩), 1⟩]
    classes := .ofList [
      ⟨"Shelf", ⟨0⟩, 1, false, .normal, none, none, [], [⟨0⟩], [⟨0⟩], .unvisited⟩]
    consts := .ofList [⟨"Size", 1, .program ⟨0⟩, .hidden, none, some ⟨0⟩, .unvisited, none⟩]
    fields := .ofList [⟨"books", 1, .hidden, ⟨3⟩, none⟩]
    methods := .ofList [⟨"size", 1, .hidden, .normal, false, some ⟨4⟩, [], some ⟨0⟩, none⟩]
    globals := [⟨0⟩] }

theorem shelf_types_reachable :
    shelf.resolve.abort = none ∧ ¬ shelf.TreeShaped ∧ shelf.exprs.size = 5 ∧
      shelf.resolve.program.Leads (.classDecl ⟨0⟩) (.expr ⟨5⟩) ∧
      ∃ n, shelf.resolve.program.exprs.get? ⟨5⟩ = some n ∧ n.ty ≠ none := by
  have h : shelf.resolve.abort = none := by decide +kernel
  have hfield : .field ⟨0⟩ ∈ shelf.resolve.program.live (.classDecl ⟨0⟩) := by decide +kernel
  have htype : .expr ⟨3⟩ ∈ shelf.resolve.program.live (.field ⟨0⟩) := by decide +kernel
  have hlength : .expr ⟨5⟩ ∈ shelf.resolve.program.live (.expr ⟨3⟩) := by decide +kernel
  have hlead : shelf.resolve.program.Leads (.classDecl ⟨0⟩) (.expr ⟨5⟩) :=
    ((Program.Leads.refl.tail hfield).tail htype).tail hlength
  have htop : (⟨0⟩ : ClassId) ∈ shelf.resolve.program.classes.handles := by decide +kernel
  exact ⟨h, by decide +kernel, by decide +kernel, hlead,
    resolve_types_reachable shelf (by decide +kernel) (by decide +kernel) h (.classDecl ⟨0⟩) ⟨5⟩
      htop hlead⟩

end Ci
