-- What becomes of a statement. Each statement is put back once, and whatever follows
-- works elsewhere, so at the end of the pass it stands as it was put back.
import Ci.Proofs.Work.Run

namespace Ci

open Pass Program

variable {ι : Type} {p q r r' : Program} {n : Nat} {s s1 s' : State} {D : Set Node} {x y : Node}
  {R : State → ι → State → Prop} {xs : List StmtId} {cases cases' : List Case} {c : ClassId}
  {is : List ι}

/-- What has been resolved in a program is the same in a later one, and so are the statements of a
region. -/
structure Remains (p : Program) (x : Node) (r q : Program) : Prop where
  lasts : Lasts r q
  stmts : ∀ z, .stmt z ∈ p.region x → q.stmts.get? z = r.stmts.get? z

namespace Remains

theorem part (h : Remains p x r q) (hy : y ∈ p.region x) : Remains p y r q :=
  ⟨h.lasts, fun z hz => h.stmts z (region_subset_of_mem hy hz)⟩

/-- Work that leaves the region alone. -/
theorem back (h : Remains p x r' q) (hl : Lasts r r') (hs : ∀ z ∉ D, r.Same r' z)
    (hd : Disjoint (p.region x) D) : Remains p x r q := by
  refine ⟨hl.trans h.lasts, fun z hz => (h.stmts z hz).trans ?_⟩
  exact hs (.stmt z) (Set.disjoint_left.1 hd hz)

end Remains

/-! ## One after another -/

theorem RanAll.mono {R' : State → ι → State → Prop}
    (hR : ∀ s i s', R s i s' → R' s i s') (h : RanAll R s is s') : RanAll R' s is s' := by
  induction h with
  | nil => exact .nil _
  | cons first _ ih => exact .cons (hR _ _ _ first) ih

/-- Something holds before each turn. -/
theorem RanAll.along {J : State → Prop} (hstep : ∀ s i s', J s → R s i s' → J s')
    (hs : J s) (h : RanAll R s is s') : RanAll (fun a i b => R a i b ∧ J a) s is s' := by
  induction h with
  | nil => exact .nil _
  | cons first _ ih => exact .cons ⟨first, hs⟩ (ih (hstep _ _ _ hs first))

/-- Things that are done one after another in regions apart from each other. Each of them leaves
what those before it have done. -/
theorem RanAll.remains {N : ι → Node} (hl : ∀ s i s', R s i s' → Lasts s.program s'.program)
    (hs : ∀ s i s', R s i s' → Spares p (p.region (N i) ∪ p.waiting s.program) s s')
    (hw : ∀ s i s', R s i s' → Disjoint (p.region (N i)) (p.waiting s.program))
    (hdis : is.Pairwise fun i j => Disjoint (p.region (N i)) (p.region (N j)))
    (h : RanAll R s is s') (hq : ∀ i ∈ is, Remains p (N i) s'.program q) :
    RanAll (fun a i b => R a i b ∧ Remains p (N i) b.program q) s is s' := by
  induction h with
  | nil => exact .nil _
  | @cons s s1 _ i is first rest ih =>
    obtain ⟨hi, hdis⟩ := List.pairwise_cons.1 hdis
    refine .cons ⟨first, ?_⟩ (ih hdis fun j hj => hq j (by simp [hj]))
    have hrest := RanAll.spares hs (D := {z | ∃ j ∈ is, z ∈ p.region (N j)})
      (fun j hj z hz => ⟨j, hj, hz⟩) rest
    refine (hq i (by simp)).back (RanAll.lasts hl rest) hrest.same
      (Set.disjoint_left.2 fun z hz => ?_)
    rintro (⟨j, hj, hz'⟩ | hz')
    · exact Set.disjoint_left.1 (hi j hj) hz hz'
    · exact Set.disjoint_left.1 (hw s i s1 first) hz ((hs s i s1 first).waiting hz')

/-! ## Statements -/

/-- A statement has been resolved, and stands in a later program as it was put back. -/
def Rested (p q : Program) (n : Nat) (s : State) (x : StmtId) (s' : State) : Prop :=
  RanStmt p n s x s' ∧ Remains p (.stmt x) s'.program q

section

variable (hf : Fresh p)

include hf

theorem RanAll.rested (h : RanAll (RanStmt p n) s xs s')
    (hdis : (xs.map Node.stmt).Pairwise fun x y => Disjoint (p.region x) (p.region y))
    (hq : ∀ x ∈ xs, Remains p (.stmt x) s'.program q) : RanAll (Rested p q n) s xs s' := by
  have hdis' : xs.Pairwise fun x y => Disjoint (p.region (.stmt x)) (p.region (.stmt y)) := by
    simpa [List.pairwise_map] using hdis
  exact RanAll.remains (fun _ _ _ h => h.lasts hf) (fun _ _ _ h => h.moves.spares)
    (fun _ _ _ h => h.fit.apart) hdis' h hq

omit hf in
/-- Statements that have been resolved do not wait. -/
theorem RanAll.apart (h : RanAll (RanStmt p n) s xs s') :
    ∀ x ∈ xs, Disjoint (p.region (.stmt x)) (p.waiting s'.program) := by
  induction h with
  | nil => simp
  | @cons _ _ _ _ _ first rest ih =>
    have hrest := RanAll.spares (N := .stmt) (fun _ _ _ h => h.moves.spares) (D := Set.univ)
      (fun _ _ => Set.subset_univ _) rest
    refine List.forall_mem_cons.2 ⟨?_, ih⟩
    exact first.fit.apart.mono_right (hrest.waiting.trans first.moves.spares.waiting)

omit hf in
theorem RanCases.apart (h : RanCases p (RanStmt p n) s cases cases' s') :
    ∀ x, .stmt x ∈ cases.flatMap Case.parts → Disjoint (p.region (.stmt x))
    (p.waiting s'.program) := by
  induction h with
  | nil => simp
  | cons _ body rest ih =>
    intro x hx
    simp only [List.flatMap_cons, Case.parts, List.mem_append, List.mem_map,
      reduceCtorEq, and_false, exists_false, false_or, Node.stmt.injEq, exists_eq_right] at hx
    rcases hx with hx | hx
    · have hchanges := rest.changes (D := Set.univ) (fun _ _ => Set.subset_univ _)
        (Set.subset_univ _)
      exact (RanAll.apart body x hx).mono_right (waiting_subset hchanges)
    · exact ih x hx

theorem RanCases.rested (h : RanCases p (RanStmt p n) s cases cases' s')
    (hdis : (cases.flatMap Case.parts).Pairwise fun x y => Disjoint (p.region x) (p.region y))
    (hq : ∀ x, .stmt x ∈ cases.flatMap Case.parts → Remains p (.stmt x) s'.program q) :
    RanCases p (Rested p q n) s cases cases' s' := by
  induction h with
  | nil => exact .nil _
  | @cons _ _ s2 _ c _ cases _ labels body rest ih =>
    simp only [List.flatMap_cons] at hdis hq
    obtain ⟨hdisc, hdis, hcross⟩ := List.pairwise_append.1 hdis
    have hbody : (c.body.map Node.stmt).Sublist c.parts := List.sublist_append_right _ _
    have hrested := ih hdis fun x hx => hq x (List.mem_append_right _ hx)
    refine .cons labels (RanAll.rested hf body (hdisc.sublist hbody) fun x hx => ?_) hrested
    have hmem : .stmt x ∈ c.parts := hbody.subset (List.mem_map_of_mem hx)
    -- the cases that follow are apart
    have hchanges := rest.changes (D := {z | ∃ y ∈ cases.flatMap Case.parts, z ∈ p.region y} ∪
      p.waiting s2.program) (fun y hy z hz => .inl ⟨y, hy, hz⟩) fun z hz => .inr hz
    have hlasts := rest.lasts hf fun _ _ _ h => h.lasts hf
    refine (hq _ (List.mem_append_left _ hmem)).back hlasts (fun z hz => hchanges.same hz)
      (Set.disjoint_left.2 fun z hz => ?_)
    rintro (⟨y, hy, hz'⟩ | hz')
    · exact Set.disjoint_left.1 (hcross _ hmem y hy) hz hz'
    · exact Set.disjoint_left.1 (RanAll.apart body x hx) hz hz'

theorem StepKind.rested {kind kind' : Stmt} (h : StepKind p (RanStmt p n) s kind kind' s')
    (hdis : kind.parts.Pairwise fun x y => Disjoint (p.region x) (p.region y))
    (hq : ∀ y ∈ kind.parts, Remains p y s'.program q) :
    StepKind p (Rested p q n) s kind kind' s' := by
  cases h with
  | block walk =>
    exact .block (RanAll.rested hf walk hdis fun x hx => hq _ (by simp [Stmt.parts, hx]))
  | @ifThen _ _ a b s1 _ _ condition boolean onTrue onFalse =>
    simp only [Stmt.parts] at hdis hq
    have hwalk : RanAll (Rested p q n) s1 (a :: b.toList) s' :=
      RanAll.rested hf (.cons onTrue onFalse) (by simpa using (List.pairwise_cons.1 hdis).2)
        fun x hx => hq (.stmt x) (by simpa using hx)
    cases hwalk with
    | cons first rest => exact .ifThen condition boolean first rest
  | whileLoop condition boolean walk =>
    exact .whileLoop condition boolean ⟨walk, hq _ (by simp [Stmt.parts])⟩
  | @doWhile _ _ _ _ _ walk condition boolean =>
    simp only [Stmt.parts, List.pairwise_cons, List.mem_singleton, forall_eq] at hdis
    refine .doWhile ⟨walk, ?_⟩ condition boolean
    have hlasts := condition.lasts hf
    refine (hq _ (by simp [Stmt.parts])).back hlasts (fun z hz => condition.moves.program.same hz)
      ?_
    exact hdis.1.sup_right (walk.fit.apart.mono_right walk.moves.spares.waiting)
  | forLoop first condition step walk =>
    exact .forLoop first condition step ⟨walk, hq _ (by simp [Stmt.parts])⟩
  | @switch _ _ _ _ default _ t1 t2 subject walk last =>
    simp only [Stmt.parts] at hdis hq
    obtain ⟨hcases, hlast, hcross⟩ := List.pairwise_append.1 (List.pairwise_cons.1 hdis).2
    have hdefault := RanAll.rested hf last hlast fun x hx => hq _ (by simp [hx])
    refine .switch subject (walk.rested hf hcases fun x hx => ?_) hdefault
    have hspares := RanAll.spares (N := .stmt) (fun _ _ _ h => h.moves.spares)
      (D := {z | ∃ y ∈ default.getD [], z ∈ p.region (.stmt y)}) (fun y hy z hz => ⟨y, hy, hz⟩) last
    have hlasts : Lasts t1.program t2.program := RanAll.lasts (fun _ _ _ h => h.lasts hf) last
    refine (hq (.stmt x) (by simp [hx])).back hlasts hspares.same
      (Set.disjoint_left.2 fun z hz => ?_)
    rintro (⟨y, hy, hz'⟩ | hz')
    · exact Set.disjoint_left.1 (hcross _ hx (.stmt y) (List.mem_map_of_mem hy)) hz hz'
    · exact Set.disjoint_left.1 (walk.apart x hx) hz hz'
  | ret returns some result fits => exact .ret returns some result fits
  | retNone returns => exact .retNone returns
  | leave inside => exact .leave inside
  | next inside => exact .next inside
  | throw text fits => exact .throw text fits
  | delete pointer type allocated => exact .delete pointer type allocated
  | expr result => exact .expr result
  | const walk found binds => exact .const walk found binds

/-- A statement that has been resolved, as it stands in a later program. -/
theorem Rested.step {x : StmtId} (hp : p.TreeShaped) (h : Rested p q (n + 1) s x s') :
    ∃ m kind' s1, p.stmts.get? x = some m ∧ StepKind p (Rested p q n) s m.kind kind' s1 ∧
      s' = s1.setStmt x { m with kind := kind' } ∧ s1.program.stmts.get? x = some m ∧
      q.stmts.get? x = some { m with kind := kind' } := by
  obtain ⟨hran, hq⟩ := h
  obtain @⟨m, kind', s1, node, kind, still⟩ := hran.step hp hf
  have hparts := parts_stmt node
  refine ⟨m, kind', s1, node, kind.rested hf ?_ fun y hy => ?_, rfl, still, ?_⟩
  · rw [← hparts]
    exact hran.fit.loose.pairwise_disjoint hp (List.Sublist.refl _)
  · rw [← hparts] at hy
    have hself : .stmt x ∉ p.region y := hran.fit.loose.not_mem hy
    refine ⟨Lasts.setStmt.trans hq.lasts, fun z hz => (hq.stmts z (region_subset hy hz)).trans ?_⟩
    refine Arena.get?_set_of_ne ?_
    rintro rfl
    exact hself hz
  · rw [hq.stmts x mem_region_self]
    exact Arena.get?_set_self still

end

/-! ## Bodies -/

section

variable {m : MethodId} {d : Method} {ty : Ty} {e e' : ExprId} {x : StmtId}

/-- The pass is in the body of a method whose type is known. -/
def InBody (m : MethodId) (d : Method) (s : State) : Prop :=
  s.method = some m ∧ s.program.methods.get? m = some d

theorem InBody.later (h : InBody m d s) (hd : d.ty ≠ none) (hm : s'.method = s.method)
    (hl : Lasts s.program s'.program) : InBody m d s' := by
  obtain ⟨d', hd', -, hsame⟩ := hl.methods m d h.2
  exact ⟨hm.trans h.1, by rw [hd', hsame hd]⟩

theorem InBody.returnTy (h : InBody m d s) (hr : Resolve.returnTy s = .ok ty s) :
    d.ty.getD .void = ty := by
  simp only [Resolve.returnTy, bind_eq_ok, get_eq_ok] at hr
  obtain ⟨_, _, ⟨rfl, rfl⟩, hr⟩ := hr
  simp only [h.1, bind_eq_ok, ask_eq_ok, Arena.fetch_ok, pure_eq_ok] at hr
  obtain ⟨d', _, ⟨hd', -⟩, hty, -⟩ := hr
  obtain rfl := h.2.some_unique hd'
  exact hty.symm

variable (hf : Fresh p)

include hf

section

variable (h : InBody m d s) (hd : d.ty ≠ none)

include h hd

theorem InBody.ran (run : Ran p n s e e' s') :
    InBody m d s' := h.later hd run.moves.place.method (run.lasts hf)

theorem InBody.rested (run : Rested p q n s x s') : InBody m d s' :=
  h.later hd run.1.moves.place.method (run.1.lasts hf)

theorem InBody.list {C : ExprId → ExprId → State → Prop} {es es' : List ExprId}
    (run : RanList p State.depth id C s es es' s') : InBody m d s' := by
  induction run with
  | nil => exact h
  | cons first _ _ ih => exact ih (h.ran hf hd first)

theorem InBody.all (run : RanAll (Rested p q n) s xs s') : InBody m d s' := by
  induction run with
  | nil => exact h
  | cons first _ ih => exact ih (h.rested hf hd first)

end

end

/-! ## Methods and classes -/

theorem RanMethod.spares {file : FileId} {i : ScopeId} {m : MethodId}
    (h : RanMethod p file i s m s') :
    Spares p (p.region (.method m) ∪ p.waiting s.program) s s' := by
  cases h with
  | abstract => exact ⟨fun _ _ => .refl _ _, subset_rfl⟩
  | @body _ _ b _ _ _ found _ body params run =>
    obtain ⟨T, rfl, -⟩ := params.params (p := p)
    have hin : p.region (.stmt b) ⊆ p.region (.method m) :=
      region_subset (by simp [parts, found, Method.parts, body])
    refine ⟨fun z hz => run.moves.program.same fun hz' => hz ?_, waiting_subset run.moves.program⟩
    exact Set.union_subset_union_left _ hin hz'

/-- The methods of a class are those it had at the start. -/
def ClassHolds (p : Program) (s : State) : Prop :=
  ∀ c d, s.program.classes.get? c = some d → ∃ d0, p.classes.get? c = some d0 ∧
    d.methods = d0.methods

theorem ClassHolds.later (h : ClassHolds p s) (hl : Lasts s.program s'.program) : ClassHolds p s' :=
  fun c d hd => h c d (by rw [← hl.classes, hd])

theorem Linked.classHolds (h : Linked p s) : ClassHolds p s := by
  intro c d hd
  obtain ⟨d0, base, hd0, rfl⟩ := h.exists_decl hd
  exact ⟨d0, hd0, rfl⟩

theorem RanCode.spares (hc : ClassHolds p s) (h : RanCode p s c s') :
    Spares p (p.region (.classDecl c) ∪ p.waiting s.program) s s' := by
  obtain ⟨decl, -, methods⟩ := h
  obtain ⟨d0, hd0, hmethods⟩ := hc c _ decl
  refine RanAll.spares (N := .method) (fun _ _ _ h => h.spares) (fun m hm => ?_) methods
  refine region_subset ?_
  rw [hmethods] at hm
  simp [parts, hd0, ClassDecl.parts, hm]

/-- The method has been resolved, and its body stands in a later program as it was put back. -/
def RestedMethod (p q : Program) (file : FileId) (i : ScopeId) (s : State) (m : MethodId)
    (s' : State) : Prop :=
  RanMethod p file i s m s' ∧ Remains p (.method m) s'.program q

/-- The code of a class has been resolved, and stands in a later program as it was put back. -/
inductive RestedCode (p q : Program) (s : State) (c : ClassId) : State → Prop
  | mk {d : ClassDecl} {i : ScopeId} {s' : State} (decl : s.program.classes.get? c = some d)
      (found : s.classScopes.get? c = some i)
      (methods : RanAll (RestedMethod p q d.file i) s d.methods s') : RestedCode p q s c s'

theorem RestedCode.lasts (hf : Fresh p) (h : RestedCode p q s c s') :
    Lasts s.program s'.program := by
  obtain ⟨-, -, methods⟩ := h
  exact methods.lasts fun _ _ _ h => (h.1.proceeds hf).lasts

section

variable (hp : p.TreeShaped) (hf : Fresh p)

include hp hf

theorem RanCode.rested (h : RanCode p s c s') (hc : ClassHolds p s)
    (hw : p.waiting s.program = ∅) (hq : Remains p (.classDecl c) s'.program q) :
    RestedCode p q s c s' := by
  obtain @⟨d, i, s', decl, found, methods⟩ := h
  obtain ⟨d0, hd0, hmethods⟩ := hc c d decl
  have hparts : (d.methods.map Node.method).Sublist (p.parts (.classDecl c)) := by
    rw [hmethods]
    simp [parts, hd0, ClassDecl.parts]
  have hdis : d.methods.Pairwise fun m m' => Disjoint (p.region (.method m))
    (p.region (.method m')) := by
    simpa [List.pairwise_map] using (Program.Loose.classDecl c).pairwise_disjoint hp hparts
  -- no constant waits any more
  have halong := RanAll.along (J := fun t => p.waiting t.program = ∅) (fun a m b ha h =>
    Set.subset_eq_empty h.spares.waiting ha) hw methods
  have hremains := RanAll.remains (N := .method) (q := q) (fun _ _ _ h => (h.1.proceeds hf).lasts)
    (fun _ _ _ h => h.1.spares) (fun a m b h => by rw [h.2]; exact Set.disjoint_empty _) hdis halong
    fun m hm => hq.part (part_mem_region (hparts.subset (List.mem_map_of_mem hm)))
  exact .mk decl found (hremains.mono fun _ _ _ h => ⟨h.1.1, h.2⟩)

theorem Phases.rested {s2 s3 : State} (h : Phases p s1 s2 s3 s') :
    RanAll (RestedCode p s'.program) s3 s1.program.ordered s' := by
  have htypes := RanAll.lasts (fun _ _ _ h => (RanTypes.proceeds hf h).lasts) h.types
  have halong := RanAll.along (J := fun t => p.waiting t.program = ∅ ∧ ClassHolds p t)
    (fun a c b ha h => ⟨Set.subset_eq_empty (h.spares ha.2).waiting ha.1,
      ha.2.later (h.proceeds hf).lasts⟩)
    ⟨h.not_waiting hf htypes,
      h.linked.classHolds.later ((h.consts.proceeds hf).lasts.trans htypes)⟩ h.code
  have hremains := RanAll.remains (N := .classDecl) (q := s'.program)
    (fun _ _ _ h => (h.1.proceeds hf).lasts) (fun _ _ _ h => h.1.spares h.2.2)
    (fun a m b h => by rw [h.2.1]; exact Set.disjoint_empty _)
    (h.nodup.imp fun hne => hp.disjoint (decl_not_mem_parts rfl)
      (decl_not_mem_parts rfl) (by simpa using hne)) halong
    fun c _ => ⟨.refl _, fun _ _ => rfl⟩
  exact hremains.mono fun a c b h => h.1.1.rested hp hf h.1.2.2 h.1.2.1 h.2

end

end Ci
