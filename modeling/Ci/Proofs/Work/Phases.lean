-- The phases that come after the classes. The constants are resolved, then the types of
-- the members of a class, then the bodies of its methods. Each of them is as it was at
-- the start when the pass comes to it.
import Ci.Proofs.Hierarchy.Circles
import Ci.Proofs.Work.Members
import Ci.Proofs.Work.Settled

namespace Ci

open Pass Resolve Arena

variable {ι : Type} {p q : Program} {n : Nat} {s s1 s2 s' t : State} {e : ExprId} {k : ConstId}
  {f : FieldId} {m : MethodId} {v : VarId} {c : ClassId} {D : Set Node} {x y : Node}
  {xs ys zs : List Node} {u : Unit} {d : Method} {ks : List ConstId} {ty : Ty} {te : Option ExprId}
  {R : State → ι → State → Prop} {is : List ι} {g : ι → Pass Unit} {O : ι → List Node}
  {N : ι → Node}

/-! ## Fields and methods -/

/-- The state with another field in a slot. -/
def Pass.State.setField (s : State) (f : FieldId) (d : Field) : State :=
  { s with program := { s.program with fields := s.program.fields.set f d } }

/-- The state with another method in a slot. -/
def Pass.State.setMethod (s : State) (m : MethodId) (d : Method) : State :=
  { s with program := { s.program with methods := s.program.methods.set m d } }

@[simp] theorem Pass.updateField_eq_ok {g : Field → Field} :
    change (·.updateField f g) s = .ok u s' ↔
      ∃ d, s.program.fields.get? f = some d ∧ s' = s.setField f (g d) :=
  change_eq_ok_of fun _ => Program.updateField_ok

@[simp] theorem Pass.updateMethod_eq_ok {g : Method → Method} :
    change (·.updateMethod m g) s = .ok u s' ↔
      ∃ d, s.program.methods.get? m = some d ∧ s' = s.setMethod m (g d) :=
  change_eq_ok_of fun _ => Program.updateMethod_ok

/-! ## What work spares -/

/-- Nodes outside a region are what they were, and no constant waits that has not waited. -/
structure Spares (p : Program) (D : Set Node) (s s' : State) : Prop where
  same : ∀ x ∉ D, s.program.Same s'.program x
  waiting : p.waiting s'.program ⊆ p.waiting s.program

theorem Moves.spares (h : Moves D s s') : Spares p D s s' :=
  ⟨fun _ hx => h.program.same hx, Program.waiting_subset h.program⟩

namespace Spares

theorem trans {D' : Set Node} (h : Spares p D s s1) (h' : Spares p D' s1 s') (hD : D' ⊆ D) :
    Spares p D s s' :=
  ⟨fun x hx => (h.same x hx).trans (h'.same x fun hx' => hx (hD hx')), h'.waiting.trans h.waiting⟩

theorem mono {D' : Set Node} (h : Spares p D s s') (hD : D ⊆ D') : Spares p D' s s' :=
  ⟨fun x hx => h.same x fun hx' => hx (hD hx'), h.waiting⟩

theorem setField {d : Field} : Spares p {.field f} s (s.setField f d) := by
  refine ⟨fun x hx => ?_, subset_rfl⟩
  cases x with
  | field f' =>
    have hne : f ≠ f' := by
      rintro rfl
      exact hx rfl
    exact Arena.get?_set_of_ne hne
  | _ => simp [Program.Same, Program.parts, State.setField]

theorem setMethod : Spares p {.method m} s (s.setMethod m d) := by
  refine ⟨fun x hx => ?_, subset_rfl⟩
  cases x with
  | method m' =>
    have hne : m ≠ m' := by
      rintro rfl
      exact hx rfl
    exact Arena.get?_set_of_ne hne
  | _ => simp [Program.Same, Program.parts, State.setMethod]

theorem setVar {d : Var} : Spares p {.var v} s (s.setVar v d) := by
  refine ⟨fun x hx => ?_, subset_rfl⟩
  cases x with
  | var v' =>
    have hne : v ≠ v' := by
      rintro rfl
      exact hx rfl
    exact Arena.get?_set_of_ne hne
  | _ => simp [Program.Same, Program.parts, State.setVar]

end Spares

theorem Ready.spare (h : Ready p s) (hs : Spares p D s s')
    (he : s'.program.exprs = s.program.exprs) (hk : s'.program.consts = s.program.consts)
    (ht : s'.table.scopes = s.table.scopes) (hD : ∀ y ∈ D, y ∉ p.waiting s.program) :
    Ready p s' := by
  refine ⟨fun e hp hs' => ?_, fun i c name k hc hb => ?_, fun y hy => ?_⟩
  · rw [Program.TypedLiteral, he]
    exact h.added e hp (he ▸ hs')
  · rw [hk]
    exact h.bound i c name k (ht ▸ hc) hb
  · have hy' := hs.waiting hy
    exact (h.waiting y hy').trans (hs.same y fun hyD => hD y hyD hy')

theorem Fit.spare (h : Fit p s x) (hs : Spares p D s s') (hr : Ready p s')
    (hD : Disjoint D (p.region x)) : Fit p s' x :=
  ⟨hr, h.loose, fun y hy => (h.same y hy).trans (hs.same y fun hyD =>
    Set.disjoint_left.1 hD hyD hy), h.apart.mono_right hs.waiting⟩

/-- Work on one node leaves the others as they are, and some of its parts. -/
theorem Pending.replace (h : Pending p s (ys ++ x :: zs)) (hs : Spares p D s s') (hr : Ready p s')
    (hD : D ⊆ p.region x ∪ p.waiting s.program) (hfit : ∀ y ∈ xs, Fit p s' y)
    (hin : ∀ y ∈ xs, p.region y ⊆ p.region x)
    (hxs : xs.Pairwise fun y z => Disjoint (p.region y) (p.region z)) :
    Pending p s' (ys ++ xs ++ zs) := by
  obtain ⟨hys, hxzs, hcross⟩ := List.pairwise_append.1 h.apart
  obtain ⟨hxz, hzs⟩ := List.pairwise_cons.1 hxzs
  -- whatever else waits is apart from the node
  have hother : ∀ y ∈ ys ++ zs, Disjoint (p.region x) (p.region y) := by
    intro y hy
    rcases List.mem_append.1 hy with hy | hy
    · exact (hcross y hy x (by simp)).symm
    · exact hxz y hy
  have hspare : ∀ y ∈ ys ++ zs, Fit p s' y := by
    intro y hy
    have hy' : Fit p s y := h.fit y (by simp only [List.mem_append, List.mem_cons] at hy ⊢; tauto)
    exact hy'.spare hs hr (Disjoint.mono_left hD (Disjoint.sup_left (hother y hy) hy'.apart.symm))
  refine ⟨fun y hy => ?_, ?_⟩
  · simp only [List.mem_append] at hy hspare
    rcases hy with (hy | hy) | hy
    · exact hspare y (.inl hy)
    · exact hfit y hy
    · exact hspare y (.inr hy)
  · simp only [List.mem_append] at hother
    refine List.pairwise_append.2 ⟨List.pairwise_append.2 ⟨hys, hxs, fun y hy z hz => ?_⟩, hzs,
      fun y hy z hz => ?_⟩
    · exact ((hother y (.inl hy)).mono_left (hin z hz)).symm
    · rcases List.mem_append.1 hy with hy | hy
      · exact hcross y hy z (by simp [hz])
      · exact (hother z (.inr hz)).mono_left (hin y hy)

/-! ## What lasts through the pass -/

theorem Lasts.setField {d d' : Field} (hd : s.program.fields.get? f = some d) (ht : d.ty = none) :
    Lasts s.program (s.setField f d').program :=
  { Lasts.refl s.program with
    fields := fun f' d1 hd1 ht1 => by
      have hne : f ≠ f' := by
        rintro rfl
        obtain rfl := hd.some_unique hd1
        exact ht1 ht
      exact (Arena.get?_set_of_ne hne).trans hd1 }

theorem Lasts.setMethod {d' : Method} (hd : s.program.methods.get? m = some d) (ht : d.ty = none)
    (hparams : d'.params = d.params) : Lasts s.program (s.setMethod m d').program :=
  { Lasts.refl s.program with
    methods := fun m' d1 hd1 => by
      by_cases hne : m = m'
      · subst hne
        obtain rfl := hd.some_unique hd1
        exact ⟨d', Arena.get?_set_self hd, hparams, fun ht1 => absurd ht ht1⟩
      · exact ⟨d1, (Arena.get?_set_of_ne hne).trans hd1, rfl, fun _ => rfl⟩ }

/-- A part of the pass that comes after the classes. It ends where it started, and what has been
resolved lasts. -/
structure Proceeds (s s' : State) : Prop where
  place : SamePlace s s'
  lasts : Lasts s.program s'.program
  globals : s'.program.globals = s.program.globals
  ordered : s'.program.ordered = s.program.ordered
  table : s.table.Extends s'.table

namespace Proceeds

theorem refl (s : State) : Proceeds s s := ⟨.refl s, .refl _, rfl, rfl, .refl _⟩

theorem trans (h : Proceeds s s1) (h' : Proceeds s1 s') : Proceeds s s' :=
  ⟨h.place.trans h'.place, h.lasts.trans h'.lasts, h'.globals.trans h.globals,
    h'.ordered.trans h.ordered, h.table.trans h'.table⟩

theorem of_moves (h : Moves D s s') (hl : Lasts s.program s'.program) : Proceeds s s' :=
  ⟨h.place, hl, h.program.globals, h.program.ordered, h.table⟩

/-- A part that works in another place comes back. -/
theorem backTo (h : Proceeds t s') (hp : t.program = s.program) (ht : s.table.Extends t.table)
    (hm : t.method = s.method) (hb : t.breakables = s.breakables)
    (hc : t.classScopes = s.classScopes) (he : t.enumScopes = s.enumScopes) :
    Proceeds s (s'.backTo s) := by
  refine ⟨⟨rfl, rfl, h.place.method.trans hm, h.place.breakables.trans hb,
    h.place.classScopes.trans hc, h.place.enumScopes.trans he⟩, ?_, ?_, ?_, ?_⟩
  · rw [← hp]
    exact h.lasts
  · rw [← hp]
    exact h.globals
  · rw [← hp]
    exact h.ordered
  · exact ht.trans h.table

end Proceeds

/-! ## One after another -/

theorem RanAll.append {js : List ι} (h : RanAll R s is s1)
    (h' : RanAll R s1 js s') : RanAll R s (is ++ js) s' := by
  induction h with
  | nil => exact h'
  | cons first _ ih => exact .cons first (ih h')

theorem RanAll.proceeds (hR : ∀ s i s', R s i s' → Proceeds s s') (h : RanAll R s is s') :
    Proceeds s s' := by
  induction h with
  | nil => exact .refl _
  | cons first _ ih => exact (hR _ _ _ first).trans ih

@[simp] theorem flatMap_const_nil (is : List ι) : is.flatMap (fun _ => ([] : List Node)) = [] :=
  List.flatMap_eq_nil_iff.2 fun _ _ => rfl

/-- A loop, each turn of which works on some of the nodes that are pending and leaves others. -/
theorem RanAll.of_forM {I : ι → List Node} {J : State → Prop} {Y Z : List Node}
    (hstep : ∀ s i s' Y Z, i ∈ is → J s → Pending p s (Y ++ I i ++ Z) →
      g i s = .ok () s' → R s i s' ∧ J s' ∧ Pending p s' (Y ++ O i ++ Z))
    (hr : J s) (hpend : Pending p s (Y ++ is.flatMap I ++ Z)) (run : is.forM g s = .ok u s') :
    RanAll R s is s' ∧ J s' ∧ Pending p s' (Y ++ is.flatMap O ++ Z) := by
  induction is generalizing s Y with
  | nil =>
    obtain rfl := forM_nil_eq_ok.1 run
    exact ⟨.nil _, hr, by simpa using hpend⟩
  | cons i is ih =>
    obtain ⟨s1, hi, his⟩ := forM_cons_eq_ok.1 run
    obtain ⟨hR, hr1, hpend1⟩ := hstep s i s1 Y (is.flatMap I ++ Z) (by simp) hr
      (by simpa using hpend) hi
    obtain ⟨hrest, hr', hpend'⟩ := ih (fun s j s' Y Z hj => hstep s j s' Y Z (by simp [hj]))
      (Y := Y ++ O i) hr1 (by simpa using hpend1) his
    exact ⟨.cons hR hrest, hr', by simpa using hpend'⟩

/-- A loop, each turn of which works on one node and leaves some of its parts. -/
theorem RanAll.of_fits {Y Z : List Node}
    (hstep : ∀ s i s', Fit p s (N i) → g i s = .ok () s' → R s i s' ∧ Ready p s' ∧
      Spares p (p.region (N i) ∪ p.waiting s.program) s s' ∧ Pending p s' (O i) ∧
      ∀ y ∈ O i, p.region y ⊆ p.region (N i))
    (hr : Ready p s) (hpend : Pending p s (Y ++ is.map N ++ Z)) (run : is.forM g s = .ok u s') :
    RanAll R s is s' ∧ Ready p s' ∧ Pending p s' (Y ++ is.flatMap O ++ Z) := by
  rw [List.map_eq_flatMap] at hpend
  refine RanAll.of_forM (fun s i s' Y Z _ _ hpend run => ?_) hr hpend run
  rw [List.append_assoc] at hpend
  obtain ⟨hR, hr', hs, hout, hin⟩ := hstep s i s' (hpend.fit _ (by simp)) run
  exact ⟨hR, hr', hpend.replace hs hr' subset_rfl hout.fit hin hout.apart⟩

/-! ## Constants -/

/-- The constants that are listed with the program, the enumerations and the classes. -/
def Program.listed (q : Program) : List ConstId :=
  q.globals ++ q.enums.handles.flatMap (fun e => (q.enums.get? e).elim [] EnumDecl.values)
    ++ q.ordered.flatMap fun c => (q.classes.get? c).elim [] ClassDecl.consts

/-- Some constants have been resolved one after the other. -/
abbrev RanConsts (p : Program) : State → List ConstId → State → Prop :=
  RanAll fun s k s' => RanConst p s.depth s k s'

theorem Ready.known_of_declares {d : Const} (hk : p.Declares k)
    (hd : s.program.consts.get? k = some d) : Known (p.waiting s.program) s.program k := by
  by_cases hs : d.status = .unvisited
  · exact .inl ⟨k, d, hk, hd, hs, Program.mem_region_self⟩
  · exact .inr ⟨d, hd, hs⟩

theorem exists_const_of_run (run : (callsWithin n).const k s = .ok u s') :
    ∃ d, s.program.consts.get? k = some d := by
  cases n with
  | zero => simp [callsWithin, outOfDepth] at run
  | succ =>
    simp only [callsWithin, constRule, bind_eq_ok, ask_eq_ok, fetch_ok] at run
    obtain ⟨d, _, ⟨hd, -⟩, -⟩ := run
    exact ⟨d, hd⟩

section

variable (hp : p.TreeShaped) (hf : Fresh p)

include hp hf

theorem ranConst_of_resolveConst (hr : Ready p s) (hk : p.Declares k)
    (run : Resolve.resolveConst k s = .ok u s') : RanConst p s.depth s k s' := by
  simp only [Resolve.resolveConst, calls, bind_eq_ok, get_eq_ok, pure_eq_ok] at run
  obtain ⟨_, _, ⟨_, _, ⟨rfl, rfl⟩, rfl, rfl⟩, run⟩ := run
  obtain ⟨d, hd⟩ := exists_const_of_run run
  exact (works hp hf _).const hr (Ready.known_of_declares hk hd) run

theorem ranConsts_of_forM (hr : Ready p s)
    (hk : ∀ k ∈ ks, p.Declares k) (run : ks.forM Resolve.resolveConst s = .ok u s') :
    RanConsts p s ks s' ∧ Ready p s' := by
  induction ks generalizing s with
  | nil =>
    obtain rfl := forM_nil_eq_ok.1 run
    exact ⟨.nil _, hr⟩
  | cons k _ ih =>
    obtain ⟨s1, hk1, hks⟩ := forM_cons_eq_ok.1 run
    have hran := ranConst_of_resolveConst hp hf hr (hk k (by simp)) hk1
    obtain ⟨hrest, hr'⟩ := ih hran.ready (fun k hk' => hk k (by simp [hk'])) hks
    exact ⟨.cons hran hrest, hr'⟩

/-- Lists of constants, one list for each of some parts. -/
theorem ranConsts_of_forM_forM {ks : ι → List ConstId}
    {I : State → Prop} (hI : ∀ s s' ks, I s → RanConsts p s ks s' → I s')
    (hg : ∀ i s s', I s → g i s = .ok () s' → (ks i).forM Resolve.resolveConst s = .ok () s')
    (hs : I s) (hr : Ready p s) (hk : ∀ k ∈ is.flatMap ks, p.Declares k)
    (run : is.forM g s = .ok u s') : RanConsts p s (is.flatMap ks) s' ∧ Ready p s' ∧ I s' := by
  induction is generalizing s with
  | nil =>
    obtain rfl := forM_nil_eq_ok.1 run
    exact ⟨.nil _, hr, hs⟩
  | cons i _ ih =>
    obtain ⟨s1, hi, his⟩ := forM_cons_eq_ok.1 run
    simp only [List.flatMap_cons, List.mem_append] at hk ⊢
    obtain ⟨hran, hr1⟩ := ranConsts_of_forM hp hf hr (fun k hk' => hk k (.inl hk'))
      (hg i s s1 hs hi)
    obtain ⟨hrest, hr', hs'⟩ := ih (hI _ _ _ hs hran) hr1 (fun k hk' => hk k (.inr hk')) his
    exact ⟨hran.append hrest, hr', hs'⟩

end

theorem RanConst.proceeds (hf : Fresh p) (h : RanConst p n s k s') : Proceeds s s' :=
  .of_moves h.moves (h.lasts hf)

theorem RanConsts.proceeds (hf : Fresh p) (h : RanConsts p s ks s') : Proceeds s s' :=
  RanAll.proceeds (fun _ _ _ h => h.proceeds hf) h

/-- The phase of constants. -/
theorem ranConsts_of_resolveConsts (hp : p.TreeShaped) (hf : Fresh p) (hr : Ready p s)
    (hk : ∀ k ∈ s.program.listed, p.Declares k) (run : resolveConsts s = .ok u s') :
    RanConsts p s s.program.listed s' ∧ Ready p s' := by
  simp only [resolveConsts, bind_eq_ok, get_eq_ok] at run
  obtain ⟨_, _, ⟨hs, ht⟩, _, s1, hglobals, _, _, ⟨hs1, ht1⟩, _, s2, henums, _, _, ⟨hs2, ht2⟩,
    hclasses⟩ := run
  rw [hs, ht] at hglobals
  rw [hs1, ht1] at henums
  rw [hs2, ht2] at hclasses
  simp only [Program.listed, List.mem_append] at hk
  obtain ⟨hran1, hr1⟩ := ranConsts_of_forM hp hf hr (fun k hk' => hk k (.inl (.inl hk'))) hglobals
  -- what has been listed stays listed
  let I : State → Prop := fun t => t.program.classes = s.program.classes ∧
    t.program.enums = s.program.enums
  have hI : ∀ t t' ks, I t → RanConsts p t ks t' → I t' := by
    intro t t' ks hi h
    exact ⟨(h.proceeds hf).lasts.classes.trans hi.1, (h.proceeds hf).lasts.enums.trans hi.2⟩
  have hi1 : I s1 := hI _ _ _ ⟨rfl, rfl⟩ hran1
  rw [hi1.2] at henums
  obtain ⟨hran2, hr2, hi2⟩ := ranConsts_of_forM_forM hp hf hI (fun e t t' ht he => by
    simp only [resolveValues, bind_eq_ok, ask_eq_ok, fetch_ok] at he
    obtain ⟨d, _, ⟨hd, hs⟩, he⟩ := he
    rw [hs] at he
    rw [ht.2] at hd
    simpa [hd] using he) hi1 hr1 (fun k hk' => hk k (.inl (.inr hk'))) henums
  have hordered : s2.program.ordered = s.program.ordered :=
    (hran2.proceeds hf).ordered.trans (hran1.proceeds hf).ordered
  rw [hordered] at hclasses
  obtain ⟨hran3, hr3, -⟩ := ranConsts_of_forM_forM hp hf hI (fun c t t' ht hc => by
    simp only [resolveClassConsts, bind_eq_ok, ask_eq_ok, fetch_ok] at hc
    obtain ⟨d, _, ⟨hd, hs⟩, hc⟩ := hc
    rw [hs] at hc
    rw [ht.1] at hd
    simpa [hd] using hc) hi2 hr2 (fun k hk' => hk k (.inr hk')) hclasses
  exact ⟨(hran1.append hran2).append hran3, hr3⟩

/-! ## Types of members -/

/-- The type of a field has been read. -/
inductive RanField (p : Program) (s : State) (f : FieldId) : State → Prop
  | mk {d : Field} {ty : Ty} {s1 : State} (found : p.fields.get? f = some d)
      (run : RanType p s.depth s d.typeExpr ty s1) (still : s1.program.fields.get? f = some d) :
      RanField p s f (s1.setField f { d with ty := some ty })

/-- The type of a parameter has been read. -/
inductive RanParam (p : Program) (s : State) (v : VarId) : State → Prop
  | mk {d : Var} {ty : Ty} {s1 : State} (found : p.vars.get? v = some d)
      (run : RanType p s.depth s d.typeExpr ty s1) (still : s1.program.vars.get? v = some d) :
      RanParam p s v (s1.setVar v { d with ty := some ty })

/-- The type that a method returns has been read. -/
inductive Returned (p : Program) (s : State) : Option ExprId → Ty → State → Prop
  | none : Returned p s none .void s
  | some {e : ExprId} {ty : Ty} {s' : State} (run : RanType p s.depth s e ty s') :
      Returned p s (some e) ty s'

/-- The types that a method returns and takes have been read. -/
inductive RanSignature (p : Program) (s : State) (m : MethodId) : State → Prop
  | mk {d : Method} {ty : Ty} {s1 s2 : State} (found : p.methods.get? m = some d)
      (result : Returned p s d.typeExpr ty s1) (still : s1.program.methods.get? m = some d)
      (params : RanAll (RanParam p) (s1.setMethod m { d with ty := some ty }) d.params s2) :
      RanSignature p s m s2

/-- The state in the file and the scope of a class. -/
def Pass.State.inClass (s : State) (d : ClassDecl) (i : ScopeId) : State :=
  { s with file := d.file, table := s.table.enter i }

/-- The types of the members of a class have been read. -/
inductive RanTypes (p : Program) (s : State) (c : ClassId) : State → Prop
  | mk {d : ClassDecl} {i : ScopeId} {t1 t2 : State} (decl : s.program.classes.get? c = some d)
      (found : s.classScopes.get? c = some i)
      (fields : RanAll (RanField p) (s.inClass d i) d.fields t1)
      (methods : RanAll (RanSignature p) t1 d.methods t2) : RanTypes p s c (t2.backTo s)

theorem Program.field_not_waiting : .field f ∉ p.waiting q := by
  rintro ⟨k, d, -, -, -, h⟩
  rcases mem_region_const h with h | h <;> cases h

theorem Program.method_not_waiting : .method m ∉ p.waiting q := by
  rintro ⟨k, d, -, -, -, h⟩
  rcases mem_region_const h with h | h <;> cases h

theorem RanField.spares (h : RanField p s f s') :
    Spares p (p.region (.field f) ∪ p.waiting s.program) s s' := by
  obtain @⟨d, ty, s1, found, run, -⟩ := h
  have hin : p.region (.expr d.typeExpr) ⊆ p.region (.field f) :=
    Program.region_subset (by simp [Program.parts, found, Field.parts])
  refine (run.moves.spares.mono (Set.union_subset_union_left _ hin)).trans .setField ?_
  rintro _ rfl
  exact .inl Program.mem_region_self

theorem RanField.ready (h : RanField p s f s') : Ready p s' := by
  obtain ⟨-, run, -⟩ := h
  refine run.ready.spare .setField rfl rfl rfl ?_
  rintro _ rfl
  exact Program.field_not_waiting

theorem RanParam.spares (h : RanParam p s v s') :
    Spares p (p.region (.var v) ∪ p.waiting s.program) s s' := by
  obtain @⟨d, ty, s1, found, run, -⟩ := h
  have hin : p.region (.expr d.typeExpr) ⊆ p.region (.var v) :=
    Program.region_subset (by simp [Program.parts, found, Var.parts])
  refine (run.moves.spares.mono (Set.union_subset_union_left _ hin)).trans .setVar ?_
  rintro _ rfl
  exact .inl Program.mem_region_self

theorem RanParam.ready (h : RanParam p s v s') (hfit : Fit p s (.var v)) : Ready p s' := by
  obtain ⟨-, run, -⟩ := h
  refine run.ready.spare .setVar rfl rfl rfl ?_
  rintro _ rfl hw
  exact hfit.not_waiting Program.mem_region_self (Program.waiting_subset run.moves.program hw)

/-- Work on some parts of a node, one after the other. -/
theorem RanAll.spares (hR : ∀ s i s',
    R s i s' → Spares p (p.region (N i) ∪ p.waiting s.program) s s')
    (hD : ∀ i ∈ is, p.region (N i) ⊆ D) (h : RanAll R s is s') :
    Spares p (D ∪ p.waiting s.program) s s' := by
  induction h with
  | nil => exact ⟨fun _ _ => .refl _ _, subset_rfl⟩
  | cons first _ ih =>
    have hfirst := hR _ _ _ first
    refine (hfirst.mono (Set.union_subset_union_left _ (hD _ (by simp)))).trans
      (ih fun i hi => hD i (by simp [hi])) (Set.union_subset_union_right _ hfirst.waiting)

section

variable (hf : Fresh p)

include hf

theorem RanType.proceeds (h : RanType p n s e ty s') : Proceeds s s' :=
  .of_moves h.moves (h.lasts hf)

theorem RanField.proceeds (h : RanField p s f s') : Proceeds s s' := by
  obtain @⟨d, ty, s1, found, run, still⟩ := h
  have hset : Lasts s1.program (s1.setField f { d with ty := some ty }).program :=
    .setField still (hf.fields d (mem_toList_of_get? found))
  exact (run.proceeds hf).trans ⟨⟨rfl, rfl, rfl, rfl, rfl, rfl⟩, hset, rfl, rfl, .refl _⟩

theorem RanParam.proceeds (h : RanParam p s v s') : Proceeds s s' := by
  obtain @⟨d, ty, s1, found, run, still⟩ := h
  have hset : Lasts s1.program (s1.setVar v { d with ty := some ty }).program :=
    .setVar still (hf.vars d (mem_toList_of_get? found)) rfl
  exact (run.proceeds hf).trans ⟨⟨rfl, rfl, rfl, rfl, rfl, rfl⟩, hset, rfl, rfl, .refl _⟩

theorem Returned.proceeds (h : Returned p s te ty s') : Proceeds s s' := by
  cases h with
  | none => exact .refl s
  | some run => exact run.proceeds hf

theorem RanSignature.proceeds (h : RanSignature p s m s') : Proceeds s s' := by
  obtain @⟨d, ty, s1, s2, found, result, still, params⟩ := h
  have hset : Lasts s1.program (s1.setMethod m { d with ty := some ty }).program :=
    .setMethod still (hf.methods d (mem_toList_of_get? found)) rfl
  have hstep : Proceeds s1 (s1.setMethod m { d with ty := some ty }) :=
    ⟨⟨rfl, rfl, rfl, rfl, rfl, rfl⟩, hset, rfl, rfl, .refl _⟩
  exact ((result.proceeds hf).trans hstep).trans
    (RanAll.proceeds (fun _ _ _ h => RanParam.proceeds hf h) params)

theorem RanTypes.proceeds (h : RanTypes p s c s') : Proceeds s s' := by
  obtain ⟨decl, found, fields, methods⟩ := h
  have hfields := RanAll.proceeds (fun _ _ _ h => RanField.proceeds hf h) fields
  have hmethods := RanAll.proceeds (fun _ _ _ h => RanSignature.proceeds hf h) methods
  exact (hfields.trans hmethods).backTo rfl (.refl _) rfl rfl rfl rfl

end

section

variable (hp : p.TreeShaped) (hf : Fresh p)

include hp hf

theorem ranType_of_resolveType (hfit : Fit p s (.expr e))
    (run : Resolve.resolveType e s = .ok ty s') : RanType p s.depth s e ty s' := by
  simp only [Resolve.resolveType, calls, bind_eq_ok, get_eq_ok, pure_eq_ok] at run
  obtain ⟨_, _, ⟨_, _, ⟨rfl, rfl⟩, rfl, rfl⟩, run⟩ := run
  exact (works hp hf _).type hfit run

theorem ranField_of_resolveField (hfit : Fit p s (.field f))
    (run : resolveField f s = .ok () s') : RanField p s f s' := by
  simp only [resolveField, bind_eq_ok, ask_eq_ok, fetch_ok, updateField_eq_ok] at run
  obtain ⟨d, _, ⟨hd, hs⟩, ty, s1, hty, d1, hd1, rfl⟩ := run
  rw [hs] at hty
  have hfound : p.fields.get? f = some d := Eq.trans (hfit.same _ Program.mem_region_self).symm hd
  have hran := ranType_of_resolveType hp hf
    (hfit.part hp (by simp [Program.parts, hfound, Field.parts])) hty
  have hstill : s1.program.fields.get? f = some d := by rw [hran.moves.program.fields, hd]
  obtain rfl := hstill.some_unique hd1
  exact .mk hfound hran hstill

theorem ranParam_of_resolveParam (hfit : Fit p s (.var v))
    (run : resolveParam v s = .ok () s') : RanParam p s v s' := by
  simp only [resolveParam, bind_eq_ok, ask_eq_ok, fetch_ok, updateVar_eq_ok] at run
  obtain ⟨d, _, ⟨hd, hs⟩, ty, s1, hty, d1, hd1, rfl⟩ := run
  rw [hs] at hty
  have hfound : p.vars.get? v = some d := Eq.trans (hfit.same _ Program.mem_region_self).symm hd
  have hpart : .expr d.typeExpr ∈ p.parts (.var v) := by simp [Program.parts, hfound, Var.parts]
  have hran := ranType_of_resolveType hp hf (hfit.part hp hpart) hty
  have hstill : s1.program.vars.get? v = some d :=
    Eq.trans (hfit.same_self hpart hran.moves) hfound
  obtain rfl := hstill.some_unique hd1
  exact .mk hfound hran hstill

theorem returned_of_resolveReturn (hr : Ready p s) (hpend : Pending p s (te.toList.map .expr ++ zs))
    (run : resolveReturn te s = .ok ty s') :
    Returned p s te ty s' ∧ Ready p s' ∧ Pending p s' zs := by
  cases te with
  | none =>
    obtain ⟨rfl, rfl⟩ := pure_eq_ok.1 run
    exact ⟨.none, hr, hpend⟩
  | some =>
    have hran := ranType_of_resolveType hp hf hpend.head run
    exact ⟨.some hran, hran.ready, hpend.tail hran.ready hran.moves⟩

end

theorem Returned.still (h : Returned p s te ty s') (hd : s.program.methods.get? m = Option.some d) :
    s'.program.methods.get? m = Option.some d := by
  cases h with
  | none => exact hd
  | some run => rw [run.moves.program.methods, hd]

theorem RanSignature.spares (h : RanSignature p s m s') :
    Spares p (p.region (.method m) ∪ p.waiting s.program) s s' := by
  obtain @⟨d, ty, s1, s2, found, result, -, params⟩ := h
  have hin : ∀ {y}, y ∈ d.parts → p.region y ⊆ p.region (.method m) := fun hy =>
    Program.region_subset (by simpa [Program.parts, found] using hy)
  have hfirst : Spares p (p.region (.method m) ∪ p.waiting s.program) s s1 := by
    generalize hte : d.typeExpr = te at result
    cases result with
    | none => exact ⟨fun _ _ => .refl _ _, subset_rfl⟩
    | some run =>
      exact run.moves.spares.mono (Set.union_subset_union_left _
        (hin (by simp [Method.parts, hte])))
  have hset := hfirst.trans (.setMethod (d := { d with ty := some ty }))
    (by rintro _ rfl; exact .inl Program.mem_region_self)
  refine hset.trans (RanAll.spares (N := .var) (fun _ _ _ h => h.spares)
    (fun v hv => hin (by simp [Method.parts, hv])) params) ?_
  exact Set.union_subset_union_right _ hset.waiting

theorem ranSignature_of_resolveSignature (hp : p.TreeShaped) (hf : Fresh p)
    (hfit : Fit p s (.method m)) (run : resolveSignature m s = .ok () s') :
    RanSignature p s m s' ∧ Ready p s' ∧ ∀ d, p.methods.get? m = some d →
      Pending p s' (d.body.toList.map .stmt) := by
  simp only [resolveSignature, bind_eq_ok, ask_eq_ok, fetch_ok, updateMethod_eq_ok] at run
  obtain ⟨d, _, ⟨hd, hs⟩, ty, s1, hty, _, _, ⟨d1, hd1, rfl⟩, d2, _, ⟨hd2, hs2⟩, hparams⟩ := run
  rw [hs] at hty
  rw [hs2] at hparams
  have hfound : p.methods.get? m = some d :=
    Eq.trans (hfit.same _ Program.mem_region_self).symm hd
  have hparts : p.parts (.method m) = d.parts := by simp [Program.parts, hfound]
  have hpend := hfit.pending hp
  rw [hparts, Method.parts, List.append_assoc] at hpend
  obtain ⟨hret, hr1, hpend1⟩ := returned_of_resolveReturn hp hf hfit.ready hpend hty
  have hstill := hret.still hd
  obtain rfl := hstill.some_unique hd1
  obtain rfl := (Arena.get?_set_self hd1).some_unique hd2
  -- the method itself is in none of its parts
  have hr2 : Ready p (s1.setMethod m { d with ty := some ty }) :=
    hr1.spare .setMethod rfl rfl rfl (by rintro _ rfl; exact Program.method_not_waiting)
  have hpend2 : Pending p (s1.setMethod m { d with ty := some ty })
      (d.params.map .var ++ d.body.toList.map .stmt) := by
    refine ⟨fun y hy => (hpend1.fit y hy).spare .setMethod hr2 ?_, hpend1.apart⟩
    refine Set.disjoint_singleton_left.2 (hfit.loose.not_mem ?_)
    rw [hparts, Method.parts, List.append_assoc]
    exact List.mem_append_right _ hy
  have hempty : ∀ {s}, Pending p s [] := ⟨by simp, List.Pairwise.nil⟩
  obtain ⟨hran, hr', hpend'⟩ := RanAll.of_fits (R := RanParam p) (N := .var)
    (O := fun _ => []) (Y := []) (fun s v s' hfit run => by
      have hran := ranParam_of_resolveParam hp hf hfit run
      exact ⟨hran, hran.ready hfit, hran.spares, hempty, by simp⟩) hr2 hpend2 hparams
  refine ⟨.mk hfound hret hstill hran, hr', fun d' hd' => ?_⟩
  obtain rfl := hfound.some_unique hd'
  simpa using hpend'

/-- The bodies of some methods. -/
def Program.bodies (p : Program) (ms : List MethodId) : List Node :=
  ms.flatMap fun m => (p.methods.get? m).elim [] fun d => d.body.toList.map .stmt

theorem ranTypes_of_resolveTypes {d : ClassDecl} (hp : p.TreeShaped) (hf : Fresh p) (hr : Ready p s)
    (hd : s.program.classes.get? c = some d)
    (hpend : Pending p s (ys ++ d.members ++ zs)) (run : resolveTypes c s = .ok () s') :
    RanTypes p s c s' ∧ Ready p s' ∧ Pending p s' (ys ++ p.bodies d.methods ++ zs) := by
  simp only [resolveTypes, bind_eq_ok, ask_eq_ok, fetch_ok, classScope_eq_ok, within_eq_ok] at run
  obtain ⟨d0, _, ⟨hd0, hs⟩, i, _, ⟨hi, hs'⟩, t2, ⟨d1, _, ⟨hd1, ht1⟩, _, t1, hfields, d2, _,
    ⟨hd2, ht2⟩, hmethods⟩, rfl⟩ := run
  obtain rfl := hd.some_unique hd0
  rw [hs', hs] at hd1 ht1 ⊢
  rw [hs] at hi
  obtain rfl := hd.some_unique hd1
  rw [ht1] at hfields
  rw [ht2] at hmethods
  have hr0 : Ready p (s.inClass d i) := hr.place rfl rfl
  have hpend0 := hpend.place hr0 rfl
  rw [ClassDecl.members, List.append_assoc, List.append_assoc] at hpend0
  have hempty : ∀ {s}, Pending p s [] := ⟨by simp, List.Pairwise.nil⟩
  obtain ⟨hfran, hr1, hpend1⟩ := RanAll.of_fits (R := RanField p) (N := .field)
    (O := fun _ => []) (fun s f s' hfit run => by
      have hran := ranField_of_resolveField hp hf hfit run
      exact ⟨hran, hran.ready, hran.spares, hempty, by simp⟩) hr0 (by simpa using hpend0) hfields
  rw [flatMap_const_nil, List.append_nil] at hpend1
  have hclasses := (RanAll.proceeds (fun _ _ _ h => RanField.proceeds hf h) hfran).lasts.classes
  have hd2' : s.program.classes.get? c = some d2 := by
    rw [hclasses] at hd2
    exact hd2
  obtain rfl := hd.some_unique hd2'
  obtain ⟨hmran, hr2, hpend2⟩ := RanAll.of_fits (R := RanSignature p) (N := .method)
    (O := fun m => (p.methods.get? m).elim [] fun d => d.body.toList.map .stmt)
    (fun s m s' hfit run => by
      obtain ⟨hran, hr', hpend'⟩ := ranSignature_of_resolveSignature hp hf hfit run
      obtain @⟨dm, _, _, _, found, _⟩ := id hran
      simp only [found, Option.elim]
      refine ⟨hran, hr', hran.spares, hpend' dm found, fun y hy => Program.region_subset ?_⟩
      simp [Program.parts, found, Method.parts, hy]) hr1 (by simpa using hpend1) hmethods
  have hr' : Ready p (t2.backTo s) := hr2.place rfl rfl
  exact ⟨.mk hd hi hfran hmran, hr', hpend2.place hr' rfl⟩

/-! ## Bodies -/

/-- The state inside the scope of the parameters of a method. -/
def Pass.State.enterMethod (s : State) (file : FileId) (i : ScopeId) (m : MethodId) : State :=
  { s with
    method := some m
    file := file
    table := (s.table.add .parameters i).enter s.table.next }

/-- The name of a parameter has been bound. -/
inductive BoundParam (s : State) (v : VarId) : State → Prop
  | mk {d : Var} {T : ScopeTable} (found : s.program.vars.get? v = some d)
      (binds : s.table.define? s.table.current d.name (.var v) = .ok (some T)) :
      BoundParam s v { s with table := T }

/-- The body of a method has been resolved, if it has one. The type that the method returns is
known by then. -/
inductive RanMethod (p : Program) (file : FileId) (i : ScopeId) (s : State) (m : MethodId) :
    State → Prop
  | abstract {d : Method} {ty : Ty} (found : p.methods.get? m = some d)
      (signed : s.program.methods.get? m = some { d with ty := some ty }) (body : d.body = none) :
      RanMethod p file i s m s
  | body {d : Method} {ty : Ty} {b : StmtId} {t1 t2 : State} (outside : s.method = none)
      (found : p.methods.get? m = some d)
      (signed : s.program.methods.get? m = some { d with ty := some ty }) (body : d.body = some b)
      (params : RanAll BoundParam (s.enterMethod file i m) d.params t1)
      (run : RanStmt p (t1.program.stmts.size + 1) t1 b t2) :
      RanMethod p file i s m { t2.backTo s with method := none }

/-- The bodies of the methods of a class have been resolved. -/
inductive RanCode (p : Program) (s : State) (c : ClassId) : State → Prop
  | mk {d : ClassDecl} {i : ScopeId} {s' : State} (decl : s.program.classes.get? c = some d)
      (found : s.classScopes.get? c = some i)
      (methods : RanAll (RanMethod p d.file i) s d.methods s') :
      RanCode p s c s'

/-- Parameters change nothing but the scope. -/
theorem RanAll.params {vs : List VarId} (h : RanAll BoundParam s vs s') :
    ∃ T, s' = { s with table := T } ∧ T.current = s.table.current ∧ s.table.Extends T ∧
      (Ready p s → Ready p s') := by
  induction h with
  | nil s => exact ⟨s.table, rfl, rfl, .refl _, id⟩
  | cons first _ ih =>
    obtain ⟨found, binds⟩ := first
    obtain ⟨T, rfl, hcur, hext, hready⟩ := ih
    have hkept := congrArg ScopeTable.current (ScopeTable.define?_ok binds).choose_spec.2.2
    exact ⟨T, rfl, hcur.trans hkept, (ScopeTable.Extends.define binds rfl).trans hext,
      fun hr => hready (hr.define binds)⟩

theorem RanMethod.proceeds {file : FileId} {i : ScopeId} (hf : Fresh p)
    (h : RanMethod p file i s m s') : Proceeds s s' := by
  cases h with
  | abstract => exact .refl s
  | body outside _ _ _ params run =>
    obtain ⟨T, rfl, hcur, hext, -⟩ := params.params (p := p)
    have hplace := run.moves.place
    have hlasts := run.lasts hf
    exact ⟨⟨rfl, rfl, outside.symm, hplace.breakables, hplace.classScopes, hplace.enumScopes⟩,
      hlasts, run.moves.program.globals, run.moves.program.ordered,
      ((ScopeTable.Extends.add _ _ _).trans hext).trans run.moves.table⟩

theorem RanCode.proceeds (hf : Fresh p) (h : RanCode p s c s') : Proceeds s s' := by
  obtain ⟨-, -, methods⟩ := h
  exact RanAll.proceeds (fun _ _ _ h => h.proceeds hf) methods

end Ci
