-- Faults are reported at the right place. Whatever is looked at while a file is the
-- present one belongs to a declaration of that file, and a literal that takes the
-- place of an expression has the line of that expression.
import Ci.Proofs.Descent.Phases
import Ci.Proofs.Descent.Sharing

namespace Ci

variable {p : Program} {f : FileId} {x y : Node} {k : ConstId}

/-- The constant is listed where the owner says. -/
def Owner.Lists (p : Program) (k : ConstId) : Owner → Prop
  | .program _ => k ∈ p.globals
  | .classDecl c => .const k ∈ p.parts (.classDecl c)
  | .enumDecl e => .const k ∈ p.parts (.enumDecl e)
  | .body => ∃ x ∈ p.stmts.handles, .const k ∈ p.parts (.stmt x)

instance (p : Program) (k : ConstId) : (o : Owner) → Decidable (o.Lists p k)
  | .program _ => inferInstanceAs (Decidable (k ∈ p.globals))
  | .classDecl c => inferInstanceAs (Decidable (.const k ∈ p.parts (.classDecl c)))
  | .enumDecl e => inferInstanceAs (Decidable (.const k ∈ p.parts (.enumDecl e)))
  | .body => inferInstanceAs (Decidable (∃ x ∈ p.stmts.handles, .const k ∈ p.parts (.stmt x)))

namespace Program

/-- Every constant is listed by its owner. -/
def OwnersList (p : Program) : Prop := ∀ k ∈ p.consts.handles, ∀ d ∈ p.consts.get? k,
    d.owner.Lists p k

instance (p : Program) : Decidable p.OwnersList :=
  inferInstanceAs (Decidable (∀ k ∈ p.consts.handles, ∀ d ∈ p.consts.get? k, d.owner.Lists p k))

theorem OwnersList.of_get? {d : Const} (h : p.OwnersList) (hd : p.consts.get? k = some d) :
    d.owner.Lists p k := h k (Arena.mem_handles.2 (Arena.lt_size_of_get? hd)) d hd

/-- A declaration that stands in the file by itself. -/
inductive Declaration (p : Program) : FileId → Node → Prop
  | classDecl {c : ClassId} {d : ClassDecl} (hd : p.classes.get? c = some d) :
      Declaration p d.file (.classDecl c)
  | enumDecl {e : EnumId} {d : EnumDecl} (hd : p.enums.get? e = some d) :
    Declaration p d.file (.enumDecl e)
  | const {k : ConstId} {d : Const} {f : FileId} (hk : k ∈ p.globals)
    (hd : p.consts.get? k = some d) (ho : d.owner = .program f) : Declaration p f (.const k)

/-- The node belongs to a declaration of the file. -/
def BelongsTo (p : Program) (f : FileId) (y : Node) :
    Prop := ∃ x, p.Declaration f x ∧ y ∈ p.region x

theorem Declaration.belongsTo (h : p.Declaration f x) : p.BelongsTo f x := ⟨x, h, mem_region_self⟩

theorem Declaration.part (h : p.Declaration f x) (hy : y ∈ p.parts x) : p.BelongsTo f y :=
  ⟨x, h, part_mem_region hy⟩

theorem BelongsTo.part (h : p.BelongsTo f x) (hy : y ∈ p.parts x) : p.BelongsTo f y := by
  obtain ⟨z, hz, hx⟩ := h
  exact ⟨z, hz, parts_mem_region hx hy⟩

/-- The node is none of the literals that have been added. -/
def Present (p : Program) (x : Node) : Prop := ∀ e, x = .expr e → e.slot < p.exprs.size

theorem present_of_mem_parts (hy : y ∈ p.parts x) : p.Present x := by
  rintro e rfl
  obtain ⟨n, hn, -⟩ := mem_elim hy
  exact Arena.lt_size_of_get? hn

theorem HoldsPresent.present (hr : p.HoldsPresent) (h : p.BelongsTo f y) : p.Present y := by
  rintro e rfl
  obtain ⟨x, hx, hy⟩ := h
  rcases Relation.ReflTransGen.cases_tail hy with rfl | ⟨z, -, hz⟩
  · cases hx
  · obtain ⟨i, hi⟩ := exists_holdsAt hz
    exact hr z i e hi

/-- What a node of a declaration comes to has the lines of some node of that declaration. -/
theorem HoldsPresent.lines (hr : p.HoldsPresent) {w : List ExprId} {lines : Node → List UInt32}
    (hc : Copies p w lines) (hy : p.BelongsTo f y) (h : ComesTo p w y x) :
    (∃ z, p.BelongsTo f z ∧ lines x = p.lines z) ∧ (p.Present x → p.BelongsTo f x) := by
  have hhere : ∀ {x}, p.BelongsTo f x →
      (∃ z, p.BelongsTo f z ∧ lines x = p.lines z) ∧ (p.Present x → p.BelongsTo f x) :=
    fun hx => ⟨⟨_, hx, hc.same _ (hr.present hx)⟩, fun _ => hx⟩
  induction h with
  | refl => exact hhere hy
  | tail _ hstep ih =>
    cases hstep with
    | part hz => exact hhere ((ih.2 (present_of_mem_parts hz)).part hz)
    | @literal a b i ha hb =>
      obtain ⟨z, hz, hlines⟩ := ih.1
      exact ⟨⟨z, hz, (hc.literal i a b ha hb).2.trans hlines⟩,
        fun hb' => absurd (hb' b rfl) (by omega)⟩

theorem Declares.owner_ne_body {d : Const} (h : p.Declares k) (hp : p.TreeShaped)
    (ho : p.OwnersList)
    (hd : p.consts.get? k = some d) : d.owner ≠ .body := by
  intro hbody
  have hlists := ho.of_get? hd
  rw [hbody] at hlists
  obtain ⟨x, -, hx⟩ := hlists
  rcases h with hk | ⟨c, a, ha, hk⟩ | ⟨e, a, ha, hk⟩
  · exact hp.global_not_mem_parts hk _ hx
  · have hc : .const k ∈ p.parts (.classDecl c) := by simp [parts, ha, ClassDecl.parts, hk]
    cases hp.holder_unique hx hc
  · have he : .const k ∈ p.parts (.enumDecl e) := by simp [parts, ha, EnumDecl.parts, hk]
    cases hp.holder_unique hx he

end Program

/-- The locale in which all that is visited belongs to a declaration of the file. -/
def Locale.declared (hp : p.TreeShaped) (hr : p.HoldsPresent) (ho : p.OwnersList) : Locale p where
  Here := p.BelongsTo
  Free := p.Declares
  Lines f l := ∃ y, p.BelongsTo f y ∧ l ∈ p.lines y
  Occurs _ _ := True
  home hd hbody hhome := by
    have hlists := ho.of_get? hd
    generalize howner : Const.owner _ = o at hlists hhome
    cases hhome with
    | program file => exact (Program.Declaration.const hlists hd howner).belongsTo
    | classDecl hc => exact (Program.Declaration.classDecl hc).part hlists
    | enumDecl he => exact (Program.Declaration.enumDecl he).part hlists
    | body => exact absurd howner hbody
  free hk hd hbody := absurd hbody (hk.owner_ne_body hp ho hd)
  line hc hy hyx hl := by
    obtain ⟨z, hz, hlines⟩ := (hr.lines hc hy hyx).1
    exact ⟨z, hz, hlines ▸ hl⟩
  inner _ _ _ := trivial

theorem Locale.declared_opens (hp : p.TreeShaped) (hr : p.HoldsPresent) (ho : p.OwnersList) :
    (Locale.declared hp hr ho).Opens where
  classes hd := (Program.Declaration.classDecl hd).belongsTo
  enums hd := (Program.Declaration.enumDecl hd).belongsTo
  globals {k d f} hk hd hf := by
    have hlists := ho.of_get? hd
    cases howner : d.owner with
    | program file => exact hf file howner ▸ (Program.Declaration.const hk hd howner).belongsTo
    | classDecl | enumDecl =>
      rw [howner] at hlists
      exact absurd hlists (hp.global_not_mem_parts hk _)
    | body => exact absurd howner (Program.Declares.owner_ne_body (.inl hk) hp ho hd)
  listed h := h
  bodies _ := trivial

/-- Whenever a program is refused, the file and the line that are reported are those of a
declaration of that file or of something that belongs to it. -/
theorem fault_within_declaration (p : Program) (hf : Fresh p) (hp : p.TreeShaped)
    (hr : p.HoldsPresent)
    (ho : p.OwnersList) (d : Diagnostic) (h : p.resolve.abort = some (.fault d)) :
    ∃ f x y, p.Declaration f x ∧ y ∈ p.region x ∧ d.file = p.path f ∧ d.line ∈ p.lines y := by
  obtain ⟨f, hfile, y, ⟨x, hx, hy⟩, hl⟩ := (((Locale.declared_opens hp hr ho).resolve hf).2 d h).1
  exact ⟨f, x, y, hx, hy, hfile, hl⟩

/-- A sum in one file, and a method in another that throws the given expression. The fourth one is
the name of the sum. -/
def rumour (e : ExprId) : Program :=
  { Program.empty with
    files := .ofList ["a.ci", "b.ci"]
    exprs := .ofList [⟨.literal (.int 1), 7, none⟩, ⟨.literal (.int 1), 7, none⟩,
      ⟨.binary (.arith .add) ⟨0⟩ (.expr ⟨1⟩), 7, none⟩, ⟨.name "Sum" none, 3, none⟩]
    stmts := .ofList [⟨.throw e, 2⟩]
    classes := .ofList [⟨"Rumour", ⟨1⟩, 1, false, .normal, none, none, [], [], [⟨0⟩], .unvisited⟩]
    consts := .ofList [⟨"Sum", 7, .program ⟨0⟩, .hidden, none, some ⟨2⟩, .unvisited, none⟩]
    methods := .ofList [⟨"spread", 1, .hidden, .normal, false, none, [], some ⟨0⟩, none⟩]
    globals := [⟨0⟩] }

theorem rumour_fault_within_declaration :
    (rumour ⟨3⟩).resolve.abort = some (.fault ⟨"b.ci", 3, .typeMismatch "string" "2..2"⟩) ∧
      ∃ f x y, (rumour ⟨3⟩).Declaration f x ∧ y ∈ (rumour ⟨3⟩).region x ∧
        "b.ci" = (rumour ⟨3⟩).path f ∧ 3 ∈ (rumour ⟨3⟩).lines y := by
  have h : (rumour ⟨3⟩).resolve.abort = some
    (.fault ⟨"b.ci", 3, .typeMismatch "string" "2..2"⟩) := by
    decide +kernel
  exact ⟨h, fault_within_declaration _ (by decide +kernel) (by decide +kernel)
    (Program.holdsPresent_of_held (by decide +kernel)) (by decide +kernel) _ h⟩

/-- What is thrown is not there at first. The value of the sum takes its place, with a line of the
other file. -/
theorem rumour_spreads :
    Fresh (rumour ⟨4⟩) ∧ (rumour ⟨4⟩).TreeShaped ∧ (rumour ⟨4⟩).OwnersList ∧
      (rumour ⟨4⟩).resolve.abort = some (.fault ⟨"b.ci", 7, .typeMismatch "string" "2..2"⟩) ∧
      ∀ f x y, (rumour ⟨4⟩).Declaration f x → y ∈ (rumour ⟨4⟩).region x →
        (rumour ⟨4⟩).path f = "b.ci" → 7 ∉ (rumour ⟨4⟩).lines y := by
  refine ⟨by decide +kernel,
    by decide +kernel, by decide +kernel, by decide +kernel, fun f x y hx hy hf => ?_⟩
  generalize hS : [Node.classDecl ⟨0⟩, .method ⟨0⟩, .stmt ⟨0⟩, .expr ⟨4⟩] = S
  have hnodes : ∀ z ∈ S, 7 ∉ (rumour ⟨4⟩).lines z ∧ ∀ y ∈ (rumour ⟨4⟩).parts z, y ∈ S := by
    subst hS
    decide +kernel
  have hregion : ∀ y ∈ (rumour ⟨4⟩).region (.classDecl ⟨0⟩), y ∈ S := by
    intro y hy
    induction hy with
    | refl => simp [← hS]
    | tail _ hyz ih => exact (hnodes _ ih).2 _ hyz
  cases hx with
  | @classDecl c d hd =>
    have hc : c ∈ [⟨0⟩] := Arena.mem_handles.2 (Arena.lt_size_of_get? hd)
    obtain rfl := List.mem_singleton.1 hc
    exact (hnodes y (hregion y hy)).1
  | enumDecl hd => exact absurd (Arena.lt_size_of_get? hd) (Nat.not_lt_zero _)
  | const hk hd ho =>
    obtain rfl := List.mem_singleton.1 hk
    cases hd
    cases ho
    exact absurd hf (by decide +kernel)

end Ci
