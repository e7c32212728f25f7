-- What a pass finds when it comes to a part of a program for the first time. The
-- part is as it was at the start, and so is every constant that has not been
-- visited. Work on the part changes it, and may visit constants on the way.
import Ci.Proofs.Frame.Rules
import Ci.Proofs.Program.Tree

namespace Ci

open Pass

variable {D : Set Node} {p q r : Program} {s s' : State} {x y z : Node} {e : ExprId} {k : ConstId}
  {n : ExprNode}

/-! ## The same node -/

/-- A node is in another program what it was. A handle that led nowhere may lead somewhere. -/
def Program.Same (p q : Program) : Node → Prop
  | .classDecl c => q.parts (.classDecl c) = p.parts (.classDecl c)
  | .enumDecl e => q.parts (.enumDecl e) = p.parts (.enumDecl e)
  | .const k => q.consts.get? k = p.consts.get? k
  | .field f => q.fields.get? f = p.fields.get? f
  | .method m => q.methods.get? m = p.methods.get? m
  | .var v => q.vars.get? v = p.vars.get? v
  | .stmt x => q.stmts.get? x = p.stmts.get? x
  | .expr e => ∀ n, p.exprs.get? e = some n → q.exprs.get? e = some n

theorem Program.Same.refl (p : Program) (x : Node) : p.Same p x := by
  cases x <;> simp [Program.Same]

theorem Program.Same.trans (h : p.Same q x) (h' : q.Same r x) : p.Same r x := by
  cases x with
  | expr => exact fun n hn => h' n (h n hn)
  | _ => exact h'.trans h

namespace Arena.Follows

variable {k : Kind} {α : Type} {a b : Arena k α} {R : Handle k → α → α → Prop} {h : Handle k}

/-- Where the relation leaves a part alone, and no part has come, the slot is the same. -/
theorem get?_eq (hf : a.Follows R b) (hsize : b.size = a.size) (hr : ∀ x y, R h x y → y = x) :
    b.get? h = a.get? h := by
  cases hx : a.get? h with
  | none =>
    refine get?_eq_none ?_
    rw [hsize]
    by_contra hlt
    obtain ⟨x, hx'⟩ := exists_get? (Nat.lt_of_not_le hlt)
    rw [hx] at hx'
    cases hx'
  | some x =>
    obtain ⟨y, hy, hxy⟩ := hf.part h x hx
    rw [hy, hr x y hxy]

end Arena.Follows

theorem Program.Changes.same (h : p.Changes D q) (hx : x ∉ D) : p.Same q x := by
  cases x with
  | classDecl => simp only [Program.Same, Program.parts, h.classes]
  | enumDecl => simp only [Program.Same, Program.parts, h.enums]
  | const => exact h.consts.get?_eq h.consts_size fun _ _ hs => hs.outside hx
  | field => simp only [Program.Same, h.fields]
  | method => simp only [Program.Same, h.methods]
  | var => exact h.vars.get?_eq h.vars_size fun _ _ hs => hs.outside hx
  | stmt => exact h.stmts.get?_eq h.stmts_size fun _ _ hs => hs.outside hx
  | expr e =>
    intro n hn
    obtain ⟨n', hn', hs⟩ := h.exprs.part e n hn
    rw [hn', hs.outside hx]

/-! ## Work in more than one region -/

/-- One state comes from another by changes in a region, which need not be closed. -/
structure Shift (D : Set Node) (s s' : State) : Prop where
  place : SamePlace s s'
  program : s.program.Changes D s'.program
  table : s.table.Extends s'.table
  scopes : (∀ x, .stmt x ∉ D) → s'.table.scopes.size = s.table.scopes.size
  names : ¬ Binds D → s'.table = s.table

theorem Moves.shift (h : Moves D s s') : Shift D s s' :=
  ⟨h.place, h.program, h.table, h.scopes, h.names⟩

namespace Shift

theorem refl (s : State) : Shift D s s := ⟨.refl s, .refl _, .refl _, fun _ => rfl, fun _ => rfl⟩

theorem trans {s1 s2 : State} (h : Shift D s s1) (h' : Shift D s1 s2) : Shift D s s2 :=
  ⟨h.place.trans h'.place, h.program.trans h'.program, h.table.trans h'.table,
    fun hx => (h'.scopes hx).trans (h.scopes hx), fun hx => (h'.names hx).trans (h.names hx)⟩

theorem mono {D' : Set Node} (h : Shift D s s') (hD : D ⊆ D') : Shift D' s s' :=
  ⟨h.place, h.program.mono hD, h.table, fun hx => h.scopes fun x hd => hx x (hD hd),
    fun hx => h.names fun hb => hx (hb.imp (fun ⟨v, hv⟩ => ⟨v, hD hv⟩) fun ⟨x, hd⟩ => ⟨x, hD hd⟩)⟩

end Shift

/-! ## Programs at the start -/

/-- What a name has been found to stand for. -/
def Expr.symbol? : Expr → Option Symbol
  | .name _ symbol => symbol
  | _ => none

/-- Nothing in the program has been resolved. -/
@[mk_iff]
structure Fresh (p : Program) : Prop where
  classes : ∀ d ∈ p.classes.toList, d.status = .unvisited ∧ d.base = none
  ordered : p.ordered = []
  consts : ∀ d ∈ p.consts.toList, d.status = .unvisited ∧ d.ty = none
  fields : ∀ d ∈ p.fields.toList, d.ty = none
  methods : ∀ d ∈ p.methods.toList, d.ty = none
  vars : ∀ d ∈ p.vars.toList, d.ty = none
  exprs : ∀ n ∈ p.exprs.toList, n.ty = none ∧ n.kind.symbol? = none

instance (p : Program) : Decidable (Fresh p) := decidable_of_iff _ (fresh_iff p).symm

theorem Fresh.name (h : Fresh p) (hn : p.exprs.get? e = some n) {text : String}
    {symbol : Option Symbol} (hk : n.kind = .name text symbol) : symbol = none := by
  have := (h.exprs n (Arena.mem_toList_of_get? hn)).2
  rwa [hk] at this

/-- The constant is declared outside all bodies of methods. -/
def Program.Declares (p : Program) (k : ConstId) : Prop :=
  k ∈ p.globals ∨ (∃ c d, p.classes.get? c = some d ∧ k ∈ d.consts) ∨
    ∃ e d, p.enums.get? e = some d ∧ k ∈ d.values

/-- No variable is declared inside a node. -/
def Program.VarFree (p : Program) (x : Node) : Prop := ∀ v, .var v ∉ p.region x

/-- A list of nodes that lead to each other only holds the regions of all of them. -/
theorem Program.mem_of_closed {L : List Node} (hL : ∀ y ∈ L, ∀ z ∈ p.parts y, z ∈ L) (hx : x ∈ L)
    (hy : y ∈ p.region x) : y ∈ L := by
  induction hy with
  | refl => exact hx
  | tail _ hstep ih => exact hL _ ih _ hstep

/-- Expressions that lead to each other only declare no variables. -/
theorem Program.varFree_of_closed {L : List ExprId}
    (hL : ∀ e ∈ L, ∀ z ∈ p.parts (.expr e), ∃ e' ∈ L, z = .expr e') :
    ∀ e ∈ L, p.VarFree (.expr e) := by
  intro e he v hv
  have hmem : .var v ∈ L.map Node.expr := by
    refine mem_of_closed (fun y hy z hz => ?_) (List.mem_map_of_mem he) hv
    obtain ⟨e, he, rfl⟩ := List.mem_map.1 hy
    obtain ⟨e', he', rfl⟩ := hL e he z hz
    exact List.mem_map_of_mem he'
  obtain ⟨e', -, hne⟩ := List.mem_map.1 hmem
  cases hne

/-! ## Regions of constants -/

namespace Program

theorem const_not_mem_region (hx : x.isValue) : .const k ∉ p.region x := by
  intro h
  cases region_isValue hx h

theorem stmt_not_mem_region {i : StmtId} (hx : x.isValue) : .stmt i ∉ p.region x := by
  intro h
  cases region_isValue hx h

theorem isValue_of_mem_parts_const (h : y ∈ p.parts (.const k)) : y.isValue := by
  obtain ⟨d, -, hd⟩ := mem_elim h
  obtain ⟨e, -, rfl⟩ := List.mem_map.1 hd
  rfl

/-- A constant holds values only. -/
theorem mem_region_const (h : y ∈ p.region (.const k)) : y = .const k ∨ y.isValue := by
  refine (mem_region_cases h).imp_right fun ⟨z, hz, hy⟩ => ?_
  exact region_isValue (isValue_of_mem_parts_const hz) hy

theorem const_mem_region_const {k' : ConstId} (h : .const k' ∈ p.region (.const k)) : k' = k := by
  rcases mem_region_const h with h | h
  · simpa using h
  · cases h

/-- Nothing inside a constant holds a constant. -/
theorem Loose.const (k : ConstId) : p.Loose (.const k) := by
  intro y hy hk
  rcases mem_region_const hy with rfl | hv
  · cases isValue_of_mem_parts_const hk
  · cases parts_isValue hv hk

/-- The regions of two constants do not meet. -/
theorem TreeShaped.disjoint_consts (hp : p.TreeShaped) {k' : ConstId} (hne : k ≠ k') :
    Disjoint (p.region (.const k)) (p.region (.const k')) := by
  refine Set.disjoint_left.2 fun w hw hw' => ?_
  -- go back from what they share to one of the two constants
  induction hw with
  | refl => exact hne (const_mem_region_const hw')
  | @tail _ _ hv hvw ih =>
    rcases Relation.ReflTransGen.cases_tail hw' with rfl | ⟨u, hu, huw⟩
    · rcases mem_region_const hv with rfl | hval
      · cases isValue_of_mem_parts_const hvw
      · cases parts_isValue hval hvw
    · obtain rfl := hp.holder_unique hvw huw
      exact ih hu

/-- What belongs to the constants outside all bodies that have not been visited in a later
program. -/
def waiting (p q : Program) : Set Node :=
  {x | ∃ k d, p.Declares k ∧ q.consts.get? k = some d ∧ d.status = .unvisited ∧
    x ∈ p.region (.const k)}

/-- What may change when a pass works on a node. -/
def work (p q : Program) (x : Node) : Set Node := p.region x ∪ p.waiting q

theorem parts_mem_waiting (hx : x ∈ p.waiting q) (hy : y ∈ p.parts x) : y ∈ p.waiting q := by
  obtain ⟨k, d, hk, hd, hs, hx⟩ := hx
  exact ⟨k, d, hk, hd, hs, parts_mem_region hx hy⟩

theorem const_mem_waiting (h : .const k ∈ p.waiting q) :
    p.Declares k ∧ ∃ d, q.consts.get? k = some d ∧ d.status = .unvisited := by
  obtain ⟨k', d, hk, hd, hs, h⟩ := h
  obtain rfl := const_mem_region_const h
  exact ⟨hk, d, hd, hs⟩

theorem stmt_not_mem_waiting {i : StmtId} : .stmt i ∉ p.waiting q := by
  rintro ⟨k, d, -, -, -, h⟩
  rcases mem_region_const h with h | h <;> cases h

/-- A constant that has been visited does not wait any more. -/
theorem waiting_subset (h : q.Changes D r) : p.waiting r ⊆ p.waiting q := by
  rintro x ⟨k, d', hk, hd', hs, hx⟩
  obtain ⟨d, hd⟩ := Arena.exists_get? (a := q.consts) (h := k)
    (h.consts_size ▸ Arena.lt_size_of_get? hd')
  obtain ⟨d'', hd'', hstep⟩ := h.consts.part k d hd
  obtain rfl := hd'.some_unique hd''
  refine ⟨k, d, hk, hd, ?_, hx⟩
  by_contra hne
  exact hne (hstep.visited hne ▸ hs)

end Program

/-! ## What a pass finds -/

/-- All that has been added are literals, the constants that have not been visited are as they
were, and a constant that has a name is one of them or has been visited. -/
structure Ready (p : Program) (s : State) : Prop where
  added : ∀ e : ExprId, p.exprs.size ≤ e.slot → e.slot < s.program.exprs.size →
    s.program.TypedLiteral e
  bound : ∀ (i : Nat) c name k, s.table.scopes[i]? = some c → (name, .const k) ∈ c.bindings →
    ∃ d, s.program.consts.get? k = some d ∧ (p.Declares k ∨ d.status ≠ .unvisited)
  waiting : ∀ x ∈ p.waiting s.program, p.Same s.program x

/-- A node that no work has come to yet. -/
structure Fit (p : Program) (s : State) (x : Node) : Prop where
  ready : Ready p s
  loose : p.Loose x
  same : ∀ y ∈ p.region x, p.Same s.program y
  apart : Disjoint (p.region x) (p.waiting s.program)

namespace Ready

/-- An expression is what it was at the start, unless it has been added since. -/
theorem expr_cases (h : Ready p s) (hsame : p.Same s.program (.expr e))
    (hn : s.program.exprs.get? e = some n) :
    p.exprs.get? e = some n ∨ s.program.TypedLiteral e := by
  rcases Nat.lt_or_ge e.slot p.exprs.size with hlt | hge
  · obtain ⟨n0, hn0⟩ := Arena.exists_get? hlt
    rw [← hn, hsame n0 hn0]
    exact .inl hn0
  · exact .inr (h.added e hge (Arena.lt_size_of_get? hn))

theorem parts_mem (h : Ready p s) (hsame : p.Same s.program x) (hy : y ∈ s.program.parts x) :
    y ∈ p.parts x := by
  cases x with
  | classDecl => exact hsame ▸ hy
  | enumDecl => exact hsame ▸ hy
  | expr =>
    obtain ⟨n, hn, hyn⟩ := Program.mem_elim hy
    rcases h.expr_cases hsame hn with hn' | ⟨v, line, hv⟩
    · rwa [Program.parts_expr hn']
    · obtain rfl := hv.some_unique hn
      simp at hyn
  | _ =>
    simp only [Program.Same] at hsame
    simpa only [Program.parts, hsame] using hy

/-- Nothing leads out of what is as it was at the start, if it goes together with all that
waits. -/
theorem closed (hf : Fresh p) (h : Ready p s) (hsame : ∀ x ∈ D, p.Same s.program x)
    (hparts : ∀ x ∈ D, ∀ y ∈ p.parts x, y ∈ D) (hD : p.waiting s.program ⊆ D) :
    Closed D s.program s.table := by
  refine ⟨fun x hx y hy => .inl (hparts x hx y (h.parts_mem (hsame x hx) hy)),
    fun e n text k he hn hk => ?_, fun i c name k hc hb => ?_⟩
  · rcases h.expr_cases (hsame _ he) hn with hn' | ⟨v, line, hv⟩
    · cases hf.name hn' hk
    · obtain rfl := hv.some_unique hn
      cases hk
  · obtain ⟨d, hd, hk⟩ := h.bound i c name k hc hb
    by_cases hs : d.status = .unvisited
    · refine .inl (hD ⟨k, d, hk.resolve_right fun hne => hne hs, hd, hs, Program.mem_region_self⟩)
    · exact .inr ⟨d, hd, hs⟩

theorem closed_waiting (hf : Fresh p) (h : Ready p s) :
    Closed (p.waiting s.program) s.program s.table :=
  h.closed hf h.waiting (fun _ hx _ hy => Program.parts_mem_waiting hx hy) subset_rfl

end Ready

namespace Fit

theorem part (hp : p.TreeShaped) (h : Fit p s x) (hy : y ∈ p.parts x) : Fit p s y :=
  ⟨h.ready, h.loose.part hp hy, fun z hz => h.same z (Program.region_subset hy hz),
    h.apart.mono_left (Program.region_subset hy)⟩

/-- Changes elsewhere leave the node as it is. -/
theorem step (h : Fit p s x) (hc : s.program.Changes D s'.program) (hr : Ready p s')
    (hd : Disjoint D (p.region x)) : Fit p s' x :=
  ⟨hr, h.loose, fun y hy => (h.same y hy).trans (hc.same fun hy' => Set.disjoint_left.1 hd hy' hy),
    h.apart.mono_right (Program.waiting_subset hc)⟩

theorem not_waiting (h : Fit p s x) (hy : y ∈ p.region x) : y ∉ p.waiting s.program :=
  fun hw => Set.disjoint_left.1 h.apart hy hw

/-- Work on one part of a node leaves another part as it is. -/
theorem sibling (hp : p.TreeShaped) (h : Fit p s x) (hy : y ∈ p.parts x) (hz : z ∈ p.parts x)
    (hne : y ≠ z) (hm : Moves (p.work s.program y) s s') (hr : Ready p s') : Fit p s' z := by
  refine (h.part hp hz).step hm.program hr (Disjoint.sup_left ?_ ?_)
  · exact h.loose.disjoint hp hy hz hne
  · exact (h.part hp hz).apart.symm

/-- Work on a part of a node leaves the node itself as it is. -/
theorem same_self (h : Fit p s x) (hy : y ∈ p.parts x) (hm : Moves (p.work s.program y) s s') :
    p.Same s'.program x := by
  refine (h.same x Program.mem_region_self).trans (hm.program.same ?_)
  rintro (hx | hx)
  · exact h.loose.not_mem hy hx
  · exact h.not_waiting Program.mem_region_self hx

theorem closed (hf : Fresh p) (h : Fit p s x) : Closed (p.work s.program x) s.program s.table := by
  refine h.ready.closed hf ?_ ?_ Set.subset_union_right
  · rintro y (hy | hy)
    · exact h.same y hy
    · exact h.ready.waiting y hy
  · rintro y (hy | hy) z hz
    · exact .inl (Program.parts_mem_region hy hz)
    · exact .inr (Program.parts_mem_waiting hy hz)

theorem expr_cases (h : Fit p s (.expr e)) (hn : s.program.exprs.get? e = some n) :
    p.exprs.get? e = some n ∨ s.program.TypedLiteral e :=
  h.ready.expr_cases (h.same _ Program.mem_region_self) hn

end Fit

end Ci
