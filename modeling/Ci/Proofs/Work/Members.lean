-- The members of classes before any work has come to them. Classes, enumerations and
-- global constants are held by nothing, so what they hold is apart. Once the names
-- have been registered and the classes have been linked, every field and every method
-- is as it was at the start.
import Ci.Proofs.Naming.Classes
import Ci.Proofs.Work.Statements

namespace Ci

open Pass Arena

variable {p : Program} {s s' s1 : State} {x y z w : Node} {c : ClassId} {k : ConstId}
  {D D' : Set Node} {ys zs : List Node} {cs : List ClassId}

/-! ## Nodes that are held by nothing -/

/-- Of two nodes that share something, one is inside the other. -/
theorem Program.TreeShaped.mem_region_or (hp : p.TreeShaped) (hy : w ∈ p.region y)
    (hz : w ∈ p.region z) : y ∈ p.region z ∨ z ∈ p.region y := by
  -- go back from what they share, since every node has one holder
  induction hy with
  | refl => exact .inl hz
  | @tail _ _ hv hvw ih =>
    rcases Relation.ReflTransGen.cases_tail hz with rfl | ⟨u, hu, huw⟩
    · exact .inr (.tail hv hvw)
    · obtain rfl := hp.holder_unique hvw huw
      exact ih hu

/-- A node that is held by nothing is in no other region. -/
theorem Program.eq_of_mem_region (h : ∀ z, x ∉ p.parts z) (hx : x ∈ p.region y) : x = y := by
  rcases Relation.ReflTransGen.cases_tail hx with h' | ⟨z, -, hz⟩
  · exact h'
  · exact absurd hz (h z)

theorem Program.TreeShaped.disjoint (hp : p.TreeShaped) (hx : ∀ z, x ∉ p.parts z)
    (hy : ∀ z, y ∉ p.parts z) (hne : x ≠ y) : Disjoint (p.region x) (p.region y) := by
  refine Set.disjoint_left.2 fun w hwx hwy => hne ?_
  rcases hp.mem_region_or hwx hwy with h | h
  · exact Program.eq_of_mem_region hx h
  · exact (Program.eq_of_mem_region hy h).symm

theorem Program.decl_not_mem_parts (hx : x.isDecl) (z : Node) : x ∉ p.parts z := by
  intro hxz
  cases z <;> obtain ⟨d, -, hd⟩ := Program.mem_elim hxz
  case stmt => exact absurd hx (Stmt.parts_not_decl hd)
  case expr =>
    have := Expr.parts_isValue hd
    cases x <;> simp_all [Node.isValue, Node.isDecl]
  all_goals
    cases x <;> simp_all [ClassDecl.parts, EnumDecl.parts, Const.parts, Field.parts, Method.parts,
      Var.parts, Node.isDecl]

/-! ## Members -/

/-- The fields and the methods of a class. -/
def ClassDecl.members (d : ClassDecl) : List Node := d.fields.map .field ++ d.methods.map .method

theorem ClassDecl.members_sublist (d : ClassDecl) : d.members.Sublist d.parts := by
  simp [members, parts]

/-- The fields and the methods of some classes. -/
def Program.members (p : Program) (cs : List ClassId) : List Node :=
  cs.flatMap fun c => (p.classes.get? c).elim [] ClassDecl.members

theorem Program.mem_members (h : y ∈ p.members cs) :
    ∃ c ∈ cs, y ∈ p.parts (.classDecl c) ∧ y.isDecl = false ∧ ∀ k, y ≠ .const k := by
  obtain ⟨c, hc, hy⟩ := List.mem_flatMap.1 h
  obtain ⟨d, hd, hyd⟩ := Program.mem_elim hy
  refine ⟨c, hc, ?_, ?_⟩
  · simp only [parts, hd, Option.elim]
    exact d.members_sublist.subset hyd
  · simp only [ClassDecl.members, List.mem_append, List.mem_map] at hyd
    rcases hyd with ⟨f, -, rfl⟩ | ⟨m, -, rfl⟩ <;> simp [Node.isDecl]

/-- The members of classes have nothing in common. -/
theorem Program.TreeShaped.members_apart (hp : p.TreeShaped) (hn : cs.Nodup) :
    (p.members cs).Pairwise fun y z => Disjoint (p.region y) (p.region z) := by
  refine List.pairwise_flatMap.2 ⟨fun c _ => ?_, hn.imp_of_mem fun {c c'} _ _ hne y hy z hz => ?_⟩
  · cases hd : p.classes.get? c with
    | none => exact List.Pairwise.nil
    | some d =>
      refine (Loose.classDecl c).pairwise_disjoint hp ?_
      simp only [parts, hd, Option.elim]
      exact d.members_sublist
  · have hsub : ∀ {c y}, y ∈ (p.classes.get? c).elim [] ClassDecl.members →
        p.region y ⊆ p.region (.classDecl c) := by
      intro c y hy
      obtain ⟨d, hd, hyd⟩ := mem_elim hy
      refine region_subset ?_
      simp only [parts, hd, Option.elim]
      exact d.members_sublist.subset hyd
    refine Disjoint.mono (hsub hy) (hsub hz) (hp.disjoint (decl_not_mem_parts rfl)
      (decl_not_mem_parts rfl) ?_)
    simpa using hne

/-- A constant outside all bodies has nothing in common with a field or a method. -/
theorem Program.TreeShaped.member_apart_const (hp : p.TreeShaped) (hk : p.Declares k)
    (hy : y ∈ p.parts (.classDecl c)) (hdecl : y.isDecl = false) (hne : ∀ k, y ≠ .const k) :
    Disjoint (p.region y) (p.region (.const k)) := by
  -- either way, what holds the constant holds the member
  have hclass : ∀ {z}, z.isDecl → z ∉ p.region y := by
    intro z hz hzy
    have := eq_of_mem_region (decl_not_mem_parts hz) hzy
    rw [this] at hz
    rw [hdecl] at hz
    cases hz
  refine Set.disjoint_left.2 fun w hwy hwk => ?_
  rcases hp.mem_region_or hwy hwk with h | h
  · rcases mem_region_cases h with h | ⟨z, hz, hyz⟩
    · exact hne k h
    · have hv := region_isValue (isValue_of_mem_parts_const hz) hyz
      obtain ⟨d, -, hyd⟩ := mem_elim hy
      cases y <;> simp_all [Node.isValue, ClassDecl.parts]
  · rcases Relation.ReflTransGen.cases_tail h with h | ⟨u, hu, huk⟩
    · exact hne k h.symm
    · rcases hk with hk | ⟨c', d, hd, hk⟩ | ⟨e, d, hd, hk⟩
      · exact hp.global_not_mem_parts hk u huk
      · have : .const k ∈ p.parts (.classDecl c') := by simp [parts, hd, ClassDecl.parts, hk]
        obtain rfl := hp.holder_unique huk this
        exact hclass rfl hu
      · have : .const k ∈ p.parts (.enumDecl e) := by simp [parts, hd, EnumDecl.parts, hk]
        obtain rfl := hp.holder_unique huk this
        exact hclass rfl hu

/-! ## Once the classes are linked -/

/-- Every class has been linked, and nothing else has been done. -/
structure Linked (p : Program) (s : State) : Prop extends Nesting p [] s where
  all : ∀ c ∈ p.classes.handles, ClassResolved c s
  current : s.table.current = .program
  method : s.method = none
  breakables : s.breakables = []

namespace Linked

variable (h : Linked p s)

include h

theorem resolved {d : ClassDecl} (hd : p.classes.get? c = some d) :
    ∃ base parent, ClassAt s c d .resolved base parent (p.memberNames d).reverse ∧
      Distinct (p.memberNames d) ∧ Based p s c base parent ∧ p.Grounded c :=
  h.linked hd (h.all c (mem_handles.2 (lt_size_of_get? hd)))

theorem enums_nodup : p.enums.handles.Nodup := by
  have hsub : (p.enumNames p.enums.handles).Sublist p.globalNames :=
    (List.sublist_append_right _ _).trans (List.sublist_append_left _ _)
  exact Program.handles_nodup (h.distinct.sublist hsub)

/-- Every scope is that of the program, of a class or of an enumeration. -/
theorem scope_cases {i : Nat} {scope : Scope} (hi : s.table.scopes[i]? = some scope) :
    scope.bindings = p.globalNames.reverse ∨
      (∃ c d, p.classes.get? c = some d ∧ scope.bindings = (p.memberNames d).reverse) ∨
      ∃ e d, p.enums.get? e = some d ∧ scope.bindings = (p.valueNames d).reverse := by
  obtain ⟨hlt, -⟩ := Array.getElem?_eq_some_iff.1 hi
  rw [h.slots] at hlt
  rcases Nat.eq_zero_or_pos i with rfl | hpos
  · rw [h.root] at hi
    exact .inl (Option.some.inj hi ▸ rfl)
  rcases Nat.lt_or_ge (i - 1) p.classes.size with hc | hc
  · obtain ⟨c, hslot⟩ := exists_handle h.classes_nodup hc
    obtain ⟨d, hd⟩ := exists_get? (h := c) (hslot ▸ hc)
    obtain ⟨base, parent, ha, -⟩ := h.resolved hd
    have hci : (classSlot c).slot = i := by simp only [classSlot]; omega
    rw [← hci, ha.scope] at hi
    exact .inr (.inl ⟨c, d, hd, Option.some.inj hi ▸ rfl⟩)
  · obtain ⟨e, hslot⟩ := exists_handle h.enums_nodup
      (show i - 1 - p.classes.size < p.enums.size by omega)
    have he : e.slot < p.enums.size := by omega
    obtain ⟨d, hd⟩ := exists_get? he
    have hei : (p.enumSlot e).slot = i := by simp only [Program.enumSlot]; omega
    rw [← hei, h.enums e he] at hi
    refine .inr (.inr ⟨e, d, hd, ?_⟩)
    rw [← Option.some.inj hi]
    simp [Program.enumScope, hd]

/-- Nodes are what they were at the start. A class keeps what it holds. -/
theorem same (x : Node) : p.Same s.program x := by
  obtain ⟨classes, ordered, hp⟩ := h.program
  cases x with
  | classDecl c =>
    simp only [Program.Same, Program.parts]
    cases hd : p.classes.get? c with
    | none =>
      rw [Arena.get?_eq_none]
      rw [h.size]
      by_contra hlt
      obtain ⟨d, hd'⟩ := exists_get? (Nat.lt_of_not_le hlt)
      rw [hd] at hd'
      cases hd'
    | some =>
      obtain ⟨base, parent, ha, -⟩ := h.resolved hd
      rw [ha.decl]
      rfl
  | expr =>
    intro n hn
    rw [hp]
    exact hn
  | _ => simp only [Program.Same, Program.parts, hp]

theorem ready : Ready p s := by
  obtain ⟨classes, ordered, hp⟩ := h.program
  refine ⟨fun e he he' => ?_, fun i scope name k hi hk => ?_, fun x hx => ?_⟩
  · rw [hp] at he'
    exact absurd he' (Nat.not_lt.2 he)
  · have hnames : ∀ {ks : List ConstId}, (name, .const k) ∈ p.constNames ks →
        k ∈ ks ∧ ∃ d, s.program.consts.get? k = some d := by
      intro ks hmem
      obtain ⟨k', hk', d, hd, heq⟩ := Program.mem_named.1 hmem
      simp only [Prod.mk.injEq, Symbol.const.injEq] at heq
      obtain ⟨-, rfl⟩ := heq
      exact ⟨hk', d, by rw [hp]; exact hd⟩
    rcases h.scope_cases hi with hb | ⟨c, d, hd, hb⟩ | ⟨e, d, hd, hb⟩ <;>
      rw [hb, List.mem_reverse] at hk
    · simp only [Program.globalNames, Program.builtinNames, Program.classNames, Program.enumNames,
        List.mem_append, List.mem_map, Program.mem_named, Prod.mk.injEq, reduceCtorEq, and_false,
        exists_false, false_or] at hk
      obtain ⟨hmem, d, hd⟩ := hnames hk
      exact ⟨d, hd, .inl (.inl hmem)⟩
    · simp only [Program.memberNames, List.mem_append, Program.mem_named,
        Prod.mk.injEq, reduceCtorEq, and_false, exists_false, or_false] at hk
      obtain ⟨hmem, dk, hdk⟩ := hnames hk
      exact ⟨dk, hdk, .inl (.inr (.inl ⟨c, d, hd, hmem⟩))⟩
    · obtain ⟨hmem, dk, hdk⟩ := hnames hk
      exact ⟨dk, hdk, .inl (.inr (.inr ⟨e, d, hd, hmem⟩))⟩
  · exact h.same x

/-- No work has come to the fields and the methods. -/
theorem pending (hp : p.TreeShaped) (hn : cs.Nodup) : Pending p s (p.members cs) := by
  refine ⟨fun y hy => ?_, hp.members_apart hn⟩
  obtain ⟨c, -, hyc, hdecl, hne⟩ := Program.mem_members hy
  refine ⟨h.ready, (Program.Loose.classDecl c).part hp hyc, fun z _ => h.same z,
    Set.disjoint_left.2 fun w hw hwait => ?_⟩
  obtain ⟨k, d, hk, -, -, hwk⟩ := hwait
  exact Set.disjoint_left.1 (hp.member_apart_const hk hyc hdecl hne) hw hwk

end Linked

end Ci
