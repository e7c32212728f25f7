-- Programs whose parts form trees. What can be reached from a node is its region.
-- Where every handle is held once, a node is not in the regions of its parts, and
-- no two of these regions meet.
import Ci.Proofs.Program.Parts

namespace Ci

namespace Program

variable {p : Program} {x x' y z : Node}

/-! ## What is held -/

/-- Everything that the slots of a program hold, slot by slot. -/
def held (p : Program) : List Node :=
  p.globals.map .const ++ p.classes.toList.flatMap ClassDecl.parts
    ++ p.enums.toList.flatMap EnumDecl.parts ++ p.consts.toList.flatMap Const.parts
    ++ p.fields.toList.flatMap Field.parts ++ p.methods.toList.flatMap Method.parts
    ++ p.vars.toList.flatMap Var.parts ++ p.stmts.toList.flatMap (·.kind.parts)
    ++ p.exprs.toList.flatMap (·.kind.parts)

/-- No handle is held by two slots. -/
def TreeShaped (p : Program) : Prop := p.held.Nodup

instance (p : Program) : Decidable p.TreeShaped := inferInstanceAs (Decidable p.held.Nodup)

end Program

/-! ## One arena -/

namespace Arena

variable {k : Kind} {α : Type} {a : Arena k α} {h h' : Handle k} {d d' : α} {f : α → List Node}
  {y : Node}

theorem count_flatMap_of_mem (hd : a.get? h = some d) (hy : y ∈ f d) :
    1 ≤ (a.toList.flatMap f).count y :=
  List.one_le_count_iff.2 (List.mem_flatMap.2 ⟨d, mem_toList_of_get? hd, hy⟩)

/-- Two slots that hold the same are one slot. -/
theorem eq_of_mem_parts (hn : (a.toList.flatMap f).Nodup) (hd : a.get? h = some d)
    (hd' : a.get? h' = some d') (hy : y ∈ f d) (hy' : y ∈ f d') : h = h' := by
  have hpair := List.pairwise_iff_getElem.1 (List.nodup_flatMap.1 hn).2
  have hget : ∀ {h : Handle k} {d : α}, a.get? h = some d →
      ∃ hs : h.slot < a.toList.length, a.toList[h.slot] = d := by
    intro h d hd
    obtain ⟨hs, hx⟩ := Array.getElem?_eq_some_iff.1 hd
    exact ⟨by simpa [toList] using hs, by simpa [toList] using hx⟩
  obtain ⟨hs, rfl⟩ := hget hd
  obtain ⟨hs', rfl⟩ := hget hd'
  rcases Nat.lt_trichotomy h.slot h'.slot with hlt | heq | hgt
  · exact absurd hy' (hpair _ _ hs hs' hlt hy)
  · exact Handle.slot_inj.1 heq
  · exact absurd hy (hpair _ _ hs' hs hgt hy')

theorem nodup_parts (hn : (a.toList.flatMap f).Nodup) (hd : a.get? h = some d) : (f d).Nodup :=
  (List.nodup_flatMap.1 hn).1 d (mem_toList_of_get? hd)

end Arena

namespace Program

variable {p : Program} {x x' y z : Node}

/-! ## All the arenas -/

/-- How often the slots of the kind of a node hold something. -/
def heldBeside (p : Program) (y : Node) : Node → Nat
  | .classDecl _ => (p.classes.toList.flatMap ClassDecl.parts).count y
  | .enumDecl _ => (p.enums.toList.flatMap EnumDecl.parts).count y
  | .const _ => (p.consts.toList.flatMap Const.parts).count y
  | .field _ => (p.fields.toList.flatMap Field.parts).count y
  | .method _ => (p.methods.toList.flatMap Method.parts).count y
  | .var _ => (p.vars.toList.flatMap Var.parts).count y
  | .stmt _ => (p.stmts.toList.flatMap (·.kind.parts)).count y
  | .expr _ => (p.exprs.toList.flatMap (·.kind.parts)).count y

theorem mem_elim {α : Type} {o : Option α} {f : α → List Node} (h : y ∈ o.elim [] f) :
    ∃ d, o = some d ∧ y ∈ f d := by
  cases o with
  | none => simp at h
  | some d => exact ⟨d, rfl, h⟩

theorem one_le_heldBeside (h : y ∈ p.parts x) : 1 ≤ p.heldBeside y x := by
  cases x <;> obtain ⟨d, hd, hy⟩ := mem_elim h <;> exact Arena.count_flatMap_of_mem hd hy

theorem mem_held (h : y ∈ p.parts x) : y ∈ p.held := by
  have hc := one_le_heldBeside h
  refine List.one_le_count_iff.1 ?_
  simp only [held, List.count_append]
  cases x <;> simp only [heldBeside] at hc <;> omega

namespace TreeShaped

/-- What a node holds is held by no other node. -/
theorem holder_unique (hp : p.TreeShaped) (h : y ∈ p.parts x) (h' : y ∈ p.parts x') :
    x = x' := by
  have hc := one_le_heldBeside h
  have hc' := one_le_heldBeside h'
  have hone : p.held.count y ≤ 1 := List.nodup_iff_count_le_one.1 hp y
  have hn := hp
  simp only [TreeShaped, held, List.nodup_append] at hn
  simp only [held, List.count_append] at hone
  -- slots of two kinds would hold it twice
  cases x <;> cases x' <;> simp only [heldBeside] at hc hc' <;> try omega
  all_goals
    obtain ⟨d, hd, hy⟩ := mem_elim h
    obtain ⟨d', hd', hy'⟩ := mem_elim h'
    congr 1
    exact Arena.eq_of_mem_parts (by tauto) hd hd' hy hy'

theorem parts_nodup (hp : p.TreeShaped) (x : Node) : (p.parts x).Nodup := by
  have hn := hp
  simp only [TreeShaped, held, List.nodup_append] at hn
  have helim : ∀ {k : Kind} {α : Type} {a : Arena k α} {h : Handle k} {f : α → List Node},
      (a.toList.flatMap f).Nodup → ((a.get? h).elim [] f).Nodup := by
    intro k α a h f ha
    cases hd : a.get? h with
    | none => simp
    | some => exact Arena.nodup_parts (f := f) ha hd
  cases x <;> exact helim (by tauto)

/-- What the program itself holds is held by no node. -/
theorem global_not_mem_parts {k : ConstId} (hp : p.TreeShaped) (hk : k ∈ p.globals) (x : Node) :
    .const k ∉ p.parts x := by
  intro h
  have hc := one_le_heldBeside h
  have hg : 1 ≤ (p.globals.map Node.const).count (.const k) :=
    List.one_le_count_iff.2 (List.mem_map_of_mem hk)
  have hone : p.held.count (.const k) ≤ 1 := List.nodup_iff_count_le_one.1 hp _
  simp only [held, List.count_append] at hone
  cases x <;> simp only [heldBeside] at hc <;> omega

end TreeShaped

/-! ## Regions -/

/-- What can be reached from a node. -/
def region (p : Program) (x : Node) : Set Node :=
  {y | Relation.ReflTransGen (fun a b => b ∈ p.parts a) x y}

theorem mem_region_self : x ∈ p.region x := .refl

theorem parts_mem_region (hy : y ∈ p.region x) (hz : z ∈ p.parts y) : z ∈ p.region x :=
  .tail hy hz

theorem part_mem_region (h : y ∈ p.parts x) : y ∈ p.region x := .single h

theorem region_subset_of_mem (h : y ∈ p.region x) : p.region y ⊆ p.region x :=
  fun _ hz => .trans h hz

theorem region_subset (h : y ∈ p.parts x) : p.region y ⊆ p.region x :=
  region_subset_of_mem (part_mem_region h)

/-- What is reached is the start itself, or is reached through one of its parts. -/
theorem mem_region_cases (h : z ∈ p.region x) : z = x ∨ ∃ y ∈ p.parts x, z ∈ p.region y := by
  rcases Relation.ReflTransGen.cases_head h with rfl | ⟨y, hy, hz⟩
  · exact .inl rfl
  · exact .inr ⟨y, hy, hz⟩

/-! ## Kinds of nodes -/
end Program

/-- Expressions, and the variables that they declare. -/
def Node.isValue : Node → Bool
  | .expr _ | .var _ => true
  | _ => false

/-- Classes and enumerations. -/
def Node.isDecl : Node → Bool
  | .classDecl _ | .enumDecl _ => true
  | _ => false

theorem Expr.parts_isValue {kind : Expr} {y : Node} (h : y ∈ kind.parts) : y.isValue := by
  unfold Expr.parts at h
  split at h
  · simp_all [Node.isValue]
  · obtain ⟨e, -, rfl⟩ := List.mem_map.1 h
    rfl

theorem Stmt.parts_not_decl {kind : Stmt} {y : Node} (h : y ∈ kind.parts) : ¬ y.isDecl := by
  cases y <;> cases kind <;> simp_all [Stmt.parts, Case.parts, Node.isDecl]

namespace Program

variable {p : Program} {x x' y z : Node}

theorem parts_isValue (hx : x.isValue) (hy : y ∈ p.parts x) : y.isValue := by
  cases x with
  | expr =>
    obtain ⟨n, -, hn⟩ := mem_elim hy
    exact Expr.parts_isValue hn
  | var =>
    obtain ⟨d, -, hd⟩ := mem_elim hy
    simp only [Var.parts, List.mem_cons, List.mem_map] at hd
    rcases hd with rfl | ⟨e, -, rfl⟩ <;> rfl
  | _ => cases hx

theorem region_isValue (hx : x.isValue) (hy : y ∈ p.region x) : y.isValue := by
  induction hy with
  | refl => exact hx
  | tail _ hz ih => exact parts_isValue ih hz

/-! ## Nodes that are not held from within -/

/-- Nothing that can be reached from a node holds it. -/
def Loose (p : Program) (x : Node) : Prop := ∀ y ∈ p.region x, x ∉ p.parts y

namespace Loose

/-- A node is not in the region of one of its parts. -/
theorem not_mem (h : p.Loose x) (hy : y ∈ p.parts x) : x ∉ p.region y := by
  intro hx
  rcases Relation.ReflTransGen.cases_tail hx with rfl | ⟨z, hz, hzx⟩
  · exact h x mem_region_self hy
  · exact h z (region_subset hy hz) hzx

theorem part (hp : p.TreeShaped) (h : p.Loose x) (hy : y ∈ p.parts x) : p.Loose y := by
  intro z hz hyz
  obtain rfl := hp.holder_unique hy hyz
  exact h.not_mem hy hz

/-- The regions of two parts do not meet. -/
theorem disjoint (hp : p.TreeShaped) (h : p.Loose x) (hy : y ∈ p.parts x) (hz : z ∈ p.parts x)
    (hne : y ≠ z) : Disjoint (p.region y) (p.region z) := by
  refine Set.disjoint_left.2 fun w hwy hwz => ?_
  -- go back from what they share to one of the two parts
  induction hwy with
  | refl =>
    rcases Relation.ReflTransGen.cases_tail hwz with rfl | ⟨u, hu, huy⟩
    · exact hne rfl
    · obtain rfl := hp.holder_unique hy huy
      exact h.not_mem hz hu
  | @tail _ _ hv hvw ih =>
    rcases Relation.ReflTransGen.cases_tail hwz with rfl | ⟨u, hu, huw⟩
    · obtain rfl := hp.holder_unique hz hvw
      exact h.not_mem hy hv
    · obtain rfl := hp.holder_unique hvw huw
      exact ih hu

theorem pairwise_disjoint {ys : List Node} (hp : p.TreeShaped) (h : p.Loose x)
    (hs : ys.Sublist (p.parts x)) :
    ys.Pairwise fun y z => Disjoint (p.region y) (p.region z) :=
  ((hp.parts_nodup x).sublist hs).imp_of_mem fun hy hz hne =>
    h.disjoint hp (hs.subset hy) (hs.subset hz) hne

/-- No node holds a class. -/
theorem classDecl (c : ClassId) : p.Loose (.classDecl c) := by
  intro y _ hc
  cases y <;> obtain ⟨d, -, hd⟩ := mem_elim hc
  case stmt => exact absurd (Stmt.parts_not_decl hd) (by simp [Node.isDecl])
  case expr => exact absurd (Expr.parts_isValue hd) (by simp [Node.isValue])
  all_goals simp [ClassDecl.parts, EnumDecl.parts, Const.parts, Field.parts, Method.parts,
    Var.parts] at hd

end Loose

end Program

end Ci
