-- The grammar of types. A type is a base, with an exclamation mark or without, and
-- brackets after it. The lengths between the brackets are resolved from right to left,
-- and the brackets on the right are the innermost array. Resolving a length rewrites
-- expressions, but none that the type is spelled with, as long as these are not shared.
import Ci.Proofs.Frame.Context
import Ci.Proofs.Typing.Bounds
import Ci.Proofs.Work.Fit

namespace Ci

open Pass

variable {calls : Calls} {n depth : Nat} {p q : Program} {s s1 s' : State} {D : Set Node}
  {e b x y l l' left : ExprId} {m mx : ExprNode} {t : Ty} {v : Int64} {mark marked : Bool}
  {kind : Expr} {length : Option ExprId} {es : List ExprId} {table : ScopeTable}

/-! ## How a type is spelled -/

/-- Brackets of a type. -/
structure Suffix where
  /-- Where they stand. -/
  node : ExprId
  /-- What stands before them. -/
  left : ExprId
  /-- What stands between them. -/
  length : Option ExprId
  /-- An exclamation mark follows. -/
  marked : Bool

variable {w : Suffix} {ss : List Suffix} {bs : List Resolve.Brackets}

/-- An expression is a base, which an exclamation mark may follow, and brackets after it. They are
listed from right to left. -/
inductive Suffixed (p : Program) : ExprId → List Suffix → ExprId → Bool → Prop
  | base {e b : ExprId} {m mb : ExprNode} {mark : Bool} (node : p.exprs.get? e = some m)
      (unmark : Resolve.unmark e m.kind = (b, mark)) (inner : p.exprs.get? b = some mb)
      (brackets : Resolve.brackets? mb.kind = none) : Suffixed p e [] b mark
  | suffix {e x left b : ExprId} {m mx : ExprNode} {length : Option ExprId} {marked mark : Bool}
      {ss : List Suffix} (node : p.exprs.get? e = some m)
      (unmark : Resolve.unmark e m.kind = (x, marked)) (inner : p.exprs.get? x = some mx)
      (brackets : Resolve.brackets? mx.kind = some (left, length))
      (rest : Suffixed p left ss b mark) :
      Suffixed p e (⟨x, left, length, marked⟩ :: ss) b mark

/-- The expressions that a type is spelled with. -/
def spine (e : ExprId) (ss : List Suffix) (b : ExprId) : List ExprId :=
  e :: b :: ss.flatMap fun w => [w.node, w.left]

/-- The lengths between brackets. -/
def lengths (ss : List Suffix) : List ExprId := ss.filterMap (·.length)

theorem mem_spine_nil : y ∈ spine e [] b ↔ y = e ∨ y = b := by simp [spine]

theorem mem_spine_cons : y ∈ spine e (w :: ss) b ↔ y = e ∨ y = w.node ∨ y ∈ spine w.left ss b := by
  simp only [spine, List.flatMap_cons, List.cons_append, List.nil_append, List.mem_cons]
  tauto

theorem mem_lengths_cons : l ∈ lengths (w :: ss) ↔ w.length = some l ∨ l ∈ lengths ss := by
  cases hw : w.length <;> simp [lengths, hw, eq_comm]

theorem unmark_of_brackets? {r : ExprId × Option ExprId}
    (h : Resolve.brackets? kind = some r) : Resolve.unmark x kind = (x, false) := by
  cases kind with
  | binary => rfl
  | _ => simp [Resolve.brackets?] at h

theorem kind_of_brackets? (h : Resolve.brackets? kind = some (left, length)) :
    kind = .binary .index left (length.elim .none .expr) := by
  unfold Resolve.brackets? at h
  split at h <;> cases h <;> rfl

namespace Suffixed

/-- The expressions of the spelling are there. -/
theorem exists_of_mem_spine (h : Suffixed p e ss b mark) (hy : y ∈ spine e ss b) :
    ∃ m, p.exprs.get? y = some m := by
  induction h with
  | base node _ inner =>
    rcases mem_spine_nil.1 hy with rfl | rfl
    · exact ⟨_, node⟩
    · exact ⟨_, inner⟩
  | suffix node _ inner _ _ ih =>
    rcases mem_spine_cons.1 hy with rfl | rfl | hy
    · exact ⟨_, node⟩
    · exact ⟨_, inner⟩
    · exact ih hy

/-- The spelling depends on its own expressions only. -/
theorem congr (h : Suffixed p e ss b mark)
    (hsame : ∀ y ∈ spine e ss b, ∀ m, p.exprs.get? y = some m → q.exprs.get? y = some m) :
    Suffixed q e ss b mark := by
  induction h with
  | base node unmark inner brackets =>
    exact .base (hsame _ (mem_spine_nil.2 (.inl rfl)) _ node) unmark
      (hsame _ (mem_spine_nil.2 (.inr rfl)) _ inner) brackets
  | suffix node unmark inner brackets _ ih =>
    exact .suffix (hsame _ (mem_spine_cons.2 (.inl rfl)) _ node) unmark
      (hsame _ (mem_spine_cons.2 (.inr (.inl rfl))) _ inner) brackets
      (ih fun y hy => hsame y (mem_spine_cons.2 (.inr (.inr hy))))

/-- No brackets follow the base itself. -/
theorem base_brackets? (h : Suffixed p e ss b mark) :
    ∃ mb, p.exprs.get? b = some mb ∧ Resolve.brackets? mb.kind = none := by
  induction h with
  | base _ _ inner brackets => exact ⟨_, inner, brackets⟩
  | suffix _ _ _ _ _ ih => exact ih

theorem inner_unique {m' mx' : ExprNode} {x' : ExprId} {marked' : Bool}
    (node : p.exprs.get? e = some m) (unmark : Resolve.unmark e m.kind = (x, marked))
    (inner : p.exprs.get? x = some mx) (node' : p.exprs.get? e = some m')
    (unmark' : Resolve.unmark e m'.kind = (x', marked')) (inner' : p.exprs.get? x' = some mx') :
    mx = mx' := by
  obtain rfl := node.some_unique node'
  obtain ⟨rfl, -⟩ := Prod.mk.inj (unmark.symm.trans unmark')
  exact inner.some_unique inner'

/-- An expression has one number of brackets. -/
theorem length_unique {ss' : List Suffix} {b' : ExprId} {mark' : Bool}
    (h : Suffixed p e ss b mark) (h' : Suffixed p e ss' b' mark') : ss.length = ss'.length := by
  induction h generalizing ss' with
  | base node unmark inner brackets =>
    cases h' with
    | base => rfl
    | suffix node' unmark' inner' brackets' _ =>
      obtain rfl := inner_unique node unmark inner node' unmark' inner'
      simp [brackets] at brackets'
  | suffix node unmark inner brackets _ ih =>
    cases h' with
    | base node' unmark' inner' brackets' =>
      obtain rfl := inner_unique node unmark inner node' unmark' inner'
      simp [brackets] at brackets'
    | suffix node' unmark' inner' brackets' rest =>
      obtain rfl := inner_unique node unmark inner node' unmark' inner'
      obtain ⟨rfl, -⟩ := Prod.mk.inj (brackets.some_unique brackets')
      simp [ih rest]

/-- What stands on the way to the base has no more brackets than the whole. -/
theorem of_mem_spine (h : Suffixed p e ss b mark) (hy : y ∈ spine e ss b) :
    y = b ∨ ∃ ss', Suffixed p y ss' b mark ∧ ss'.length ≤ ss.length := by
  induction h with
  | base node unmark inner brackets =>
    rcases mem_spine_nil.1 hy with rfl | rfl
    · exact .inr ⟨[], .base node unmark inner brackets, Nat.le_refl _⟩
    · exact .inl rfl
  | suffix node unmark inner brackets rest ih =>
    rcases mem_spine_cons.1 hy with rfl | rfl | hy
    · exact .inr ⟨_, .suffix node unmark inner brackets rest, Nat.le_refl _⟩
    · exact .inr ⟨_, .suffix inner (unmark_of_brackets? brackets) inner brackets rest, by simp⟩
    · rcases ih hy with rfl | ⟨ss', hs, hle⟩
      · exact .inl rfl
      · exact .inr ⟨ss', hs, Nat.le_succ_of_le hle⟩

/-- Brackets do not stand before themselves. -/
theorem not_mem_spine (h : Suffixed p e (w :: ss) b mark) : w.node ∉ spine w.left ss b := by
  intro hx
  cases h with
  | suffix _ _ inner brackets rest =>
    rcases rest.of_mem_spine hx with rfl | ⟨ss', hs, hle⟩
    · obtain ⟨mb, hmb, hnone⟩ := rest.base_brackets?
      obtain rfl := inner.some_unique hmb
      simp [brackets] at hnone
    · have := hs.length_unique (.suffix inner (unmark_of_brackets? brackets) inner brackets rest)
      simp only [List.length_cons] at this
      omega

theorem nodes_nodup (h : Suffixed p e ss b mark) : (ss.map Suffix.node).Nodup := by
  induction h with
  | base => simp
  | suffix node unmark inner brackets rest ih =>
    refine List.nodup_cons.2 ⟨fun hx => ?_, ih⟩
    obtain ⟨w, hw, hwx⟩ := List.mem_map.1 hx
    refine not_mem_spine (.suffix node unmark inner brackets rest) ?_
    simp only [spine, List.mem_cons, List.mem_flatMap]
    exact .inr (.inr ⟨w, hw, .inl hwx.symm⟩)

/-- There are fewer brackets than expressions. -/
theorem length_lt_exprDepth (h : Suffixed p e ss b mark) : ss.length < p.exprDepth := by
  have hn : ((ss.map Suffix.node).map Handle.slot).Nodup :=
    h.nodes_nodup.map fun _ _ hs => Handle.slot_inj.1 hs
  have hsub : (ss.map Suffix.node).map Handle.slot ⊆ List.range p.exprs.size := by
    intro i hi
    obtain ⟨x, hx, rfl⟩ := List.mem_map.1 hi
    obtain ⟨w, hw, rfl⟩ := List.mem_map.1 hx
    have hmem : w.node ∈ spine e ss b := by
      simp only [spine, List.mem_cons, List.mem_flatMap]
      exact .inr (.inr ⟨w, hw, .inl rfl⟩)
    obtain ⟨m, hm⟩ := h.exists_of_mem_spine hmem
    exact List.mem_range.2 (Arena.lt_size_of_get? hm)
  have hle := (hn.subperm hsub).length_le
  simp only [List.length_map, List.length_range] at hle
  exact Nat.lt_succ_of_le hle

end Suffixed

/-! ## What resolving the lengths can change -/

/-- What can be reached from some expressions, or from a constant that has not been visited. -/
def Program.touched (p : Program) (es : List ExprId) : Set Node :=
  {y | (∃ e ∈ es, y ∈ p.region (.expr e)) ∨
    ∃ k, (¬ ∃ d, p.consts.get? k = some d ∧ d.status ≠ .unvisited) ∧ y ∈ p.region (.const k)}

theorem closed_touched : Closed (p.touched es) p table := by
  have hknown : ∀ k, Known (p.touched es) p k := by
    intro k
    by_cases hk : ∃ d, p.consts.get? k = some d ∧ d.status ≠ .unvisited
    · exact .inr hk
    · exact .inl (.inr ⟨k, hk, Program.mem_region_self⟩)
  refine ⟨fun y hy z hz => .inl ?_, fun _ _ _ k _ _ _ => hknown k, fun _ _ _ k _ _ => hknown k⟩
  rcases hy with ⟨e, he, hy⟩ | ⟨k, hk, hy⟩
  · exact .inl ⟨e, he, Program.parts_mem_region hy hz⟩
  · exact .inr ⟨k, hk, Program.parts_mem_region hy hz⟩

/-- A region stays closed if an expression outside it gets another kind. -/
theorem Closed.put_outside (h : Closed D p table)
    (he : .expr e ∉ D) (hm : p.exprs.get? e = some m) (hl : m.kind.isLiteral = false)
    (hname : ∀ text symbol, kind ≠ .name text symbol) :
    Closed D { p with exprs := p.exprs.set e { m with kind } } table := by
  refine h.step (x := .expr e) (fun y hy => hy.imp_right ?_) (fun _ hk => hk) (fun y hy => ?_)
    (fun hin => absurd hin he) fun e' m' text k hm' hk => ?_
  · rintro ⟨e', rfl, v, line, hv⟩
    have hne : e ≠ e' := by
      rintro rfl
      obtain rfl := hv.some_unique hm
      simp at hl
    exact ⟨e', rfl, v, line, (Arena.get?_set_of_ne hne).trans hv⟩
  · cases y with
    | expr e' =>
      have hne : e ≠ e' := fun h' => hy (by rw [h'])
      simp [Program.parts, Arena.get?_set_of_ne hne]
    | _ => rfl
  · by_cases hee : e = e'
    · subst hee
      obtain rfl := (Arena.get?_set_self hm).some_unique hm'
      exact absurd hk (hname _ _)
    · exact .inl ((Arena.get?_set_of_ne hee).symm.trans hm')

/-- The type is spelled outside a region that holds its lengths. -/
structure Laid (D : Set Node) (s : State) (e : ExprId) (ss : List Suffix) (b : ExprId)
    (mark : Bool) : Prop where
  closed : Closed D s.program s.table
  spells : Suffixed s.program e ss b mark
  apart : ∀ y ∈ spine e ss b, .expr y ∉ D
  lengths : ∀ l ∈ lengths ss, .expr l ∈ D

namespace Laid

theorem tail (h : Laid D s e (w :: ss) b mark) : Laid D s w.left ss b mark := by
  obtain ⟨hclosed, hspells, hapart, hlengths⟩ := h
  refine ⟨hclosed, ?_, fun y hy => hapart y (mem_spine_cons.2 (.inr (.inr hy))), fun l hl => ?_⟩
  · cases hspells with
    | suffix _ _ _ _ rest => exact rest
  · exact hlengths l (mem_lengths_cons.2 (.inr hl))

/-- When the length between the last brackets is resolved, the rest is spelled as before. -/
theorem after_length (h : Laid D s e (w :: ss) b mark) (hl : w.length = some l)
    (hc : (Resolve.callsWithin n).Counts s l l' v s1) :
    ∃ m, s1.program.exprs.get? w.node = some m ∧
      Laid D (s1.put w.node { m with kind := .binary .index w.left (.expr l') }) w.left
      ss b mark := by
  have hin : .expr l ∈ D := h.lengths l (mem_lengths_cons.2 (.inl hl))
  have hmoves : Moves D s s1 := (((Moves.stay_callsWithin D n).expr s l (.inl hin)).of_ok
    (.refl h.closed) hc.run).1
  have hsame : ∀ y ∈ spine e (w :: ss) b, ∀ m, s.program.exprs.get? y = some m →
      s1.program.exprs.get? y = some m := by
    intro y hy m hm
    obtain ⟨m', hm', hstep⟩ := hmoves.program.exprs.part y m hm
    rw [hm', hstep.outside (h.apart y hy)]
  obtain ⟨mx, hmx, hkind⟩ : ∃ mx, s.program.exprs.get? w.node = some mx ∧
      mx.kind = .binary .index w.left (w.length.elim .none .expr) := by
    cases h.spells with
    | suffix _ _ inner brackets _ => exact ⟨_, inner, kind_of_brackets? brackets⟩
  have hnode : w.node ∈ spine e (w :: ss) b := mem_spine_cons.2 (.inr (.inl rfl))
  have hmx1 := hsame _ hnode _ hmx
  refine ⟨mx, hmx1, ?_, ?_, h.tail.apart, h.tail.lengths⟩
  · exact hmoves.closed.put_outside (h.apart _ hnode) hmx1 (by simp [hkind]) (by simp)
  · refine h.tail.spells.congr fun y hy m hm => ?_
    have hne : w.node ≠ y := fun heq => h.spells.not_mem_spine (heq ▸ hy)
    exact (get?_put_of_ne hne).trans (hsame y (mem_spine_cons.2 (.inr (.inr hy))) m hm)

end Laid

/-! ## Lengths -/

/-- The lengths of a type are numbers that fit in 31 bits. They are resolved from right to left,
and what each of them becomes takes its place between the brackets. -/
inductive Measured (calls : Calls) : State → List Suffix → List Resolve.Brackets → State → Prop
  | nil {s : State} : Measured calls s [] [] s
  | pointer {s s' : State} {w : Suffix} {ss : List Suffix} {bs : List Resolve.Brackets}
      (empty : w.length = none) (rest : Measured calls s ss bs s') :
      Measured calls s (w :: ss) (.pointer w.marked :: bs) s'
  | storage {s s1 s' : State} {w : Suffix} {ss : List Suffix} {bs : List Resolve.Brackets}
      {l l' : ExprId} {v : Int64} {k : UInt32} {m : ExprNode} (filled : w.length = some l)
      (count : calls.Counts s l l' v s1) (value : v.toInt = k.toNat) (small : v.toInt < 2 ^ 31)
      (node : s1.program.exprs.get? w.node = some m)
      (rest : Measured calls (s1.put w.node { m with kind := .binary .index w.left (.expr l') })
        ss bs s') :
      Measured calls s (w :: ss) (.storage k :: bs) s'

namespace Resolve

theorem length_iff {k : UInt32} : (¬ v < 0 ∧ ¬ 2147483647 < v ∧ k = UInt32.ofNat v.toNatClampNeg) ↔
      v.toInt = k.toNat ∧ v.toInt < 2 ^ 31 := by
  have hmax : (2147483647 : Int64).toInt = 2147483647 := by decide
  have hclamp : v.toNatClampNeg = v.toInt.toNat := rfl
  simp only [Int64.not_lt, Int64.le_iff_toInt_le, Int64.toInt_zero, hmax, hclamp,
    ← UInt32.toNat_inj, UInt32.toNat_ofNat']
  omega

theorem readBrackets_eq_ok {r : Brackets} : readBrackets calls x marked left (some l) s = .ok r s' ↔
      marked = false ∧ ∃ l' v k s1 m, calls.Counts s l l' v s1 ∧ v.toInt = (k : UInt32).toNat ∧
        v.toInt < 2 ^ 31 ∧ s1.program.exprs.get? x = some m ∧ r = .storage k ∧
          s' = s1.put x { m with kind := .binary .index left (.expr l') } := by
  cases marked with
  | true => simp [readBrackets, strayMark]
  | false =>
    simp only [readBrackets, Bool.false_eq_true, if_false, bind_eq_ok,
      arrayLength_eq_ok, length_iff, replace_eq_ok, pure_eq_ok, true_and]
    constructor
    · rintro ⟨⟨l', k⟩, s1, ⟨v, hcount, hvalue, hsmall⟩, _, _, ⟨m, hm, rfl⟩, rfl, rfl⟩
      exact ⟨l', v, k, s1, m, hcount, hvalue, hsmall, hm, rfl, rfl⟩
    · rintro ⟨l', v, k, s1, m, hcount, hvalue, hsmall, hm, rfl, rfl⟩
      exact ⟨(l', k), s1, ⟨v, hcount, hvalue, hsmall⟩, (), _, ⟨m, hm, rfl⟩, rfl, rfl⟩

end Resolve

namespace Laid

/-- What has been taken off a type is what it is spelled with. -/
theorem measured_of_takeBrackets {a : Resolve.Spelling} (h : Laid D s e ss b mark)
    (run : Resolve.takeBrackets (Resolve.callsWithin n) depth e s = .ok a s') :
    (∀ w ∈ ss, w.length.isSome → w.marked = false) ∧
      Measured (Resolve.callsWithin n) s ss a.brackets s' ∧ a.base = b ∧ a.writable = mark ∧
        ∀ x ∈ a.nodes, x ∈ spine e ss b := by
  induction ss generalizing s e depth a with
  | nil =>
    cases depth with
    | zero => simp [Resolve.takeBrackets] at run
    | succ =>
      cases h.spells with
      | base node unmark inner brackets =>
        rw [Resolve.takeBrackets_base node unmark inner brackets] at run
        obtain ⟨rfl, rfl⟩ := EStateM.Result.ok.inj run
        exact ⟨by simp, .nil, rfl, rfl, by simp [spine]⟩
  | cons _ ss ih =>
    cases depth with
    | zero => simp [Resolve.takeBrackets] at run
    | succ =>
      have hlaid := h
      cases h.spells with
      | @suffix _ x left _ _ _ length marked _ _ node unmark inner brackets =>
        rw [Resolve.takeBrackets_suffix node unmark inner brackets] at run
        simp only [bind_eq_ok, pure_eq_ok] at run
        obtain ⟨r, s1, hr, a, s2, ha, rfl, rfl⟩ := run
        have hnodes (hsub : ∀ y ∈ a.nodes, y ∈ spine left ss b) :
            ∀ y ∈ e :: x :: a.nodes, y ∈ spine e (⟨x, left, length, marked⟩ :: ss) b := by
          intro y hy
          rw [mem_spine_cons]
          exact (List.mem_cons.1 hy).imp_right fun hy => (List.mem_cons.1 hy).imp_right (hsub y)
        cases length with
        | none =>
          obtain ⟨rfl, rfl⟩ := pure_eq_ok.1 hr
          obtain ⟨hunmarked, hmeasured, hbase, hmark, hsub⟩ := ih hlaid.tail ha
          exact ⟨by simpa using hunmarked, .pointer rfl hmeasured, hbase, hmark, hnodes hsub⟩
        | some =>
          obtain ⟨rfl, l', v, k, s0, m, hcount, hvalue, hsmall, hm, rfl, rfl⟩ :=
            Resolve.readBrackets_eq_ok.1 hr
          obtain ⟨m', hm', hnext⟩ := hlaid.after_length rfl hcount
          obtain rfl := hm.some_unique hm'
          obtain ⟨hunmarked, hmeasured, hbase, hmark, hsub⟩ := ih hnext ha
          exact ⟨by simpa using hunmarked, .storage rfl hcount hvalue hsmall hm hmeasured, hbase,
            hmark, hnodes hsub⟩

/-- What a type is spelled with can be taken off. -/
theorem takeBrackets_of_measured (h : Laid D s e ss b mark) (hdepth : ss.length < depth)
    (hunmarked : ∀ w ∈ ss, w.length.isSome → w.marked = false)
    (hm : Measured (Resolve.callsWithin n) s ss bs s') :
    ∃ a, Resolve.takeBrackets (Resolve.callsWithin n) depth e s = .ok a s' ∧ a.brackets = bs := by
  induction ss generalizing s e depth bs with
  | nil =>
    obtain ⟨depth, rfl⟩ := Nat.exists_eq_succ_of_ne_zero (Nat.ne_of_gt hdepth)
    cases hm
    cases h.spells with
    | base node unmark inner brackets =>
      exact ⟨_, Resolve.takeBrackets_base node unmark inner brackets, rfl⟩
  | cons w ss ih =>
    obtain ⟨depth, rfl⟩ := Nat.exists_eq_succ_of_ne_zero (Nat.ne_zero_of_lt hdepth)
    have hrest : ∀ w ∈ ss, w.length.isSome → w.marked = false :=
      fun w hw => hunmarked w (List.mem_cons_of_mem _ hw)
    replace hdepth : ss.length < depth := by simpa using hdepth
    have hlaid := h
    cases h.spells with
    | @suffix _ x left _ _ _ _ marked _ _ node unmark inner brackets _ =>
      rw [Resolve.takeBrackets_suffix node unmark inner brackets]
      cases hm with
      | pointer empty rest =>
        obtain rfl := empty
        obtain ⟨a, ha, rfl⟩ := ih hlaid.tail hdepth hrest rest
        exact ⟨_, bind_ok ha, rfl⟩
      | @storage _ s1 _ _ _ _ l l' v k m filled count value small hm rest =>
        obtain rfl := filled
        have hread : Resolve.readBrackets (Resolve.callsWithin n) x marked left (some l) s =
            .ok (.storage k) (s1.put x { m with kind := .binary .index left (.expr l') }) :=
          Resolve.readBrackets_eq_ok.2 ⟨hunmarked _ List.mem_cons_self rfl, l', v, k, s1, m, count,
            value, small, hm, rfl, rfl⟩
        obtain ⟨m', hm', hnext⟩ := hlaid.after_length rfl count
        obtain rfl := hm.some_unique hm'
        obtain ⟨a, ha, rfl⟩ := ih hnext hdepth hrest rest
        exact ⟨_, (bind_ok hread).trans (bind_ok ha), rfl⟩

end Laid

/-! ## Bases -/

/-- The bases of types. Only a pointer to a class takes an exclamation mark, and no built-in type is
one. -/
inductive BaseType (calls : Calls) (s : State) (b : ExprId) : Bool → Ty → Prop
  | type {m : ExprNode} {text : String} {symbol : Option Symbol} {t : Ty} {mark : Bool}
      (node : s.program.exprs.get? b = some m) (kind : m.kind = .name text symbol)
      (finds : s.table.lookup .program text = .ok (some (.type t)))
      (takes : mark = true → ∃ c writable, t = .classPointer c writable) : BaseType calls s b mark t
  | enumeration {m : ExprNode} {text : String} {symbol : Option Symbol} {d : EnumId}
      (node : s.program.exprs.get? b = some m) (kind : m.kind = .name text symbol)
      (finds : s.table.lookup .program text = .ok (some (.enumDecl d))) :
      BaseType calls s b false (.enumeration d)
  | pointer {m : ExprNode} {text : String} {symbol : Option Symbol} {c : ClassId} (mark : Bool)
      (node : s.program.exprs.get? b = some m) (kind : m.kind = .name text symbol)
      (finds : s.table.lookup .program text = .ok (some (.classDecl c))) :
      BaseType calls s b mark (.classPointer c mark)
  | string {m ml : ExprNode} {left : ExprId} {symbol : Option Symbol}
      (node : s.program.exprs.get? b = some m) (kind : m.kind = .binary .call left (.args []))
      (callee : s.program.exprs.get? left = some ml) (name : ml.kind = .name "string" symbol) :
      BaseType calls s b false .stringStorage
  | storage {m ml : ExprNode} {left : ExprId} {text : String} {symbol : Option Symbol} {c : ClassId}
      (node : s.program.exprs.get? b = some m) (kind : m.kind = .binary .call left (.args []))
      (callee : s.program.exprs.get? left = some ml) (name : ml.kind = .name text symbol)
      (other : text ≠ "string")
      (finds : s.table.lookup .program text = .ok (some (.classDecl c))) :
      BaseType calls s b false (.classStorage c)
  | range {m : ExprNode} {lower : Option ExprId} {included : Bool} {high : ExprId} {v v' : Int64}
      {s' : State} (node : s.program.exprs.get? b = some m)
      (form : RangeForm m.kind lower included high)
      (bounds : BoundsCount calls s high lower v v' s')
      (full : v ≤ Resolve.upperEnd included v') :
      BaseType calls s b false (.range ⟨v, Resolve.upperEnd included v'⟩)

theorem exists_put {m' : ExprNode} (h : ∃ m, s.program.exprs.get? y = some m) :
    ∃ m, (s.put x m').program.exprs.get? y = some m := by
  obtain ⟨m, hm⟩ := h
  exact Arena.exists_get? (by simpa [State.put] using Arena.lt_size_of_get? hm)

theorem Resolve.plainType_of_name {text : String} {symbol : Option Symbol} {found : Symbol}
    (hm : s.program.exprs.get? b = some m) (hk : m.kind = .name text symbol)
    (hfinds : s.table.lookup .program text = .ok (some found)) (ht : found.asType mark = some t) :
    ∃ s', plainType calls b mark m.kind s = .ok t s' ∧ ∃ m', s'.program.exprs.get? b = some m' := by
  refine ⟨s.put b { m with kind := .name text (some found) }, ?_, _, get?_put_self hm⟩
  rw [hk]
  simp only [plainType, namedType, bind_eq_ok, lookupGlobal_eq_ok, tyOfSymbol_eq_ok, replace_eq_ok,
    pure_eq_ok]
  exact ⟨_, s, ⟨hfinds, rfl⟩, t, s, ⟨⟨found, rfl, ht⟩, rfl⟩, (), _, ⟨m, hm, rfl⟩, rfl, rfl⟩

namespace BaseType

/-- Every base is read. -/
theorem baseType_eq_ok (h : BaseType (Resolve.callsWithin n) s b mark t) :
    ∃ s', Resolve.baseType (Resolve.callsWithin n) b mark s = .ok t s' := by
  cases h with
  | type node kind finds takes =>
    refine (Resolve.baseType_eq_ok_iff node).2
      ⟨Resolve.plainType_of_name node kind finds rfl, fun hmark => ?_⟩
    obtain ⟨c, writable, rfl⟩ := takes hmark
    rfl
  | enumeration node kind finds =>
    exact (Resolve.baseType_eq_ok_iff node).2 ⟨Resolve.plainType_of_name node kind finds rfl,
      by simp⟩
  | pointer _ node kind finds =>
    exact (Resolve.baseType_eq_ok_iff node).2
      ⟨Resolve.plainType_of_name node kind finds rfl, fun _ => rfl⟩
  | @string m ml left _ node kind callee name =>
    refine (Resolve.baseType_eq_ok_iff node).2
      ⟨⟨s.put left { ml with ty := some .stringStorage }, ?_, exists_put ⟨m, node⟩⟩, by simp⟩
    rw [kind]
    simp only [Resolve.plainType, Resolve.storageType, bind_eq_ok, node_eq_ok]
    refine ⟨ml, s, ⟨callee, rfl⟩, ?_⟩
    simp only [name, if_true, bind_eq_ok, record_eq_ok, pure_eq_ok]
    exact ⟨(), _, ⟨ml, callee, rfl⟩, trivial, by rw [name]⟩
  | @storage m ml left text _ c node kind callee name other finds =>
    refine (Resolve.baseType_eq_ok_iff node).2
      ⟨⟨s.put left ⟨.name text (some (.classDecl c)), ml.line, some (.classStorage c)⟩, ?_,
        exists_put ⟨m, node⟩⟩, by simp⟩
    rw [kind]
    simp only [Resolve.plainType, Resolve.storageType, bind_eq_ok, node_eq_ok]
    refine ⟨ml, s, ⟨callee, rfl⟩, ?_⟩
    simp only [name, other, if_false, bind_eq_ok, lookupGlobal_eq_ok]
    refine ⟨_, s, ⟨finds, rfl⟩, ?_⟩
    simp only [bind_eq_ok, replace_eq_ok, record_eq_ok, pure_eq_ok]
    exact ⟨(), _, ⟨ml, callee, rfl⟩, (), _, ⟨_, get?_put_self callee, rfl⟩, trivial, by simp⟩
  | range node form bounds full =>
    exact (Resolve.baseType_eq_ok_iff node).2
      ⟨(form.plainType_eq_ok_iff ⟨_, node⟩).2 ⟨_, _, _, bounds, full, rfl⟩, by simp⟩

/-- What is read is a base. -/
theorem of_baseType
    (run : Resolve.baseType (Resolve.callsWithin n) b mark s = .ok t s') :
    BaseType (Resolve.callsWithin n) s b mark t := by
  obtain ⟨m, hm⟩ : ∃ m, s.program.exprs.get? b = some m := by
    obtain ⟨m, _, hm, -⟩ := bind_eq_ok.1 run
    exact ⟨m, (node_eq_ok.1 hm).1⟩
  obtain ⟨⟨s1, hplain, hstill⟩, hmark⟩ := (Resolve.baseType_eq_ok_iff hm).1 ⟨s', run⟩
  have hplainMark : Resolve.takesMark t = false → mark = false := by
    intro h
    cases mark with
    | true => simp [hmark rfl] at h
    | false => rfl
  by_cases hform : ∃ lower included high, RangeForm m.kind lower included high
  · obtain ⟨lower, included, high, form⟩ := hform
    obtain ⟨v, v', s2, bounds, full, rfl⟩ :=
      (form.plainType_eq_ok_iff ⟨m, hm⟩).1 ⟨s1, hplain, hstill⟩
    obtain rfl := hplainMark rfl
    exact .range hm form bounds full
  · generalize hk : m.kind = kind at hplain hform
    unfold Resolve.plainType at hplain
    split at hplain
    · simp only [Resolve.namedType, bind_eq_ok, lookupGlobal_eq_ok, Resolve.tyOfSymbol_eq_ok,
        replace_eq_ok, pure_eq_ok] at hplain
      obtain ⟨_, _, ⟨finds, rfl⟩, _, _, ⟨⟨found, rfl, ht⟩, rfl⟩, _, _, -, rfl, -⟩ := hplain
      cases found with
      | classDecl =>
        obtain rfl := Option.some.inj ht
        exact .pointer mark hm hk finds
      | type =>
        obtain rfl := Option.some.inj ht
        refine .type hm hk finds fun hset => ?_
        have htakes := hmark hset
        unfold Resolve.takesMark at htakes
        split at htakes
        · exact ⟨_, _, rfl⟩
        · cases htakes
      | enumDecl =>
        obtain rfl := Option.some.inj ht
        obtain rfl := hplainMark rfl
        exact .enumeration hm hk finds
      | _ => simp [Symbol.asType] at ht
    · simp only [Resolve.storageType, bind_eq_ok, node_eq_ok] at hplain
      obtain ⟨ml, _, ⟨callee, hs⟩, hplain⟩ := hplain
      rw [hs] at hplain
      cases name : ml.kind with
      | name text symbol =>
        simp only [name] at hplain
        split at hplain
        · rename_i htext
          simp only [bind_eq_ok, record_eq_ok, pure_eq_ok] at hplain
          obtain ⟨_, _, -, rfl, -⟩ := hplain
          obtain rfl := hplainMark rfl
          exact .string hm hk callee (htext ▸ name)
        · rename_i htext
          simp only [bind_eq_ok, lookupGlobal_eq_ok] at hplain
          obtain ⟨found, _, ⟨finds, hs⟩, hplain⟩ := hplain
          rw [hs] at hplain
          split at hplain
          · simp only [bind_eq_ok, replace_eq_ok, record_eq_ok, pure_eq_ok] at hplain
            obtain ⟨_, _, -, _, _, -, rfl, -⟩ := hplain
            obtain rfl := hplainMark rfl
            exact .storage hm hk callee name htext finds
          · simp at hplain
      | _ => simp [name] at hplain
    · simp at hplain
    · exact absurd ⟨_, _, _, .less _ _⟩ hform
    · exact absurd ⟨_, _, _, .lessOrEqual _ _⟩ hform
    · exact absurd ⟨_, _, _, .fromZero _⟩ hform
    · exact absurd ⟨_, _, _, .fromZeroTo _⟩ hform
    · simp at hplain

end BaseType

/-! ## Programs without sharing -/

namespace Suffixed

theorem unmark_cases (hm : p.exprs.get? e = some m) (hx : Resolve.unmark e m.kind = (x, marked)) :
    x = e ∨ .expr x ∈ p.parts (.expr e) := by
  unfold Resolve.unmark at hx
  split at hx
  · rename_i hk
    obtain ⟨rfl, -⟩ := Prod.mk.inj hx
    simp [Program.parts_expr hm, hk]
  · exact .inl (Prod.mk.inj hx).1.symm

theorem parts_of_brackets? (hm : p.exprs.get? x = some mx)
    (hb : Resolve.brackets? mx.kind = some (left, length)) :
    p.parts (.expr x) = .expr left :: length.toList.map .expr := by
  rw [Program.parts_expr hm, kind_of_brackets? hb]
  cases length <;> rfl

section

variable (h : Suffixed p e ss b mark)

include h

theorem mem_region_of_mem_spine (hy : y ∈ spine e ss b) : .expr y ∈ p.region (.expr e) := by
  have hinner {e x : ExprId} {m : ExprNode} {marked : Bool} (hm : p.exprs.get? e = some m)
      (hx : Resolve.unmark e m.kind = (x, marked)) : .expr x ∈ p.region (.expr e) := by
    rcases unmark_cases hm hx with rfl | hx
    · exact Program.mem_region_self
    · exact Program.part_mem_region hx
  induction h with
  | base node unmark _ _ =>
    rcases mem_spine_nil.1 hy with rfl | rfl
    · exact Program.mem_region_self
    · exact hinner node unmark
  | suffix node unmark inner brackets _ ih =>
    rcases mem_spine_cons.1 hy with rfl | rfl | hy
    · exact Program.mem_region_self
    · exact hinner node unmark
    · refine Program.region_subset_of_mem (Program.parts_mem_region (hinner node unmark) ?_) (ih hy)
      simp [parts_of_brackets? inner brackets]

theorem mem_region_of_mem_lengths (hl : l ∈ lengths ss) : .expr l ∈ p.region (.expr e) := by
  induction h with
  | base => simp [lengths] at hl
  | @suffix e x _ _ _ _ length _ _ _ node unmark inner brackets rest ih =>
    have hx : .expr x ∈ p.region (.expr e) :=
      (Suffixed.suffix node unmark inner brackets rest).mem_region_of_mem_spine
        (mem_spine_cons.2 (.inr (.inl rfl)))
    have hparts := parts_of_brackets? inner brackets
    rcases mem_lengths_cons.1 hl with hl | hl
    · exact Program.parts_mem_region hx (by simp [hparts, show length = some l from hl])
    · exact Program.region_subset_of_mem (Program.parts_mem_region hx (by simp [hparts])) (ih hl)

/-- In a tree, what a type is spelled with does not stand inside its lengths. -/
theorem not_mem_region_length (hp : p.TreeShaped)
    (hloose : p.Loose (.expr e)) (hy : y ∈ spine e ss b) (hl : l ∈ lengths ss) :
    .expr y ∉ p.region (.expr l) := by
  induction h with
  | base => simp [lengths] at hl
  | @suffix e x left _ _ _ length _ _ _ node unmark inner brackets rest ih =>
    have hparts := parts_of_brackets? inner brackets
    have hleft : .expr left ∈ p.parts (.expr x) := by simp [hparts]
    have hx : p.Loose (.expr x) := by
      rcases unmark_cases node unmark with rfl | hx
      · exact hloose
      · exact hloose.part hp hx
    have houter : ∀ z ∈ p.parts (.expr x), .expr e ∉ p.region z ∧ .expr x ∉ p.region z := by
      intro z hz
      refine ⟨?_, hx.not_mem hz⟩
      rcases unmark_cases node unmark with rfl | hxe
      · exact hx.not_mem hz
      · exact fun hin => hloose.not_mem hxe (Program.region_subset hz hin)
    rcases mem_lengths_cons.1 hl with hl | hl
    · replace hl : length = some l := hl
      have hlx : .expr l ∈ p.parts (.expr x) := by simp [hparts, hl]
      rcases mem_spine_cons.1 hy with rfl | rfl | hy
      · exact (houter _ hlx).1
      · exact (houter _ hlx).2
      · have hne : Node.expr left ≠ .expr l := by
          have hnodup := hp.parts_nodup (.expr x)
          simp only [hparts, hl] at hnodup
          simpa using hnodup
        exact Set.disjoint_left.1 (hx.disjoint hp hleft hlx hne) (rest.mem_region_of_mem_spine hy)
    · have hsub := Program.region_subset_of_mem (rest.mem_region_of_mem_lengths hl)
      rcases mem_spine_cons.1 hy with rfl | rfl | hy
      · exact fun hin => (houter _ hleft).1 (hsub hin)
      · exact fun hin => (houter _ hleft).2 (hsub hin)
      · exact ih (hx.part hp hleft) hy hl

/-- In a tree, a type outside the constants that have not been visited is spelled apart from all
that resolving its lengths can change. -/
theorem apart_of_treeShaped (hp : p.TreeShaped)
    (hloose : p.Loose (.expr e)) (hconst : ∀ k, .expr e ∉ p.region (.const k) ∨
      ∃ d, p.consts.get? k = some d ∧ d.status ≠ .unvisited) :
    ∀ y ∈ spine e ss b, .expr y ∉ p.touched (lengths ss) := by
  rintro y hy (⟨l, hl, hin⟩ | ⟨k, hk, hin⟩)
  · exact h.not_mem_region_length hp hloose hy hl hin
  · refine ((hconst k).resolve_right hk) ?_
    -- go back from the expression to the whole type
    have hback : ∀ z, z ∈ p.region (.expr e) → z ∈ p.region (.const k) →
        .expr e ∈ p.region (.const k) := by
      intro z hz
      induction hz with
      | refl => exact id
      | @tail _ _ hv hvz ih =>
        intro hz
        rcases Relation.ReflTransGen.cases_tail hz with rfl | ⟨u, hu, huz⟩
        · cases Program.parts_isValue (Program.region_isValue (x := .expr e) rfl hv) hvz
        · obtain rfl := hp.holder_unique hvz huz
          exact ih hu
    exact hback _ (h.mem_region_of_mem_spine hy) hin

end

end Suffixed

/-! ## Whole types -/

theorem exists_forM_record (h : ∀ x ∈ es, ∃ m, s.program.exprs.get? x = some m) :
    ∃ s', (es.forM fun x => record x t) s = .ok () s' := by
  induction es generalizing s with
  | nil => exact ⟨s, forM_nil_eq_ok.2 rfl⟩
  | cons x _ ih =>
    obtain ⟨m, hm⟩ := h x List.mem_cons_self
    obtain ⟨s', hs'⟩ := ih (s := s.put x { m with ty := some t }) fun y hy =>
      exists_put (h y (List.mem_cons_of_mem _ hy))
    exact ⟨s', forM_cons_eq_ok.2 ⟨_, record_eq_ok.2 ⟨m, hm, rfl⟩, hs'⟩⟩

/-- Types are read by their grammar, if the expressions that a type is spelled with cannot be
reached from its lengths or from a constant that has not been visited: no mark follows brackets
around a length, each length is a number that fits in 31 bits, and the base is one of those above.
The type is then the array that the first brackets make of the array that the second ones make, and
so on. -/
theorem type_read_iff_grammar (spells : Suffixed s.program e ss b mark)
    (apart : ∀ y ∈ spine e ss b, .expr y ∉ s.program.touched (lengths ss)) :
    (∃ s', Resolve.readType (Resolve.callsWithin n) e s = .ok t s') ↔
      (∀ w ∈ ss, w.length.isSome → w.marked = false) ∧
        ∃ bs s₁ u, Measured (Resolve.callsWithin n) s ss bs s₁ ∧
          BaseType (Resolve.callsWithin n) s₁ b mark u ∧
            t = bs.reverse.foldr (fun x t => x.array t) u := by
  have hlaid : Laid (s.program.touched (lengths ss)) s e ss b mark :=
    ⟨closed_touched, spells, apart, fun l hl => .inl ⟨l, hl, Program.mem_region_self⟩⟩
  simp only [List.foldr_reverse]
  constructor
  · rintro ⟨s', run⟩
    simp only [Resolve.readType, bind_eq_ok, get_eq_ok] at run
    obtain ⟨_, _, ⟨rfl, rfl⟩, a, s₁, htake, u, s₂, hbase, _, _, -, run⟩ := run
    obtain ⟨rfl, -⟩ := pure_eq_ok.1 run
    obtain ⟨hunmarked, hmeasured, rfl, rfl, -⟩ := hlaid.measured_of_takeBrackets htake
    exact ⟨hunmarked, a.brackets, s₁, u, hmeasured, .of_baseType hbase, rfl⟩
  · rintro ⟨hunmarked, bs, s₁, u, hmeasured, hbase, rfl⟩
    obtain ⟨a, htake, rfl⟩ :=
      hlaid.takeBrackets_of_measured spells.length_lt_exprDepth hunmarked hmeasured
    obtain ⟨-, -, rfl, rfl, hnodes⟩ := hlaid.measured_of_takeBrackets htake
    obtain ⟨s₂, hs₂⟩ := hbase.baseType_eq_ok
    -- the expressions of the spelling are still there at the end
    have hmoves : Moves Set.univ s s₂ := by
      have hin : ∀ {x : Node} {w : Facts}, w.Inside Set.univ x := .inl trivial
      have hfirst :
        Keeps _ (Resolve.takeBrackets (Resolve.callsWithin n) s.program.exprDepth e >>= pure) s _ :=
        Moves.of_obeys (D := Set.univ) (Obeys.takeBrackets_bind (R := fun _ _ => True)
          (Obeys.callsWithin _ n) (Or.inl hin) _ fun _ _ _ _ _ => .pure ⟨trivial, trivial,
            fun _ _ => trivial⟩)
      have hlast : Keeps _ (Resolve.baseType (Resolve.callsWithin n) a.base a.writable) s₁ _ :=
        Moves.of_obeys (D := Set.univ) (Obeys.baseType (Obeys.callsWithin _ n) (Or.inl hin))
      rw [bind_pure] at hfirst
      exact (hfirst.of_ok (.refl .univ) htake).1.trans (hlast.of_ok (.refl .univ) hs₂).1
    have hthere : ∀ x ∈ a.nodes.filter (· != a.base), ∃ m, s₂.program.exprs.get? x = some m := by
      intro x hx
      obtain ⟨m, hm⟩ := spells.exists_of_mem_spine (hnodes x (List.mem_filter.1 hx).1)
      obtain ⟨m', hm', -⟩ := hmoves.program.exprs.part x m hm
      exact ⟨m', hm'⟩
    obtain ⟨s₃, hs₃⟩ := exists_forM_record (t := a.brackets.foldl Resolve.Brackets.array u) hthere
    refine ⟨s₃, ?_⟩
    simp only [Resolve.readType, bind_eq_ok, get_eq_ok, pure_eq_ok]
    exact ⟨s, s, ⟨rfl, rfl⟩, a, s₁, htake, u, s₂, hs₂, (), s₃, hs₃, rfl, rfl⟩

/-- A class with a field whose type has brackets of both kinds, and two marks. -/
def lattice : Program :=
  let expr (kind : Expr) : ExprNode := ⟨kind, 1, none⟩
  { Program.empty with
    exprs := .ofList [expr (.name "Node" none), expr (.after .bang ⟨0⟩), expr (.literal (.int 2)),
      expr (.literal (.int 1)), expr (.binary (.arith .add) ⟨2⟩ (.expr ⟨3⟩)),
      expr (.binary .index ⟨1⟩ (.expr ⟨4⟩)), expr (.binary .index ⟨5⟩ .none),
      expr (.after .bang ⟨6⟩)]
    classes := .ofList [⟨"Node", ⟨0⟩, 1, false, .normal, none, none, [], [⟨0⟩], [], .unvisited⟩]
    fields := .ofList [⟨"near", 1, .hidden, ⟨7⟩, none⟩] }

theorem lattice_read_by_grammar :
    ∃ bs s₁ u, Measured (Resolve.callsWithin 3) (Resolve.register.after (.start lattice))
      [⟨⟨6⟩, ⟨5⟩, none, true⟩, ⟨⟨5⟩, ⟨1⟩, some ⟨4⟩, false⟩] bs s₁ ∧
        BaseType (Resolve.callsWithin 3) s₁ ⟨0⟩ true u ∧
          .arrayStorage (.arrayPointer (.classPointer ⟨0⟩ true) true) 3 =
            bs.reverse.foldr (fun x t => x.array t) u := by
  have hprogram : (Resolve.register.after (.start lattice)).program = lattice := by decide +kernel
  have htree : lattice.TreeShaped := by decide +kernel
  have hfield : .expr ⟨7⟩ ∈ lattice.parts (.field ⟨0⟩) := by decide +kernel
  have hloose : lattice.Loose (.expr ⟨7⟩) := by
    intro z hz hheld
    obtain rfl := htree.holder_unique hfield hheld
    cases Program.region_isValue (x := .expr ⟨7⟩) rfl hz
  have hconst : ∀ k, .expr ⟨7⟩ ∉ lattice.region (.const k) := by
    intro k hk
    rcases Relation.ReflTransGen.cases_tail hk with h | ⟨u, hu, hheld⟩
    · cases h
    · obtain rfl := htree.holder_unique hfield hheld
      rcases Program.mem_region_const hu with h | h <;> cases h
  have hspells : Suffixed lattice ⟨7⟩ [⟨⟨6⟩, ⟨5⟩, none, true⟩,
    ⟨⟨5⟩, ⟨1⟩, some ⟨4⟩, false⟩] ⟨0⟩ true :=
    .suffix rfl rfl rfl rfl (.suffix rfl rfl rfl rfl (.base rfl rfl rfl rfl))
  have hrun : (Resolve.readType (Resolve.callsWithin 3) ⟨7⟩).value?
      (Resolve.register.after (.start lattice)) =
        some (.arrayStorage (.arrayPointer (.classPointer ⟨0⟩ true) true) 3) := by decide +kernel
  refine ((type_read_iff_grammar ?_ ?_).1 ⟨_, eq_ok_of_value? hrun⟩).2
  · rw [hprogram]
    exact hspells
  · rw [hprogram]
    exact hspells.apart_of_treeShaped htree hloose fun k => .inl (hconst k)

/-- A class with a field whose type has the same brackets before a length and as the length. -/
def tangle : Program :=
  let expr (kind : Expr) : ExprNode := ⟨kind, 1, none⟩
  { Program.empty with
    exprs := .ofList [expr (.name "Node" none), expr (.literal (.int 0)),
      expr (.binary .index ⟨0⟩ (.expr ⟨1⟩)), expr (.binary .index ⟨2⟩ (.expr ⟨2⟩)),
      expr (.literal (.string "A"))]
    classes := .ofList [⟨"Node", ⟨0⟩, 1, false, .normal, none, none, [], [], [], .unvisited⟩,
      ⟨"Test", ⟨0⟩, 1, false, .normal, none, none, [⟨0⟩], [⟨0⟩], [], .unvisited⟩]
    consts := .ofList [⟨"Node", 1, .classDecl ⟨1⟩, .hidden, none, some ⟨4⟩, .unvisited, none⟩]
    fields := .ofList [⟨"near", 1, .hidden, ⟨3⟩, none⟩] }

/-- Where the types of the second class are read. -/
def tangleState : State :=
  let s := (Resolve.register >>= fun _ => Resolve.resolveClasses >>= fun _ =>
    Resolve.resolveConsts).after (.start tangle)
  { s with table := s.table.enter ⟨2⟩ }

/-- The length is resolved first. As an expression, the name before the brackets is a constant of
the class, and what is left of it is no base. -/
theorem tangle_not_read :
    let ss : List Suffix := [⟨⟨3⟩, ⟨2⟩, some ⟨2⟩, false⟩, ⟨⟨2⟩, ⟨0⟩, some ⟨1⟩, false⟩]
    Suffixed tangleState.program ⟨3⟩ ss ⟨0⟩ false ∧
      (∀ w ∈ ss, w.length.isSome → w.marked = false) ∧
      (∃ bs s₁ u, Measured (Resolve.callsWithin 5) tangleState ss bs s₁ ∧
        BaseType (Resolve.callsWithin 5) s₁ ⟨0⟩ false u) ∧
      (Resolve.readType (Resolve.callsWithin 5) ⟨3⟩).stop tangleState =
        some (.fault ⟨"", 1, .invalidType "invalid type"⟩) ∧
      tangle.resolve.abort = some (.fault ⟨"", 1, .invalidType "invalid type"⟩) := by
  let node (kind : Expr) : ExprNode := ⟨kind, 1, none⟩
  have hname : tangleState.program.exprs.get? ⟨0⟩ = some (node (.name "Node" none)) := by
    decide +kernel
  have hinner : tangleState.program.exprs.get? ⟨2⟩ =
      some (node (.binary .index ⟨0⟩ (.expr ⟨1⟩))) := by decide +kernel
  have houter : tangleState.program.exprs.get? ⟨3⟩ =
      some (node (.binary .index ⟨2⟩ (.expr ⟨2⟩))) := by decide +kernel
  refine ⟨.suffix houter rfl houter rfl (.suffix hinner rfl hinner rfl (.base hname rfl hname rfl)),
    by simp, ?_, by decide +kernel, by decide +kernel⟩
  -- the second length is resolved where the first one has left the name before the brackets
  have hfirst : (Resolve.callsWithin 5).Counts tangleState ⟨2⟩ ⟨6⟩ 65 _ :=
    ⟨eq_ok_of_value? (by decide +kernel), by decide +kernel⟩
  have hsecond : (Resolve.callsWithin 5).Counts
      ((((Resolve.callsWithin 5).expr ⟨2⟩).after tangleState).put ⟨3⟩
        (node (.binary .index ⟨2⟩ (.expr ⟨6⟩)))) ⟨1⟩ ⟨1⟩ 0 _ :=
    ⟨eq_ok_of_value? (by decide +kernel), by decide +kernel⟩
  exact ⟨[.storage 65, .storage 0], _, .classPointer ⟨0⟩ false,
    .storage (m := node (.binary .index ⟨2⟩ (.expr ⟨2⟩))) rfl hfirst (by decide) (by decide)
      (by decide +kernel) (.storage (m := node (.binary .index ⟨5⟩ (.expr ⟨1⟩))) rfl hsecond
        (by decide) (by decide) (by decide +kernel) .nil),
    .pointer (m := node (.name "Node" (some (.const ⟨0⟩)))) false (by decide +kernel) rfl
      (by decide +kernel)⟩

end Ci
