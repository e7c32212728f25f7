-- The rules follow the walk. From the present scope outwards, the scopes of a pass
-- hold the frames of the walk, so a name that is looked up is what the frames say.
-- Once all constants outside bodies are resolved, a name leads to no other work, and
-- what has been bound stays bound.
import Ci.Proofs.Scoping.Walk
import Ci.Proofs.Work.Run

namespace Ci

open Pass

variable {p q : Program} {n : Nat} {s s1 s2 s' t t' : State} {e e' l : ExprId} {m m' : ExprNode}
  {k : ConstId} {acts acts' : List Act} {names : Bindings} {frames : Frames} {T : ScopeTable}
  {name : String} {symbol : Symbol} {ty : Ty} {es : List ExprId} {member : ExprId} {writable : Bool}

/-! ## Frames in a table -/

/-- From a scope outwards, the scopes of a table hold some frames, and one scope is not among
them. -/
inductive ScopeTable.Sees (T : ScopeTable) (i : ScopeId) : Option ScopeId → Frames → Prop
  | nil : Sees T i none []
  | cons {j : ScopeId} {c : Scope} {frames : Frames} (ne : j.slot ≠ i.slot)
      (found : T.scopes[j.slot]? = some c) (rest : Sees T i c.parent frames) :
      Sees T i (some j) (c.bindings :: frames)

namespace ScopeTable.Sees

variable {i : ScopeId} {o : Option ScopeId} {T' : ScopeTable}

/-- What a search finds is what the frames say. -/
theorem find? (h : T.Sees i o frames) {depth : Nat}
    (hs : T.search (fun _ => true) name depth o = .ok (some symbol)) :
    frames.find? name = some symbol := by
  induction h generalizing depth with
  | nil => cases depth <;> simp [search] at hs
  | @cons _ c _ _ found _ ih =>
    cases depth with
    | zero => simp [search] at hs
    | succ =>
      simp only [search, fetch_ok.2 found, bind, Except.bind, if_true] at hs
      simp only [Frames.find?, List.findSome?_cons]
      cases hc : c.bindings.lookup name with
      | some found =>
        rw [show c.find? name = some found from hc] at hs
        simpa [pure, Except.pure] using hs
      | none =>
        rw [show c.find? name = none from hc] at hs
        exact ih hs

/-- Other scopes do not matter. -/
theorem congr (h : T.Sees i o frames)
    (hT : ∀ j < T.scopes.size, j ≠ i.slot → T'.scopes[j]? = T.scopes[j]?) : T'.Sees i o frames := by
  induction h with
  | nil => exact .nil
  | cons ne found _ ih =>
    obtain ⟨hlt, -⟩ := Array.getElem?_eq_some_iff.1 found
    exact .cons ne ((hT _ hlt ne).trans found) ih

/-- A scope that is yet to come is not among them. -/
theorem apart (h : T.Sees i o frames) : T.Sees T.next o frames := by
  induction h with
  | nil => exact .nil
  | cons _ found _ ih =>
    obtain ⟨hlt, -⟩ := Array.getElem?_eq_some_iff.1 found
    exact .cons (Nat.ne_of_lt hlt) found ih

end ScopeTable.Sees

/-- The present scope holds a frame, and the scopes around it hold the others. -/
structure Looks (s : State) (names : Bindings) (frames : Frames) : Prop where
  here : ∃ c, s.table.scopes[s.table.current.slot]? = some c ∧ c.bindings = names ∧
    s.table.Sees s.table.current c.parent frames

namespace Looks

section

variable (h : Looks s names frames)

include h

theorem congr (ht : s'.table = s.table) : Looks s' names frames :=
  ⟨ht ▸ h.here⟩

theorem names_eq {names' : Bindings} {frames' : Frames}
    (h' : Looks s names' frames') : names = names' := by
  obtain ⟨c, hc, rfl, -⟩ := h.here
  obtain ⟨c', hc', rfl, -⟩ := h'.here
  cases hc.symm.trans hc'
  rfl

/-- From the present scope outwards, the scopes hold all the frames. -/
theorem sees : s.table.Sees s.table.next (some s.table.current) (names :: frames) := by
  obtain ⟨c, hc, rfl, hrest⟩ := h.here
  obtain ⟨hlt, -⟩ := Array.getElem?_eq_some_iff.1 hc
  exact .cons (Nat.ne_of_lt hlt) hc hrest.apart

/-- A name that is looked up is what the frames say. -/
theorem find? (hs : s.table.lookup s.table.current name = .ok (some symbol)) :
    Frames.find? (names :: frames) name = some symbol := h.sees.find? hs

/-- A new scope is an empty frame. -/
theorem deeper (kind : ScopeKind) : Looks (s.deeper kind) [] (names :: frames) := by
  refine ⟨⟨kind, some s.table.current, []⟩, by simp [State.deeper, ScopeTable.add,
    ScopeTable.enter, ScopeTable.next], rfl, h.sees.congr fun j hj _ => ?_⟩
  simp only [State.deeper, ScopeTable.enter, ScopeTable.add]
  rw [Array.getElem?_push_lt hj, Array.getElem?_eq_getElem hj]

/-- A name that is bound comes first in the frame of the present scope. -/
theorem define
    (hd : s.table.define? s.table.current name symbol = .ok (some T)) (ht : s'.table = T) :
    Looks s' ((name, symbol) :: names) frames := by
  obtain ⟨c, hc, rfl, hrest⟩ := h.here
  obtain ⟨c', hc', -, rfl⟩ := ScopeTable.define?_ok hd
  cases hc.symm.trans hc'
  refine ⟨{ c with bindings := (name, symbol) :: c.bindings }, ?_, rfl, ?_⟩
  · rw [ht]
    exact ScopeTable.getElem?_set_self hc
  · rw [ht]
    exact hrest.congr fun j _ hj => ScopeTable.getElem?_set_of_ne hj.symm

end

end Looks

/-! ## Names that are bound -/

/-- The classes and the enumerations are the same, and so are their scopes. Variables have the
names they had. -/
structure SameDecls (s s' : State) : Prop where
  classes : s'.program.classes = s.program.classes
  enums : s'.program.enums = s.program.enums
  vars : ∀ v, (s'.program.vars.get? v).map Var.name = (s.program.vars.get? v).map Var.name
  classScopes : s'.classScopes = s.classScopes
  enumScopes : s'.enumScopes = s.enumScopes

namespace SameDecls

theorem refl (s : State) : SameDecls s s := ⟨rfl, rfl, fun _ => rfl, rfl, rfl⟩

theorem trans (h : SameDecls s s1) (h' : SameDecls s1 s') : SameDecls s s' :=
  ⟨h'.classes.trans h.classes, h'.enums.trans h.enums, fun v => (h'.vars v).trans (h.vars v),
    h'.classScopes.trans h.classScopes, h'.enumScopes.trans h.enumScopes⟩

theorem setVar {v : VarId} {d d' : Var} (hd : s.program.vars.get? v = some d)
    (hn : d'.name = d.name) : SameDecls s (s.setVar v d') := by
  refine ⟨rfl, rfl, fun v' => ?_, rfl, rfl⟩
  by_cases hv : v = v'
  · subst hv
    have hset : (s.setVar v d').program.vars.get? v = some d' := Arena.get?_set_self hd
    rw [hset, hd, Option.map_some, Option.map_some, hn]
  · exact congrArg (Option.map Var.name) (Arena.get?_set_of_ne hv)

theorem of_moves {D : Set Node} (h : Moves D s s') : SameDecls s s' := by
  refine ⟨h.program.classes, h.program.enums, fun v => ?_, h.place.classScopes, h.place.enumScopes⟩
  rcases Nat.lt_or_ge v.slot s.program.vars.size with hlt | hge
  · obtain ⟨d, hd⟩ := Arena.exists_get? hlt
    obtain ⟨d', hd', hstep⟩ := h.program.vars.part v d hd
    have hname : d'.name = d.name := by simpa [Var.outline] using congrArg Var.name hstep.outline
    rw [hd, hd', Option.map_some, Option.map_some, hname]
  · rw [Arena.get?_eq_none hge, Arena.get?_eq_none (h.program.vars_size.trans_le hge)]

end SameDecls

/-- What has been bound is still bound, and no more constants wait. -/
structure Recalls (p : Program) (s s' : State) : Prop extends SameDecls s s' where
  stands : ∀ e text symbol, s.program.Stands e text symbol → s'.program.Stands e text symbol
  waiting : p.waiting s'.program ⊆ p.waiting s.program

/-- The scopes are left alone too. -/
structure Quiet (p : Program) (s s' : State) : Prop extends Recalls p s s' where
  table : s'.table = s.table

namespace Recalls

theorem refl (s : State) : Recalls p s s := ⟨.refl s, fun _ _ _ h => h, subset_rfl⟩

theorem trans (h : Recalls p s s1) (h' : Recalls p s1 s') : Recalls p s s' :=
  ⟨h.toSameDecls.trans h'.toSameDecls, fun _ _ _ hs => h'.stands _ _ _ (h.stands _ _ _ hs),
    h'.waiting.trans h.waiting⟩

theorem bound (h : Recalls p s s') {u : Mention} (hu : u.BoundIn s.program) :
    u.BoundIn s'.program := by
  obtain ⟨text, symbol, hs, hf⟩ := hu
  exact ⟨text, symbol, h.stands _ _ _ hs, hf⟩

theorem idle (h : Recalls p s s') (hw : p.waiting s.program = ∅) : p.waiting s'.program = ∅ :=
  Set.subset_empty_iff.1 (hw ▸ h.waiting)

/-- What no work has come to has not been bound, so work there leaves what has been bound. -/
theorem of_moves {x : Node} (hf : Fresh p) (hfit : Fit p s x) (hw : p.waiting s.program = ∅)
    (hm : Moves (p.work s.program x) s s') : Recalls p s s' := by
  refine ⟨.of_moves hm, fun e text symbol hs => ?_, Program.waiting_subset hm.program⟩
  obtain ⟨n, hn, hk⟩ := hs
  have hout : .expr e ∉ p.work s.program x := by
    rw [Program.work, hw, Set.union_empty]
    intro he
    rcases hfit.ready.expr_cases (hfit.same _ he) hn with hp | ⟨v, line, hv⟩
    · exact absurd (hf.name hp hk) (by simp)
    · cases hn.some_unique hv
      simp at hk
  exact ⟨n, hm.program.same hout _ hn, hk⟩

end Recalls

namespace Quiet

theorem refl (s : State) : Quiet p s s := ⟨.refl s, rfl⟩

theorem trans (h : Quiet p s s1) (h' : Quiet p s1 s') : Quiet p s s' :=
  ⟨h.toRecalls.trans h'.toRecalls, h'.table.trans h.table⟩

/-- An expression is put back that is no name, or stands for what it stood for. -/
theorem put (hm : s.program.exprs.get? e = some m)
    (hk : ∀ text symbol, m.kind = .name text (some symbol) → m'.kind = m.kind) :
    Quiet p s (s.put e m') := by
  refine ⟨⟨⟨rfl, rfl, fun _ => rfl, rfl, rfl⟩, fun e1 text symbol hs => ?_, subset_rfl⟩, rfl⟩
  obtain ⟨n, hn, hkind⟩ := hs
  by_cases he : e = e1
  · subst he
    cases hm.some_unique hn
    exact ⟨m', get?_put_self hm, (hk _ _ hkind).trans hkind⟩
  · exact ⟨n, (get?_put_of_ne he).trans hn, hkind⟩

/-- What has been there from the start has not been bound. -/
theorem put_fresh (hf : Fresh p) (node : p.exprs.get? e = some m)
    (still : s.program.exprs.get? e = some m) : Quiet p s (s.put e m') :=
  .put still fun _ _ hk => absurd (hf.name node hk) (by simp)

theorem put_ty (hm : s.program.exprs.get? e = some m) :
    Quiet p s (s.put e { m with ty := some ty }) := .put hm fun _ _ _ => rfl

theorem grow {line : UInt32} {v : Literal} : Quiet p s (s.grow line v) := by
  refine ⟨⟨⟨rfl, rfl, fun _ => rfl, rfl, rfl⟩, fun e text symbol hs => ?_, subset_rfl⟩, rfl⟩
  obtain ⟨n, hn, hk⟩ := hs
  exact ⟨n, Arena.get?_push_of_some hn, hk⟩

theorem ending {V : Program → Prop} {parts : List ExprId} {f : Pass ExprId}
    (h : Ending V e parts s f e' s') : Quiet p s s' := by
  cases h with
  | typed _ _ found => exact .put_ty found
  | folded => exact .grow
  | part => exact .refl s

theorem typeAll : Quiet p s (s.typeAll ty es) := by
  induction es generalizing s with
  | nil => exact .refl s
  | cons e _ ih =>
    rw [State.typeAll]
    cases hm : s.program.exprs.get? e with
    | none => exact ih
    | some => exact (put_ty hm).trans ih

/-- Where no constant waits, the visit of a constant that has a name does nothing. -/
theorem of_ranConst (hw : p.waiting s.program = ∅) (h : RanConst p n s k s') : Quiet p s s' := by
  have hm := h.moves
  rw [hw] at hm
  refine ⟨⟨.of_moves hm, fun e text symbol hs => ?_, Program.waiting_subset hm.program⟩,
    hm.names (by simp [Binds])⟩
  obtain ⟨n, hn, hk⟩ := hs
  exact ⟨n, hm.program.same (x := .expr e) (by simp) _ hn, hk⟩

end Quiet

/-! ## Traces -/

/-- What is done between two states follows some acts. Names are bound in the present scope alone,
and each name that is used has been bound to what the frames say. -/
structure Traces (p : Program) (s : State) (acts : List Act) (s' : State) : Prop
    extends Recalls p s s' where
  current : s'.table.current = s.table.current
  size_le : s.table.scopes.size ≤ s'.table.scopes.size
  kept : ∀ j < s.table.scopes.size, j ≠ s.table.current.slot →
    s'.table.scopes[j]? = s.table.scopes[j]?
  walks : ∀ names frames, Looks s names frames → ∃ uses names',
    p.Walk (names :: frames) acts uses (names' :: frames) ∧ Looks s' names' frames ∧
      ∀ u ∈ uses, u.BoundIn s'.program

namespace Traces

theorem nil (h : Quiet p s s') : Traces p s [] s' where
  toRecalls := h.toRecalls
  current := by rw [h.table]
  size_le := by rw [h.table]
  kept _ _ _ := by rw [h.table]
  walks names _ hl := ⟨[], names, .nil, hl.congr h.table, by simp⟩

theorem append (h : Traces p s acts s1) (h' : Traces p s1 acts' s') :
    Traces p s (acts ++ acts') s' where
  toRecalls := h.toRecalls.trans h'.toRecalls
  current := h'.current.trans h.current
  size_le := h.size_le.trans h'.size_le
  kept j hj hne :=
    (h'.kept j (hj.trans_le h.size_le) (by rwa [h.current])).trans (h.kept j hj hne)
  walks names frames hl := by
    obtain ⟨uses1, names1, hwalk1, hl1, hu1⟩ := h.walks names frames hl
    obtain ⟨uses2, names2, hwalk2, hl2, hu2⟩ := h'.walks names1 frames hl1
    refine ⟨uses1 ++ uses2, names2, hwalk1.append hwalk2, hl2, fun u hu => ?_⟩
    rcases List.mem_append.1 hu with hu | hu
    · exact h'.bound (hu1 u hu)
    · exact hu2 u hu

theorem after (h : Traces p s acts s1) (hq : Quiet p s1 s') : Traces p s acts s' := by
  simpa using h.append (.nil hq)

theorem before (hq : Quiet p s s1) (h : Traces p s1 acts s') : Traces p s acts s' :=
  (Traces.nil hq).append h

theorem visit {x : Place} (h : Traces p s (p.acts x) s') : Traces p s [.visit x] s' where
  toRecalls := h.toRecalls
  current := h.current
  size_le := h.size_le
  kept := h.kept
  walks names frames hl := by
    obtain ⟨uses, names', hwalk, hrest⟩ := h.walks names frames hl
    exact ⟨uses, names', .visit (by simpa using hwalk), hrest⟩

/-- A name is bound in the present scope. -/
theorem bind (h : Traces p s acts s1)
    (hd : s1.table.define? s1.table.current name symbol = .ok (some T)) (ht : s'.table = T)
    (hr : Recalls p s1 s') : Traces p s (acts ++ [.bind name symbol]) s' := by
  refine h.append ⟨hr, ?_, ?_, ?_, fun names frames hl =>
    ⟨[], (name, symbol) :: names, .bind .nil, hl.define hd ht, by simp⟩⟩ <;>
    obtain ⟨c, -, -, rfl⟩ := ScopeTable.define?_ok hd
  · rw [ht]; rfl
  · rw [ht]; simp [ScopeTable.set]
  · intro j _ hne
    rw [ht, ScopeTable.getElem?_set_of_ne hne.symm]

/-- Acts in a scope of their own. -/
theorem framed {kind : ScopeKind} (h : Traces p (s.deeper kind) acts t) :
    Traces p s (Act.framed acts) (t.backTo s) := by
  have hsize : (s.deeper kind).table.scopes.size = s.table.scopes.size + 1 := by
    simp [State.deeper, ScopeTable.add, ScopeTable.enter]
  have hkept : ∀ j < s.table.scopes.size,
      (t.backTo s).table.scopes[j]? = s.table.scopes[j]? := by
    intro j hj
    have hj' : t.table.scopes[j]? = (s.deeper kind).table.scopes[j]? :=
      h.kept j (by omega) (Nat.ne_of_lt hj)
    refine hj'.trans ?_
    simp only [State.deeper, ScopeTable.enter, ScopeTable.add]
    rw [Array.getElem?_push_lt hj, Array.getElem?_eq_getElem hj]
  refine ⟨⟨⟨h.classes, h.enums, h.vars, h.classScopes, h.enumScopes⟩, h.stands, h.waiting⟩, rfl, ?_,
    fun j hj _ => hkept j hj, fun names frames hl => ?_⟩
  · have := h.size_le
    rw [hsize] at this
    exact Nat.le_of_succ_le this
  · obtain ⟨uses, names', hwalk, -, hu⟩ := h.walks [] (names :: frames) (hl.deeper kind)
    refine ⟨uses, names, hwalk.framed, ?_, hu⟩
    -- The scopes that were there before are as they were, so the frames are too.
    obtain ⟨c, hc, hnames, hrest⟩ := hl.here
    obtain ⟨hlt, -⟩ := Array.getElem?_eq_some_iff.1 hc
    exact ⟨c, (hkept _ hlt).trans hc, hnames, hrest.congr fun j hj _ => hkept j hj⟩

/-- A name that is looked up from here is bound to what it is found to stand for. -/
theorem use {text : String}
    (finds : s.table.lookup s.table.current text = .ok (some symbol)) (hq : Quiet p s s')
    (hs : s'.program.Stands e text symbol) : Traces p s [.use e] s' where
  toRecalls := hq.toRecalls
  current := by rw [hq.table]
  size_le := by rw [hq.table]
  kept _ _ _ := by rw [hq.table]
  walks names frames hl := by
    refine ⟨[⟨e, names :: frames⟩], names, .use .nil, hl.congr hq.table, fun u hu => ?_⟩
    rw [List.mem_singleton] at hu
    subst hu
    exact ⟨text, symbol, hs, hl.find? finds⟩

end Traces

/-! ## Names -/

section

variable {look : Resolve.Look} {scope : ScopeId} {text : String}

theorem Quiet.of_reached (hw : p.waiting s.program = ∅) (h : Reached p n s symbol s') :
    Quiet p s s' := by
  cases h with
  | const run => exact .of_ranConst hw run
  | other => exact .refl s

theorem Named.quiet (h : Named p n s look scope e m text e' s') (hw : p.waiting s.program = ∅)
    (hm : s.program.exprs.get? e = some m) (hk : m.kind = .name text none) : Quiet p s s' := by
  have hbind : ∀ symbol, Quiet p s (s.put e { m with kind := .name text (some symbol) }) :=
    fun _ => .put hm (by simp [hk])
  cases h with
  | kept _ reached still =>
    exact ((hbind _).trans (.of_reached hw reached)).trans (.put still fun _ _ _ => rfl)
  | inlined _ run =>
    exact ((hbind _).trans (.of_ranConst hw run)).trans .grow

/-- A name that has been resolved stands for what it was found to be. -/
theorem Named.stands (h : Named p n s look scope e m text e' s') :
    ∃ symbol, look s.table scope text = .ok (some symbol) ∧ s'.program.Stands e text symbol := by
  cases h with
  | kept finds _ still => exact ⟨_, finds, _, get?_put_self still, rfl⟩
  | inlined finds _ still =>
    exact ⟨_, finds, _, Arena.get?_push_of_some still, rfl⟩

theorem Accessed.quiet {r : ExprId} (h : Accessed e m member s r e' s') : Quiet p s s' := by
  cases h with
  | kept _ still => exact .put still fun _ _ _ => rfl
  | folded => exact .refl s

theorem OfValue.quiet {left : ExprId} {mm : ExprNode}
    (h : OfValue p n e m left member mm text s ty e' s') (hw : p.waiting s.program = ∅)
    (hm : s.program.exprs.get? e = some m) (hmm : s.program.exprs.get? member = some mm)
    (hmk : mm.kind = .name text none) (hne : member ≠ e) : Quiet p s s' := by
  cases h with
  | literalLength => exact .grow
  | stringLength =>
    exact (Quiet.put hmm (by simp [hmk])).trans (.put_ty ((get?_put_of_ne hne).trans hm))
  | arrayLength => exact .grow
  | ofClass _ _ named accessed => exact (named.quiet hw hmm hmk).trans accessed.quiet

end

/-! ## Acts of expressions -/

theorem Program.valueActs_before {op : PrefixOp} {inner : ExprId} (h : op ≠ .new) :
    p.valueActs e (.before op inner) = Act.values [inner] := by
  cases op <;> first | rfl | exact absurd rfl h

theorem Program.valueActs_binary {op : BinaryOp} {left : ExprId} {right : Operand} (h : op ≠ .dot) :
    p.valueActs e (.binary op left right) = Act.values (left :: right.exprs) := by
  cases op <;> first | rfl | exact absurd rfl h

theorem Program.acts_value (h : p.exprs.get? e = some m) :
    p.acts (.value e) = p.valueActs e m.kind := by simp [Program.acts, h]

theorem Program.acts_type (h : p.exprs.get? e = some m) :
    p.acts (.type e) = m.kind.typeActs := by simp [Program.acts, h]

theorem Marked.node {base : ExprId} (h : Marked p s e base writable)
    (hb : ∃ m, p.exprs.get? base = some m) : ∃ m, p.exprs.get? e = some m := by
  cases h with
  | bang node => exact ⟨_, node⟩
  | none => exact hb

/-- What has been read as a type was there at the start. -/
theorem RanType.node (hp : p.TreeShaped) (hf : Fresh p) (h : RanType p n s e ty s') :
    ∃ m, p.exprs.get? e = some m := by
  cases n with
  | zero => exact absurd h not_ranType_zero
  | succ =>
    cases h.step hp hf with
    | mk spelled plain =>
      cases spelled with
      | base mark => exact mark.node plain.node
      | pointer mark node => exact mark.node ⟨_, node⟩
      | storage mark node => exact mark.node ⟨_, node⟩

/-- The rules that are called follow the walk. -/
abbrev Traced (p : Program) (n : Nat) : Prop :=
  Each p (fun _ s e _ s' => p.waiting s.program = ∅ → Traces p s [.visit (.value e)] s')
    (fun _ s e _ s' => p.waiting s.program = ∅ → Traces p s [.visit (.type e)] s')
    (fun _ _ _ _ => True) n

theorem RanList.traces {ι : Type} {depth : State → Nat} {exprOf : ι → ExprId}
    {C : ι → ExprId → State → Prop} {xs : List ι}
    (hE : ∀ {s i e' s'}, Ran p (depth s) s (exprOf i) e' s' → p.waiting s.program = ∅ →
      Traces p s [.visit (.value (exprOf i))] s')
    (h : RanList p depth exprOf C s xs es s') (hw : p.waiting s.program = ∅) :
    Traces p s (Act.values (xs.map exprOf)) s' := by
  induction h with
  | nil => exact .nil (.refl _)
  | cons first _ _ ih =>
    have hfirst := hE first hw
    exact hfirst.append (ih (hfirst.idle hw))

section

variable (hp : p.TreeShaped) (hf : Fresh p) (each : Traced p n) (hw : p.waiting s.program = ∅)

include each hw in
theorem Started.traces {t : Ty} {value value' : Option ExprId}
    (h : Started p n t s value value' s') : Traces p s (Act.values value.toList) s' := by
  cases h with
  | none => exact .nil (.refl s)
  | some run => exact each.expr run hw

include hp hf each hw

theorem Step.traces (hfit : Fit p s (.expr e)) (h : Step p n s e e' s') :
    Traces p s [.visit (.value e)] s' := by
  refine .visit ?_
  cases h with
  | @literal _ _ node kind =>
    have hacts : p.acts (.value e) = [] := by
      cases hm : p.exprs.get? e with
      | none => simp [Program.acts, hm]
      | some =>
        cases (hfit.node hm).some_unique node
        rw [Program.acts_value hm, kind, Program.valueActs]
    rw [hacts]
    exact .nil (.put_ty node)
  | name node kind named =>
    rw [Program.acts_value node, kind, Program.valueActs]
    obtain ⟨symbol, finds, hs⟩ := named.stands
    exact .use finds (named.quiet hw (hfit.node node) kind) hs
  | @before _ op _ _ _ _ _ node kind operand still ends =>
    have hop : op ≠ .new := by
      rintro rfl
      exact failAt_ne_ok ends
    rw [Program.acts_value node, kind, Program.valueActs_before hop]
    exact ((each.expr operand hw).after (.put_fresh hf node still)).after
      (.ending (Resolve.settles_beforeEnd _ _ ends))
  | @newArray _ _ inner left length _ _ _ _ _ node kind inode ikind element count still istill =>
    have hne : inner ≠ e := hfit.ne_part node (by simp [kind])
    have hacts : p.acts (.value e) = Act.types [left] ++ Act.values [length] := by
      rw [Program.acts_value node, kind, Program.valueActs, inode]
      simp [Expr.allocated, ikind]
    have helement := each.type element hw
    rw [hacts]
    exact ((helement.append (each.expr count (helement.idle hw))).after
      (.put_fresh hf inode istill)).after (.put_fresh hf node ((get?_put_of_ne hne).trans still))
  | @newObject m mi inner c s1 node kind inode ikind object still =>
    obtain ⟨mi, hmi⟩ := object.node hp hf
    have hacts : p.acts (.value e) = Act.types [inner] := by
      rw [Program.acts_value node, kind, Program.valueActs, hmi]
      cases (hfit.node_child node (by simp [kind]) hmi).some_unique inode
      simp only [Option.elim_some]
      unfold Expr.allocated
      split
      · rename_i left length hk
        exact absurd hk (ikind left length)
      · rfl
    rw [hacts]
    exact (each.type object hw).after (.put_fresh hf node still)
  | after node kind _ operand still ends =>
    rw [Program.acts_value node, kind, Program.valueActs]
    exact ((each.expr operand hw).after (.put_fresh hf node still)).after
      (.ending (Resolve.settles_afterEnd _ _ ends))
  | @ownerMember _ _ ml left member _ _ _ owner found _ ty _ _ node kind mnode mkind lnode lkind
      finds _ named accessed =>
    have hl := hfit.node_child node (by simp [kind]) lnode
    have hm := hfit.node_child node (by simp [kind]) mnode
    have hne : left ≠ member := by
      have := hp.children_nodup node
      simpa [kind] using this
    have hleft : Traces p s [.visit (.value left)]
        (s.put left { ml with kind := .name owner (some found), ty := some ty }) := by
      refine .visit ?_
      rw [Program.acts_value lnode, lkind, Program.valueActs]
      exact .use finds (.put_fresh hf lnode hl) ⟨_, get?_put_self hl, rfl⟩
    rw [Program.acts_value node, kind, Program.valueActs]
    exact (hleft.after (named.quiet hw ((get?_put_of_ne hne).trans hm) mkind)).after accessed.quiet
  | @valueMember _ _ _ _ member _ _ _ _ _ node kind _ mkind value still mstill _ ofValue =>
    have hne : member ≠ e := hfit.ne_part node (by simp [kind])
    have hvalue := each.expr value hw
    have hmember := ofValue.quiet (hvalue.idle hw) (get?_put_self still)
      ((get?_put_of_ne hne.symm).trans mstill) mkind hne
    rw [Program.acts_value node, kind, Program.valueActs]
    exact (hvalue.after (.put_fresh hf node still)).after hmember
  | @call _ _ _ _ _ _ _ _ _ node kind function _ _ count arguments still =>
    have hfunction := each.expr function hw
    have harguments := arguments.traces (fun run hw => each.expr run hw) (hfunction.idle hw)
    rw [List.map_fst_zip (by rw [count])] at harguments
    rw [Program.acts_value node, kind, Program.valueActs_binary (by simp)]
    exact (hfunction.append harguments).after (.put_fresh hf node still)
  | @binary _ _ _ _ _ _ _ _ _ _ node kind notDot _ first second still ends =>
    have hfirst := each.expr first hw
    rw [Program.acts_value node, kind, Program.valueActs_binary notDot]
    exact ((hfirst.append (each.expr second (hfirst.idle hw))).after
      (.put_fresh hf node still)).after (.ending (Settles.operation _ _ ends))
  | conditional node kind condition _ first second still ends =>
    have hcond := each.expr condition hw
    have hfirst := hcond.append (each.expr first (hcond.idle hw))
    have hsecond := hfirst.append (each.expr second (hfirst.idle hw))
    rw [Program.acts_value node, kind, Program.valueActs]
    exact (hsecond.after (.put_fresh hf node still)).after (.ending (Settles.choice _ _ ends))
  | @collection _ _ _ _ _ _ _ node kind list _ _ _ still =>
    have hitems := list.traces (fun run hw => each.expr run hw) hw
    rw [List.map_id] at hitems
    rw [Program.acts_value node, kind, Program.valueActs]
    exact hitems.after (.put_fresh hf node still)
  | @var m v d t value' table _ s2 node kind vnode type started still vstill binds =>
    have htype := each.type type hw
    have hstarted := htype.append (started.traces each (htype.idle hw))
    have hset : Quiet p { s2.setVar v { d with value := value', ty := some t } with table := table }
        ({ s2.setVar v { d with value := value', ty := some t } with table := table }.put e
          { m with ty := some t }) := .put_fresh hf node still
    have hacts : p.acts (.value e) = Var.acts v d := by
      rw [Program.acts_value node, kind, Program.valueActs, vnode]
      rfl
    rw [hacts]
    have hvar : SameDecls s2 (s2.setVar v { d with value := value', ty := some t }) :=
      .setVar vstill rfl
    exact hstarted.bind binds rfl ⟨⟨rfl, rfl, hvar.vars, rfl, rfl⟩, hset.stands, hset.waiting⟩

omit hp in
theorem Plain.traces (hfit : Fit p s (.expr e))
    (h : Plain p n s e writable ty s') : Traces p s (p.acts (.type e)) s' := by
  cases h with
  | name node kind =>
    rw [Program.acts_type node, kind]
    exact .nil (.put_fresh hf node (hfit.node node))
  | string node kind lnode =>
    rw [Program.acts_type node, kind]
    exact .nil (.put_fresh hf lnode (hfit.node_child node (by simp [kind]) lnode))
  | storage node kind lnode =>
    rw [Program.acts_type node, kind]
    exact .nil (.put_fresh hf lnode (hfit.node_child node (by simp [kind]) lnode))
  | range node kind _ first second _ still =>
    have hfirst := each.expr first.toRan hw
    rw [Program.acts_type node, kind, Expr.typeActs]
    exact (hfirst.append (each.expr second.toRan (hfirst.idle hw))).after (.put_fresh hf node still)
  | rangeFromZero node kind _ operand _ still =>
    rw [Program.acts_type node, kind, Expr.typeActs]
    exact (each.expr operand.toRan hw).after (.put_fresh hf node still)

omit hp hf each hw in
theorem Marked.traces {base : ExprId} (h : Marked p s e base writable)
    (hb : Traces p s (p.acts (.type base)) s') : Traces p s [.visit (.type e)] s' := by
  cases h with
  | bang node kind =>
    refine .visit ?_
    rw [Program.acts_type node, kind, Expr.typeActs]
    exact .visit hb
  | none => exact .visit hb

omit hp in
/-- The brackets come first, and then what stands before them. -/
theorem Spelled.traces {a : Resolve.Spelling} (h : Spelled p n s e a s1)
    (hb : Traces p s1 (p.acts (.type a.base)) s') : Traces p s [.visit (.type e)] s' := by
  induction h with
  | base mark => exact mark.traces hb
  | pointer mark node kind _ ih =>
    refine mark.traces ?_
    rw [Program.acts_type node, kind, Expr.typeActs]
    exact ih hw hb
  | storage mark node kind count _ _ still _ ih =>
    have hcount := each.expr count.toRan hw
    refine mark.traces ?_
    rw [Program.acts_type node, kind, Expr.typeActs]
    exact hcount.append (.before (.put_fresh hf node still) (ih (hcount.idle hw) hb))

theorem StepType.traces (hfit : Fit p s (.expr e)) (h : StepType p n s e ty s') :
    Traces p s [.visit (.type e)] s' := by
  cases h with
  | mk spelled plain _ still =>
    have hidle := Set.subset_empty_iff.1 (hw ▸ spelled.waiting_subset)
    have hplain := plain.traces hf each hidle (spelled.fit hp hfit)
    exact spelled.traces hf each hw ((hplain.after (.put_ty still)).after .typeAll)

end

/-- All rules follow the walk. -/
theorem traced (hp : p.TreeShaped) (hf : Fresh p) (n : Nat) : Traced p n := by
  refine .all hp hf ?_ ?_ (fun _ _ {_ _ _} _ _ => trivial) n
  · intro n each s e e' s' hfit h hw
    exact h.traces hp hf each hw hfit
  · intro n each s e ty s' hfit h hw
    exact h.traces hp hf each hw hfit

end Ci
