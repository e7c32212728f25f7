-- Where the parts of a resolved program come from. A slot that held an expression
-- holds that expression, a part of it, or a literal that took the place of one of
-- these. For each literal that is added it is kept in mind what it took the place
-- of, and so every handle leads back to the program at the start. The types that
-- are recorded on the way have their intervals in a family that arithmetic does not
-- leave, and what is found wrong is found where it is declared.
import Ci.Proofs.Discipline.Rules
import Ci.Proofs.Pass.Abiding

namespace Ci

open Pass Arena

variable {ys : List Node} {symbol : Symbol}

/-! ## Descent -/

/-- One expression holds another, or a literal has taken its place. -/
inductive Spawns (p : Program) (w : List ExprId) (a b : ExprId) : Prop
  | part (h : .expr b ∈ p.parts (.expr a))
  | literal (i : Nat) (ha : w[i]? = some a) (hb : b.slot = p.exprs.size + i)

/-- What an expression comes to, step by step. -/
abbrev Under (p : Program) (w : List ExprId) : ExprId → ExprId → Prop :=
  Relation.ReflTransGen (Spawns p w)

/-- One node holds another, or a literal has taken its place. -/
inductive Leads (p : Program) (w : List ExprId) : Node → Node → Prop
  | part {x y : Node} (h : y ∈ p.parts x) : Leads p w x y
  | literal {a b : ExprId} (i : Nat) (ha : w[i]? = some a) (hb : b.slot = p.exprs.size + i) :
      Leads p w (.expr a) (.expr b)

/-- What a node comes to, step by step. -/
abbrev ComesTo (p : Program) (w : List ExprId) :
    Node → Node → Prop := Relation.ReflTransGen (Leads p w)

variable {p : Program} {w w' : List ExprId} {a b : ExprId}

theorem Spawns.leads (h : Spawns p w a b) : Leads p w (.expr a) (.expr b) := by
  cases h with
  | part h => exact .part h
  | literal i ha hb => exact .literal i ha hb

theorem getElem?_of_longer {i : Nat} (hw : w <+: w') (ha : w[i]? = some a) : w'[i]? = some a := by
  obtain ⟨more, rfl⟩ := hw
  obtain ⟨hi, -⟩ := List.getElem?_eq_some_iff.1 ha
  exact (List.getElem?_append_left hi).trans ha

theorem Under.mono (hw : w <+: w') (h : Under p w a b) : Under p w' a b := by
  refine Relation.ReflTransGen.mono (fun _ _ hs => ?_) a b h
  cases hs with
  | part h => exact .part h
  | literal i ha hb => exact .literal i (getElem?_of_longer hw ha) hb

theorem ComesTo.mono {x y : Node} (hw : w <+: w') (h : ComesTo p w x y) : ComesTo p w' x y := by
  refine Relation.ReflTransGen.mono (fun _ _ hs => ?_) x y h
  cases hs with
  | part h => exact .part h
  | literal i ha hb => exact .literal i (getElem?_of_longer hw ha) hb

theorem Under.comesTo (h : Under p w a b) : ComesTo p w (.expr a) (.expr b) :=
  Relation.ReflTransGen.lift Node.expr (fun _ _ => Spawns.leads) _ _ h

theorem Slots.trans {xs zs : List Node} (h : Slots (Under p w) xs ys)
    (h' : Slots (Under p w) ys zs) :
    Slots (Under p w) xs zs := by
  induction h generalizing zs with
  | nil => exact h'
  | cons hxy _ ih =>
    cases h' with
    | cons hyz h' =>
      refine .cons ?_ (ih h')
      cases hxy with
      | same => exact hyz
      | expr h =>
        cases hyz with
        | same => exact .expr h
        | expr h' => exact .expr (h.trans h')

/-- What a node holds is below it. -/
theorem Slots.comesTo {x y : Node} (h : Slots (Under p w) (p.parts x) ys) (hy : y ∈ ys) :
    ComesTo p w x y := by
  obtain ⟨z, hz, hzy⟩ := exists_of_forall₂ h hy
  cases hzy with
  | same => exact .single (.part hz)
  | expr h => exact .head (.part hz) h.comesTo

/-- What an expression holds is under it. -/
theorem Slots.under (h : Slots (Under p w) (p.parts (.expr a)) ys) (hb : .expr b ∈ ys) :
    Under p w a b := by
  obtain ⟨x, hx, hxb⟩ := exists_of_forall₂ h hb
  cases hxb with
  | same => exact .single (.part hx)
  | expr h => exact .head (.part hx) h

/-! ## Places -/

/-- The lines of what was there at the start, and those of literals, which are copies. -/
structure Copies (p : Program) (w : List ExprId) (lines : Node → List UInt32) : Prop where
  same : ∀ x, (∀ e, x = .expr e → e.slot < p.exprs.size) → lines x = p.lines x
  literal : ∀ i a b, w[i]? = some a → b.slot = p.exprs.size + i →
    a.slot < b.slot ∧ lines (.expr b) = lines (.expr a)

/-- One statement stands inside another, with the loops and choices around each of them. -/
def Program.Inside (p : Program) : List Breakable × StmtId → List Breakable × StmtId → Prop :=
  Relation.ReflTransGen fun a b => ∃ n, p.stmts.get? a.2 = some n ∧ b ∈ n.kind.inner a.1

/-- Every jump in the statement has something to leave or to repeat. -/
def Program.JumpsLand (p : Program) (around : List Breakable) (x : StmtId) : Prop :=
  ∀ b n, p.Inside (around, x) b → p.stmts.get? b.2 = some n → n.kind.Lands b.1

theorem Program.JumpsLand.intro {around : List Breakable} {x : StmtId} {n : StmtNode}
    (hn : p.stmts.get? x = some n) (h : n.kind.Lands around)
    (hin : ∀ b ∈ n.kind.inner around, p.JumpsLand b.1 b.2) : p.JumpsLand around x := by
  intro b m hb hm
  rcases Relation.ReflTransGen.cases_head hb with rfl | ⟨a, ⟨n', hn', ha⟩, hab⟩
  · exact hn.some_unique hm ▸ h
  · obtain rfl := hn.some_unique hn'
    exact hin a ha b m hab hm

/-- What belongs to each file, and what stands in which loops and choices. -/
structure Locale (p : Program) where
  /-- What is visited from the file, and all that is below it. -/
  Here : FileId → Node → Prop
  /-- The constant may be named wherever a name is. -/
  Free : ConstId → Prop
  /-- The line belongs to the file. -/
  Lines : FileId → UInt32 → Prop
  /-- The statement is visited inside some loops and choices. -/
  Occurs : List Breakable → StmtId → Prop
  home : ∀ {k d π π'}, p.consts.get? k = some d → d.owner ≠ .body → p.Homes π d.owner π' →
    Here π'.file (.const k)
  free : ∀ {k d f}, Free k → p.consts.get? k = some d → d.owner = .body → Here f (.const k)
  line : ∀ {w lines f x y l}, Copies p w lines → Here f y → ComesTo p w y x →
    l ∈ lines x → Lines f l
  inner : ∀ {around x n b}, Occurs around x → p.stmts.get? x = some n → b ∈ n.kind.inner around →
    Occurs b.1 b.2

/-- The locale in which all files are one and all statements may be visited. -/
def Locale.everywhere (p : Program) : Locale p :=
  ⟨fun _ _ => True, fun _ => True, fun _ _ => True, fun _ _ => True, fun _ _ _ => trivial,
    fun _ _ _ => trivial, fun _ _ _ _ => trivial, fun _ _ _ => trivial⟩

/-! ## Programs that have grown -/

/-- What each literal that was added took the place of, and which constants have been resolved. -/
structure Growth where
  added : List ExprId
  done : Set ConstId

instance : Preorder Growth where
  le v w := v.added <+: w.added ∧ v.done ⊆ w.done
  le_refl w := ⟨List.prefix_rfl, subset_rfl⟩
  le_trans _ _ _ h h' := ⟨h.1.trans h'.1, h.2.trans h'.2⟩

/-- A name may stand for the symbol. -/
def Locale.Means (Λ : Locale p) (G : Interval → Prop) (w : Growth) : Symbol → Prop
  | .type t => t.Within G
  | .const k => Λ.Free k ∨ k ∈ w.done
  | _ => True

/-- The state has come from a program. -/
structure Grown (Λ : Locale p) (G : Interval → Prop) (w : Growth) (s : State) : Prop where
  size : s.program.exprs.size = p.exprs.size + w.added.length
  slots : ∀ x, Slots (Under p w.added) (p.parts x) (s.program.parts x)
  consts : ∀ k d, s.program.consts.get? k = some d →
    ∃ d0, p.consts.get? k = some d0 ∧ d.typeExpr = d0.typeExpr ∧ d.owner = d0.owner
  done : ∀ k ∈ w.done, ∀ d, s.program.consts.get? k = some d → d.status = .resolved
  types : s.program.Within G
  named : ∀ n ∈ s.program.exprs.toList, ∀ text k, n.kind = .name text (some (.const k)) →
    Λ.Free k ∨ k ∈ w.done
  bound : ∀ (i : Nat) c name symbol, s.table.scopes[i]? = some c → (name, symbol) ∈ c.bindings →
    Λ.Means G w symbol
  lines : Copies p w.added s.program.lines
  stmts : ∀ x n, s.program.stmts.get? x = some n →
    ∃ n0, p.stmts.get? x = some n0 ∧ n.kind.outline = n0.kind.outline
  classes : ∀ c d, s.program.classes.get? c = some d →
    ∃ d0, p.classes.get? c = some d0 ∧ d.outline = d0.outline
  files : s.program.files = p.files
  globals : s.program.globals = p.globals
  enums : s.program.enums = p.enums

variable {Λ : Locale p} {G : Interval → Prop} {v v' : Growth} {s : State} {e : ExprId} {k : ConstId}
  {d d' : Const}

theorem Locale.Means.mono (hv : v ≤ v') (h : Λ.Means G v symbol) : Λ.Means G v' symbol := by
  cases symbol with
  | const => exact h.imp_right fun hk => hv.2 hk
  | _ => exact h

namespace Grown

/-! ### Places and names -/

section

variable (h : Grown Λ G v s)

include h

theorem place {s' : State} (hp : s'.program = s.program)
    (ht : s'.table.scopes = s.table.scopes) : Grown Λ G v s' := by
  obtain ⟨_, ⟨_, _⟩⟩ := s
  obtain ⟨_, ⟨_, _⟩⟩ := s'
  cases hp
  cases ht
  exact { h with }

theorem addScope {kind : ScopeKind} {parent : ScopeId} :
    Grown Λ G v { s with table := s.table.add kind parent } :=
  { h with
    bound := fun i c name symbol hc hb => by
      simp only [ScopeTable.add, Array.getElem?_push] at hc
      split at hc
      · cases hc
        simp at hb
      · exact h.bound i c name symbol hc hb }

theorem setScope {i : ScopeId} {c c' : Scope} (hc : s.table.scopes[i.slot]? = some c)
    (hb : ∀ b ∈ c'.bindings, b ∈ c.bindings ∨ Λ.Means G v b.2) :
    Grown Λ G v { s with table := s.table.set i c' } :=
  { h with
    bound := fun j d name symbol hd ht => by
      by_cases hij : i.slot = j
      · subst hij
        obtain rfl := (ScopeTable.getElem?_set_self hc).some_unique hd
        exact (hb _ ht).elim (h.bound _ c name symbol hc) id
      · exact h.bound j d name symbol ((ScopeTable.getElem?_set_of_ne hij).symm.trans hd) ht }

theorem define {i : ScopeId} {name : String} {t : ScopeTable}
    (hs : Λ.Means G v symbol) (ht : s.table.define? i name symbol = .ok (some t)) :
    Grown Λ G v { s with table := t } := by
  obtain ⟨c, hc, -, rfl⟩ := ScopeTable.define?_ok ht
  refine h.setScope hc fun b hb => ?_
  rcases List.mem_cons.1 hb with rfl | hb
  · exact .inr hs
  · exact .inl hb

/-! ### Parts of the program -/

/-- A change that leaves the slots as they are. -/
theorem change {q : Program} (hexprs : q.exprs = s.program.exprs)
    (hslots : ∀ x, q.parts x = s.program.parts x) (hconsts : q.consts = s.program.consts)
    (htypes : q.Within G) (hlines : ∀ x, q.lines x = s.program.lines x)
    (hrest : q.stmts = s.program.stmts ∧ q.files = s.program.files ∧ q.globals = s.program.globals ∧
      q.enums = s.program.enums)
    (hclasses : ∀ c d, q.classes.get? c = some d →
      ∃ d0, s.program.classes.get? c = some d0 ∧ d.outline = d0.outline) :
    Grown Λ G v { s with program := q } where
  size := hexprs ▸ h.size
  slots x := hslots x ▸ h.slots x
  consts := hconsts ▸ h.consts
  done := hconsts ▸ h.done
  types := htypes
  named := hexprs ▸ h.named
  bound := h.bound
  lines := (funext hlines : q.lines = _) ▸ h.lines
  stmts := hrest.1 ▸ h.stmts
  files := hrest.2.1.trans h.files
  globals := hrest.2.2.1.trans h.globals
  enums := hrest.2.2.2.trans h.enums
  classes c d hd := by
    obtain ⟨d1, hd1, hf⟩ := hclasses c d hd
    obtain ⟨d0, hd0, hf0⟩ := h.classes c d1 hd1
    exact ⟨d0, hd0, hf.trans hf0⟩

theorem put {n n' : ExprNode} (hn : s.program.exprs.get? e = some n)
    (hk : Slots (Under p v.added) (p.parts (.expr e)) n'.kind.parts) (hl : n'.line = n.line)
    (ht : ∀ t, n'.ty = some t → t.Within G)
    (hm : ∀ text symbol, n'.kind = .name text (some symbol) → Λ.Means G v symbol) :
    Grown Λ G v (s.put e n') :=
  { h with
    size := by simpa [State.put] using h.size
    slots := fun x => by
      cases x with
      | expr e' =>
        exact Arena.get?_set_of
          (P := fun o => Slots (Under p v.added) (p.parts (.expr e')) (o.elim [] _)) hn
          (fun he => he ▸ hk) (h.slots (.expr e'))
      | _ => exact h.slots _
    types := { h.types with
      exprs := forall_set h.types.exprs ht
      names := forall_set h.types.names fun text t => hm text (.type t) }
    named := forall_set h.named fun text k => hm text (.const k)
    lines := by
      have hlines : (s.put e n').program.lines = s.program.lines := by
        funext x
        cases x with
        | expr => exact elim_set hn (by rw [hl])
        | _ => rfl
      exact hlines ▸ h.lines }

theorem setStmt {x : StmtId} {n n' : StmtNode}
    (hn : s.program.stmts.get? x = some n) (hl : n'.line = n.line)
    (hk : Slots (Under p v.added) (p.parts (.stmt x)) n'.kind.parts)
    (ho : ∃ n0, p.stmts.get? x = some n0 ∧ n'.kind.outline = n0.kind.outline) :
    Grown Λ G v (s.setStmt x n') :=
  { h with
    slots := fun y => by
      cases y with
      | stmt x' =>
        exact Arena.get?_set_of
          (P := fun o => Slots (Under p v.added) (p.parts (.stmt x')) (o.elim [] _)) hn
          (fun hx => hx ▸ hk) (h.slots (.stmt x'))
      | _ => exact h.slots _
    types := { h.types with }
    stmts := fun x' => by
      refine Arena.get?_set_of (P := fun o => ∀ m, o = some m → ∃ n0, p.stmts.get? x' = some n0 ∧
        m.kind.outline = n0.kind.outline) hn (fun hx m hm => ?_) (h.stmts x')
      cases hm
      exact hx ▸ ho
    lines := by
      have hlines : (s.setStmt x n').program.lines = s.program.lines := by
        funext y
        cases y with
        | stmt => exact elim_set hn (by rw [hl])
        | _ => rfl
      exact hlines ▸ h.lines }

theorem setConst (hd : s.program.consts.get? k = some d)
    (hk : Slots (Under p v'.added) (p.parts (.const k)) d'.parts) (hw : d'.typeExpr = d.typeExpr)
    (ho : d'.owner = d.owner) (hl : d'.line = d.line) (ht : ∀ t, d'.ty = some t → t.Within G)
    (hv : v ≤ v') (ha : v'.added = v.added)
    (hdone : ∀ k' ∈ v'.done, k = k' ∧ d'.status = .resolved ∨ k ≠ k' ∧ k' ∈ v.done) :
    Grown Λ G v' (s.setConst k d') where
  size := ha ▸ h.size
  slots x := by
    cases x with
    | const k' =>
      exact Arena.get?_set_of
        (P := fun o => Slots (Under p v'.added) (p.parts (.const k')) (o.elim [] _)) hd
        (fun hx => hx ▸ hk) (ha ▸ h.slots (.const k'))
    | _ => exact ha ▸ h.slots _
  consts k' := by
    refine Arena.get?_set_of (P := fun o => ∀ c, o = some c → ∃ d0, p.consts.get? k' = some d0 ∧
      c.typeExpr = d0.typeExpr ∧ c.owner = d0.owner) hd (fun hx c hc => ?_) (h.consts k')
    cases hc
    obtain ⟨d0, hd0, heq, howner⟩ := h.consts k d hd
    exact ⟨d0, hx ▸ hd0, hw.trans heq, ho.trans howner⟩
  done k' hk' c hc := by
    rcases hdone k' hk' with ⟨rfl, hs⟩ | ⟨hne, hk'⟩
    · obtain rfl := (Arena.get?_set_self hd).some_unique hc
      exact hs
    · exact h.done k' hk' c ((Arena.get?_set_of_ne hne).symm.trans hc)
  types := { h.types with consts := forall_set h.types.consts ht }
  named n hn text k' hk' := (h.named n hn text k' hk').imp_right fun hk' => hv.2 hk'
  bound i c name symbol hc hb := (h.bound i c name symbol hc hb).mono hv
  lines := by
    have hlines : (s.setConst k d').program.lines = s.program.lines := by
      funext y
      cases y with
      | const => exact elim_set hd (by rw [hl])
      | _ => rfl
    exact hlines ▸ ha ▸ h.lines
  stmts := h.stmts
  classes := h.classes
  files := h.files
  globals := h.globals
  enums := h.enums

theorem setVar {u : VarId} {c c' : Var} (hc : s.program.vars.get? u = some c)
    (hk : Slots (Under p v.added) (p.parts (.var u)) c'.parts) (hl : c'.line = c.line)
    (ht : ∀ t, c'.ty = some t → t.Within G) : Grown Λ G v (s.setVar u c') :=
  { h with
    slots := fun x => by
      cases x with
      | var u' =>
        exact Arena.get?_set_of
          (P := fun o => Slots (Under p v.added) (p.parts (.var u')) (o.elim [] _)) hc
          (fun hx => hx ▸ hk) (h.slots (.var u'))
      | _ => exact h.slots _
    types := { h.types with vars := forall_set h.types.vars ht }
    lines := by
      have hlines : (s.setVar u c').program.lines = s.program.lines := by
        funext y
        cases y with
        | method =>
          refine congrArg (Option.elim _ []) (funext fun d => congrArg (d.line :: ·) ?_)
          exact congrArg d.params.flatMap (funext fun u' => elim_set hc (by rw [hl]))
        | _ => rfl
      exact hlines ▸ h.lines }

/-- A literal that takes the place of an expression is one more that was added. -/
theorem grow {n : ExprNode} {value : Literal} (hn : s.program.exprs.get? e = some n)
    (hs : s.program.exprs.size < UInt32.size) (ht : value.ty.Within G) :
    Grown Λ G ⟨v.added ++ [e], v.done⟩ (s.grow n.line value) := by
  have hpre : v.added <+: v.added ++ [e] := List.prefix_append _ _
  have hget : ∀ e', e' ≠ s.program.exprs.next →
      (s.grow n.line value).program.exprs.get? e' = s.program.exprs.get? e' :=
    fun _ he => Arena.get?_push_of_ne hs he
  have hnext := slot_next hs
  exact
    { h with
      size := by simp [State.grow, Program.addTyped, h.size, Nat.add_assoc]
      slots := fun x => by
        refine Slots.mono (fun _ _ => Under.mono hpre) ?_
        cases x with
        | expr e' =>
          by_cases he : e' = s.program.exprs.next
          · have hslot : e'.slot = s.program.exprs.size := he ▸ hnext
            have hnone : p.exprs.get? e' = none := Arena.get?_eq_none (by have := h.size; omega)
            simp [Program.parts, State.grow, Program.addTyped, Arena.get?_push_of_size hslot, hnone]
          · simpa [Program.parts, hget e' he] using h.slots (.expr e')
        | _ => exact h.slots _
      types := { h.types with
        exprs := forall_push h.types.exprs fun t heq => Option.some.inj heq ▸ ht
        names := forall_push h.types.names fun _ _ heq => by cases heq }
      named := forall_push h.named fun _ _ heq => by cases heq
      bound := fun i c name symbol hc hb => (h.bound i c name symbol hc hb).mono ⟨hpre, subset_rfl⟩
      lines := by
        have hline : ∀ x, x ≠ .expr s.program.exprs.next →
            (s.grow n.line value).program.lines x = s.program.lines x := by
          intro x hx
          cases x with
          | expr e' => simp only [Program.lines, hget e' fun he => hx (congrArg _ he)]
          | _ => rfl
        have hold : ∀ e' : ExprId,
          e'.slot < s.program.exprs.size → Node.expr e' ≠ .expr s.program.exprs.next := by
          rintro e' he heq
          cases heq
          omega
        refine ⟨fun x hx => (hline x ?_).trans (h.lines.same x hx), fun i a b ha hb => ?_⟩
        · rintro rfl
          have := hx _ rfl
          have := h.size
          omega
        · have hsize := h.size
          rcases Nat.lt_or_ge i v.added.length with hi | hi
          · have ha' : v.added[i]? = some a := (List.getElem?_append_left hi).symm.trans ha
            obtain ⟨hlt, heq⟩ := h.lines.literal i a b ha' hb
            refine ⟨hlt, ?_⟩
            rw [hline _ (hold b (by omega)), hline _ (hold a (by omega)), heq]
          · obtain ⟨rfl, rfl⟩ : e = a ∧ i = v.added.length := by
              have := List.getElem?_eq_some_iff.1 ha
              grind
            have he := lt_size_of_get? hn
            refine ⟨by omega, ?_⟩
            rw [hline _ (hold e he)]
            simp [Program.lines, State.grow, Program.addTyped,
              Arena.get?_push_of_size (hb.trans hsize.symm), hn] }

end

end Grown

end Ci
