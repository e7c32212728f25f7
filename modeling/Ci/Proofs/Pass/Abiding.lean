-- Invariants of the whole pass. Most of what a pass keeps does not depend on where
-- the pass is, only on the program and on the names that are bound. Such an
-- invariant need only be checked for the single changes between the phases, and for
-- the resolution of one constant, one type and one statement.
import Ci.Proofs.Frame.Moves

namespace Ci

open Resolve Program Arena

variable {s : State} {line : UInt32} {file : FileId} {i : ScopeId} {p : Program} {symbol : Symbol}

/-- A class without its base and how far its resolution has come. -/
def ClassDecl.outline (d : ClassDecl) : ClassDecl := { d with base := none, status := .unvisited }

namespace Pass

/-- A name is bound to a symbol in some scope. -/
def State.Binds (s : State) (symbol : Symbol) : Prop :=
  ∃ (i : Nat) (c : Scope) (name : String), s.table.scopes[i]? = some c ∧ (name, symbol) ∈ c.bindings

variable {α β : Type} {I : State → Prop} {x : Pass α} {f : α → Pass β}

/-- The invariant holds after a part of a pass, whether that ends or stops. -/
def Preserves (I : State → Prop) (x : Pass α) : Prop := ∀ s, Keeps I x s fun _ _ => True

namespace Preserves

theorem of_keeps {Q : α → State → Prop} (h : Keeps I x s Q) : Keeps I x s fun _ _ => True :=
  h.mono fun _ _ _ _ => trivial

theorem bind (h : Preserves I x) (hf : ∀ a, Preserves I (f a)) : Preserves I (x >>= f) :=
  fun s => (h s).bind fun a s' _ _ => hf a s'

theorem silent {es : List ExprId} (h : Silent es x) :
    Preserves I x := fun _ => .silent h fun _ _ => trivial

theorem pure {a : α} : Preserves I (pure a) := fun _ => .pure fun _ => trivial

theorem ask {q : Program → Query α} : Preserves I (ask q) := silent .ask

theorem get : Preserves I (get : Pass State) := silent .get

theorem classScope {c : ClassId} : Preserves I (classScope c) := silent .classScope

theorem fail {fault : Fault} : Preserves I (fail line fault : Pass α) := fun _ => .fail

theorem modify {g : State → State} (h : ∀ s, I s → I (g s)) : Preserves I (modify g : Pass Unit) :=
  fun s => of_keeps (.modify (h s))

theorem change {g : Program → Query Program}
    (h : ∀ s q, g s.program = .ok q → I s → I { s with program := q }) : Preserves I (change g) :=
  fun s => of_keeps (.change (h s))

theorem forM {ι : Type} {g : ι → Pass Unit} {xs : List ι} (h : ∀ i ∈ xs, Preserves I (g i)) :
    Preserves I (xs.forM g) :=
  fun _ => Keeps.forM (fun i hi s _ _ => h i hi s) trivial

theorem once {v : Visited} {body : Pass Unit} (hb : Preserves I body)
    (hm : ∀ status, Preserves I (Pass.change (v.mark status))) :
    Preserves I (once v body) := by
  refine ask.bind fun status => ?_
  cases status with
  | resolved => exact pure
  | inProgress => exact ask.bind fun _ => fail
  | unvisited => exact (hm _).bind fun _ => hb.bind fun _ => hm _

/-- What holds besides at the beginning may be used. -/
theorem of_and {J : State → Prop} (h : Preserves (fun s => I s ∧ J s) x) (hj : J s) :
    Keeps I x s fun _ _ => True := by
  refine ⟨fun hi => ?_⟩
  have hx := (h s).holds ⟨hi, hj⟩
  cases hr : x s with
  | ok =>
    rw [hr] at hx
    exact ⟨hx.1.1, trivial⟩
  | error =>
    rw [hr] at hx
    exact hx.1

end Preserves

/-- An invariant does not see where the pass is, and more scopes are no harm to it. -/
structure Unplaced (I : State → Prop) : Prop where
  place : ∀ {s s' : State}, s'.program = s.program → s'.table.scopes = s.table.scopes → I s → I s'
  addScope : ∀ {s : State} (kind : ScopeKind) (parent : ScopeId), I s →
    I { s with table := s.table.add kind parent }

namespace Unplaced

variable (h : Unplaced I)

include h

theorem within {body : Pass α} (hb : Preserves I body) :
    Preserves I (within file i body) := fun _ =>
  Preserves.of_keeps (.within (h.place rfl rfl) (hb _) fun _ => h.place rfl rfl)

theorem opened {kind : ScopeKind} {parent : ScopeId} : Preserves I (Pass.addScope kind parent) :=
  fun _ => Preserves.of_keeps (.addScope (h.addScope kind parent))

theorem inMethod {m : MethodId} {body : Pass α} (hb : Preserves I body) :
    Preserves I (inMethod m body) := fun _ =>
  Preserves.of_keeps (.inMethod (h.place rfl rfl) (hb _) fun _ => h.place rfl rfl)

end Unplaced

/-! ## After the classes -/

/-- What keeps an invariant from the constants on. It lets types of a family be recorded for
members. -/
structure Abiding (F : Ty → Prop) (I : State → Prop) : Prop extends Unplaced I where
  bindVar : ∀ {s : State} {i : ScopeId} {name : String} {v : VarId} {t : ScopeTable},
    s.table.define? i name (.var v) = .ok (some t) → I s → I { s with table := t }
  void : F .void
  field : ∀ {s : State} {f : FieldId} {d : Field} {t : Ty}, F t → s.program.fields.get? f = some d →
    I s → I { s with program :=
      { s.program with fields := s.program.fields.set f { d with ty := some t } } }
  method : ∀ {s : State} {m : MethodId} {d : Method} {t : Ty}, F t →
    s.program.methods.get? m = some d → I s → I { s with program :=
      { s.program with methods := s.program.methods.set m { d with ty := some t } } }
  var : ∀ {s : State} {v : VarId} {d : Var} {t : Ty}, F t → s.program.vars.get? v = some d →
    I s → I { s with program :=
      { s.program with vars := s.program.vars.set v { d with ty := some t } } }
  type : ∀ (e : ExprId) (s : State), Keeps I (resolveType e) s fun t _ => F t
  const : ∀ k : ConstId, Preserves I (resolveConst k)
  stmt : ∀ x : StmtId, Preserves I (resolveStmt x)

namespace Abiding

variable {F : Ty → Prop} (h : Abiding F I)

include h

theorem resolveConsts : Preserves I Resolve.resolveConsts :=
  Preserves.get.bind fun _ => (Preserves.forM fun k _ => h.const k).bind fun _ =>
    Preserves.get.bind fun _ => (Preserves.forM fun _ _ => Preserves.ask.bind fun _ =>
      Preserves.forM fun k _ => h.const k).bind fun _ =>
    Preserves.get.bind fun _ => Preserves.forM fun _ _ => Preserves.ask.bind fun _ =>
      Preserves.forM fun k _ => h.const k

theorem resolveField (f : FieldId) : Preserves I (Resolve.resolveField f) := by
  refine Preserves.ask.bind fun d s => (h.type d.typeExpr s).bind fun t s' _ ht => ?_
  refine Preserves.of_keeps (.change fun q hq hi => ?_)
  obtain ⟨d', hd, rfl⟩ := updateField_ok.1 hq
  exact h.field ht hd hi

theorem resolveParam (v : VarId) : Preserves I (Resolve.resolveParam v) := by
  refine Preserves.ask.bind fun d s => (h.type d.typeExpr s).bind fun t s' _ ht => ?_
  refine Preserves.of_keeps (.change fun q hq hi => ?_)
  obtain ⟨d', hd, rfl⟩ := updateVar_ok.1 hq
  exact h.var ht hd hi

theorem resolveSignature (m : MethodId) : Preserves I (Resolve.resolveSignature m) := by
  refine Preserves.ask.bind fun d s => ?_
  have hreturn : Keeps I (resolveReturn d.typeExpr) s fun t _ => F t := by
    cases d.typeExpr with
    | none => exact .pure fun _ => h.void
    | some e => exact h.type e s
  refine hreturn.bind fun t s' _ ht => Keeps.bind (Preserves.of_keeps (.change fun q hq hi => ?_))
    fun _ s'' _ _ => Preserves.ask.bind (fun _ => Preserves.forM fun v _ => h.resolveParam v) s''
  obtain ⟨d', hd, rfl⟩ := updateMethod_ok.1 hq
  exact h.method ht hd hi

theorem resolveTypes (c : ClassId) : Preserves I (Resolve.resolveTypes c) :=
  Preserves.ask.bind fun _ => Preserves.classScope.bind fun _ => h.within <|
    Preserves.ask.bind fun _ => (Preserves.forM fun f _ => h.resolveField f).bind fun _ =>
      Preserves.ask.bind fun _ => Preserves.forM fun m _ => h.resolveSignature m

theorem bindParam (v : VarId) : Preserves I (Resolve.bindParam v) :=
  Preserves.ask.bind fun _ => Preserves.get.bind fun _ _ =>
    Preserves.of_keeps (.defineIn fun _ => h.bindVar)

theorem resolveMethod (m : MethodId) : Preserves I (Resolve.resolveMethod file i m) := by
  refine Preserves.ask.bind fun d => ?_
  cases d.body with
  | none => exact .pure
  | some body =>
    exact h.opened.bind fun _ => h.inMethod (h.within (Preserves.ask.bind fun _ =>
      (Preserves.forM fun v _ => h.bindParam v).bind fun _ => h.stmt body))

theorem resolveCode (c : ClassId) : Preserves I (Resolve.resolveCode c) :=
  Preserves.ask.bind fun _ => Preserves.classScope.bind fun _ => Preserves.ask.bind fun _ =>
    Preserves.forM fun m _ => h.resolveMethod m

end Abiding

/-! ## Before the constants -/

/-- What names are bound to before the constants: types of a family, and declarations that are
there. -/
inductive Declares (F : Ty → Prop) (p : Program) : Symbol → Prop
  | type {t : Ty} (family : F t) : Declares F p (.type t)
  | classDecl {c : ClassId} {d : ClassDecl} (found : p.classes.get? c = some d) :
      Declares F p (.classDecl c)
  | enumDecl {e : EnumId} {d : EnumDecl} (found : p.enums.get? e = some d) :
    Declares F p (.enumDecl e)
  | const {k : ConstId} {d : Const} (found : p.consts.get? k = some d) : Declares F p (.const k)
  | field {f : FieldId} {d : Field} (found : p.fields.get? f = some d) : Declares F p (.field f)
  | method {m : MethodId} {d : Method} (found : p.methods.get? m = some d) :
    Declares F p (.method m)

theorem Declares.family {F : Ty → Prop} (h : Declares F p symbol) :
    ∀ t, symbol = .type t → F t := by
  rintro t rfl
  cases h with
  | type family => exact family

/-- What keeps an invariant while names are registered. -/
structure Binding (F : Ty → Prop) (I : State → Prop) : Prop extends Unplaced I where
  define : ∀ {s : State} {i : ScopeId} {name : String} {symbol : Symbol} {t : ScopeTable},
    Declares F s.program symbol → s.table.define? i name symbol = .ok (some t) → I s →
    I { s with table := t }
  builtin : ∀ b ∈ builtins, F b.2

namespace Binding

variable {F : Ty → Prop} {s : State} (h : Binding F I)

include h

theorem defineIn {name : String}
    (hs : Declares F s.program symbol) : Keeps I (defineIn i line name symbol) s fun _ _ => True :=
  Preserves.of_keeps (.defineIn fun _ => h.define hs)

theorem enterFile_bind {f : PUnit → Pass β} {R : β → State → Prop}
    (hf : Keeps I (f ⟨⟩) { s with file := file } R) : Keeps I (enterFile file >>= f) s R := by
  refine (Keeps.modify (h.place rfl rfl)).bind ?_
  rintro _ _ - rfl
  exact hf

theorem registerBuiltins : Preserves I Resolve.registerBuiltins :=
  Preserves.forM fun b hb _ => h.defineIn (.type (h.builtin b hb))

theorem registerClass (c : ClassId) : Preserves I (Resolve.registerClass c) := by
  refine fun s => Keeps.ask_bind fun d hd => h.enterFile_bind ?_
  refine Keeps.bind (h.defineIn (.classDecl (fetch_ok.1 hd))) fun _ s1 _ _ => ?_
  exact Keeps.bind (h.opened s1) fun _ _ _ _ => Preserves.of_keeps (.modify (h.place rfl rfl))

theorem registerEnum (e : EnumId) : Preserves I (Resolve.registerEnum e) := by
  refine fun s => Keeps.ask_bind fun d hd => h.enterFile_bind ?_
  refine Keeps.bind (h.defineIn (.enumDecl (fetch_ok.1 hd))) fun _ s1 _ _ => ?_
  refine Keeps.bind (h.opened s1) fun _ _ _ _ => Keeps.bind (.modify (h.place rfl rfl))
    fun _ s2 _ _ => ?_
  exact Preserves.forM (fun k _ s => Keeps.ask_bind fun v hv =>
    h.defineIn (.const (fetch_ok.1 hv))) s2

theorem registerGlobal (k : ConstId) : Preserves I (Resolve.registerGlobal k) := by
  refine fun s => Keeps.ask_bind fun d hd => ?_
  have hk : Declares F s.program (.const k) := .const (fetch_ok.1 hd)
  cases d.owner with
  | program => exact h.enterFile_bind (h.defineIn hk)
  | classDecl | enumDecl | body => exact h.defineIn hk

theorem registerDeclarations : Preserves I Resolve.registerDeclarations :=
  Preserves.get.bind fun _ => (Preserves.forM fun c _ => h.registerClass c).bind fun _ =>
    Preserves.get.bind fun _ => (Preserves.forM fun e _ => h.registerEnum e).bind fun _ =>
      Preserves.get.bind fun _ => Preserves.forM fun k _ => h.registerGlobal k

end Binding

/-- What keeps an invariant until all classes are linked. They change no more than their bases and
how far their resolution has come, and a base is bound to a name. -/
structure Linking (F : Ty → Prop) (I : State → Prop) : Prop extends Binding F I where
  setParent : ∀ {s : State} {i j : ScopeId} {t : ScopeTable}, s.table.setParent i j = .ok t → I s →
    I { s with table := t }
  setClass : ∀ {s : State} {c : ClassId} {d d' : ClassDecl}, s.program.classes.get? c = some d →
    d'.outline = d.outline →
    (∀ b, d'.base = some b → d.base = some b ∨ s.Binds (.classDecl b)) → I s →
    I { s with program := { s.program with classes := s.program.classes.set c d' } }
  addOrdered : ∀ {s : State} {c : ClassId}, c.slot < s.program.classes.size → I s →
    I { s with program := s.program.addOrdered c }

namespace Linking

variable {F : Ty → Prop}

/-- No class is lost. -/
theorem with_class (h : Linking F I) (c : ClassId) :
    Linking F fun s => I s ∧ c.slot < s.program.classes.size where
  place hp ht hi := ⟨h.place hp ht hi.1, hp ▸ hi.2⟩
  addScope kind parent hi := ⟨h.addScope kind parent hi.1, hi.2⟩
  define hs ht hi := ⟨h.define hs ht hi.1, hi.2⟩
  builtin := h.builtin
  setParent ht hi := ⟨h.setParent ht hi.1, hi.2⟩
  setClass hd ho hb hi := ⟨h.setClass hd ho hb hi.1, by simpa using hi.2⟩
  addOrdered hc hi := ⟨h.addOrdered hc hi.1, hi.2⟩

/-- A base that is found is bound to a name. -/
theorem findBase {name : String} :
    Keeps I (Resolve.findBase line name) s fun b s' => s.Binds (.classDecl b) ∧ s' = s := by
  refine Keeps.askTable_bind fun found hfound => ?_
  split
  · obtain ⟨i, scope, hscope, hmem⟩ := ScopeTable.bound_of_search hfound
    exact .pure fun _ => ⟨⟨i, scope, name, hscope, hmem⟩, rfl⟩
  · exact .fail

theorem declares_members {d : ClassDecl} {members : List (String × UInt32 × Symbol)}
    (hm : membersOf p d = .ok members) : ∀ m ∈ members, Declares F p m.2.2 := by
  simp only [membersOf, Query.bind_ok, Query.pure_ok] at hm
  obtain ⟨ks, hks, fs, hfs, ms, hms, rfl⟩ := hm
  rw [mapM_fetch_ok hks, mapM_fetch_ok hfs, mapM_fetch_ok hms]
  simp only [List.mem_append, List.mem_filterMap, Option.map_eq_some_iff]
  rintro m ((⟨k, -, d, hd, rfl⟩ | ⟨k, -, d, hd, rfl⟩) | ⟨k, -, d, hd, rfl⟩)
  · exact .const hd
  · exact .field hd
  · exact .method hd

section

variable (h : Linking F I)

include h

theorem bindMembers (c : ClassId) : Preserves I (Resolve.bindMembers c) := by
  refine Preserves.classScope.bind fun i s => Keeps.ask_bind fun members hm => ?_
  obtain ⟨d, -, hm⟩ := Query.bind_ok.1 hm
  refine Preserves.of_keeps (Keeps.forM (P := fun s' => s'.program = s.program)
    (fun m hmem s' _ hs' => ?_) rfl)
  refine (Keeps.defineIn fun _ => h.define (hs' ▸ declares_members hm m hmem)).mono ?_
  rintro _ _ - ⟨t, -, rfl⟩
  exact hs'

theorem nestScope (c base : ClassId) : Preserves I (Resolve.nestScope c base) :=
  Preserves.classScope.bind fun _ => Preserves.classScope.bind fun _ _ =>
    Keeps.askTable_bind fun _ ht => Preserves.of_keeps (.modify fun hi => h.setParent ht hi)

theorem linkBase {recur : ClassId → Pass Unit} (hrec : ∀ c, Preserves I (recur c)) (c : ClassId) :
    Preserves I (Resolve.linkBase recur c) := by
  refine Preserves.ask.bind fun d => ?_
  cases d.baseName with
  | none => exact .pure
  | some =>
    refine fun s => findBase.bind_here fun base hbase => ?_
    refine Keeps.bind (Preserves.of_keeps (.change fun q hq hi => ?_)) fun _ s' _ _ =>
      (hrec base).bind (fun _ => h.nestScope c base) s'
    obtain ⟨d, hd, rfl⟩ := updateClass_ok.1 hq
    refine h.setClass hd rfl (fun b hb => .inr ?_) hi
    obtain rfl := Option.some.inj hb
    exact hbase

end

theorem classWithin (h : Linking F I) (n : Nat) (c : ClassId) :
    Preserves I (Resolve.classWithin n c) := by
  induction n generalizing c I with
  | zero => exact .silent .answer
  | succ n ih =>
    refine fun s => Keeps.ask_bind fun d hd => ?_
    have h' := h.with_class c
    have hlink : Preserves _ (linkClass (Resolve.classWithin n) c) :=
      (h'.linkBase (fun b => ih h' b) c).bind fun _ =>
        (Preserves.modify fun _ hs => h'.addOrdered hs.2 hs).bind fun _ => h'.bindMembers c
    have hmark : ∀ status, Preserves (fun s => I s ∧ c.slot < s.program.classes.size)
        (change ((Visited.classDecl c).mark status)) := by
      refine fun status => .change fun s q hq hi => ?_
      obtain ⟨d, hd, rfl⟩ := updateClass_ok.1 hq
      exact h'.setClass hd rfl (fun _ => .inl) hi
    have hrest : Preserves _ (do Pass.within d.file (← classScope c) (once _ _)) :=
      Preserves.classScope.bind fun _ => h'.within (hlink.once hmark)
    exact hrest.of_and (lt_size_of_get? (fetch_ok.1 hd))

end Linking

/-! ## From the start -/

/-- What keeps an invariant from the start on. -/
structure Lawful (F : Ty → Prop) (I : State → Prop) : Prop extends Abiding F I, Linking F I

namespace Lawful

variable {F : Ty → Prop} (h : Lawful F I)

include h

/-- The invariant holds after the whole pass, whether that ends or stops. -/
theorem run : Preserves I Resolve.run :=
  h.registerBuiltins.bind fun _ => h.registerDeclarations.bind fun _ =>
    Preserves.bind (Preserves.get.bind fun _ => .forM fun c _ => Preserves.get.bind fun _ =>
      h.toLinking.classWithin _ c) fun _ => h.resolveConsts.bind fun _ =>
        Preserves.get.bind fun _ =>
        (Preserves.forM fun c _ => h.resolveTypes c).bind fun _ =>
          Preserves.forM fun c _ => h.resolveCode c

/-- What the pass keeps holds of the program that comes out. -/
theorem resolve {P : Program → Prop} (hI : ∀ s, I s → P s.program)
    (hp : I (.start p)) : P p.resolve.program := by
  unfold Program.resolve
  generalize State.start p = s0 at hp ⊢
  have hrun := (h.run s0).holds hp
  generalize Resolve.run s0 = r at hrun ⊢
  cases r with
  | ok _ s => exact hI s hrun.1
  | error _ s => exact hI s hrun

end Lawful

end Pass

end Ci
