-- The phases of a pass. Names are registered and classes are linked from the files in
-- which they are declared, and from there constants, types and bodies are visited.
-- So whatever is found wrong is found in the right place.
import Ci.Proofs.Descent.Run
import Ci.Proofs.Hierarchy.Linearization
import Ci.Proofs.Naming.Declarations
import Ci.Proofs.Pass.Ends
import Ci.Proofs.Work.Run

namespace Ci

open Pass Resolve Arena

variable {p : Program} {Λ : Locale p} {G : Interval → Prop} {hG : Interval.Family G} {v : Growth}
  {s : State} {π : Spot} {c : ClassId} {k : ConstId} {m : MethodId} {x y : Node} {line : UInt32}

/-- The bodies of a class. -/
def Program.BodyOf (p : Program) (c : ClassId) (x : StmtId) : Prop :=
  ∃ m, .method m ∈ p.parts (.classDecl c) ∧ .stmt x ∈ p.parts (.method m)

/-- The locale holds what a pass comes to first. -/
structure Locale.Opens (Λ : Locale p) : Prop where
  classes : ∀ {c d}, p.classes.get? c = some d → Λ.Here d.file (.classDecl c)
  enums : ∀ {e d}, p.enums.get? e = some d → Λ.Here d.file (.enumDecl e)
  globals : ∀ {k d f}, k ∈ p.globals → p.consts.get? k = some d →
    (∀ file, d.owner = .program file → f = file) → Λ.Here f (.const k)
  listed : ∀ {k}, p.Declares k → Λ.Free k
  bodies : ∀ {c x}, p.BodyOf c x → Λ.Occurs [] x

/-- Slots of anything but expressions stay as they are. -/
theorem Slots.mem_iff {R : ExprId → ExprId → Prop} {xs ys : List Node} (h : Slots R xs ys)
    (hy : ∀ e, y ≠ .expr e) : y ∈ xs ↔ y ∈ ys := by
  induction h with
  | nil => rfl
  | cons hab _ ih =>
    cases hab with
    | same => simp [ih]
    | expr => simp [ih, hy]

theorem Locale.at_here (h : Λ.Here π.file x) (hx : ∀ z, x ≠ .stmt z) : Λ.At v π x :=
  ⟨⟨x, h, .refl⟩, fun z hz => absurd hz (hx z)⟩

theorem Locale.At.part (h : Λ.At v π x) (hy : y ∈ p.parts x) (hs : ∀ z, y ≠ .stmt z) : Λ.At v π y :=
  h.comesTo (.single (.part hy)) hs

theorem Grown.at_now (h : Grown Λ G v s) (hx : Λ.At v π x) (hy : y ∈ s.program.parts x)
    (hz : ∀ z, y ≠ .stmt z) : Λ.At v π y := hx.comesTo ((h.slots x).comesTo hy) hz

theorem Grown.member {d : ClassDecl} (hs : Grown Λ G v s) (hd : s.program.classes.fetch c = .ok d)
    (hy : y ∈ d.parts) (he : ∀ e, y ≠ .expr e) : y ∈ p.parts (.classDecl c) := by
  refine ((hs.slots (.classDecl c)).mem_iff he).2 ?_
  rwa [Program.parts, fetch_ok.1 hd]

theorem Locale.Opens.means (hΛ : Λ.Opens) (h : p.Declares k) :
    Λ.Means G v (.const k) := .inl (hΛ.listed h)

theorem Locale.Opens.classHere {d : ClassDecl} (hΛ : Λ.Opens) (h : Grown Λ G v s)
    (hd : s.program.classes.get? c = some d) : Λ.Here d.file (.classDecl c) := by
  obtain ⟨d0, hd0, ho⟩ := h.classes c d hd
  have hf : d.file = d0.file := (congrArg ClassDecl.file ho :)
  exact hf ▸ hΛ.classes hd0

/-! ## Registration -/

/-- The pass may stop for the reason. -/
def Locale.Excuses (Λ : Locale p) (b : Abort) : Prop := ∀ d, b = .fault d → Λ.Blames d

namespace Grown

theorem ask_bind {α β : Type} {q : Program → Query α} {f : α → Pass β} {R : β → State → Prop}
    (h : ∀ a, q s.program = .ok a → Ends Λ.Excuses (f a) s R) :
    Ends Λ.Excuses (ask q >>= f) s R := by
  cases hq : q s.program with
  | ok a => exact .bind_of_ok (ask_eq_ok.2 ⟨hq, rfl⟩) (h a hq)
  | error w =>
    exact .of_error (b := .broken w) (t := s) (by simp [ask, answer, hq, Bind.bind, EStateM.bind])
      fun _ hd => by cases hd

/-- A name is bound to what belongs to the present file. -/
theorem defineIn {i : ScopeId} {name : String} {symbol : Symbol} (h : Grown Λ G v s)
    (hx : Λ.At v s.place x) (hl : line ∈ s.program.lines x) (hs : Λ.Means G v symbol) :
    Ends Λ.Excuses (Pass.defineIn i line name symbol) s fun _ s' => Grown Λ G v s' ∧
    s'.file = s.file := by
  have hrun := defineIn_eq i line name symbol s
  split at hrun
  · exact .of_ok hrun ⟨h.define hs ‹_›, rfl⟩
  · refine .of_error hrun ?_
    rintro _ ⟨⟩
    exact h.blame (h.line hx hl) rfl
  · exact .of_error hrun fun _ hd => by cases hd

/-- Different names of types are bound one after the other. -/
theorem defineTypes {bs : List (String × Ty)} {c : Scope} (h : Grown Λ G v s)
    (hc : s.table.scopes[0]? = some c) (hd : (bs.map Prod.fst).Nodup)
    (hnew : ∀ b ∈ bs, c.find? b.1 = none) (ht : ∀ b ∈ bs, b.2.Within G) :
    Ends Λ.Excuses (bs.forM fun b => defineGlobal 0 b.1 (.type b.2)) s
      fun _ s' => Grown Λ G v s' := by
  induction bs generalizing s c with
  | nil => exact .pure h
  | cons b _ ih =>
    have hdef : s.table.define? .program b.1 (.type b.2) =
        .ok (some (s.table.set .program
          { c with bindings := (b.1, .type b.2) :: c.bindings })) := by
      simp [ScopeTable.define?, ScopeTable.fetch, ScopeId.program, hc, hnew b]
    have hrun := defineIn_eq .program 0 b.1 (.type b.2) s
    rw [hdef] at hrun
    simp only [List.map_cons, List.nodup_cons, List.mem_map, not_exists, not_and] at hd
    refine .bind_of_ok hrun (ih (h.define (show Λ.Means G v (.type b.2) from ht b (by simp)) hdef)
      (ScopeTable.getElem?_set_self hc) hd.2
      (fun b' hb' => ?_) fun b' hb' => ht b' (by simp [hb']))
    have hne : (b'.1 == b.1) = false := by simpa using hd.1 b' hb'
    simpa [Scope.find?, List.lookup_cons, hne] using hnew b' (by simp [hb'])

section

variable (hΛ : Λ.Opens) (h : Grown Λ G v s)

include hΛ h

theorem registerClass : Ends Λ.Excuses (Resolve.registerClass c) s fun _ s' => Grown Λ G v s' := by
  refine ask_bind fun d hd => .modify_bind ?_
  have hd := fetch_ok.1 hd
  have h1 : Grown Λ G v { s with file := d.file } := h.place rfl rfl
  refine (h1.defineIn (Λ.at_here (hΛ.classHere h hd) (by simp)) (by simp [Program.lines, hd])
    (show Λ.Means G v (.classDecl c) from trivial)).bind fun _ s1 h1 => ?_
  exact .bind_of_ok (addScope_eq_ok.2 ⟨rfl, rfl⟩) (.of_ok rfl (h1.1.addScope.place rfl rfl))

theorem registerEnum {e : EnumId} :
    Ends Λ.Excuses (Resolve.registerEnum e) s fun _ s' => Grown Λ G v s' := by
  refine ask_bind fun d hd => .modify_bind ?_
  have hd := fetch_ok.1 hd
  have hhere := hΛ.enums (h.enums ▸ hd)
  have h1 : Grown Λ G v { s with file := d.file } := h.place rfl rfl
  refine (h1.defineIn (Λ.at_here hhere (by simp)) (by simp [Program.lines, hd])
    (show Λ.Means G v (.enumDecl e) from trivial)).bind fun _ s1 h1 => ?_
  refine .bind_of_ok (addScope_eq_ok.2 ⟨rfl, rfl⟩) (.modify_bind ?_)
  refine Ends.mono (Ends.forM (P := fun _ s' => Grown Λ G v s' ∧ s'.file = d.file)
    (fun _ k hk s2 h2 => ?_)
    ⟨h1.1.addScope.place rfl rfl, h1.2⟩) (fun _ _ h => h.1) fun _ h => h
  refine ask_bind fun a ha => ?_
  have hpart : .const k ∈ p.parts (.enumDecl e) := by
    simpa [Program.parts, ← h.enums, hd, EnumDecl.parts] using hk
  have hfile : Λ.Here s2.place.file (.enumDecl e) := by rwa [show s2.place.file = d.file from h2.2]
  rw [← h2.2]
  exact h2.1.defineIn ((Λ.at_here hfile (by simp)).part hpart (by simp))
    (by simp [Program.lines, fetch_ok.1 ha]) (hΛ.means (.inr (.inr ⟨e, d, h.enums ▸ hd, hk⟩)))

theorem registerGlobal (hk : k ∈ p.globals) :
    Ends Λ.Excuses (Resolve.registerGlobal k) s fun _ s' => Grown Λ G v s' := by
  refine ask_bind fun d hd => ?_
  have hd := fetch_ok.1 hd
  obtain ⟨d0, hd0, -, ho⟩ := h.consts k d hd
  have hdef : ∀ f, (∀ file, d.owner = .program file → f = file) →
      Ends Λ.Excuses (defineGlobal d.line d.name (.const k)) { s with file := f }
        fun _ s' => Grown Λ G v s' := by
    intro f hf
    have h' : Grown Λ G v { s with file := f } := h.place rfl rfl
    exact (h'.defineIn (Λ.at_const (hΛ.globals hk hd0 (ho ▸ hf))) (by simp [Program.lines, hd])
      (hΛ.means (.inl hk))).mono (fun _ _ h => h.1) fun _ h => h
  cases ho' : d.owner with
  | program file => exact .modify_bind (hdef file (by simp [ho']))
  | classDecl | enumDecl | body => exact .bind_of_ok rfl (hdef s.file (by simp [ho']))

end

end Grown

theorem Locale.Opens.register (hΛ : Λ.Opens) (hG : Interval.Family G) (h : Grown Λ G v (.start p)) :
    Ends Λ.Excuses Resolve.register (.start p) fun _ s' => Grown Λ G v s' := by
  refine (h.defineTypes rfl (by decide +kernel) (fun _ _ => rfl) (Ty.Within.builtin hG)).bind
    fun _ s1 h1 => ?_
  refine .get_bind
    ((Ends.forM (P := fun _ s => Grown Λ G v s) (fun _ c _ s hs => hs.registerClass hΛ) h1).bind
    fun _ s2 h2 => ?_)
  refine .get_bind
    ((Ends.forM (P := fun _ s => Grown Λ G v s) (fun _ e _ s hs => hs.registerEnum hΛ) h2).bind
    fun _ s3 h3 => ?_)
  exact .get_bind (Ends.forM (P := fun _ s => Grown Λ G v s)
    (fun _ k hk s hs => hs.registerGlobal hΛ (h3.globals ▸ hk)) h3)

/-! ## Classes -/

namespace Locale.Opens

variable (hΛ : Λ.Opens)

include hΛ

omit hΛ in
theorem each {ι : Type} {g : ι → Pass Unit} {is : List ι}
    (h : ∀ i ∈ is, ∀ v, Obeys (Λ.descent hG) π v (g i) fun _ _ => True) :
    Obeys (Λ.descent hG) π v (is.forM g) fun _ _ => True :=
  .imp (.forM (P := fun _ => True) (D := fun _ _ => True) (fun _ h => h) (fun _ h => h) trivial
    fun i hi v _ => h i hi v) fun _ _ _ _ => trivial

/-- The names of the members of a class are bound to what belongs to the file of the class. -/
theorem bindMembers (hc : Λ.Here π.file (.classDecl c)) :
    Obeys (Λ.descent hG) π v (Resolve.bindMembers c) fun _ _ => True := by
  refine Obeys.look_bind .classScope fun i => Obeys.ask_bind fun s members hs hm => ?_
  simp only [membersOf, Query.bind_ok, Query.pure_ok, fetch_ok] at hm
  obtain ⟨d, hd, ks, hks, fs, hfs, ms, hms, rfl⟩ := hm
  have hbind : ∀ {y v name line symbol}, y ∈ d.parts → (∀ e, y ≠ .expr e) → (∀ z, y ≠ .stmt z) →
      line ∈ s.program.lines y → Λ.Means G v symbol →
      Obeys (Λ.descent hG) π v (Pass.defineIn i line name symbol) fun _ _ => True :=
    fun hy he hz hl hm => Obeys.imp
      (.defineIn (hs.line ((Λ.at_here hc (by simp)).part (hs.member (fetch_ok.2 hd) hy he) hz) hl)
      fun hs ht => hs.define hm ht) fun _ _ _ _ => trivial
  refine each fun b hb v => ?_
  rw [mapM_fetch_ok hks, mapM_fetch_ok hfs, mapM_fetch_ok hms] at hb
  simp only [List.mem_append, List.mem_filterMap, Option.map_eq_some_iff] at hb
  rcases hb with (⟨k, hk, a, ha, rfl⟩ | ⟨f, hf, a, ha, rfl⟩) | ⟨m, hm, a, ha, rfl⟩
  · obtain ⟨d0, hd0, ho⟩ := hs.classes c d hd
    have hks : d.consts = d0.consts := (congrArg ClassDecl.consts ho :)
    exact hbind (y := .const k)
      (by simp [ClassDecl.parts, hk]) (by simp) (by simp) (by simp [Program.lines, ha])
      (hΛ.means (.inr (.inl ⟨c, d0, hd0, hks ▸ hk⟩)))
  · exact hbind (y := .field f)
      (by simp [ClassDecl.parts, hf]) (by simp) (by simp) (by simp [Program.lines, ha])
      (show Λ.Means G v (.field f) from trivial)
  · exact hbind (y := .method m) (by simp [ClassDecl.parts, hm]) (by simp) (by simp)
      (by simp [Program.lines, ha]) (show Λ.Means G v (.method m) from trivial)

omit hΛ in
theorem nestScope {base : ClassId} :
    Obeys (Λ.descent hG) π v (Resolve.nestScope c base) fun _ _ => True := by
  refine Obeys.look_bind .classScope fun i => Obeys.look_bind .classScope fun j _ s hs hπ => ?_
  cases ht : s.table.setParent i j with
  | error b =>
    exact .of_error (b := .broken b)
      (by simp [askTable, answer, ht, Bind.bind, EStateM.bind]) hs (by simp)
  | ok t =>
    have hrun : (askTable (·.setParent i j) >>= fun t => modify ({ · with table := t })) s =
        .ok ⟨⟩ { s with table := t } := by
      simp [askTable, answer, ht, Bind.bind, EStateM.bind]
    refine .of_ok hrun le_rfl (hs.setParent ht) ?_ trivial
    simp only [ScopeTable.setParent, Query.bind_ok, Query.pure_ok, ScopeTable.fetch_ok] at ht
    obtain ⟨_, -, rfl⟩ := ht
    exact ⟨rfl, rfl, rfl, rfl, rfl, rfl⟩

theorem linkClass {recur : ClassId → Pass Unit} (hc : Λ.Here π.file (.classDecl c))
    (hrec : ∀ {π v} c, Obeys (Λ.descent hG) π v (recur c) fun _ _ => True) :
    Obeys (Λ.descent hG) π v (Resolve.linkClass recur c) fun _ _ => True := by
  refine .bind (Q := fun _ _ => True) (.ask_bind fun s d hs hd => ?_) fun _ _ _ _ =>
    .bind (Q := fun _ _ => True) ?_ fun _ _ _ _ => bindMembers hΛ hc
  · have hl : Λ.Lines π.file d.line :=
      hs.line (Λ.at_here hc (by simp)) (by simp [Program.lines, fetch_ok.1 hd])
    cases d.baseName with
    | none => exact .pure trivial
    | some =>
      refine .bind (Q := fun _ _ => True) (.look_bind .askTable fun found => ?_) fun _ base _ _ =>
        .then_bind (.changeHere fun s q hs hq => ?_) (.bind (hrec base) fun _ _ _ _ => nestScope)
      · split
        · exact .pure trivial
        · exact .fail hl rfl
      · obtain ⟨d, hd, rfl⟩ := Program.updateClass_ok.1 hq
        exact hs.setClass hd rfl
  · exact fun _ s hs _ => .of_ok rfl le_rfl hs.addOrdered (SamePlace.refl s).set_program trivial

theorem classWithin (n : Nat) (c : ClassId) :
    Obeys (Λ.descent hG) π v (Resolve.classWithin n c) fun _ _ => True := by
  induction n generalizing c π v with
  | zero => exact .stuck
  | succ _ ih =>
    refine .ask_bind fun s d hs hd => .look_bind .classScope fun _ => .within ?_
    have hc := hΛ.classHere hs (fetch_ok.1 hd)
    have hmark : ∀ {v} status, Obeys (Λ.descent hG) { π with file := d.file } v
        (change ((Visited.classDecl c).mark status)) fun v' _ => v' = v := by
      refine fun status => .changeHere fun s q hs hq => ?_
      obtain ⟨d, hd, rfl⟩ := Program.updateClass_ok.1 hq
      exact hs.setClass hd rfl
    refine .look_bind .ask fun status => ?_
    cases status with
    | resolved => exact .pure trivial
    | inProgress =>
      refine .ask_bind fun s a hs ha => ?_
      simp only [Visited.classDecl, Query.bind_ok, Query.pure_ok, fetch_ok] at ha
      obtain ⟨d', hd', rfl⟩ := ha
      exact .fail (hs.line (Λ.at_here hc (by simp)) (by simp [Program.lines, hd'])) rfl
    | unvisited =>
      exact .then_bind (hmark _) (.bind (linkClass hΛ hc ih) fun _ _ _ _ =>
        (hmark _).imp fun _ _ _ _ => trivial)

theorem resolveClasses : Obeys (Λ.descent hG) π v Resolve.resolveClasses fun _ _ => True :=
  .get_bind fun _ _ _ => each fun c _ _ => .look_bind .get fun _ => classWithin hΛ _ c

/-! ## Constants and members -/

theorem consts {ks : List ConstId} (h : ∀ k ∈ ks, p.Declares k) :
    Obeys (Λ.descent hG) π v (ks.forM resolveConst) fun _ _ => True :=
  each fun k hk v => (Obeys.resolveConst
    (.inl (show Λ.Means G v (.const k) from hΛ.means (h k hk)))).imp fun _ _ _ _ => trivial

theorem resolveConsts : Obeys (Λ.descent hG) π v Resolve.resolveConsts fun _ _ => True := by
  refine .get_bind fun s hs _ => .bind (consts hΛ fun k hk => .inl (hs.globals ▸ hk)) fun _ _ _ _ =>
    .get_bind fun _ _ _ =>
      .bind (each fun e _ v => .ask_bind fun s d hs hd => consts hΛ fun k hk => ?_)
      fun _ _ _ _ => .get_bind fun _ _ _ => each fun c _ v => .ask_bind fun s d hs hd =>
        consts hΛ fun k hk => ?_
  · exact .inr (.inr ⟨e, d, hs.enums ▸ fetch_ok.1 hd, hk⟩)
  · obtain ⟨d0, hd0, ho⟩ := hs.classes c d (fetch_ok.1 hd)
    have hks : d.consts = d0.consts := (congrArg ClassDecl.consts ho :)
    exact .inr (.inl ⟨c, d0, hd0, hks ▸ hk⟩)

omit hΛ in
theorem resolveField {f : FieldId} (hf : Λ.At v π (.field f)) :
    Obeys (Λ.descent hG) π v (Resolve.resolveField f) fun _ _ => True := by
  refine .ask_bind fun s d hs hd => .bind (.resolveType (hs.at_now hf ?_ (by simp))) fun _ t _ ht =>
    .imp (.changeHere fun s q hs hq => ?_) fun _ _ _ _ => trivial
  · simp [Program.parts, fetch_ok.1 hd, Field.parts]
  · obtain ⟨d', hd', rfl⟩ := Program.updateField_ok.1 hq
    exact hs.setField hd' ht.1

omit hΛ in
theorem resolveParam {u : VarId} (hu : Λ.At v π (.var u)) :
    Obeys (Λ.descent hG) π v (Resolve.resolveParam u) fun _ _ => True := by
  refine .ask_bind fun s d hs hd => .bind (.resolveType (hs.at_now hu ?_ (by simp))) fun _ t _ ht =>
    .imp (.changeHere fun s q hs hq => ?_) fun _ _ _ _ => trivial
  · simp [Program.parts, fetch_ok.1 hd, Var.parts]
  · obtain ⟨d', hd', rfl⟩ := Program.updateVar_ok.1 hq
    exact hs.setVar hd' (hs.slotsVar hd' :) rfl fun _ heq => Option.some.inj heq ▸ ht.1

omit hΛ in
theorem resolveSignature (hm : ∀ {v}, Λ.At v π (.method m)) :
    Obeys (Λ.descent hG) π v (Resolve.resolveSignature m) fun _ _ => True := by
  refine .ask_bind fun s d hs hd => .bind (Q := fun _ t => t.Within G) ?_ fun _ t _ ht =>
    .then_bind (.changeHere fun s q hs hq => ?_) (.ask_bind fun s d hs hd => each fun u hu v =>
      resolveParam ?_)
  · cases ht : d.typeExpr with
    | none => exact .pure trivial
    | some =>
      exact (Obeys.resolveType
        (hs.at_now hm (by simp [Program.parts, fetch_ok.1 hd, Method.parts, ht])
        (by simp))).imp fun _ _ _ h => h.1
  · obtain ⟨d', hd', rfl⟩ := Program.updateMethod_ok.1 hq
    exact hs.setMethod hd' ht
  · refine hm.part (((hs.slots (.method m)).mem_iff (by simp)).2 ?_) (by simp)
    simp [Program.parts, fetch_ok.1 hd, Method.parts, hu]

theorem resolveTypes : Obeys (Λ.descent hG) π v (Resolve.resolveTypes c) fun _ _ => True := by
  refine .ask_bind fun s d hs hd => .look_bind .classScope fun _ => .within ?_
  have hc := hΛ.classHere hs (fetch_ok.1 hd)
  refine .ask_bind fun s d hs hd => .bind (each fun f hf v => resolveField ?_) fun _ _ _ _ =>
    .ask_bind fun s d hs hd => each fun m hm v => resolveSignature fun {v} => ?_
  · exact (Λ.at_here hc (by simp)).part (hs.member hd (by simp [ClassDecl.parts, hf]) (by simp))
      (by simp)
  · exact (Λ.at_here hc (by simp)).part (hs.member hd (by simp [ClassDecl.parts, hm]) (by simp))
      (by simp)

omit hΛ in
theorem bindParam {u : VarId} (hm : Λ.At v π (.method m)) (hu : .var u ∈ p.parts (.method m)) :
    Obeys (Λ.descent hG) π v (Resolve.bindParam u) fun _ _ => True := by
  refine .ask_bind fun s d hs hd => .imp (.define (hs.line hm ?_) fun hs ht =>
    hs.define (show Λ.Means G v (.var u) from trivial) ht) fun _ _ _ _ => trivial
  rw [(hs.slots (.method m)).mem_iff (by simp), Program.parts] at hu
  cases hget : s.program.methods.get? m with
  | none => simp [hget] at hu
  | some md =>
    have hu : u ∈ md.params := by simpa [hget, Method.parts] using hu
    rw [Program.lines, hget]
    exact List.mem_cons_of_mem _ (List.mem_flatMap.2 ⟨u, hu, by rw [fetch_ok.1 hd]; simp⟩)

/-- A method is resolved only if the jumps of its body have somewhere to go. -/
theorem resolveMethod {i : ScopeId} {file : FileId} (hc : Λ.Here file (.classDecl c))
    (hm : .method m ∈ p.parts (.classDecl c)) (hπ : π.method = none) (ha : π.around = []) :
    Obeys (Λ.descent hG) π v (Resolve.resolveMethod file i m) fun _ _ =>
      ∀ x, .stmt x ∈ p.parts (.method m) → p.JumpsLand [] x := by
  refine .ask_bind fun s d hs hd => ?_
  have hparts : ∀ {x}, .stmt x ∈ p.parts (.method m) ↔ d.body = some x := by
    intro x
    rw [(hs.slots (.method m)).mem_iff (by simp), Program.parts, fetch_ok.1 hd]
    simp [Method.parts]
  cases hb : d.body with
  | none => exact .pure fun x hx => by simp [hparts, hb] at hx
  | some body =>
    have hbody := hparts.2 hb
    have hat : ∀ {v}, Λ.At v { π with method := some m, file } (.method m) :=
      (Λ.at_here hc (by simp)).part hm (by simp)
    refine .bind (Q := fun _ _ => True)
      (fun _ s hs _ => .of_ok rfl le_rfl hs.addScope ⟨rfl, rfl, rfl, rfl, rfl, rfl⟩ trivial)
      fun _ j _ _ =>
      .inMethod hπ (.within (.ask_bind fun s d hs hd => .bind (each fun u hu v => bindParam hat ?_)
        fun v _ _ _ => (Obeys.resolveStmt ?_).imp fun _ _ _ hdone x hx => ?_))
    · refine ((hs.slots (.method m)).mem_iff (by simp)).2 ?_
      simp [Program.parts, fetch_ok.1 hd, Method.parts, hu]
    · obtain ⟨⟨y, hy, hyx⟩, -⟩ := hat (v := v)
      refine ⟨⟨y, hy, hyx.tail (.part hbody)⟩, ?_⟩
      rintro z ⟨⟩
      exact ha ▸ hΛ.bodies ⟨m, hm, hbody⟩
    · obtain rfl : body = x := Option.some.inj (hb.symm.trans (hparts.1 hx))
      exact ha ▸ hdone

theorem resolveCode (hπ : π.method = none) (ha : π.around = []) :
    Obeys (Λ.descent hG) π v (Resolve.resolveCode c) fun _ _ => ∀ x,
    p.BodyOf c x → p.JumpsLand [] x := by
  refine .ask_bind fun s d hs hd => .look_bind .classScope fun i => .ask_bind fun s' d' hs' hd' =>
    .imp (.forM (P := fun _ => True) (fun _ h => h) (fun _ h => h) trivial fun m hm v _ =>
      resolveMethod hΛ (hΛ.classHere hs (fetch_ok.1 hd)) ?_ hπ ha) ?_
  · exact hs'.member hd' (by simp [ClassDecl.parts, hm]) (by simp)
  · rintro v - - h x ⟨m, hm, hx⟩
    rw [(hs'.slots (.classDecl c)).mem_iff (by simp), Program.parts, fetch_ok.1 hd'] at hm
    exact h m (by simpa [ClassDecl.parts] using hm) x hx

omit hΛ in
theorem ends {α : Type} {x : Pass α} {Q : Growth → α → Prop} (hG : Interval.Family G)
    (h : Obeys (Λ.descent hG) s.place v x Q) (hs : Grown Λ G v s) : Ends Λ.Excuses x s fun a s' =>
      x s = .ok a s' ∧ ∃ v', Grown Λ G v' s' ∧ SamePlace s s' ∧ Q v' a := by
  obtain ⟨v', -, h⟩ := h (Δ := ∅) s hs rfl
  constructor
  · intro a s' hrun
    rw [hrun] at h
    exact ⟨hrun, v', h⟩
  · intro b s' hrun
    rw [hrun] at h
    exact h.2.2

/-- The pass stops only where it may, and comes to its end only if the jumps of all bodies
have somewhere to go. -/
theorem run (hf : Fresh p) : Ends Λ.Excuses Resolve.run (.start p) fun _ _ =>
    ∀ c x, p.BodyOf c x → p.JumpsLand [] x := by
  have hG : Interval.Family fun _ => True := Interval.family_all
  have hstart : Grown Λ (fun _ => True) ⟨[], ∅⟩ (.start p) :=
    .start p.within_all fun n hn text k hk => by
    have := (hf.exprs n hn).2
    simp [hk, Expr.symbol?] at this
  have hreg := hΛ.register hG hstart
  rw [run_eq]
  refine Ends.bind (P := fun _ s => Declared p s ∧ Grown Λ (fun _ => True) ⟨[], ∅⟩ s)
    ⟨fun _ s run => ⟨declared_of_register run, hreg.ok _ _ run⟩, hreg.error⟩ ?_
  rintro _ s0 ⟨hs0, hg0⟩
  refine (ends hG hΛ.resolveClasses hg0).bind ?_
  rintro _ s1 ⟨run1, v1, hg1, hplace1, -⟩
  obtain ⟨-, hperm, -⟩ := linked_of_resolveClasses hf hs0 run1
  refine (ends hG hΛ.resolveConsts hg1).bind ?_
  rintro _ s2 ⟨run2, v2, hg2, hplace2, -⟩
  have hord : s2.program.ordered = s1.program.ordered :=
    ((HasOrder.abiding.resolveConsts s1).of_ok ⟨rfl, rfl⟩ run2).1.2
  have hmethod : s2.place.method = none := hplace2.method.trans (hplace1.method.trans hs0.method)
  have haround : s2.place.around = [] :=
    hplace2.breakables.trans (hplace1.breakables.trans hs0.breakables)
  have hcode : Obeys (Λ.descent hG) s2.place v2 (do
      s2.program.ordered.forM Resolve.resolveTypes
      s2.program.ordered.forM Resolve.resolveCode) fun _ _ =>
        ∀ c ∈ s2.program.ordered, ∀ x, p.BodyOf c x → p.JumpsLand [] x :=
    .bind (each fun _ _ _ => hΛ.resolveTypes) fun _ _ _ _ =>
      .forM (P := fun _ => True) (fun _ h => h) (fun _ h => h) trivial fun _ _ _ _ =>
        hΛ.resolveCode hmethod haround
  refine .get_bind ((ends hG hcode hg2).mono ?_ fun _ h => h)
  rintro _ s' ⟨-, -, -, -, h⟩ c x hx
  refine h c (hord ▸ hperm.mem_iff.2 ?_) x hx
  obtain ⟨m, hm, -⟩ := hx
  cases hd : p.classes.get? c with
  | none => simp [Program.parts, hd] at hm
  | some => exact mem_handles.2 (lt_size_of_get? hd)

theorem resolve (hf : Fresh p) : (p.resolve.abort = none → ∀ c x, p.BodyOf c x → p.JumpsLand [] x) ∧
      ∀ d, p.resolve.abort = some (.fault d) → Λ.Blames d := by
  have h := hΛ.run hf
  unfold Program.resolve
  generalize State.start p = s at h ⊢
  cases hs : Resolve.run s with
  | ok a s' => exact ⟨fun _ => h.ok a s' hs, fun d hd => (by cases hd)⟩
  | error b s' =>
    exact ⟨fun hn => (by cases hn), fun d hd => h.error b s' hs d (Option.some.inj hd)⟩

end Locale.Opens

end Ci
