-- The steps of a pass that follows a discipline. A step that starts in one world
-- stops in that one or a later one, and what it gives is said in terms of the world
-- at its end.
import Ci.Proofs.Discipline.Laws

namespace Ci

open Pass Program Arena

variable {α β W : Type} [Preorder W] {L : Discipline W} {π : Spot} {w w' : W} {s : State}
  {x : Pass α} {f : α → Pass β} {Q : W → α → Prop} {R : W → β → Prop}
  {e l : ExprId} {es : List ExprId} {kind kind' : Expr} {line : UInt32} {name : String}
  {g : Program → Query Program} {symbol : Symbol} {q : Program → Query α}
  {Δ : Set (Node × Node)} {n : ExprNode}

/-- From one state of a world, a part of a pass comes back to its place in a state of that world
or a later one. If it ends, it owes no more than at the start and gives what the last argument says,
and if it stops at a fault, that is one it may stop at. -/
def ObeysFrom (L : Discipline W) (Δ : Set (Node × Node)) (w : W) (s : State) (x : Pass α)
    (Q : W → α → Prop) : Prop :=
  ∃ w', w ≤ w' ∧ match x s with
    | .ok a s' => L.Holds Δ w' s' ∧ SamePlace s s' ∧ Q w' a
    | .error b s' => (∃ Δ', L.Holds Δ' w' s') ∧ SamePlace s s' ∧ ∀ d, b = .fault d → L.Blames d

/-- A part of a pass follows the discipline from each state of a world at a place, whatever is
owed there. -/
def Obeys (L : Discipline W) (π : Spot) (w : W) (x : Pass α) (Q : W → α → Prop) : Prop :=
  ∀ ⦃Δ⦄ s, L.Holds Δ w s → s.place = π → ObeysFrom L Δ w s x Q

/-- What is known of an expression that has been looked at. -/
structure Discipline.Reads (L : Discipline W) (π : Spot) (w : W) (e : ExprId) (kind : Expr) :
    Prop where
  here : L.At w π (.expr e)
  fits : L.Fits w e kind
  parts : ∀ y ∈ kind.parts, L.At w π y
  names : ∀ text symbol, kind = .name text (some symbol) → L.Means w symbol

/-- The expression is known to be no literal, and what it holds may stay there. -/
structure Discipline.Open (L : Discipline W) (π : Spot) (w : W) (e : ExprId) : Prop where
  here : L.At w π (.expr e)
  held : L.Held w (.expr e)
  fits : ∃ kind, L.Fits w e kind ∧ kind.isLiteral = false ∧ ∀ y ∈ kind.member, L.Covers w y

theorem Discipline.Reads.mono (h : L.Reads π w e kind) (hw : w ≤ w') : L.Reads π w' e kind :=
  ⟨L.at_mono hw h.here, L.fits_mono hw h.fits, fun y hy => L.at_mono hw (h.parts y hy),
    fun text symbol hk => L.means_mono hw (h.names text symbol hk)⟩

theorem Discipline.Reads.open (h : L.Reads π w e kind) (hh : L.Held w (.expr e))
    (hl : kind.isLiteral = false) (hm : kind.member = []) : L.Open π w e :=
  ⟨h.here, hh, kind, h.fits, hl, by simp [hm]⟩

/-- A name holds nothing. -/
theorem Discipline.Reads.openName {known : Option Symbol} (h : L.Reads π w e (.name name known)) :
    L.Open π w e := h.open (L.held_name h.fits) rfl rfl

theorem Discipline.Open.mono (h : L.Open π w e) (hw : w ≤ w') : L.Open π w' e := by
  obtain ⟨kind, hk, hl, hm⟩ := h.fits
  exact ⟨L.at_mono hw h.here, L.held_mono hw h.held, kind, L.fits_mono hw hk, hl,
    fun y hy => L.covers_mono hw (hm y hy)⟩

/-- What is put in the places of expressions may be visited from where they may. -/
theorem Discipline.at_of_gives {items items' : List ExprId}
    (h : List.Forall₂ (L.Gives w) items items')
    (hi : ∀ item ∈ items, L.At w π (.expr item)) : ∀ item ∈ items', L.At w π (.expr item) := by
  intro item' hi'
  obtain ⟨item, hmem, hg⟩ := exists_of_forall₂ h hi'
  exact L.gives_at (hi item hmem) hg

theorem ObeysFrom.of_ok {a : α} {s' : State} (hx : x s = .ok a s') (hw : w ≤ w')
    (hs : L.Holds Δ w' s')
    (hsame : SamePlace s s') (hq : Q w' a) : ObeysFrom L Δ w s x Q := by
  refine ⟨w', hw, ?_⟩
  rw [hx]
  exact ⟨hs, hsame, hq⟩

theorem ObeysFrom.of_error {b : Abort} (hx : x s = .error b s) (hs : L.Holds Δ w s)
    (hb : ∀ d, b = .fault d → L.Blames d) : ObeysFrom L Δ w s x Q := by
  refine ⟨w, le_rfl, ?_⟩
  rw [hx]
  exact ⟨⟨Δ, hs⟩, .refl s, hb⟩

theorem ObeysFrom.bind_at (h : ObeysFrom L Δ w s x Q)
    (hf : ∀ w' a t, x s = .ok a t → w ≤ w' → L.Holds Δ w' t → t.place = s.place → Q w' a →
      ObeysFrom L Δ w' t (f a) R) : ObeysFrom L Δ w s (x >>= f) R := by
  obtain ⟨w1, hw1, h1⟩ := h
  show ∃ w', w ≤ w' ∧ match EStateM.bind x f s with
    | .ok a s' => L.Holds Δ w' s' ∧ SamePlace s s' ∧ R w' a
    | .error b s' => (∃ Δ', L.Holds Δ' w' s') ∧ SamePlace s s' ∧ ∀ d, b = .fault d → L.Blames d
  unfold EStateM.bind
  cases hx : x s with
  | ok a t =>
    rw [hx] at h1
    obtain ⟨ht, hst, hq⟩ := h1
    obtain ⟨w2, hw2, h2⟩ := hf w1 a t hx hw1 ht hst.place hq
    refine ⟨w2, hw1.trans hw2, ?_⟩
    dsimp only
    split at h2 <;> exact ⟨h2.1, hst.trans h2.2.1, h2.2.2⟩
  | error =>
    rw [hx] at h1
    exact ⟨w1, hw1, h1⟩

theorem ObeysFrom.bind (h : ObeysFrom L Δ w s x Q) (hπ : s.place = π)
    (hf : ∀ w' a, w ≤ w' → Q w' a → Obeys L π w' (f a) R) : ObeysFrom L Δ w s (x >>= f) R :=
  h.bind_at fun w' a t _ hw ht hp hq => hf w' a hw hq t ht (hp.trans hπ)

/-- What comes after an answer. -/
theorem ObeysFrom.ask (hs : L.Holds Δ w s) (h : ∀ a,
    q s.program = .ok a → ObeysFrom L Δ w s (f a) R) :
    ObeysFrom L Δ w s (ask q >>= f) R := by
  cases hq : q s.program with
  | ok a =>
    unfold ObeysFrom
    rw [bind_ok (ask_eq_ok.2 ⟨hq, rfl⟩)]
    exact h a hq
  | error b =>
    exact .of_error (b := .broken b)
      (by simp [Pass.ask, answer, hq, Bind.bind, EStateM.bind]) hs (by simp)

/-- A slot is owed until what it holds is covered. -/
theorem ObeysFrom.pays {y z : Node}
    (h : ObeysFrom L (insert (y, z) Δ) w s x fun w' a => Q w' a ∧ L.Covers w' z) :
    ObeysFrom L Δ w s x Q := by
  obtain ⟨w', hw, hx⟩ := h
  refine ⟨w', hw, ?_⟩
  split at hx
  · exact ⟨L.pay hx.1 hx.2.2.2, hx.2.1, hx.2.2.1⟩
  · exact hx

/-- An expression that is left as it is holds one thing that is not covered, and that is covered
at the end. -/
theorem ObeysFrom.owing {z : Node} (hs : L.Holds Δ w s) (hn : s.program.exprs.get? e = some n)
    (hz : ∀ y ∈ n.kind.parts, y = z ∨ y ∈ n.kind.member)
    (h : ∀ w', w ≤ w' → L.Held w' (.expr e) → L.Holds (insert (.expr e, z) Δ) w' s →
      ObeysFrom L (insert (.expr e, z) Δ) w' s x fun w' a => Q w' a ∧ L.Covers w' z) :
    ObeysFrom L Δ w s x Q := by
  obtain ⟨w', hw, hs', hh⟩ := L.hold (L.owe (.expr e, z) hs) hn fun y hy =>
    .inr ((hz y hy).symm.imp_right (by rintro rfl; exact Set.mem_insert _ _))
  obtain ⟨w2, hw2, hx⟩ := (h w' hw hh hs').pays
  exact ⟨w2, hw.trans hw2, hx⟩

theorem ObeysFrom.change {Q : W → Prop} (hs : L.Holds Δ w s) (h : ∀ q, g s.program = .ok q →
      ∃ w', w ≤ w' ∧ L.Holds Δ w' { s with program := q } ∧ Q w') :
    ObeysFrom L Δ w s (Pass.change g) fun w' _ => Q w' := by
  cases hg : g s.program with
  | ok q =>
    obtain ⟨w', hw, hq, ha⟩ := h q hg
    exact .of_ok (a := ()) (change_eq_ok.2 ⟨q, hg, rfl⟩) hw hq (SamePlace.refl s).set_program ha
  | error b => exact .of_error (b := .broken b) (by simp [Pass.change, hg]) hs (by simp)

/-- An expression of the same outline. What it holds is covered, or a member, or owed. -/
theorem ObeysFrom.replace (hs : L.Holds Δ w s) (h : L.Fits w e kind) (hl : kind.isLiteral = false)
    (ht : Turns (L.Gives w) (fun y => L.Covers w y ∨ y ∈ kind.member ∨ (.expr e, y) ∈ Δ)
      kind.parts kind'.parts)
    (ho : kind'.outline = kind.outline) (hm : kind'.member = kind.member)
    (hn : ∀ text symbol, kind' = .name text (some symbol) → L.Means w symbol) :
    ObeysFrom L Δ w s (Pass.replace e kind') fun w' _ => L.Held w' (.expr e) := by
  refine .change hs fun q hq => ?_
  obtain ⟨n, hget, rfl⟩ := updateExpr_ok.1 hq
  exact L.replace hs h hl ht ho hm hn hget

/-- A name is bound in a scope, unless it is bound there. -/
theorem defineIn_eq (i : ScopeId) (line : UInt32) (name : String) (symbol : Symbol) (s : State) :
    defineIn i line name symbol s = match s.table.define? i name symbol with
      | .ok (some t) => .ok () { s with table := t }
      | .ok none => .error (.fault ⟨s.program.path s.file, line, .duplicateSymbol name⟩) s
      | .error b => .error (.broken b) s := by
  simp only [defineIn, askTable, answer, Bind.bind, EStateM.bind]
  rcases s.table.define? i name symbol with _ | _ | _ <;> rfl

namespace Obeys

/-! ## Sequences -/

theorem bind (h : Obeys L π w x Q)
    (hf : ∀ w' a, w ≤ w' → Q w' a → Obeys L π w' (f a) R) : Obeys L π w (x >>= f) R :=
  fun _ s hs hπ => (h s hs hπ).bind hπ hf

theorem imp {Q' : W → α → Prop} (h : Obeys L π w x Q) (hq : ∀ w' a, w ≤ w' → Q w' a → Q' w' a) :
    Obeys L π w x Q' := by
  intro Δ s hs hπ
  obtain ⟨w', hw, hx⟩ := h s hs hπ
  refine ⟨w', hw, ?_⟩
  split <;> simp_all

/-- A part that only looks. -/
theorem silent (h : Silent es x) (hes : ∀ e ∈ es, L.At w π (.expr e))
    (hq : ∀ {Δ} s a, L.Holds Δ w s → s.place = π → x s = .ok a s → Q w a) : Obeys L π w x Q := by
  intro Δ s hs hπ
  have hx := h s
  cases heq : x s with
  | ok a =>
    rw [heq] at hx
    subst hx
    exact .of_ok heq le_rfl hs (.refl _) (hq _ a hs hπ heq)
  | error =>
    rw [heq] at hx
    obtain ⟨rfl, hd⟩ := hx
    refine .of_error heq hs fun d hb => ?_
    obtain ⟨file, line, fault⟩ := d
    obtain ⟨hj, rfl, e, he, n, hn, rfl⟩ := hd _ hb
    refine L.blame hs ?_ hj
    rw [hπ]
    exact L.line hs (hes e he) (by simp [lines, hn])

theorem pure {a : α} (h : Q w a) : Obeys L π w (pure a) Q :=
  silent (show Silent [] _ from .pure) (by simp) fun _ _ _ _ hx => by cases hx; exact h

theorem silent_bind (h : Silent es x) (hes : ∀ e ∈ es, L.At w π (.expr e))
    (hf : ∀ a, Obeys L π w (f a) R) : Obeys L π w (x >>= f) R :=
  bind (silent (Q := fun w' _ => w' = w) h hes fun _ _ _ _ _ => rfl) fun _ a _ hw => hw ▸ hf a

theorem look_bind (h : Silent [] x) (hf : ∀ a, Obeys L π w (f a) R) : Obeys L π w (x >>= f) R :=
  silent_bind h (by simp) hf

theorem check_bind (h : Silent [e] x) (he : L.At w π (.expr e)) (hf : ∀ a, Obeys L π w (f a) R) :
    Obeys L π w (x >>= f) R := silent_bind h (by simpa using he) hf

/-! ## Faults -/

theorem fail {fault : Fault} (h : L.Lines π line) (hj : fault.isJump = false) :
    Obeys L π w (fail line fault) Q := by
  intro Δ s hs hπ
  refine ⟨w, le_rfl, ⟨Δ, hs⟩, .refl s, fun d hd => ?_⟩
  cases hd
  exact L.blame hs (hπ ▸ h) hj

theorem failAt {fault : Fault} (h : L.At w π (.expr e)) (hj : fault.isJump = false) :
    Obeys L π w (failAt e fault) Q := silent (.failAt hj) (by simpa using h) (by simp)

theorem mismatchAt {expected : String} {got : Ty} (h : L.At w π (.expr e)) :
    Obeys L π w (mismatchAt e expected got) Q := look_bind .ask fun _ => failAt h rfl

theorem mismatchTy {expected got : Ty} (h : L.At w π (.expr e)) :
    Obeys L π w (mismatchTy e expected got) Q := look_bind .ask fun _ => mismatchAt h

theorem stuck {b : Broken} : Obeys L π w (answer (.error b)) Q := silent .answer (by simp) (by simp)

/-! ## Questions -/

/-- What comes after an answer, from the state that has given it. -/
theorem ask_at
    (h : ∀ {Δ} s a, L.Holds Δ w s → s.place = π → q s.program = .ok a → ObeysFrom L Δ w s (f a) R) :
    Obeys L π w (ask q >>= f) R := fun _ s hs hπ => .ask hs fun a => h s a hs hπ

theorem ask_bind (h : ∀ {Δ} s a, L.Holds Δ w s → q s.program = .ok a → Obeys L π w (f a) R) :
    Obeys L π w (ask q >>= f) R := ask_at fun s a hs hπ hq => h s a hs hq s hs hπ

theorem get_bind {f : State → Pass β} (h : ∀ {Δ} s,
    L.Holds Δ w s → s.place = π → Obeys L π w (f s) R) :
    Obeys L π w (get >>= f) R := fun _ s hs hπ => h s hs hπ s hs hπ

theorem node_bind {f : ExprNode → Pass β} (he : L.At w π (.expr e))
    (h : ∀ n, L.Reads π w e n.kind → Obeys L π w (f n) R) : Obeys L π w (node e >>= f) R := by
  refine ask_bind fun s n hs hn => h n ?_
  obtain ⟨hf, hp, hm⟩ := L.node hs he (fetch_ok.1 hn)
  exact ⟨he, hf, hp, hm⟩

theorem valueTy : Obeys L π w (valueTy e) fun w' t => w' = w ∧ t.Within L.Family := by
  refine silent .ask (by simp) fun s t hs _ hx => ⟨rfl, ?_⟩
  have ht := (ask_eq_ok.1 hx).1
  simp only [Program.valueTy, typeOf, Query.bind_ok, Query.pure_ok, fetch_ok] at ht
  obtain ⟨_, ⟨n, hn, rfl⟩, rfl⟩ := ht
  exact .getD ((L.types hs).exprs n (mem_toList_of_get? hn))

theorem valueTy_bind {f : Ty → Pass β} (h : ∀ t, t.Within L.Family → Obeys L π w (f t) R) :
    Obeys L π w (Pass.valueTy e >>= f) R := valueTy.bind fun _ t _ hq => hq.1 ▸ h t hq.2

/-- What a name is found to stand for is what it may stand for. -/
theorem find_bind {look : Resolve.Look} {f : Option Symbol → Pass β}
    {i : ScopeTable → ScopeId} (hlook : Finds look)
    (h : ∀ symbol, (∀ found, symbol = some found → L.Means w found) → Obeys L π w (f symbol) R) :
    Obeys L π w (askTable (fun t => look t (i t) name) >>= f) R := by
  refine bind (Q := fun w' symbol => w' = w ∧ ∀ found, symbol = some found → L.Means w found)
    (silent .askTable (by simp) fun s symbol hs _ hx => ⟨rfl, ?_⟩) fun _ symbol _ hq =>
      hq.1 ▸ h symbol hq.2
  rintro found rfl
  obtain ⟨j, c, hc, hb⟩ := hlook _ _ _ _ (askTable_eq_ok.1 hx).1
  exact L.bound hs hc hb

/-! ## Changes -/

theorem change {Q : W → Prop} (h : ∀ {Δ} s q, L.Holds Δ w s → g s.program = .ok q →
      ∃ w', w ≤ w' ∧ L.Holds Δ w' { s with program := q } ∧ Q w') :
    Obeys L π w (change g) fun w' _ => Q w' := fun _ s hs _ => .change hs fun q => h s q hs

/-- A change in the same world. -/
theorem changeHere
    (h : ∀ {Δ} s q, L.Holds Δ w s → g s.program = .ok q → L.Holds Δ w { s with program := q }) :
    Obeys L π w (Pass.change g) fun w' _ => w' = w :=
  change fun s q hs hq => ⟨w, le_rfl, h s q hs hq, rfl⟩

theorem then_bind {x : Pass Unit} {f : Unit → Pass β} (h : Obeys L π w x fun w' _ => w' = w)
    (hf : Obeys L π w (f ()) R) : Obeys L π w (x >>= f) R := bind h fun _ _ _ hw => hw ▸ hf

theorem replace (h : L.Fits w e kind) (hl : kind.isLiteral = false)
    (ht : Turns (L.Gives w) (fun y => L.Covers w y ∨ y ∈ kind.member) kind.parts kind'.parts)
    (ho : kind'.outline = kind.outline) (hm : kind'.member = kind.member)
    (hn : ∀ text symbol, kind' = .name text (some symbol) → L.Means w symbol) :
    Obeys L π w (replace e kind') fun w' _ => L.Held w' (.expr e) :=
  fun _ _ hs _ => .replace hs h hl (ht.mono (fun _ _ h => h) fun _ h => h.imp_right .inl) ho hm hn

theorem record {t : Ty} (h : L.Open π w e) (ht : t.Within L.Family) :
    Obeys L π w (record e t) fun w' _ => L.Gives w' e e := by
  refine change fun s q hh hq => ?_
  obtain ⟨n, hget, rfl⟩ := updateExpr_ok.1 hq
  obtain ⟨kind, hk, hl, hm⟩ := h.fits
  exact L.record hh hk hl h.held hm ht hget

theorem typed {t : Ty} (h : L.Open π w e) (ht : t.Within L.Family) :
    Obeys L π w (typed e t) (L.Gives · e) := bind (record h ht) fun _ _ _ hg => pure hg

theorem fold {value : Literal} (h : L.At w π (.expr e)) :
    Obeys L π w (fold e value) (L.Gives · e) := by
  refine ask_at fun s n hs _ hn => ?_
  by_cases hsize : s.program.exprs.size < UInt32.size
  · obtain ⟨w', hw, hs', hg⟩ := L.fold (v := value) hs h (fetch_ok.1 hn) hsize
    exact .of_ok (if_pos hsize) hw hs' (SamePlace.refl s).set_program hg
  · exact .of_error (if_neg hsize) hs (by simp)

theorem defineIn {i : ScopeId} (hl : L.Lines π line)
    (h : ∀ {Δ s t}, L.Holds Δ w s → s.table.define? i name symbol = .ok (some t) →
      L.Holds Δ w { s with table := t }) :
    Obeys L π w (defineIn i line name symbol) fun w' _ => w' = w := by
  intro Δ s hs hπ
  have hx := defineIn_eq i line name symbol s
  split at hx
  · refine .of_ok hx le_rfl (h hs ‹_›) ⟨?_, rfl, rfl, rfl, rfl, rfl⟩ rfl
    obtain ⟨c, -, -, rfl⟩ := ScopeTable.define?_ok ‹_›
    rfl
  · refine .of_error hx hs ?_
    rintro _ ⟨⟩
    exact L.blame hs (hπ ▸ hl) rfl
  · exact .of_error hx hs (by simp)

theorem define (hl : L.Lines π line)
    (h : ∀ {Δ s i t}, L.Holds Δ w s → s.table.define? i name symbol = .ok (some t) →
      L.Holds Δ w { s with table := t }) :
    Obeys L π w (define line name symbol) fun w' _ => w' = w :=
      look_bind .get fun _ => defineIn hl h

/-! ## Other places -/

/-- A part that runs elsewhere, and comes back to a state with the same program and names. -/
theorem elsewhere {π' : Spot} {there : State → State} {back : State → State → State} {y : Pass α}
    (hx : ∀ s, x s = match y (there s) with
      | .ok a t => .ok a (back s t)
      | .error b t => .error b (back s t))
    (hthere : ∀ s, s.place = π → (there s).place = π' ∧ (there s).program = s.program ∧
      (there s).table.scopes = s.table.scopes)
    (hback : ∀ s t, s.place = π → SamePlace (there s) t → SamePlace s (back s t) ∧
      (back s t).program = t.program ∧ (back s t).table.scopes = t.table.scopes)
    (h : Obeys L π' w y Q) : Obeys L π w x Q := by
  intro Δ s hs hπ
  obtain ⟨hp, hprog, hscopes⟩ := hthere s hπ
  obtain ⟨w', hw, hy⟩ := h _ (L.place hprog hscopes hs) hp
  refine ⟨w', hw, ?_⟩
  rw [hx]
  cases hr : y (there s) with
  | ok _ t =>
    rw [hr] at hy
    obtain ⟨hsame, hprog, hscopes⟩ := hback s t hπ hy.2.1
    exact ⟨L.place hprog hscopes hy.1, hsame, hy.2.2⟩
  | error _ t =>
    rw [hr] at hy
    obtain ⟨hsame, hprog, hscopes⟩ := hback s t hπ hy.2.1
    exact ⟨hy.1.imp fun _ => L.place hprog hscopes, hsame, hy.2.2⟩

theorem within {file : FileId} {i : ScopeId} (h : Obeys L { π with file } w x Q) :
    Obeys L π w (within file i x) Q :=
  elsewhere (fun _ => rfl) (fun s hs => by subst hs; exact ⟨rfl, rfl, rfl⟩)
    (fun s t _ h => ⟨⟨rfl, rfl, h.method, h.breakables, h.classScopes, h.enumScopes⟩, rfl, rfl⟩) h

theorem inside {b : Breakable} (h : Obeys L { π with around := b :: π.around } w x Q) :
    Obeys L π w (inside b x) Q :=
  elsewhere (fun _ => rfl) (fun s hs => by subst hs; exact ⟨rfl, rfl, rfl⟩)
    (fun s t _ h => ⟨⟨h.current, h.file, h.method, congrArg List.tail h.breakables, h.classScopes,
      h.enumScopes⟩, rfl, rfl⟩) h

theorem inMethod {m : MethodId} (hm : π.method = none)
    (h : Obeys L { π with method := some m } w x Q) :
    Obeys L π w (inMethod m x) Q :=
  elsewhere (fun _ => rfl) (fun s hs => by subst hs; exact ⟨rfl, rfl, rfl⟩)
    (fun s t hs h => ⟨⟨h.current, h.file, hm.symm.trans (hs ▸ rfl), h.breakables, h.classScopes,
      h.enumScopes⟩, rfl, rfl⟩) h

theorem inScope {k : ScopeKind} {y : StmtId} (hy : L.At w π (.stmt y)) (h : Obeys L π w x Q) :
    Obeys L π w (inScope k x) Q := by
  refine get_bind fun s _ hs => bind (Q := fun w' _ => w' = w) (fun _ t ht _ => ?_)
    fun _ i _ hw => ?_
  · exact .of_ok rfl le_rfl (L.addScope ht hy) ⟨rfl, rfl, rfl, rfl, rfl, rfl⟩ rfl
  · subst hw hs
    exact within h

/-! ## Lists -/

theorem forM {ι : Type} {g : ι → Pass Unit} {P : W → Prop} {D : W → ι → Prop} {xs : List ι}
    (hmono : ∀ {w w'}, w ≤ w' → P w → P w') (hD : ∀ {w w' i}, w ≤ w' → D w i → D w' i) (hw : P w)
    (h : ∀ i ∈ xs, ∀ w, P w → Obeys L π w (g i) fun w' _ => D w' i) :
    Obeys L π w (xs.forM g) fun w' _ => ∀ i ∈ xs, D w' i := by
  induction xs generalizing w with
  | nil => exact pure (by simp)
  | cons i xs ih =>
    show Obeys L π w (g i >>= fun _ => xs.forM g) _
    refine bind (h i (by simp) w hw) fun w' _ hle hi =>
      (ih (hmono hle hw) fun j hj => h j (by simp [hj])).imp fun _ _ hle' hxs => ?_
    exact List.forall_mem_cons.2 ⟨hD hle' hi, hxs⟩

theorem mapM {ι : Type} {g : ι → Pass α} {P : W → Prop} {R : W → ι → α → Prop} {xs : List ι}
    (hmono : ∀ {w w'}, w ≤ w' → P w → P w') (hR : ∀ {w w' i a}, w ≤ w' → R w i a → R w' i a)
    (hw : P w)
    (h : ∀ i ∈ xs, ∀ w, P w → Obeys L π w (g i) fun w' a => R w' i a) :
    Obeys L π w (xs.mapM g) fun w' as => List.Forall₂ (R w') xs as := by
  induction xs generalizing w with
  | nil =>
    rw [List.mapM_nil]
    exact pure .nil
  | cons i _ ih =>
    rw [List.mapM_cons]
    refine bind (h i (by simp) w hw) fun w1 a hle ha =>
      bind (ih (hmono hle hw) fun j hj => h j (by simp [hj])) fun w2 as hw has => pure ?_
    exact .cons (hR hw ha) has

end Obeys

end Ci
