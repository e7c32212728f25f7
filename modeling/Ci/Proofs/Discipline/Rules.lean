-- Types, constants and statements follow every discipline, and with them all the
-- rules that call each other.
import Ci.Proofs.Discipline.Expressions

namespace Ci

open Pass Resolve Program Arena

variable {W : Type} [Preorder W] {L : Discipline W} {π : Spot} {w w' : W} {e l r : ExprId}
  {kind : Expr} {calls : Calls} {β : Type} {writable : Bool} {x : StmtId} {c : Case}
  {value : Option ExprId} {R : W → β → Prop} {s : State} {n : ExprNode} {Δ : Set (Node × Node)}

/-- The constant is being visited, and what it holds may stay there. -/
def Discipline.Ready (L : Discipline W) (w : W) (k : ConstId) : Prop :=
  ∃ d, L.FitsConst w k d ∧ (∀ t ∈ d.typeExpr, L.Covers w (.expr t)) ∧
  (d.value = none ∨ L.Held w (.const k))

namespace Obeys

/-! ## Types -/

theorem constantInt_bind {f : ExprId × Int64 → Pass β} (hc : calls.Obey L) (he : L.At w π (.expr e))
    (h : ∀ w' e' n, w ≤ w' → L.Gives w' e e' → Obeys L π w' (f (e', n)) R) :
    Obeys L π w (constantInt calls e >>= f) R := by
  refine bind (Q := fun w' b => L.Gives w' e b.1) ?_ fun w' b hw hb => h w' b.1 b.2 hw hb
  refine bind (hc.expr he) fun w' e' hw hg => look_bind .ask fun v => ?_
  split
  · exact pure hg
  · exact look_bind .ask fun _ => mismatchAt (L.at_mono hw he)
  · exact failAt (L.at_mono hw he) rfl

theorem rangeTo_bind {f : ExprId × Ty → Pass β} {min : Int64}
    {included : Bool} (hc : calls.Obey L) (he : L.At w π (.expr e))
    (h : ∀ w' e' t, w ≤ w' → L.Gives w' e e' → t.Within L.Family → Obeys L π w' (f (e', t)) R) :
    Obeys L π w (rangeTo calls min included e >>= f) R := by
  refine bind (Q := fun w' b => L.Gives w' e b.1 ∧ b.2.Within L.Family) ?_
    fun w' b hw hb => h w' b.1 b.2 hw hb.1 hb.2
  refine constantInt_bind hc he fun w' e' n hw hg => ?_
  dsimp only
  generalize (if included then n else Saturating.sub n 1) = max
  -- a range that is not rejected holds its lower bound
  by_cases hlt : max < min
  · rw [if_pos hlt]
    exact failAt (L.at_mono hw he) rfl
  · rw [if_neg hlt]
    exact pure ⟨hg, L.family.valid (Int64.not_lt.1 hlt)⟩

theorem storageType (he : L.At w π (.expr e)) :
    Obeys L π w (Resolve.storageType e) fun w' t => t.Within L.Family ∧ L.Covers w' (.expr e) := by
  have hrecord : ∀ {w'} {t : Ty}, L.Open π w' e → t.Within L.Family → Obeys L π w'
      (Pass.record e t >>= fun _ => Pure.pure t) fun w' t => t.Within L.Family ∧
      L.Covers w' (.expr e) :=
    fun ho ht => bind (record ho ht) fun _ _ _ hg => pure ⟨ht, L.gives_covers hg⟩
  refine node_bind he fun n hn => ?_
  split
  · rename_i hk
    rw [hk] at hn
    split
    · exact hrecord hn.openName trivial
    · refine look_bind .askTable fun symbol => ?_
      split
      · exact bind (rename hn fun _ heq => Option.some.inj heq ▸ L.means_other (by simp) (by simp))
          fun _ _ hw _ => hrecord (hn.openName.mono hw) trivial
      · exact failAt he rfl
  · exact failAt he rfl

theorem namedType {name : String} {known : Option Symbol} (h : L.Reads π w e (.name name known)) :
    Obeys L π w (Resolve.namedType e name writable) fun w' t => L.Open π w' e ∧
    t.Within L.Family := by
  refine find_bind (i := fun _ => .program) finds_lookup fun symbol hs => ?_
  refine bind (Q := fun w' t => w' = w ∧ t.Within L.Family) ?_ ?_
  · unfold tyOfSymbol
    split
    · exact pure ⟨rfl, trivial⟩
    · exact pure ⟨rfl, L.means_type (hs _ rfl)⟩
    · exact pure ⟨rfl, trivial⟩
    · exact failAt h.here rfl
    · exact failAt h.here rfl
  · rintro _ t - ⟨rfl, ht⟩
    exact bind (rename h hs) fun _ _ hw _ => pure ⟨h.openName.mono hw, ht⟩

/-- What is read as a type is no literal. -/
theorem plainType (hc : calls.Obey L) (hs : L.Holds Δ w s) (hπ : s.place = π)
    (hn : s.program.exprs.get? e = some n) (h : L.Reads π w e n.kind) :
    ObeysFrom L Δ w s (Resolve.plainType calls e writable n.kind) fun w' t =>
      L.Open π w' e ∧ t.Within L.Family := by
  have hrange : ∀ {rel : Relation} {left right : ExprId},
      L.Reads π w e (.binary (.order rel) left (.expr right)) →
      Obeys L π w (rangeType calls e rel left right) fun w' t => L.Open π w' e ∧
      t.Within L.Family := by
    intro rel left right h
    refine constantInt_bind hc (h.parts (.expr left) (by simp)) fun w1 l' n hw1 hl =>
      rangeTo_bind hc ((h.mono hw1).parts (.expr right) (by simp)) fun w2 r' t hw2 hr ht => ?_
    replace h := h.mono (hw1.trans hw2)
    exact bind (replace h.fits rfl (.cons (.expr (L.gives_mono hw2 hl)) (.cons (.expr hr) .nil)) rfl
      rfl (by simp)) fun _ _ hw hh => pure ⟨(h.mono hw).open hh rfl rfl, ht⟩
  have hzero : ∀ {op : PrefixOp} {inner : ExprId}, L.Reads π w e (.before op inner) →
      Obeys L π w (rangeFromZero calls e op inner) fun w' t => L.Open π w' e ∧
      t.Within L.Family := by
    intro op inner h
    refine rangeTo_bind hc (h.parts (.expr inner) (by simp)) fun w' l' t hw hl ht => ?_
    exact bind (replace (h.mono hw).fits rfl (.cons (.expr hl) .nil) rfl rfl (by simp))
      fun _ _ hw' hh => pure ⟨(h.mono (hw.trans hw')).open hh rfl rfl, ht⟩
  generalize hk : n.kind = kind at h
  unfold Resolve.plainType
  split
  · exact namedType h s hs hπ
  · rename_i left
    refine .owing (z := .expr left) hs hn (by simp [hk]) fun w' hw hh hs' => ?_
    refine (storageType ((h.mono hw).parts _ (by simp))).imp (fun w2 _ hw2 ht => ?_) s hs' hπ
    exact ⟨⟨(h.mono (hw.trans hw2)).open (L.held_mono hw2 hh) rfl rfl, ht.1⟩, ht.2⟩
  · exact failAt h.here rfl s hs hπ
  · exact hrange h s hs hπ
  · exact hrange h s hs hπ
  · exact hzero h s hs hπ
  · exact hzero h s hs hπ
  · exact failAt h.here rfl s hs hπ

theorem baseType (hc : calls.Obey L) (he : L.At w π (.expr e)) :
    Obeys L π w (Resolve.baseType calls e writable) fun w' t =>
      t.Within L.Family ∧ L.Covers w' (.expr e) := by
  refine ask_at fun s n hs hπ hn => ?_
  replace hn := fetch_ok.1 hn
  obtain ⟨hf, hp, hm⟩ := L.node hs he hn
  refine (plainType hc hs hπ hn ⟨he, hf, hp, hm⟩).bind hπ fun w' t _ ht => ?_
  split
  · exact failAt ht.1.here rfl
  · exact bind (record ht.1 ht.2) fun _ _ _ hg => pure ⟨ht.2, L.gives_covers hg⟩

/-- The mark after what it marks stays where it is. -/
theorem takeMark_bind {f : ExprId × Bool → Pass β} (he : L.At w π (.expr e))
    (hplain : Obeys L π w (f (e, false)) R)
    (hmark : ∀ w' b, w ≤ w' → L.Open π w' e → L.At w' π (.expr b) →
      Obeys L π w' (f (b, true)) fun w' a => R w' a ∧ L.Covers w' (.expr b)) :
    Obeys L π w (takeMark e >>= f) R := by
  unfold takeMark
  rw [bind_assoc]
  refine ask_at fun s n hs hπ hn => ?_
  replace hn := fetch_ok.1 hn
  obtain ⟨hf, hp, hm⟩ := L.node hs he hn
  have hr : L.Reads π w e n.kind := ⟨he, hf, hp, hm⟩
  generalize hk : n.kind = kind at hr
  split
  · rename_i b
    refine .owing (z := .expr b) hs hn (by simp [hk]) fun w' hw hh hs' => ?_
    exact hmark w' b hw ((hr.mono hw).open hh rfl rfl) ((hr.mono hw).parts _ (by simp)) s hs' hπ
  · exact hplain s hs hπ

/-- What stands before a length is put back as it was read. Until it is read as a type, it is
owed. -/
theorem readBrackets_bind {f : Resolve.Brackets → Pass β} {length : ExprId} (hc : calls.Obey L)
    (he : L.Reads π w e (.binary .index l (.expr length)))
    (h : ∀ w' b, w ≤ w' → L.Open π w' e → L.At w' π (.expr l) →
      Obeys L π w' (f b) fun w' a => R w' a ∧ L.Covers w' (.expr l)) :
    Obeys L π w (Resolve.readBrackets calls e writable l (some length) >>= f) R := by
  have hn := he.parts (.expr length) (by simp)
  dsimp only [Resolve.readBrackets]
  split
  · exact bind (Q := fun _ _ => False) (failAt he.here rfl) fun _ _ _ h => h.elim
  · rw [bind_assoc]
    refine bind (Q := fun w' b => L.Gives w' length b.1) ?_ fun w1 b hw1 hb Δ s hs hπ => ?_
    · refine constantInt_bind hc hn fun w' n' i hw hg => ?_
      dsimp only
      split
      · exact failAt (L.at_mono hw hn) rfl
      · split
        · exact failAt (L.at_mono hw hn) rfl
        · exact pure hg
    · refine .pays (y := .expr e) (z := .expr l) ?_
      rw [bind_assoc]
      have ht : Turns (L.Gives w1)
          (fun y => L.Covers w1 y ∨ y ∈ (Expr.binary .index l (.expr length)).member ∨
            (.expr e, y) ∈ insert ((.expr e : Node), (.expr l : Node)) Δ)
          (Expr.binary .index l (.expr length)).parts (Expr.binary .index l (.expr b.1)).parts :=
        .cons (.same (.inr (.inr (Set.mem_insert _ _)))) (.cons (.expr hb) .nil)
      refine (ObeysFrom.replace (L.owe _ hs) (he.mono hw1).fits rfl ht rfl rfl (by simp)).bind hπ
        fun w2 _ hw2 hh => ?_
      replace he := he.mono (hw1.trans hw2)
      exact h w2 _ (hw1.trans hw2) (he.open hh rfl rfl) (he.parts (.expr l) (by simp))

/-- The last brackets are taken off. -/
theorem lastBrackets_bind {f : Option (ExprId × Option ExprId) → Pass β}
    {g : ExprId → Resolve.Brackets → Pass β} (hc : calls.Obey L) (he : L.At w π (.expr e))
    (hf : ∀ left length, f (some (left, length)) =
      Resolve.readBrackets calls e writable left length >>= g left)
    (hnone : Obeys L π w (f none) R)
    (hsome : ∀ w' left b, w ≤ w' → L.Open π w' e → L.At w' π (.expr left) →
      Obeys L π w' (g left b) fun w' a => R w' a ∧ L.Covers w' (.expr left)) :
    Obeys L π w (lastBrackets? e >>= f) R := by
  unfold lastBrackets?
  rw [bind_assoc]
  refine ask_at fun s n hs hπ hn => ?_
  replace hn := fetch_ok.1 hn
  obtain ⟨hfits, hp, hm⟩ := L.node hs he hn
  have hr : L.Reads π w e n.kind := ⟨he, hfits, hp, hm⟩
  generalize hk : n.kind = kind at hr
  split
  · rename_i left
    rw [pure_bind, hf]
    refine .owing (z := .expr left) hs hn (by simp [hk]) fun w' hw hh hs' => ?_
    exact hsome w' left _ hw ((hr.mono hw).open hh rfl rfl)
      ((hr.mono hw).parts _ (by simp)) s hs' hπ
  · rename_i left length
    rw [pure_bind, hf]
    exact readBrackets_bind hc hr (fun w' b => hsome w' left b) s hs hπ
  · exact hnone s hs hπ

/-- On the way to the part before the brackets there are no literals. All that is on the way is
covered once the types of these parts have been recorded. -/
theorem takeBrackets_bind {f : Resolve.Spelling → Pass β} (hc : calls.Obey L)
    (he : L.At w π (.expr e))
    (n : Nat) (hf : ∀ w' spelling, w ≤ w' → L.At w' π (.expr spelling.base) →
      (∀ m ∈ spelling.nodes, m ≠ spelling.base → L.Open π w' m) →
      Obeys L π w' (f spelling) fun w' a => R w' a ∧
        L.Covers w' (.expr spelling.base) ∧ ∀ m ∈ spelling.nodes, L.Covers w' (.expr m)) :
    Obeys L π w (Resolve.takeBrackets calls n e >>= f) fun w' a => R w' a ∧
    L.Covers w' (.expr e) := by
  induction n generalizing w e f R with
  | zero => exact bind (Q := fun _ _ => False) stuck fun _ _ _ h => h.elim
  | succ n ih =>
    -- what follows the mark, or the whole if there is none
    have hrest : ∀ {w' b m} {F : Option (ExprId × Option ExprId) → Pass β},
      F none = f ⟨b, m, [], [e]⟩ →
        (∀ left length,
          F (some (left, length)) = Resolve.readBrackets calls b m left length >>= fun last =>
          Resolve.takeBrackets calls n left >>= fun rest =>
            f { rest with brackets := last :: rest.brackets, nodes := e :: b :: rest.nodes }) →
        w ≤ w' → L.At w' π (.expr b) → b = e ∨ L.Open π w' e →
        Obeys L π w' (lastBrackets? b >>= F) fun w' a =>
          (R w' a ∧ L.Covers w' (.expr e)) ∧ L.Covers w' (.expr b) := by
      intro w' b m F hnone hsome hw hb ho
      refine lastBrackets_bind hc hb hsome ?_ fun w1 left last hw1 hob hl => ?_
      · rw [hnone]
        refine (hf w' _ hw hb fun m hm hne => ?_).imp fun _ _ _ h =>
          ⟨⟨h.1, h.2.2 e (by simp)⟩, h.2.1⟩
        obtain rfl := List.mem_singleton.1 hm
        exact ho.resolve_left (Ne.symm hne)
      · refine ih (R := fun w' a => (R w' a ∧ L.Covers w' (.expr e)) ∧ L.Covers w' (.expr b)) hl
          fun w2 rest hw2 hbase hnodes => ?_
        refine (hf w2 { rest with brackets := _, nodes := e :: b :: rest.nodes }
          ((hw.trans hw1).trans hw2) hbase fun m hm hne => ?_).imp fun _ _ _ h =>
          ⟨⟨⟨h.1, h.2.2 e (by simp)⟩, h.2.2 b (by simp)⟩, h.2.1, fun m hm => h.2.2 m (by simp [hm])⟩
        rcases List.mem_cons.1 hm with rfl | hm
        · rcases ho with rfl | ho
          · exact hob.mono hw2
          · exact ho.mono (hw1.trans hw2)
        · rcases List.mem_cons.1 hm with rfl | hm
          · exact hob.mono hw2
          · exact hnodes m hm hne
    rw [Resolve.takeBrackets, bind_assoc]
    refine takeMark_bind he ?_ fun w' b hw ho hb => ?_
    · rw [bind_assoc]
      exact (hrest (pure_bind _ _) (fun _ _ => by simp only [bind_assoc, pure_bind]) le_rfl he
        (.inl rfl)).imp fun _ _ _ h => h.1
    · rw [bind_assoc]
      exact hrest (pure_bind _ _) (fun _ _ => by simp only [bind_assoc, pure_bind]) hw hb (.inr ho)

theorem foldl_array {G : Interval → Prop} {brackets : List Resolve.Brackets} {t : Ty}
    (h : t.Within G) :
    (brackets.foldl Resolve.Brackets.array t).Within G := by
  induction brackets generalizing t with
  | nil => exact h
  | cons b _ ih =>
    refine ih ?_
    cases b <;> exact h

theorem readType (hc : calls.Obey L) (he : L.At w π (.expr e)) :
    Obeys L π w (Resolve.readType calls e) fun w' t => t.Within L.Family ∧
    L.Covers w' (.expr e) := by
  refine look_bind .get fun s => takeBrackets_bind (R := fun _ (t : Ty) => t.Within L.Family) hc he
    _ fun w1 spelling _ hbase hopen => bind (baseType hc hbase) fun w2 t hw2 ht => ?_
  have hall : (spelling.brackets.foldl Resolve.Brackets.array t).Within L.Family := foldl_array ht.1
  have hnodes : ∀ m ∈ spelling.nodes.filter (· != spelling.base), L.Open π w2 m := by
    intro m hm
    obtain ⟨hm, hne⟩ := List.mem_filter.1 hm
    exact (hopen m hm (by simpa using hne)).mono hw2
  refine bind (forM (P := fun w => ∀ m ∈ spelling.nodes.filter (· != spelling.base), L.Open π w m)
    (D := fun w m => L.Covers w (.expr m)) (fun hw h m hm => (h m hm).mono hw)
    (fun hw => L.covers_mono hw) hnodes fun m hm w h =>
      (record (h m hm) hall).imp fun _ _ _ => L.gives_covers) fun w3 _ hw3 hcov => pure ⟨hall, ?_⟩
  have hb := L.covers_mono hw3 ht.2
  refine ⟨hb, fun m hm => ?_⟩
  by_cases hmb : m = spelling.base
  · exact hmb ▸ hb
  · exact hcov m (List.mem_filter.2 ⟨hm, by simpa using hmb⟩)

/-! ## Constants -/

section

variable {k : ConstId} {d : Const}

theorem setValue {a b : ExprId} (hd : L.FitsConst w k d) (ha : d.value = some a)
    (hg : L.Gives w a b)
    (ht : ∀ t ∈ d.typeExpr, L.Covers w (.expr t)) :
    Obeys L π w (Pass.change (·.updateConst k fun d => { d with value := some b })) fun w' _ =>
      L.Held w' (.const k) := by
  refine change fun s q hs hq => ?_
  obtain ⟨d', hd', rfl⟩ := updateConst_ok.1 hq
  exact L.constValue hs hd ha hg ht hd'

theorem ownedValue {t : Option Ty} (hc : calls.Obey L) (hd : L.FitsConst w k d)
    (hp : ∀ y ∈ d.parts, L.At w π y) (hl : L.Lines π d.line) (hte : ∀ t ∈ d.typeExpr,
      L.Covers w (.expr t)) :
    Obeys L π w (Resolve.ownedValue calls k d.line t d.value d.owner) fun w' t =>
      (d.value = none ∨ L.Held w' (.const k)) ∧
        t.Within L.Family ∧ ∀ c, d.owner = .enumDecl c → t = .enumeration c := by
  -- the value is resolved and put back
  have hvalue : ∀ {value} {β : Type} {f : ExprId → Pass β} {R : W → β → Prop},
    d.value = some value →
      (∀ w' value', w ≤ w' → L.At w' π (.expr value') → L.Held w' (.const k) →
        Obeys L π w' (f value') R) →
      Obeys L π w (calls.expr value >>= fun value' =>
        Pass.change (·.updateConst k fun d => { d with value := some value' }) >>= fun _ =>
          f value') R := by
    intro value β f R hv hf
    have hat := hp (.expr value) (by simp [Const.parts, hv])
    refine bind (hc.expr hat) fun w1 value' hw1 hg => bind (setValue (L.fitsConst_mono hw1 hd) hv hg
      fun t ht => L.covers_mono hw1 (hte t ht)) fun w2 _ hw2 hh =>
        hf w2 value' (hw1.trans hw2) ?_ hh
    exact L.gives_at (L.at_mono (hw1.trans hw2) hat) (L.gives_mono hw2 hg)
  have hplain : Obeys L π w (plainValue calls k d.line t d.value) fun w' t =>
      (d.value = none ∨ L.Held w' (.const k)) ∧ t.Within L.Family := by
    cases hv : d.value with
    | none => exact fail hl rfl
    | some =>
      refine hvalue hv fun w' value' hw hat hh => check_bind .checkDeclared hat fun _ =>
        look_bind .ask fun b => ?_
      split
      · exact valueTy.imp fun _ _ _ hq => ⟨.inr (hq.1 ▸ hh), hq.2⟩
      · exact fail hl rfl
  cases ho : d.owner with
  | enumDecl owner =>
    dsimp only [Resolve.ownedValue]
    have hown : ∀ c, Owner.enumDecl owner = .enumDecl c → Ty.enumeration owner = .enumeration c :=
      fun c hc => by cases hc; rfl
    cases hv : d.value with
    | none => exact pure ⟨.inl rfl, trivial, hown⟩
    | some =>
      refine hvalue hv fun w' value' hw hat hh => look_bind .ask fun t => ?_
      split
      · exact pure ⟨.inr hh, trivial, hown⟩
      · exact look_bind .ask fun _ => fail hl rfl
  | program | classDecl | body => exact hplain.imp fun _ _ _ ht => ⟨ht.1, ht.2, by simp⟩

theorem constValue (hc : calls.Obey L) (hk : L.At w π (.const k)) (hd : L.FitsConst w k d) :
    Obeys L π w (Resolve.constValue calls k) fun w' _ => L.Ready w' k := by
  refine ask_bind fun s d' hs hd' => ?_
  replace hd' := fetch_ok.1 hd'
  obtain ⟨hfits, hparts⟩ := L.const hs hk hd hd'
  have hline : L.Lines π d'.line := L.line hs hk (by simp [lines, hd'])
  refine bind (Q := fun w' _ => ∀ t ∈ d'.typeExpr, L.Covers w' (.expr t)) ?_ fun w1 t hw1 hte =>
    bind (ownedValue hc (L.fitsConst_mono hw1 hfits) (fun y hy => L.at_mono hw1 (hparts y hy)) hline
      hte) fun w2 u hw2 hu => ?_
  · cases ht : d'.typeExpr with
    | none => exact pure (by simp)
    | some e =>
      refine bind (hc.type (hparts (.expr e) (by simp [Const.parts, ht]))) fun _ _ _ h =>
        pure fun t ht => ?_
      cases ht
      exact h.2
  · have hfits := L.fitsConst_mono (hw1.trans hw2) hfits
    refine (changeHere fun s q hs hq => ?_).imp fun _ _ _ heq => heq ▸
      ⟨d', hfits, fun t ht => L.covers_mono hw2 (hte t ht), hu.1⟩
    obtain ⟨c, hc, rfl⟩ := updateConst_ok.1 hq
    exact L.constTy hs hfits hu.2.1 hu.2.2 hc

/-- A constant that is visited where it is declared is resolved at the end of the visit. -/
theorem constOnce (hc : calls.Obey L) (hk : L.At w π (.const k) ∨ L.Settled w k) :
    Obeys L π w (once (.const k) (Resolve.constValue calls k)) fun w' _ => L.Settled w' k := by
  refine ask_at fun s status hs hπ hst => ?_
  simp only [Visited.const, Query.bind_ok, Query.pure_ok, fetch_ok] at hst
  obtain ⟨d, hd, rfl⟩ := hst
  -- a constant that has been resolved is not visited again
  have hat : d.status ≠ .resolved → L.At w π (.const k) := fun hne =>
    hk.resolve_right fun hsettled => hne (L.resolved hs hsettled hd)
  cases hstatus : d.status with
  | resolved =>
    obtain ⟨w', hw, hs', hq⟩ := L.settle hs hd hstatus
    exact .of_ok (a := ()) rfl hw hs' (.refl s) hq
  | inProgress =>
    refine (ask_bind fun t c ht hcirc => ?_ : Obeys L π w _ _) s hs hπ
    simp only [Visited.const, Query.bind_ok, Query.pure_ok, fetch_ok] at hcirc
    obtain ⟨d', hd', rfl⟩ := hcirc
    exact fail (L.line ht (hat (by simp [hstatus])) (by simp [lines, hd'])) rfl
  | unvisited =>
    replace hat := hat (by simp [hstatus])
    obtain ⟨w1, hw1, hs1, hf1⟩ := L.visit hs hat hd hstatus
    have hmark : Pass.change ((Visited.const k).mark .inProgress) s =
        .ok () (s.setConst k { d with status := .inProgress }) :=
      updateConst_eq_ok.2 ⟨d, hd, rfl⟩
    refine ObeysFrom.bind (Q := fun w' _ => w1 ≤ w' ∧ L.FitsConst w' k d)
      (.of_ok hmark hw1 hs1 (SamePlace.refl s).set_program ⟨le_rfl, hf1⟩) hπ fun w2 _ hw2 hf2 => ?_
    refine bind (constValue hc (L.at_mono hw2 hat) hf2.2) fun w3 _ _ hf3 => change
      fun t q ht hq => ?_
    obtain ⟨d', hd', rfl⟩ := updateConst_ok.1 hq
    obtain ⟨d, hd, hte, hv⟩ := hf3
    exact L.finishConst ht hd hte hv hd'

theorem constRule (hc : calls.Obey L) (hk : L.Means w (.const k) ∨ L.At w π (.const k)) :
    Obeys L π w (Resolve.constRule calls k) fun w' _ => L.Settled w' k := by
  refine ask_bind fun s d hs hd => ?_
  have hhome : ∀ {Δ s' π'}, L.Holds Δ w s' → s'.program.Homes π d.owner π' → L.At w π' (.const k) ∨
    L.Settled w k := L.home hs hk (fetch_ok.1 hd)
  dsimp only
  cases ho : d.owner with
  | program file => exact within (constOnce hc (hhome hs (ho ▸ .program file)))
  | classDecl c =>
    exact ask_bind fun t c ht hcl => look_bind .classScope fun _ =>
      within (constOnce hc (hhome ht (ho ▸ .classDecl (fetch_ok.1 hcl))))
  | enumDecl =>
    exact ask_bind fun t c ht hen => look_bind .enumScope fun _ =>
      within (constOnce hc (hhome ht (ho ▸ .enumDecl (fetch_ok.1 hen))))
  | body => exact constOnce hc (hhome hs (ho ▸ .body))

end

/-! ## The circle -/

/-- All the rules that call each other, down to any depth. -/
theorem callsWithin (L : Discipline W) (n : Nat) : (Resolve.callsWithin n).Obey L := by
  induction n with
  | zero => exact ⟨fun _ => stuck, fun _ => stuck, fun _ => stuck⟩
  | succ _ ih => exact ⟨exprRule ih, readType ih, constRule ih⟩

theorem calls_bind {f : Calls → Pass β}
    (h : ∀ c : Calls, c.Obey L → Obeys L π w (f c) R) : Obeys L π w (Resolve.calls >>= f) R :=
  bind (Q := fun w' c => w' = w ∧ c.Obey L)
    (look_bind .get fun _ => pure ⟨rfl, callsWithin L _⟩) fun _ c _ hq => hq.1 ▸ h c hq.2

theorem resolveExpr (he : L.At w π (.expr e)) : Obeys L π w (Resolve.resolveExpr e) (L.Gives · e) :=
  calls_bind fun _ hc => hc.expr he

theorem resolveCondition (he : L.At w π (.expr e)) :
    Obeys L π w (Resolve.resolveCondition e) (L.Gives · e) := condition he (resolveExpr he)

theorem resolveType (he : L.At w π (.expr e)) :
    Obeys L π w (Resolve.resolveType e) fun w' t => t.Within L.Family ∧ L.Covers w' (.expr e) :=
  calls_bind fun _ hc => hc.type he

theorem resolveConst {k : ConstId} (hk : L.Means w (.const k) ∨ L.At w π (.const k)) :
    Obeys L π w (Resolve.resolveConst k) fun w' _ => L.Settled w' k :=
    calls_bind fun _ hc => hc.const hk

end Obeys

/-! ## Statements -/

/-- What is known of a statement that has been looked at. -/
structure Discipline.Meets (L : Discipline W) (π : Spot) (w : W) (x : StmtId) (kind : Stmt) :
    Prop where
  here : L.At w π (.stmt x)
  fits : L.FitsStmt w x kind
  parts : ∀ y ∈ kind.parts, (∀ z, y ≠ .stmt z) → L.At w π y
  inner : ∀ b ∈ kind.inner π.around, L.At w { π with around := b.1 } (.stmt b.2)

theorem Discipline.Meets.mono {kind : Stmt} (h : L.Meets π w x kind) (hw : w ≤ w') :
    L.Meets π w' x kind :=
  ⟨L.at_mono hw h.here, L.fitsStmt_mono hw h.fits, fun y hy hn => L.at_mono hw (h.parts y hy hn),
    fun b hb => L.at_mono hw (h.inner b hb)⟩

/-- What a statement has become, and what has been done inside it. -/
structure Discipline.Redone (L : Discipline W) (π : Spot) (w : W) (kind kind' : Stmt) : Prop where
  slots : Turns (L.Gives w) (L.Covers w) kind.parts kind'.parts
  outline : kind'.outline = kind.outline
  lands : kind.Lands π.around
  inner : ∀ b ∈ kind.inner π.around, L.Done w { π with around := b.1 } b.2

/-- What is known of a case that has been looked at. -/
structure Discipline.MeetsCase (L : Discipline W) (π : Spot) (w : W) (c : Case) : Prop where
  values : ∀ e ∈ c.values, L.At w π (.expr e)
  body : ∀ y ∈ c.body, L.At w π (.stmt y)

theorem Discipline.MeetsCase.mono (h : L.MeetsCase π w c) (hw : w ≤ w') : L.MeetsCase π w' c :=
  ⟨fun e he => L.at_mono hw (h.values e he), fun y hy => L.at_mono hw (h.body y hy)⟩

/-- What a case has become, and what has been done inside it. -/
structure Discipline.RedoneCase (L : Discipline W) (π : Spot) (w : W) (c c' : Case) : Prop where
  slots : Turns (L.Gives w) (L.Covers w) c.parts c'.parts
  outline : c'.outline = c.outline
  body : ∀ y ∈ c.body, L.Done w π y

theorem Discipline.RedoneCase.mono {c' : Case} (h : L.RedoneCase π w c c') (hw : w ≤ w') :
    L.RedoneCase π w' c c' :=
  ⟨h.slots.mono (fun _ _ => L.gives_mono hw) fun _ => L.covers_mono hw, h.outline,
    fun y hy => L.done_mono hw (h.body y hy)⟩

/-- The statements of a body stay in their slots. -/
theorem Discipline.stays {body : List StmtId} (h : ∀ y ∈ body, L.Done w π y) :
    Turns (L.Gives w) (L.Covers w) (body.map .stmt) (body.map .stmt) := by
  refine .stay fun y hy => ?_
  obtain ⟨x, hx, rfl⟩ := List.mem_map.1 hy
  exact L.done_covers (h x hx)

namespace Obeys

theorem optional {resolve : ExprId → Pass ExprId} (hv : ∀ e, value = some e → L.At w π (.expr e))
    (h : ∀ e, L.At w π (.expr e) → Obeys L π w (resolve e) (L.Gives · e)) :
    Obeys L π w (value.mapM resolve) fun w' value' =>
      List.Forall₂ (L.Gives w') value.toList value'.toList ∧
        value'.map (fun _ => Handle.any) = value.map fun _ => (Handle.any : ExprId) := by
  cases value with
  | none => exact pure ⟨.nil, rfl⟩
  | some e => exact bind (h e (hv e rfl)) fun _ _ _ he => pure ⟨.cons he .nil, rfl⟩

section

variable {x : StmtId} {line : UInt32} {recur : StmtId → Pass Unit}
  (hrec : ∀ {π w x}, L.At w π (.stmt x) → Obeys L π w (recur x) fun w' _ => L.Done w' π x)

theorem ret (h : L.Meets π w x (.ret value)) (hl : L.Lines π line) :
    Obeys L π w (Resolve.ret line value) fun w' kind => L.Redone π w' (.ret value) kind := by
  refine look_bind .returnTy fun expected => ?_
  cases value with
  | some value =>
    have hv := h.parts (.expr value) (by simp [Stmt.parts]) (by simp)
    refine bind (resolveExpr hv) fun w' value' hw hg => ?_
    split
    · exact look_bind .ask fun _ => look_bind .ask fun _ => fail hl rfl
    · exact check_bind .coerce (L.gives_at (L.at_mono hw hv) hg) fun _ =>
        pure ⟨.cons (.expr hg) .nil, rfl, trivial, by simp [Stmt.inner]⟩
  | none =>
    dsimp only
    split
    · exact pure ⟨.nil, rfl, trivial, by simp [Stmt.inner]⟩
    · exact look_bind .ask fun _ => fail hl rfl

include hrec

theorem stmts {body : List StmtId} (h : ∀ y ∈ body, L.At w π (.stmt y)) :
    Obeys L π w (body.forM recur) fun w' _ => ∀ y ∈ body, L.Done w' π y :=
  forM (P := fun w => ∀ y ∈ body, L.At w π (.stmt y)) (fun hw h y hy => L.at_mono hw (h y hy))
    (fun hw => L.done_mono hw) h fun y hy _ h => hrec (h y hy)

theorem forLoop {start cond advance : Option ExprId} {body : StmtId}
    (h : L.Meets π w x (.forLoop start cond advance body)) :
    Obeys L π w (Resolve.forLoop recur start cond advance body) fun w' kind =>
      L.Redone π w' (.forLoop start cond advance body) kind := by
  have hpart : ∀ {w' e}, w ≤ w' → e ∈ start.toList ++ cond.toList ++ advance.toList →
    L.At w' π (.expr e) :=
    fun hw he => (h.mono hw).parts _ (List.mem_append_left _ (List.mem_map_of_mem he)) (by simp)
  refine inScope h.here
    (bind (optional (fun e he => hpart le_rfl (by simp [he])) fun _ => resolveExpr)
    fun w1 start' hw1 hs => bind (optional (fun e he => hpart hw1 (by simp [he])) fun _ =>
      resolveCondition)
      fun w2 cond' hw2 hc => bind (optional (fun e he => hpart (hw1.trans hw2) (by simp [he]))
        fun _ => resolveExpr) fun w3 advance' hw3 ha => bind (inside (hrec (L.at_mono
          ((hw1.trans hw2).trans hw3) (h.inner _ (List.mem_singleton_self _)))))
            fun w4 _ hw4 hd => pure ?_)
  have hhead := List.rel_append (List.rel_append (hs.1.imp fun _ _ => L.gives_mono (hw2.trans hw3))
    (hc.1.imp fun _ _ => L.gives_mono hw3)) ha.1
  refine ⟨List.rel_append (Turns.exprs (hhead.imp fun _ _ => L.gives_mono hw4))
    (.cons (.same (L.done_covers hd)) .nil), ?_, trivial, fun b hb => ?_⟩
  · simp [Stmt.outline, hs.2, hc.2, ha.2]
  · obtain rfl := List.mem_singleton.1 hb
    exact hd

theorem caseOf (h : L.MeetsCase π w c) :
    Obeys L π w (Resolve.caseOf recur c) fun w' c' => L.RedoneCase π w' c c' := by
  refine bind (mapM (P := fun w => ∀ e ∈ c.values, L.At w π (.expr e)) (R := L.Gives)
    (fun hw h e he => L.at_mono hw (h e he)) (fun hw => L.gives_mono hw) h.values
    fun e he _ h => resolveExpr (h e he)) fun w1 values hw1 hg =>
      bind (stmts hrec (h.mono hw1).body) fun w2 _ hw2 hd => pure ⟨?_, ?_, hd⟩
  · exact List.rel_append (Turns.exprs (hg.imp fun _ _ => L.gives_mono hw2)) (L.stays hd)
  · simp [Case.outline, hg.length_eq]

theorem switch {value : ExprId} {cases : List Case} {default : Option (List StmtId)}
    (h : L.Meets π w x (.switch value cases default)) :
    Obeys L π w (Resolve.switch recur value cases default) fun w' kind =>
      L.Redone π w' (.switch value cases default) kind := by
  let π' : Spot := { π with around := .switch :: π.around }
  have hcase : ∀ c ∈ cases, L.MeetsCase π' w c := by
    refine fun c hc => ⟨fun e he => L.at_around (by simp) (h.parts _ ?_ (by simp)),
      fun y hy => h.inner (_, y) ?_⟩
    · exact List.mem_cons_of_mem _ (List.mem_append_left _ (List.mem_flatMap.2
        ⟨c, hc, List.mem_append_left _ (List.mem_map_of_mem he)⟩))
    · exact List.mem_map_of_mem (List.mem_append_left _ (List.mem_flatMap.2 ⟨c, hc, hy⟩))
  have hdefault : ∀ y ∈ default.getD [], L.At w π' (.stmt y) :=
    fun y hy => h.inner (_, y) (List.mem_map_of_mem (List.mem_append_right _ hy))
  refine bind (resolveExpr (h.parts (.expr value) (by simp [Stmt.parts]) (by simp)))
    fun w1 value' hw1 hg =>
    bind (Q := fun w' cases' => List.Forall₂ (L.RedoneCase π' w') cases cases' ∧
      ∀ y ∈ default.getD [], L.Done w' π' y) (inScope (L.at_mono hw1 h.here) (inside ?_))
      fun w2 cases' hw2 hcases => pure ⟨?_, ?_, trivial, ?_⟩
  · refine bind (mapM (P := fun w => ∀ c ∈ cases, L.MeetsCase π' w c) (R := L.RedoneCase π')
      (fun hw h c hc => (h c hc).mono hw) (fun hw h => h.mono hw)
      (fun c hc => (hcase c hc).mono hw1)
      fun c hc w h => caseOf hrec (h c hc)) fun w2 cases' hw2 hcases => ?_
    refine bind (Q := fun w' _ => ∀ y ∈ default.getD [], L.Done w' π' y) ?_ fun w3 _ hw3 hd =>
      pure ⟨hcases.imp fun _ _ h => h.mono hw3, hd⟩
    cases default with
    | none => exact pure (by simp)
    | some => exact stmts hrec fun y hy => L.at_mono (hw1.trans hw2) (hdefault y hy)
  · exact .cons (.expr (L.gives_mono hw2 hg)) (List.rel_append
      (List.rel_flatMap hcases.1 fun _ _ h => h.slots) (L.stays hcases.2))
  · have : cases'.map Case.outline = cases.map Case.outline := by
      rw [← List.forall₂_eq_eq_eq, List.forall₂_map_left_iff, List.forall₂_map_right_iff]
      exact (hcases.1.imp fun _ _ h => h.outline).flip
    simp [Stmt.outline, this]
  · intro b hb
    obtain ⟨y, hy, rfl⟩ := List.mem_map.1 hb
    rcases List.mem_append.1 hy with hy | hy
    · obtain ⟨c, hc, hy⟩ := List.mem_flatMap.1 hy
      obtain ⟨c', -, hcc⟩ := exists_of_forall₂ (R := flip (L.RedoneCase π' w2)) hcases.1.flip hc
      exact hcc.body y hy
    · exact hcases.2 y hy

/-- A statement keeps its parts, slot by slot. -/
theorem stmtKind {kind : Stmt} (h : L.Meets π w x kind) (hl : L.Lines π line)
    (hj : ¬ kind.Lands π.around → ∀ {Δ} s fault, L.Holds Δ w s → s.place = π →
      L.Blames ⟨s.program.path s.file, line, fault⟩) :
    Obeys L π w (Resolve.stmtKind recur line kind) fun w' kind' => L.Redone π w' kind kind' := by
  -- a jump that leads nowhere is a fault
  have hjump : ∀ {fault : Fault} {Q : W → Stmt → Prop}, ¬ kind.Lands π.around →
      Obeys L π w (Pass.fail line fault) Q := by
    refine fun hn _ s hs hπ => .of_error rfl hs ?_
    rintro _ ⟨⟩
    exact hj hn s _ hs hπ
  have hinner : ∀ {w' b}, w ≤ w' → b ∈ kind.inner π.around → L.At w' { π with around := b.1 }
    (.stmt b.2) := fun hw hb => L.at_mono hw (h.inner _ hb)
  have hexpr : ∀ {w' e}, w ≤ w' → .expr e ∈ kind.parts → L.At w' π (.expr e) :=
    fun hw he => L.at_mono hw (h.parts _ he (by simp))
  cases kind with
  | block =>
    refine bind (inScope h.here (stmts hrec fun y hy => ?_)) fun _ _ _ hd =>
      pure ⟨L.stays hd, rfl, trivial, ?_⟩
    · exact hinner le_rfl (List.mem_map_of_mem hy)
    · simpa [Stmt.inner] using hd
  | ifThen _ onTrue onFalse =>
    refine bind (resolveCondition (hexpr le_rfl (by simp [Stmt.parts]))) fun w1 cond' hw1 hc =>
      bind (hrec (hinner (b := (π.around, onTrue)) hw1 (by simp [Stmt.inner])))
      fun w2 _ hw2 htrue =>
        bind (Q := fun w' _ => ∀ y ∈ onFalse.toList, L.Done w' π y) ?_ fun w3 _ hw3 hfalse => ?_
    · cases onFalse with
      | none => exact pure (by simp)
      | some y =>
        exact (hrec (hinner (b := (π.around, y)) (hw1.trans hw2) (by simp [Stmt.inner]))).imp
          fun _ _ _ hd => by simpa using hd
    · have hd : ∀ y ∈ onTrue :: onFalse.toList, L.Done w3 π y :=
        List.forall_mem_cons.2 ⟨L.done_mono hw3 htrue, hfalse⟩
      refine pure ⟨.cons (.expr (L.gives_mono (hw2.trans hw3) hc)) (L.stays hd), rfl, trivial,
        fun b hb => ?_⟩
      obtain ⟨y, hy, rfl⟩ := List.mem_map.1 hb
      exact hd y hy
  | whileLoop _ body =>
    refine bind (resolveCondition (hexpr le_rfl (by simp [Stmt.parts]))) fun w1 _ hw1 hc =>
      bind (inside (hrec (hinner (b := (_, body)) hw1 (by simp [Stmt.inner])))) fun _ _ hw hd =>
        pure ⟨.cons (.expr (L.gives_mono hw hc)) (.cons (.same (L.done_covers hd)) .nil),
          rfl, trivial, ?_⟩
    simpa [Stmt.inner] using hd
  | doWhile body =>
    refine bind (inside (hrec (hinner (b := (_, body)) le_rfl (by simp [Stmt.inner]))))
      fun w1 _ hw1 hd =>
      bind (resolveCondition (hexpr hw1 (by simp [Stmt.parts]))) fun _ _ hw hc =>
        pure ⟨.cons (.same (L.done_covers (L.done_mono hw hd))) (.cons (.expr hc) .nil),
          rfl, trivial, ?_⟩
    simpa [Stmt.inner] using L.done_mono hw hd
  | forLoop => exact forLoop hrec h
  | switch => exact switch hrec h
  | ret => exact ret h hl
  | leave =>
    refine get_bind fun s _ hπ => ?_
    subst hπ
    split
    · rename_i hempty
      exact hjump fun hn => hn (List.isEmpty_iff.1 hempty)
    · rename_i hempty
      exact pure ⟨.nil, rfl, fun hn => hempty (List.isEmpty_iff.2 hn), by simp [Stmt.inner]⟩
  | next =>
    refine get_bind fun s _ hπ => ?_
    subst hπ
    split
    · rename_i hloop
      exact pure ⟨.nil, rfl, List.contains_iff_mem.1 hloop, by simp [Stmt.inner]⟩
    · rename_i hloop
      exact hjump fun hn => hloop (List.contains_iff_mem.2 hn)
  | throw value =>
    have hv : ∀ {w'}, w ≤ w' → L.At w' π (.expr value) := fun hw => hexpr hw (by simp [Stmt.parts])
    exact bind (resolveExpr (hv le_rfl)) fun _ _ hw hg =>
      check_bind .coerce (L.gives_at (hv hw) hg) fun _ =>
      pure ⟨.cons (.expr hg) .nil, rfl, trivial, by simp [Stmt.inner]⟩
  | delete =>
    refine bind (resolveExpr (hexpr le_rfl (by simp [Stmt.parts]))) fun _ _ _ hg =>
      look_bind .ask fun t => ?_
    split
    · exact pure ⟨.cons (.expr hg) .nil, rfl, trivial, by simp [Stmt.inner]⟩
    · exact look_bind .ask fun _ => fail hl rfl
  | expr =>
    exact bind (resolveExpr (hexpr le_rfl (by simp [Stmt.parts]))) fun _ _ _ hg =>
      pure ⟨.cons (.expr hg) .nil, rfl, trivial, by simp [Stmt.inner]⟩
  | const k =>
    refine bind (resolveConst (.inr (h.parts (.const k) (by simp [Stmt.parts]) (by simp))))
      fun w' _ hw hk => look_bind .ask fun _ => then_bind (define hl fun hs ht => ?_)
        (pure ⟨.cons (.same (L.settled_covers hk)) .nil, rfl, trivial, by simp [Stmt.inner]⟩)
    exact L.bindConst hs (L.at_mono hw h.here) (L.means_settled hs hk) ht

theorem stmtRule (hx : L.At w π (.stmt x)) :
    Obeys L π w (Resolve.stmtRule recur x) fun w' _ => L.Done w' π x := by
  refine ask_bind fun s n hs hn => ?_
  replace hn := fetch_ok.1 hn
  obtain ⟨hfits, hparts, hinner⟩ := L.stmt hs hx hn
  refine bind (stmtKind hrec ⟨hx, hfits, hparts, hinner⟩ (L.line hs hx (by simp [lines, hn]))
    fun hl _ t fault => L.jump hs hx hn hl) fun w' kind hw hk => change fun t q ht hq => ?_
  obtain ⟨n', hn', rfl⟩ := updateStmt_ok.1 hq
  exact L.setStmt ht (L.fitsStmt_mono hw hfits) hk.slots hk.outline hk.lands hk.inner hn'

end

theorem stmtWithin (hx : L.At w π (.stmt x)) (n : Nat) :
    Obeys L π w (Resolve.stmtWithin n x) fun w' _ => L.Done w' π x := by
  induction n generalizing π w x with
  | zero => exact stuck
  | succ _ ih => exact stmtRule ih hx

theorem resolveStmt (hx : L.At w π (.stmt x)) :
    Obeys L π w (Resolve.resolveStmt x) fun w' _ => L.Done w' π x :=
    look_bind .get fun _ => stmtWithin hx _

end Obeys

end Ci
