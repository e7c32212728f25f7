-- Types and constants keep to handles that lead somewhere. A constant that is being
-- visited is not visited again, so the number of those that have not been visited
-- goes down, and the depth is enough.
import Ci.Proofs.Safety.Expressions

namespace Ci

open Pass Resolve Program

variable {writable : Bool} {value : Option ExprId}

namespace Safe

variable {ρ : Ranking} {n r : Nat} {s : State} {e : ExprId} {t : Ty} {calls : Calls} {k : ConstId}

/-! ## Types -/

section

variable (hc : calls.Safe ρ n) (he : Low ρ r e s) (hn : Room ρ n r s)

include hc he hn

theorem constantInt : Safe ρ (Resolve.constantInt calls e) s fun a s' => Low ρ r a.1 s' := by
  refine (hc.expr s r e he hn).bind fun folded s1 hw hf => literal_bind hf.1 fun v => ?_
  split
  · exact pure fun _ => hf
  · exact valueTy_bind hf.1 fun t ht => mismatchAt (he.wider hw).1 ht
  · exact failAt (he.wider hw).1

theorem arrayLength : Safe ρ (Resolve.arrayLength calls e) s fun a s' => Low ρ r a.1 s' := by
  refine (constantInt hc he hn).bind ?_
  rintro ⟨folded, m⟩ s1 hw hf
  dsimp only
  split
  · exact failAt (he.wider hw).1
  · split
    · exact failAt (he.wider hw).1
    · exact pure fun _ => hf

theorem rangeTo {min : Int64} {included : Bool} :
    Safe ρ (Resolve.rangeTo calls min included e) s fun a s' =>
      Low ρ r a.1 s' ∧ ρ.SeesAll s'.program a.2.refs := by
  refine (constantInt hc he hn).bind ?_
  rintro ⟨folded, m⟩ s1 hw hf
  dsimp only
  generalize (if included = true then m else Saturating.sub m 1) = max
  split
  · exact failAt (he.wider hw).1
  · exact pure fun _ => ⟨hf, seesAll_nil⟩

end

theorem tyOfSymbol {name : String} {symbol : Option Symbol}
    (he : ρ.Sees s.program (.expr e)) (hs : ∀ x, symbol = some x → ρ.SeesAll s.program x.refs) :
    Safe ρ (Resolve.tyOfSymbol e name writable symbol) s fun t s' =>
    ρ.SeesAll s'.program t.refs := by
  unfold Resolve.tyOfSymbol
  split
  · exact pure fun _ => hs _ rfl
  · exact pure fun _ => hs _ rfl
  · exact pure fun _ => hs _ rfl
  · exact failAt he
  · exact failAt he

theorem namedType {name : String} (he : ρ.Sees s.program (.expr e)) :
    Safe ρ (Resolve.namedType e name writable) s fun t s' => ρ.SeesAll s'.program t.refs :=
  lookupGlobal_bind fun _ hfound => silent_bind .tyOfSymbol (tyOfSymbol he hfound) fun _ ht =>
    (remember he hfound).bind fun _ _ hw _ => pure fun _ => hw.program.seesAll ht

theorem storageType (he : ρ.Sees s.program (.expr e)) :
    Safe ρ (Resolve.storageType e) s fun t s' => ρ.SeesAll s'.program t.refs := by
  refine node_bind he fun m _ => ?_
  split
  · split
    · exact (record he seesAll_nil).bind fun _ _ _ _ => pure fun _ => seesAll_nil
    · refine lookupGlobal_bind fun found hfound => ?_
      split
      · rename_i c
        have hrefs : ρ.SeesAll s.program (Ty.classStorage c).refs := hfound _ rfl
        refine (remember he hfound).bind fun _ s1 hw1 _ => ?_
        exact (record (hw1.program.sees he) (hw1.program.seesAll hrefs)).bind fun _ _ hw2 _ =>
          pure fun _ => (hw1.trans hw2).program.seesAll hrefs
      · exact failAt he
  · exact failAt he

section

variable (hc : calls.Safe ρ n) (he : Low ρ r e s)

include hc he

theorem rangeType {rel : Relation} {left right : ExprId}
    (hl : Low ρ (ρ.depth e) left s) (hr : Low ρ (ρ.depth e) right s) (hn : Room ρ n (ρ.depth e) s) :
    Safe ρ (Resolve.rangeType calls e rel left right) s fun t s' =>
    ρ.SeesAll s'.program t.refs := by
  refine (constantInt hc hl hn).bind ?_
  rintro ⟨left', min⟩ s1 hw1 hl'
  refine (rangeTo hc (hr.wider hw1) (hn.wider hw1)).bind ?_
  rintro ⟨right', t⟩ s2 hw2 ⟨hr', ht⟩
  refine (rebuild (he.wider (hw1.trans hw2)) (by simp) (by simp) ?_).bind fun _ _ hw3 _ =>
    pure fun _ => hw3.program.seesAll ht
  simpa using ⟨hl'.wider hw2, hr'⟩

theorem rangeFromZero {op : PrefixOp} {inner : ExprId}
    (hi : Low ρ (ρ.depth e) inner s) (hn : Room ρ n (ρ.depth e) s) :
    Safe ρ (Resolve.rangeFromZero calls e op inner) s fun t s' => ρ.SeesAll s'.program t.refs := by
  refine (rangeTo hc hi hn).bind ?_
  rintro ⟨inner', t⟩ s1 hw1 ⟨hi', ht⟩
  exact (rebuild (he.wider hw1) (by simp) (by simp) (by simpa using hi')).bind
    fun _ _ hw2 _ => pure fun _ => hw2.program.seesAll ht

theorem plainType {kind : Expr}
    (hchild : ∀ c ∈ kind.children, Low ρ (ρ.depth e) c s) (hn : Room ρ n (ρ.depth e) s) :
    Safe ρ (Resolve.plainType calls e writable kind) s fun t s' => ρ.SeesAll s'.program t.refs := by
  unfold Resolve.plainType
  split
  · exact namedType he.1
  · exact storageType (hchild _ (by simp)).1
  · exact failAt he.1
  · exact rangeType hc he (hchild _ (by simp)) (hchild _ (by simp)) hn
  · exact rangeType hc he (hchild _ (by simp)) (hchild _ (by simp)) hn
  · exact rangeFromZero hc he (hchild _ (by simp)) hn
  · exact rangeFromZero hc he (hchild _ (by simp)) hn
  · exact failAt he.1

theorem baseType (hn : Room ρ n (ρ.depth e) s) :
    Safe ρ (Resolve.baseType calls e writable) s fun t s' => ρ.SeesAll s'.program t.refs := by
  refine node_bind he.1 fun m hm => of_sound fun hs => ?_
  refine (plainType hc he (fun c h => hs.child hm h) hn).bind fun t s1 hw1 ht => ?_
  split
  · exact failAt (he.wider hw1).1
  · exact (record (he.wider hw1).1 ht).bind fun _ _ hw2 _ => pure fun _ => hw2.program.seesAll ht

end

/-- The spelling of a type holds expressions that are there. -/
def Spelled (ρ : Ranking) (e : ExprId) (a : Resolve.Spelling) (s : State) : Prop :=
  Low ρ (ρ.depth e + 1) a.base s ∧ ∀ i ∈ a.nodes, ρ.Sees s.program (.expr i)

theorem takeMark (he : ρ.Sees s.program (.expr e)) :
    Safe ρ (Resolve.takeMark e) s fun a s' => Low ρ (ρ.depth e + 1) a.1 s' := by
  refine node_bind he fun m hm => of_sound fun hs => ?_
  split
  · rename_i inner hk
    have hi := hs.child hm (i := inner) (by simp [hk])
    exact pure fun _ => hi.mono (Nat.le_succ _)
  · exact pure fun _ => ⟨he, Nat.lt_succ_self _⟩

theorem silent_takeMark : Silent [] (Resolve.takeMark e) := by
  refine Silent.ask.bind fun m => ?_
  split <;> exact .pure

theorem lastBrackets (he : ρ.Sees s.program (.expr e)) :
    Safe ρ (lastBrackets? e) s fun found s' => ∀ left length, found = some (left, length) →
      Low ρ (ρ.depth e) left s' ∧ ∀ l, length = some l → Low ρ (ρ.depth e) l s' := by
  refine node_bind he fun m hm => of_sound fun hs => ?_
  split
  · rename_i left hk
    refine pure fun _ left' length h => ?_
    cases h
    exact ⟨hs.child hm (by simp [hk]), by simp⟩
  · rename_i left length hk
    refine pure fun _ left' length' h => ?_
    cases h
    refine ⟨hs.child hm (by simp [hk]), fun l hl => ?_⟩
    cases hl
    exact hs.child hm (by simp [hk])
  · refine pure fun _ _ _ h => ?_
    cases h

theorem silent_lastBrackets : Silent [] (lastBrackets? e) := by
  refine Silent.ask.bind fun m => ?_
  split <;> exact .pure

theorem readBrackets {left : ExprId} {length : Option ExprId}
    (hc : calls.Safe ρ n) (he : ρ.Sees s.program (.expr e)) (hl : Low ρ (ρ.depth e) left s)
    (hlength : ∀ l, length = some l → Low ρ (ρ.depth e) l s) (hn : Room ρ n (ρ.depth e) s) :
    Safe ρ (Resolve.readBrackets calls e writable left length) s fun _ _ => True := by
  unfold Resolve.readBrackets
  split
  · exact pure fun _ => trivial
  · rename_i l
    split
    · exact failAt he
    · refine (arrayLength hc (hlength l rfl) hn).bind ?_
      rintro ⟨folded, size⟩ s1 hw1 hf
      refine (rebuild (r := ρ.depth e + 1) ⟨hw1.program.sees he, Nat.lt_succ_self _⟩ (by simp)
        (by simp) ?_).bind fun _ _ _ _ => pure fun _ => trivial
      simpa using ⟨hl.wider hw1, hf⟩

/-- The brackets are taken off from right to left, and what is left stands lower. -/
theorem takeBrackets {m : Nat} (hc : calls.Safe ρ n) (he : ρ.Sees s.program (.expr e))
    (hn : Room ρ n (ρ.depth e) s) (hm : ρ.depth e < m) :
    Safe ρ (Resolve.takeBrackets calls m e) s (Spelled ρ e) := by
  induction m generalizing s e with
  | zero => omega
  | succ m ih =>
    unfold Resolve.takeBrackets
    refine silent_bind silent_takeMark (takeMark he) ?_
    rintro ⟨base, writable⟩ hb
    have hle := Nat.le_of_lt_succ hb.2
    refine silent_bind silent_lastBrackets (lastBrackets hb.1) fun found hfound => ?_
    split
    · exact pure fun _ => ⟨hb, by simpa using he⟩
    · rename_i left length
      obtain ⟨hl, hlength⟩ := hfound left length rfl
      refine (readBrackets hc hb.1 hl hlength (hn.mono hle)).bind fun b s1 hw1 _ => ?_
      have hlt : ρ.depth left < ρ.depth e := hl.2.trans_le hle
      refine (ih (hl.wider hw1).1 ((hn.wider hw1).mono hlt.le) (by omega)).bind
        fun rest s2 hw2 hrest => pure fun _ => ⟨hrest.1.mono (by omega), fun i hi => ?_⟩
      simp only [List.mem_cons] at hi
      rcases hi with rfl | rfl | hi
      · exact (hw1.trans hw2).program.sees he
      · exact (hw1.trans hw2).program.sees hb.1
      · exact hrest.2 i hi

theorem brackets_refs (t : Ty) (brackets : List Resolve.Brackets) :
    (brackets.foldl Resolve.Brackets.array t).refs = t.refs := by
  induction brackets generalizing t with
  | nil => rfl
  | cons b _ ih =>
    rw [List.foldl_cons, ih]
    cases b <;> rfl

theorem readType (hc : calls.Safe ρ n) (he : ρ.Sees s.program (.expr e))
    (hn : Room ρ n (ρ.depth e) s) :
    Safe ρ (Resolve.readType calls e) s fun t s' => ρ.SeesAll s'.program t.refs := by
  refine get_bind (of_sound fun hs => ?_)
  refine (takeBrackets hc he hn (rank_lt_depth hs.exprs e)).bind fun a s1 hw1 ha => ?_
  have hle := Nat.le_of_lt_succ ha.1.2
  refine (baseType hc ha.1 ((hn.wider hw1).mono hle)).bind fun t s2 hw2 ht => ?_
  dsimp only
  rw [← brackets_refs t a.brackets] at ht
  refine (forM fun i hi s' hw => record ?_ (hw.program.seesAll ht)).bind fun _ _ hw3 _ =>
    pure fun _ => hw3.program.seesAll ht
  exact (hw2.trans hw).program.sees (ha.2 i (List.mem_filter.1 hi).1)

/-! ## Constants -/

theorem constRefs {d : Const} (hs : Sound ρ s) (hd : s.program.consts.get? k = some d) :
    ρ.SeesAll s.program d.refs := hs.handles.consts d (Arena.mem_toList_of_get? hd)

/-- The value of a constant is replaced. -/
theorem setValue {i : ExprId} (hk : ρ.Sees s.program (.const k)) (hi : ρ.Sees s.program (.expr i)) :
    Safe ρ (Pass.change (·.updateConst k fun d => { d with value := some i })) s fun _ _ =>
    True := by
  refine (updateConst (g := fun d => { d with value := some i }) hk (fun d hs hd w hw => ?_)
    fun _ => id).mono fun _ _ _ _ _ => trivial
  have hrefs := constRefs hs hd
  simp only [Const.refs, Const.parts, Option.toList_some, List.map_append, List.map_cons,
    List.map_nil, List.mem_append, List.mem_singleton] at hw
  rcases hw with ((hw | rfl) | hw) | hw
  · exact hrefs w (by simp only [Const.refs, Const.parts, List.map_append, List.mem_append]; tauto)
  · exact hi
  · exact hrefs w (by simp only [Const.refs, List.mem_append]; tauto)
  · exact hrefs w (by simp only [Const.refs, List.mem_append]; tauto)

section

variable (hc : calls.Safe ρ n) (hk : ρ.Sees s.program (.const k))

include hc hk

theorem enumValue {line : UInt32} {d : EnumId} (hd : ρ.Sees s.program (.enumDecl d))
    (hvalue : ∀ i, value = some i → Low ρ r i s) (hn : Room ρ n r s) :
    Safe ρ (Resolve.enumValue calls k line d value) s fun t s' => ρ.SeesAll s'.program t.refs := by
  have hrefs : ρ.SeesAll s.program (Ty.enumeration d).refs := by
    simpa [Ty.refs, Ranking.SeesAll] using hd
  unfold Resolve.enumValue
  split
  · exact pure fun _ => hrefs
  · rename_i i
    refine (hc.expr s r i (hvalue i rfl) hn).bind fun i' s1 hw1 hi' => ?_
    refine (setValue (hw1.program.sees hk) hi'.1).bind fun _ s2 hw2 _ => ?_
    refine valueTy_bind (hi'.wider hw2).1 fun t ht => ?_
    split
    · exact pure fun _ => (hw1.trans hw2).program.seesAll hrefs
    · exact ask_bind (fun _ => answers_describe ht) fun _ _ => fail

theorem plainValue {line : UInt32} {written : Option Ty}
    (ht : ∀ t, written = some t → ρ.SeesAll s.program t.refs)
    (hvalue : ∀ i, value = some i → Low ρ r i s) (hn : Room ρ n r s) :
    Safe ρ (Resolve.plainValue calls k line written value) s fun t s' =>
    ρ.SeesAll s'.program t.refs := by
  unfold Resolve.plainValue
  split
  · exact fail
  · rename_i i
    refine (hc.expr s r i (hvalue i rfl) hn).bind fun i' s1 hw1 hi' => ?_
    refine (setValue (hw1.program.sees hk) hi'.1).bind fun _ s2 hw2 _ => ?_
    have hhas := (hi'.wider hw2).1
    refine silent_bind (P := fun _ _ => True) .checkDeclared ?_ fun _ _ => ?_
    · unfold checkDeclared
      split
      · exact pure fun _ => trivial
      · rename_i t
        split
        · exact pure fun _ => trivial
        · exact coerce hhas ((hw1.trans hw2).program.seesAll (ht t rfl))
    · refine ask_bind (fun hs => answers_isConstant hs.handles hs.ranks hs.exprs hhas)
        fun b _ => ?_
      split
      · refine (ask fun hs => answers_valueTy hs.handles hhas).mono ?_
        rintro t _ - - ⟨rfl, ht⟩
        exact ht
      · exact fail

theorem constValue
    (hn : Room ρ n (ρ.exprs + 1) s) : Safe ρ (Resolve.constValue calls k) s fun _ _ => True := by
  refine ask_bind (fun _ => .fetch hk) fun d hd => of_sound fun hs => ?_
  have hrefs := constRefs hs hd
  have hpart : ∀ i, i ∈ d.typeExpr.toList ++ d.value.toList → Low ρ (ρ.exprs + 1) i s := by
    intro i hi
    refine ⟨hrefs _ ?_, Nat.lt_succ_of_le (ρ.expr_le i)⟩
    simp only [Const.refs, List.mem_append]
    exact .inl (.inl (List.mem_map_of_mem hi))
  have hwritten : Safe ρ (d.typeExpr.mapM calls.type) s fun written s' =>
      ∀ t, written = some t → ρ.SeesAll s'.program t.refs := by
    cases htype : d.typeExpr with
    | none =>
      refine pure fun _ _ h => ?_
      cases h
    | some i =>
      refine (hc.type s _ i (hpart i (by simp [htype])) hn).bind fun t s1 _ ht =>
        pure fun _ u hu => ?_
      cases hu
      exact ht
  refine hwritten.bind fun written s1 hw1 ht => ?_
  have hvalue : ∀ i, d.value = some i → Low ρ (ρ.exprs + 1) i s1 := fun i hi =>
    (hpart i (by simp [hi])).wider hw1
  have hk1 := hw1.program.sees hk
  have hown : Safe ρ (ownedValue calls k d.line written d.value d.owner) s1
      fun t s' => ρ.SeesAll s'.program t.refs := by
    unfold ownedValue
    split
    · rename_i e howner
      refine enumValue hc hk1 (hw1.program.sees (hrefs (.enumDecl e) ?_)) hvalue (hn.wider hw1)
      simp [Const.refs, howner, Owner.refs]
    · exact plainValue hc hk1 ht hvalue (hn.wider hw1)
  refine hown.bind fun t s2 hw2 hty => ?_
  refine (updateConst (g := fun d => { d with ty := some t }) (hw2.program.sees hk1)
    (fun d' hs2 hd' w hw => ?_) fun _ => id).mono fun _ _ _ _ _ => trivial
  rcases List.mem_append.1 hw with hw | hw
  · exact constRefs hs2 hd' w (List.mem_append_left _ hw)
  · exact hty w hw

/-- The visit of a constant takes it from those that have not been visited. -/
theorem onceConst (hn : Room ρ (n + 1) 0 s) :
    Safe ρ (once (.const k) (Resolve.constValue calls k)) s fun _ _ => True := by
  have hmark : ∀ {s : State} (status : Status), ρ.Sees s.program (.const k) → status ≠ .unvisited →
      Safe ρ (Pass.change ((Visited.const k).mark status)) s fun _ s' =>
        ∃ d, s.program.consts.get? k = some d ∧
          s'.program.pending + (if d.status = .unvisited then 1 else 0) = s.program.pending := by
    intro s status hk hne
    refine (updateConst (g := fun d => { d with status }) hk
      (fun d hs hd w hw => constRefs hs hd w hw) fun _ h => absurd h hne).mono ?_
    rintro _ s' - - ⟨d, hd, h⟩
    exact ⟨d, hd, by simpa [hne] using h⟩
  refine ask_bind (A := fun status => ∀ d, s.program.consts.get? k = some d → d.status = status)
    (fun _ => (Answers.fetch hk).bind fun d hd => .pure fun d' hd' => ?_) fun status hstatus => ?_
  · obtain rfl := hd.some_unique hd'
    rfl
  · split
    · exact pure fun _ => trivial
    · refine ask_bind (A := fun _ => True) (fun _ => (Answers.fetch hk).bind fun _ _ =>
        .pure trivial) fun _ _ => fail
    · refine (hmark .inProgress hk (by simp)).bind fun _ s1 hw1 hstart => ?_
      obtain ⟨d, hd, hpending⟩ := hstart
      rw [if_pos (hstatus d hd)] at hpending
      have hn1 : Room ρ n (ρ.exprs + 1) s1 := by
        unfold Room at hn ⊢
        rw [← hpending, Nat.add_mul] at hn
        omega
      refine (constValue hc (hw1.program.sees hk) hn1).bind fun _ s2 hw2 _ => ?_
      exact (hmark .resolved ((hw1.trans hw2).program.sees hk) (by simp)).mono
        fun _ _ _ _ _ => trivial

theorem constRule (hn : Room ρ (n + 1) 0 s) :
    Safe ρ (Resolve.constRule calls k) s fun _ _ => True := by
  refine ask_bind (fun _ => .fetch hk) fun d hd => of_sound fun hs => ?_
  have hrefs := constRefs hs hd
  have howner : ∀ w ∈ d.owner.refs, ρ.Sees s.program w := fun w hw =>
    hrefs w (by simp only [Const.refs, List.mem_append]; tauto)
  dsimp only
  unfold whereDeclared
  split
  · exact within (Nat.zero_lt_of_lt hs.current) (onceConst hc hk hn)
  · rename_i c hown
    have hclass := howner (.classDecl c) (by simp [hown, Owner.refs])
    refine ask_bind (fun _ => .fetch hclass) fun _ _ => classScope_bind hclass fun i _ hi => ?_
    exact within hi (onceConst hc hk hn)
  · rename_i e hown
    have henum := howner (.enumDecl e) (by simp [hown, Owner.refs])
    refine ask_bind (fun _ => .fetch henum) fun _ _ => enumScope_bind henum fun i hi => ?_
    exact within hi (onceConst hc hk hn)
  · exact onceConst hc hk hn

end

/-! ## The circle -/

/-- The rules that call each other are safe where the depth is enough. -/
theorem callsWithin (ρ : Ranking) (n : Nat) : (Resolve.callsWithin n).Safe ρ n := by
  induction n with
  | zero =>
    refine ⟨fun s r e _ hn => ?_, fun s r e _ hn => ?_, fun s k _ hn => ?_⟩ <;>
      unfold Room at hn <;> omega
  | succ n ih =>
    have hroom : ∀ {s : State} {r : Nat} {e : ExprId}, Low ρ r e s → Room ρ (n + 1) r s →
        Room ρ n (ρ.depth e) s := by
      intro s r e he hn
      have := he.2
      unfold Room at hn ⊢
      omega
    exact ⟨fun s r e he hn => exprRule ih he (hroom he hn),
      fun s r e he hn => readType ih he.1 (hroom he hn), fun s k hk hn => constRule ih hk hn⟩

end Safe

end Ci
