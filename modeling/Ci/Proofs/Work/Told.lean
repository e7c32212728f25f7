-- What is known of constants. Only the visit of a constant makes it resolved, so what
-- is true of all resolved constants has to be shown for such visits alone.
import Ci.Proofs.Work.Endures

namespace Ci

open Pass

variable {p : Program} {n : Nat} {s s1 s2 s3 s' : State} {k : ConstId} {x : StmtId}

/-- Something is known of every constant that has been resolved. -/
def Told (Φ : ConstId → Program → Prop) (s : State) : Prop :=
  ∀ k d, s.program.consts.get? k = some d → d.status = .resolved → Φ k s.program

namespace Told

variable {Φ : ConstId → Program → Prop}

theorem place (h : Told Φ s) (hs : s'.program = s.program) : Told Φ s' := by
  rw [Told, hs]
  exact h

theorem start (h : Linked p s) (hf : Fresh p) : Told Φ s := by
  intro k d hd hs
  obtain ⟨classes, ordered, hprogram⟩ := h.program
  rw [hprogram] at hd
  have hfresh := hf.consts d (Arena.mem_toList_of_get? hd)
  simp [hfresh.1] at hs

variable (stable : ∀ k q q', Lasts q q' → Φ k q → Φ k q')

include stable

theorem later (h : Told Φ s) (hl : Lasts s.program s'.program)
    (hk : ∀ k d, s'.program.consts.get? k = some d → d.status = .resolved →
      s.program.consts.get? k = some d) : Told Φ s' :=
  fun k d hd hs => stable k _ _ hl (h k d (hk k d hd hs) hs)

theorem same (h : Told Φ s) (hl : Lasts s.program s'.program)
    (hk : s'.program.consts = s.program.consts) : Told Φ s' :=
  h.later stable hl fun k d hd _ => by rw [← hk, hd]

theorem edit {x : Node} (h : Told Φ s) (he : Edits x s s') : Told Φ s' :=
  h.same stable he.lasts he.consts

/-- Edits leave the constants alone. -/
theorem upholds (ih : Each p (fun _ s _ _ s' => Told Φ s → Told Φ s')
    (fun _ s _ _ s' => Told Φ s → Told Φ s') (fun _ s _ s' => Told Φ s → Told Φ s') n) :
    Upholds p n (fun _ => True) (Told Φ) where
  part _ _ := trivial
  edit _ h hs := hs.edit stable h
  const := ih.const
  value _ := ih.expr
  type _ := ih.type

/-- A constant is marked. -/
theorem setConst {d d' : Const} (h : Told Φ s) (hd : s.program.consts.get? k = some d)
    (hs : d.status ≠ .resolved) (ht : d.Kept d')
    (hk : d'.status = .resolved → Φ k (s.setConst k d').program) : Told Φ (s.setConst k d') := by
  have hl : Lasts s.program (s.setConst k d').program := .setConst hd hs ht
  intro k1 d1 hd1 hs1
  by_cases hne : k = k1
  · subst hne
    obtain rfl := (Arena.get?_set_self hd).some_unique hd1
    exact hk hs1
  · exact stable k1 _ _ hl (h k1 d1 ((Arena.get?_set_of_ne hne).symm.trans hd1) hs1)

/-- The visit of a constant begins. -/
theorem visit {d : Const} (h : Told Φ s) (hd : s.program.consts.get? k = some d)
    (hs : d.status = .unvisited) : Told Φ (s.setConst k (d.visit d.value)) :=
  h.setConst stable hd (by simp [hs]) ⟨rfl, fun _ _ => .inl rfl⟩ (by simp [Const.visit])

variable (hp : p.TreeShaped) (hf : Fresh p)
  (visits : ∀ {n s k d t t1 t2 written ty value'}, p.consts.get? k = some d → Placed s d.owner t →
    Written p n (t.setConst k (d.visit d.value)) d.typeExpr written t1 →
    Valued p n k d written t1 ty value' t2 → t2.program.consts.get? k = some (d.visit d.value) →
    Told Φ t2 → Φ k (t2.setConst k { d with
      status := .resolved, value := value', ty := some ty }).program)

include visits

/-- The visit of a constant makes something known of it. -/
theorem stepConst (ih : Each p (fun _ s _ _ s' => Told Φ s → Told Φ s')
    (fun _ s _ _ s' => Told Φ s → Told Φ s') (fun _ s _ s' => Told Φ s → Told Φ s') n)
    (h : StepConst p n s k s') (hs : Told Φ s) : Told Φ s' := by
  cases h with
  | skipped => exact hs
  | @visited d t t1 t2 _ _ _ found current unvisited placed type value still =>
    have hvisit : Told Φ (t.setConst k (d.visit d.value)) :=
      (hs.place placed.program_eq).visit stable (by rw [placed.program_eq, current]) unvisited
    have ht1 : Told Φ t1 := by
      generalize d.typeExpr = te at type
      cases type with
      | none => exact hvisit
      | some run => exact ih.type run hvisit
    have ht2 : Told Φ t2 := by
      cases value with
      | enumNone => exact ht1
      | enum _ _ run => exact ih.expr run ht1
      | plain _ _ run => exact ih.expr run ht1
    exact ht2.setConst stable still (by simp [Const.visit]) value.kept
      fun _ => visits found placed type value still ht2

include hp hf

/-- What is known of each constant as soon as it has been visited is known of all constants that
have been resolved. -/
theorem each (n : Nat) :
    Each p (fun _ s _ _ s' => Told Φ s → Told Φ s') (fun _ s _ _ s' => Told Φ s → Told Φ s')
      (fun _ s _ s' => Told Φ s → Told Φ s') n := by
  exact .all hp hf
    (fun _ ih _ _ _ _ hfit step => step.keeps (upholds stable ih) hp hf hfit trivial)
    (fun _ ih _ _ _ _ hfit step => step.keeps (upholds stable ih) hp hf hfit trivial)
    (fun n ih _ _ _ _ step => stepConst stable visits ih step) n

theorem endures : Endures p (Told Φ) where
  place h hs := h.place hs
  edit hl hk h := h.same stable hl hk
  value run := (each stable hp hf visits _).expr run
  type run := (each stable hp hf visits _).type run
  inner run := by
    obtain ⟨n, hstep⟩ := run.step hp hf
    exact stepConst stable visits (each stable hp hf visits n) hstep
  const run := (each stable hp hf visits _).const run

theorem stmt (h : RanStmt p n s x s') (hs : Told Φ s) : Told Φ s' :=
  (endures stable hp hf visits).stmt hp hf h hs

/-- Something is known of every constant between the phases. -/
theorem phases (h : Phases p s1 s2 s3 s') : Told Φ s1 ∧ Told Φ s2 ∧ Told Φ s3 ∧ Told Φ s' :=
  have h1 : Told Φ s1 := .start h.linked hf
  ⟨h1, (endures stable hp hf visits).phases hf hp h h1⟩

end Told

end Ci
