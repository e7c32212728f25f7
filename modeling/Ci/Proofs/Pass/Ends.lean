-- How a pass ends. A claim about a pass says what is the case if it comes to its
-- end, and why it stops if it does not.
import Ci.Proofs.Pass.Endings

namespace Ci.Pass

variable {α β ι : Type} {s s' : State} {x : Pass α} {f : α → Pass β} {E F : Abort → Prop}
  {Q P : α → State → Prop} {R : β → State → Prop} {t : State}

/-- The pass ends as the last argument says, or it stops as the first one says. -/
structure Ends (E : Abort → Prop) (x : Pass α) (s : State) (Q : α → State → Prop) : Prop where
  ok : ∀ a s', x s = .ok a s' → Q a s'
  error : ∀ b s', x s = .error b s' → E b

namespace Ends

theorem mono (h : Ends E x s P) (hq : ∀ a s', P a s' → Q a s') (he : ∀ b, E b → F b) :
    Ends F x s Q :=
  ⟨fun a s' hx => hq a s' (h.ok a s' hx), fun b s' hx => he b (h.error b s' hx)⟩

theorem bind (h : Ends E x s P) (hf : ∀ a s', P a s' → Ends E (f a) s' R) :
    Ends E (x >>= f) s R := by
  cases hx : x s with
  | ok a t =>
    have ht := hf a t (h.ok a t hx)
    exact ⟨fun b s' hb => ht.ok b s' (by rwa [bind_ok hx] at hb),
      fun b s' hb => ht.error b s' (by rwa [bind_ok hx] at hb)⟩
  | error b t =>
    have hb : (x >>= f) s = .error b t := by
      show EStateM.bind x f s = .error b t
      simp [EStateM.bind, hx]
    refine ⟨fun a s' ha => ?_, fun b' s' hb' => ?_⟩
    · rw [hb] at ha
      cases ha
    · rw [hb] at hb'
      cases hb'
      exact h.error _ _ hx

/-- A step that is known to end. -/
theorem bind_of_ok {a : α} (hx : x s = .ok a t) (hf : Ends E (f a) t R) : Ends E (x >>= f) s R := by
  refine ⟨fun b s' hb => hf.ok b s' ?_, fun b s' hb => hf.error b s' ?_⟩
  · rwa [bind_ok hx] at hb
  · rwa [bind_ok hx] at hb

theorem of_ok {a : α} (hx : x s = .ok a t) (hq : Q a t) : Ends E x s Q := by
  refine ⟨fun a' s' ha => ?_, fun b s' hb => ?_⟩
  · rw [hx] at ha
    cases ha
    exact hq
  · rw [hx] at hb
    cases hb

theorem of_error {b : Abort} (hx : x s = .error b t) (he : E b) : Ends E x s Q := by
  refine ⟨fun a s' ha => ?_, fun b' s' hb => ?_⟩
  · rw [hx] at ha
    cases ha
  · rw [hx] at hb
    cases hb
    exact he

theorem pure {a : α} (h : Q a s) : Ends E (pure a) s Q := of_ok rfl h

theorem get_bind {g : State → Pass β} (h : Ends E (g s) s R) : Ends E (get >>= g) s R :=
  bind_of_ok rfl h

theorem modify_bind {g : State → State} {f : PUnit → Pass β} (h : Ends E (f ⟨⟩) (g s) R) :
    Ends E (modify g >>= f) s R := bind_of_ok rfl h

theorem fail {line : UInt32} {fault : Fault} (h : E (.fault ⟨s.program.path s.file, line, fault⟩)) :
    Ends E (fail line fault) s Q := of_error rfl h

/-- A part that runs in another place. -/
theorem within {file : FileId} {scope : ScopeId}
    (h : Ends E x { s with file := file, table := s.table.enter scope } fun a s' =>
      Q a (s'.backTo s)) : Ends E (within file scope x) s Q := by
  cases hx : x { s with file := file, table := s.table.enter scope } with
  | ok a t => exact of_ok (within_eq_ok.2 ⟨t, hx, rfl⟩) (h.ok a t hx)
  | error b t =>
    refine of_error (t := t.backTo s) ?_ (h.error b t hx)
    unfold Pass.within
    rw [hx]

theorem forM {g : ι → Pass Unit} {P : List ι → State → Prop} {xs : List ι}
    (h : ∀ seen i, i ∈ xs → ∀ s, P seen s → Ends E (g i) s fun _ s' => P (seen ++ [i]) s')
    (hp : P [] s) : Ends E (xs.forM g) s fun _ s' => P xs s' := by
  suffices ∀ seen s, P seen s → Ends E (xs.forM g) s fun _ s' => P (seen ++ xs) s' from this [] s hp
  clear hp
  induction xs with
  | nil => exact fun seen s hp => pure (by simpa using hp)
  | cons i xs ih =>
    intro seen s hp
    show Ends E (g i >>= fun _ => xs.forM g) s fun _ s' => P (seen ++ i :: xs) s'
    refine (h seen i (by simp) s hp).bind fun _ s' hp' => ?_
    have := ih (fun seen j hj => h seen j (by simp [hj])) (seen ++ [i]) s' hp'
    rwa [List.append_assoc] at this

end Ends

end Ci.Pass
