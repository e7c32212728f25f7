-- Circles of classes. The visit of the classes stops if and only if some class comes
-- back to itself along the names of bases, whatever the order of the classes. Then it
-- names a class of such a circle.
import Ci.Proofs.Naming.Classes

namespace Ci

open Pass Program

/-! ## The phases of the pass -/

/-- What is left to do when the classes are linked. -/
def Resolve.resolveMembers : Pass Unit := do
  resolveConsts
  let ordered := (← get).program.ordered
  ordered.forM resolveTypes
  ordered.forM resolveCode

theorem Resolve.run_eq :
    run = register >>= fun _ => resolveClasses >>= fun _ => resolveMembers := by
  simp only [run, register, resolveMembers, bind_assoc]

variable {p : Program} {s s' : State} {a : Abort} {c : ClassId}

theorem Pass.bind_error {α β : Type} {x : Pass α} {f : α → Pass β} (h : x s = .error a s') :
    (x >>= f) s = .error a s' := by
  show EStateM.bind x f s = .error a s'
  simp [EStateM.bind, h]

/-- The pass comes to its end. -/
def Pass.ends {α : Type} (x : Pass α) (s : State) : Bool :=
  match x s with
  | .ok _ _ => true
  | .error _ _ => false

theorem Pass.exists_ok_of_ends {α : Type} {x : Pass α} (h : x.ends s = true) :
    ∃ a s', x s = .ok a s' := by
  unfold ends at h
  split at h
  · exact ⟨_, _, by assumption⟩
  · cases h

/-- What stops the visit of the classes stops the pass. -/
theorem abort_of_resolveClasses (hreg : Resolve.register (.start p) = .ok () s)
    (h : Resolve.resolveClasses s = .error a s') : p.resolve.abort = some a := by
  have hrun : Resolve.run (.start p) = .error a s' := by
    rw [Resolve.run_eq, bind_ok hreg, bind_error h]
  unfold resolve
  generalize State.start p = start at hrun ⊢
  rw [hrun]

/-- The pass has come to its end when no error is reported. -/
theorem run_of_resolve (h : p.resolve.abort = none) :
    ∃ s', Resolve.run (.start p) = .ok () s' ∧ p.resolve.program = s'.program := by
  unfold resolve at h ⊢
  generalize State.start p = s at h ⊢
  cases hs : Resolve.run s with
  | ok _ s' => exact ⟨s', rfl, rfl⟩
  | error => simp [hs] at h

/-! ## Circles -/

/-- A class that comes back to itself is never resolved. -/
theorem Nesting.not_circular (h : Nesting p [] s)
    (hall : ∀ c ∈ p.classes.handles, ClassResolved c s) :
    ¬ Relation.TransGen p.NamesBase c c := by
  intro hc
  obtain ⟨b, ⟨d, d', hd, -⟩, -⟩ := Relation.TransGen.head'_iff.1 hc
  have hres := hall c (Arena.mem_handles.2 (Arena.lt_size_of_get? hd))
  exact (h.grounded_of_resolved hres hd).not_circular hc

/-- Where no base is missing and no name is used twice, the visit of the classes stops if and only
if there is a circle. It stops with a fault that names a class of a circle, and so does the pass. -/
theorem resolveClasses_stops_iff_circular (p : Program) (s : State)
    (hf : ∀ d ∈ p.classes.toList, d.status = .unvisited ∧ d.base = none)
    (hreg : Resolve.register (.start p) = .ok () s) (hb : p.BasesNamed)
    (hm : p.MembersDistinct) :
    ((∃ a s', Resolve.resolveClasses s = .error a s') ↔
        ∃ c, Relation.TransGen p.NamesBase c c) ∧
      ∀ a s', Resolve.resolveClasses s = .error a s' → p.resolve.abort = some a ∧
        ∃ file line c d, a = .fault ⟨file, line, .circularInheritance d.name⟩ ∧
          p.classes.get? c = some d ∧ Relation.TransGen p.NamesBase c c := by
  have hends := (Nesting.start (fun d hd => (hf d hd).1) (declared_of_register hreg)).resolveClasses
  have hstop : ∀ a s', Resolve.resolveClasses s = .error a s' → ∃ file line c d,
      a = .fault ⟨file, line, .circularInheritance d.name⟩ ∧ p.classes.get? c = some d ∧
        Relation.TransGen p.NamesBase c c := by
    intro a s' herr
    obtain ⟨-, file, line, c, d, ha, hd, hcirc | ⟨hmem, -⟩⟩ := hends.error a s' herr ⟨hb, hm⟩
    · exact ⟨file, line, c, d, ha, hd, hcirc⟩
    · cases hmem
  refine ⟨⟨?_, ?_⟩, fun a s' herr => ⟨abort_of_resolveClasses hreg herr, hstop a s' herr⟩⟩
  · rintro ⟨a, s', herr⟩
    obtain ⟨-, -, c, -, -, -, hcirc⟩ := hstop a s' herr
    exact ⟨c, hcirc⟩
  · rintro ⟨c, hcirc⟩
    cases hrun : Resolve.resolveClasses s with
    | ok _ s' =>
      obtain ⟨hn, -, -, hall, -⟩ := hends.ok _ s' hrun
      exact absurd hcirc (hn.not_circular hall)
    | error a s' => exact ⟨a, s', rfl⟩

/-- A class that leads into a circle of two, where each class has a constant. -/
def spiral : Program :=
  let turn (line : UInt32) (name base : String) : ClassDecl :=
    ⟨name, ⟨0⟩, line, false, .normal, some base, none, [⟨0⟩], [], [], .unvisited⟩
  { Program.empty with
    classes := .ofList [turn 1 "Outer" "Middle", turn 2 "Middle" "Inner", turn 3 "Inner" "Middle"]
    consts := .ofList [⟨"Width", 4, .classDecl ⟨0⟩, .hidden, none, none, .unvisited, none⟩] }

theorem spiral_stops :
    ∃ s, Resolve.register (.start spiral) = .ok () s ∧
      (∃ a s', Resolve.resolveClasses s = .error a s') ∧
      spiral.resolve.abort = some (.fault ⟨"", 2, .circularInheritance "Middle"⟩) := by
  obtain ⟨_, s, hs⟩ := exists_ok_of_ends (x := Resolve.register) (s := .start spiral)
    (by decide +kernel)
  have hb : spiral.BasesNamed := by
    intro c d name hd hname
    have hlist : ∀ d ∈ spiral.classes.toList,
        d.baseName = some "Middle" ∨ d.baseName = some "Inner" := by decide +kernel
    rcases hlist d (Arena.mem_toList_of_get? hd) with h | h <;> rw [h] at hname <;> cases hname
    · exact ⟨⟨1⟩, _, rfl, rfl⟩
    · exact ⟨⟨2⟩, _, rfl, rfl⟩
  have hm : spiral.MembersDistinct := by
    intro c d hd
    have hlist : ∀ d ∈ spiral.classes.toList, d.consts = [⟨0⟩] ∧ d.fields = [] ∧
      d.methods = [] := by
      decide +kernel
    obtain ⟨hconsts, hfields, hmethods⟩ := hlist d (Arena.mem_toList_of_get? hd)
    refine ⟨[("Width", 4, .const ⟨0⟩)], ?_, by decide⟩
    rw [Resolve.membersOf, hconsts, hfields, hmethods]
    rfl
  have hcirc : Relation.TransGen spiral.NamesBase ⟨1⟩ ⟨1⟩ :=
    .tail (b := ⟨2⟩) (.single ⟨_, _, rfl, rfl, rfl⟩) ⟨_, _, rfl, rfl, rfl⟩
  have hmain := resolveClasses_stops_iff_circular spiral s (by decide +kernel) hs hb hm
  exact ⟨s, hs, hmain.1.2 ⟨⟨1⟩, hcirc⟩, by decide +kernel⟩

end Ci
