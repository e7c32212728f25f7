-- Every interval in the types of a program holds a word. That is so at every point
-- of the pass if it is so at the start, whether the pass comes to its end or not.
import Ci.Proofs.Descent.Run
import Ci.Proofs.Interval.Validity

namespace Ci

open Pass Resolve

/-! ## Types with a word in each interval -/

theorem Interval.family_valid : Interval.Family Interval.Valid where
  valid := id
  neg := .neg
  complement := .complement
  offset h := h.offset _
  union h _ := h.union
  apply hl hr h := hl.apply hr h

theorem Ty.wellRanged_iff {t : Ty} : t.wellRanged = true ↔ t.Within Interval.Valid := by
  induction t with
  | range => simp [wellRanged, Within]
  | arrayPointer t _ ih | arrayStorage t _ ih => simpa [wellRanged, Within] using ih
  | _ => simp [wellRanged, Within]

theorem Program.wellRanged_iff {p : Program} :
    p.wellRanged = true ↔ p.Within Interval.Valid := by
  have hfits : ∀ o : Option Ty, o.all Ty.wellRanged = true ↔ ∀ t,
    o = some t → t.Within Interval.Valid := by
    intro o
    cases o <;> simp [Ty.wellRanged_iff]
  simp only [wellRanged, Bool.and_eq_true, List.all_eq_true, hfits]
  constructor
  · rintro ⟨⟨⟨⟨he, hk⟩, hf⟩, hm⟩, hv⟩
    refine ⟨fun n hn => (he n hn).2, fun n hn text t heq => ?_, hk, hf, hm, hv⟩
    have := (he n hn).1
    rw [heq] at this
    exact Ty.wellRanged_iff.1 this
  · intro h
    refine ⟨⟨⟨⟨fun n hn => ⟨?_, h.exprs n hn⟩, h.consts⟩, h.fields⟩, h.methods⟩, h.vars⟩
    split
    · exact Ty.wellRanged_iff.2 (h.names n hn _ _ ‹_›)
    · rfl

/-- Every interval in the types of the program, and in those that names stand for, holds a word. -/
structure Pass.State.WellRanged (s : State) : Prop where
  program : s.program.wellRanged = true
  bound : ∀ (i : Nat) c name t, s.table.scopes[i]? = some c → (name, .type t) ∈ c.bindings →
    t.wellRanged = true

/-- A state with a word in each interval has grown from its own program. -/
theorem Pass.State.wellRanged_iff {s : State} :
    s.WellRanged ↔ Grown (.everywhere s.program) Interval.Valid ⟨[], ∅⟩ s := by
  constructor
  · intro h
    refine .refl (Program.wellRanged_iff.1 h.program) (fun _ _ _ _ _ => trivial)
      (fun i c name symbol hc hb => Grown.means_everywhere ?_) rfl
    rintro t rfl
    exact Ty.wellRanged_iff.1 (h.bound i c name t hc hb)
  · intro h
    exact ⟨Program.wellRanged_iff.2 h.types,
      fun i c name t hc hb => Ty.wellRanged_iff.2 (h.bound i c name (.type t) hc hb)⟩

/-! ## The whole pass -/

/-- An invariant that holds at every point of a pass: whatever part of it runs, down to any depth,
it holds after that part if it held before. -/
structure Pass.Throughout (I : State → Prop) : Prop where
  builtins : Preserves I registerBuiltins
  registerClass : ∀ c, Preserves I (Resolve.registerClass c)
  registerEnum : ∀ e, Preserves I (Resolve.registerEnum e)
  registerGlobal : ∀ k, Preserves I (Resolve.registerGlobal k)
  classDecl : ∀ n c, Preserves I (classWithin n c)
  expr : ∀ n e, Preserves I ((callsWithin n).expr e)
  type : ∀ n e, Preserves I ((callsWithin n).type e)
  const : ∀ n k, Preserves I ((callsWithin n).const k)
  stmt : ∀ n x, Preserves I (stmtWithin n x)
  field : ∀ f, Preserves I (resolveField f)
  signature : ∀ m, Preserves I (resolveSignature m)
  types : ∀ c, Preserves I (resolveTypes c)
  method : ∀ file i m, Preserves I (resolveMethod file i m)
  code : ∀ c, Preserves I (resolveCode c)
  run : Preserves I Resolve.run

/-- What keeps a state grown from any program keeps a word in each interval. -/
theorem keeps_wellRanged {α : Type} {x : Pass α} {P : α → Prop}
    (h : ∀ p s, Keeps (fun s => ∃ v, Grown (.everywhere p) Interval.Valid v s) x s fun a _ => P a)
    (s : State) :
    Keeps State.WellRanged x s fun a _ => P a := by
  have hrange : ∀ {s' : State}, (∃ v, Grown (.everywhere s.program) Interval.Valid v s') →
      s'.WellRanged := by
    rintro s' ⟨v, hs⟩
    exact ⟨Program.wellRanged_iff.2 hs.types,
      fun i c name t hc hb => Ty.wellRanged_iff.2 (hs.bound i c name (.type t) hc hb)⟩
  refine ⟨fun hs => ?_⟩
  have := (h s.program s).holds ⟨_, State.wellRanged_iff.1 hs⟩
  split <;> rename_i heq <;> rw [heq] at this
  · exact ⟨hrange this.1, this.2⟩
  · exact hrange this

theorem wellRanged_throughout : Throughout State.WellRanged := by
  have law : ∀ p : Program, Lawful _ fun s => ∃ v, Grown (.everywhere p) Interval.Valid v s :=
    fun p => Grown.lawful p Interval.family_valid
  have calls :=
    fun (p : Program) n => Obeys.callsWithin ((Locale.everywhere p).descent Interval.family_valid) n
  exact
    { builtins := keeps_wellRanged fun p => (law p).registerBuiltins
      registerClass := fun c => keeps_wellRanged fun p => (law p).registerClass c
      registerEnum := fun e => keeps_wellRanged fun p => (law p).registerEnum e
      registerGlobal := fun k => keeps_wellRanged fun p => (law p).registerGlobal k
      classDecl := fun n c => keeps_wellRanged fun p => (law p).classWithin n c
      expr := fun n e => keeps_wellRanged fun p => Grown.keeps Interval.family_valid fun _ _ =>
        ((calls p n).expr (Grown.at_everywhere _)).imp fun _ _ _ _ => trivial
      type := fun n e => keeps_wellRanged fun p => Grown.keeps Interval.family_valid fun _ _ =>
        ((calls p n).type (Grown.at_everywhere _)).imp fun _ _ _ _ => trivial
      const := fun n k => keeps_wellRanged fun p => Grown.keeps Interval.family_valid fun _ _ =>
        ((calls p n).const (.inr (Grown.at_everywhere _))).imp fun _ _ _ _ => trivial
      stmt := fun n x => keeps_wellRanged fun p => Grown.keeps Interval.family_valid fun _ _ =>
        (Obeys.stmtWithin (Grown.at_everywhere _) n).imp fun _ _ _ _ => trivial
      field := fun f => keeps_wellRanged fun p => (law p).resolveField f
      signature := fun m => keeps_wellRanged fun p => (law p).resolveSignature m
      types := fun c => keeps_wellRanged fun p => (law p).resolveTypes c
      method := fun file i m => keeps_wellRanged fun p => (law p).resolveMethod m
      code := fun c => keeps_wellRanged fun p => (law p).resolveCode c
      run := keeps_wellRanged fun p => (law p).run }

/-! ## Arithmetic -/

/-- Every interval that arithmetic makes of two intervals holds a word, also one that is only made
on the way. -/
structure Interval.NeverEmpty (l r : Interval) : Prop where
  neg : l.neg.Valid
  complement : l.complement.Valid
  offset : ∀ d, (l.offset d).Valid
  union : (l.union r).Valid
  hull : ∀ vs, (hull vs).Valid
  signs : ∀ i ∈ l.signs, i.Valid
  divisors : ∀ i ∈ l.divisors, i.Valid
  patterns : ∀ i ∈ bitwiseParts .unsignedAnd l r ++ bitwiseParts .unsignedOr l r ++
    bitwiseParts .unsignedXor l r, i.Valid
  bound : ∀ op i, bound op l r = .ok i → i.Valid
  apply : ∀ op i, apply op l r = .ok i → i.Valid

theorem Interval.Valid.neverEmpty {l r : Interval} (hl : l.Valid) (hr : r.Valid) :
    l.NeverEmpty r where
  neg := hl.neg
  complement := hl.complement
  offset := hl.offset
  union := hl.union
  hull := valid_hull
  signs _ := hl.of_mem_signs
  divisors _ := hl.of_mem_divisors
  patterns i hi := by
    simp only [List.mem_append] at hi
    obtain (hi | hi) | hi := hi
    · exact .of_mem_bitwiseParts boundsBits_and hl hr hi
    · exact .of_mem_bitwiseParts boundsBits_or hl hr hi
    · exact .of_mem_bitwiseParts boundsBits_xor hl hr hi
  bound _ _ := hl.bound hr
  apply _ _ := hl.apply hr

/-- A range that is written out holds a word, whatever its bounds come to. -/
theorem rangeTo_valid (calls : Calls) (min : Int64) (included : Bool) (e : ExprId) (s : State) :
    Yields (rangeTo calls min included e) s fun b _ => ∃ i : Interval,
    b.2 = .range i ∧ i.Valid := by
  refine Keeps.bind (P := fun _ _ => True) ⟨fun _ => by split <;> trivial⟩ fun b s' _ _ => ?_
  obtain ⟨folded, bound⟩ := b
  dsimp only
  generalize (if included then bound else Saturating.sub bound 1) = max
  by_cases hlt : max < min
  · rw [if_pos hlt]
    exact .failAt
  · rw [if_neg hlt]
    exact .pure fun _ => ⟨⟨min, max⟩, rfl, Int64.not_lt.1 hlt⟩

/-! ## All of it -/

/-- If each interval in the types of a program holds a word, that stays so at every point of its
resolution, and in the program that comes out, whether resolution comes to its end or not. No
interval without a word is ever made, by arithmetic on intervals or for a range that is written
out. -/
theorem ranges_never_empty :
    Throughout State.WellRanged ∧
    (∀ p : Program, p.wellRanged = true →
      (State.start p).WellRanged ∧ p.resolve.program.wellRanged = true) ∧
    (∀ n e s, Keeps State.WellRanged ((Resolve.callsWithin n).type e) s
      fun t _ => t.wellRanged = true) ∧
    (∀ l r : Interval, l.Valid → r.Valid → l.NeverEmpty r) ∧
    ∀ calls min included e s, Yields (Resolve.rangeTo calls min included e) s
      fun b _ => ∃ i : Interval, b.2 = .range i ∧ i.Valid := by
  refine ⟨wellRanged_throughout, fun p hp => ?_,
    fun n e => keeps_wellRanged fun p => Grown.keeps Interval.family_valid
    fun _ _ => ((Obeys.callsWithin _ n).type (Grown.at_everywhere (.expr e))).imp fun _ _ _ h =>
      Ty.wellRanged_iff.2 h.1,
    fun l r hl hr => hl.neverEmpty hr, rangeTo_valid⟩
  have hw := Program.wellRanged_iff.1 hp
  obtain ⟨s, v, hs, hg⟩ := resolve_grown Interval.family_valid hw
  exact ⟨State.wellRanged_iff.2 (Grown.start hw fun _ _ _ _ _ => trivial),
    hs ▸ Program.wellRanged_iff.2 hg.types⟩

/-- Operators on bytes, one of whose results leaves the domain of words, beside a constant that
has its type. -/
def gauge : Program :=
  let expr (kind : Expr) : ExprNode := ⟨kind, 1, none⟩
  let name (text : String) : ExprNode := expr (.name text none)
  { Program.empty with
    exprs := .ofList [name "byte", expr (.var ⟨0⟩), name "b", expr (.before .tilde ⟨2⟩), name "b",
      expr (.before .minus ⟨4⟩), expr (.literal (.int Int64.maxValue)),
      expr (.binary (.arith .mul) ⟨5⟩ (.expr ⟨6⟩)), expr (.binary (.arith .xor) ⟨3⟩ (.expr ⟨7⟩)),
      name "missing"]
    stmts := .ofList [⟨.expr ⟨1⟩, 1⟩, ⟨.expr ⟨8⟩, 2⟩, ⟨.expr ⟨9⟩, 3⟩, ⟨.block [⟨0⟩, ⟨1⟩, ⟨2⟩], 1⟩]
    classes := .ofList [⟨"Gauge", ⟨0⟩, 1, false, .normal, none, none, [⟨0⟩], [], [⟨0⟩], .unvisited⟩]
    consts := .ofList [⟨"Limits", 1, .classDecl ⟨0⟩, .hidden, none, none, .resolved,
      some (.arrayStorage (.range ⟨-3, 3⟩) 2)⟩]
    methods := .ofList [⟨"read", 1, .hidden, .normal, false, none, [], some ⟨3⟩, none⟩]
    vars := .ofList [⟨"b", 1, ⟨0⟩, none, none⟩] }

theorem gauge_ranges_never_empty :
    gauge.wellRanged = true ∧ gauge.resolve.abort ≠ none ∧
      (gauge.resolve.program.exprs.get? ⟨7⟩).bind (·.ty) = some (.range ⟨Int64.minValue, 0⟩) ∧
      gauge.resolve.program.wellRanged = true ∧
      (⟨-128, 127⟩ : Interval).NeverEmpty ⟨-1, 0⟩ := by
  have h : gauge.wellRanged = true := by decide +kernel
  obtain ⟨-, hrun, -, harith, -⟩ := ranges_never_empty
  exact ⟨h, by decide +kernel, by decide +kernel, (hrun gauge h).2,
    harith _ _ (by decide) (by decide)⟩

end Ci
