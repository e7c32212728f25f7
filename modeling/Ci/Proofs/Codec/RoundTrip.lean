-- The JSON form of a program loses nothing. What is written is read as it was, also
-- after fields that hold their default, or nothing, have been left out in any places.
import Ci.Program.Codec
import Mathlib.Data.List.Forall2
import Mathlib.Data.List.Nodup

namespace Ci

variable {k : Kind} {tag : String} {c : Json}

namespace Json

/-! ## Leaving fields out -/

/-- The fields that may be missing, with what they then hold. -/
def defaults : List (String × Json) :=
  [("is_public", .bool false), ("is_mutator", .bool false), ("call_type", .string "Normal"),
    ("visibility", .string "Private"), ("status", .string "Unvisited"), ("globals", .array []),
    ("ordered", .array [])]

/-- The field with a name may be missing, and then holds something. -/
def hasDefault (name : String) : Bool := (defaults.lookup name).isSome

/-- The field holds nothing, or what it would hold if it were missing. A return without a value is
no field, though its content is null. -/
def Omittable (name : String) (j : Json) : Prop :=
  j = .null ∧ name ≠ "Return" ∨ defaults.lookup name = some j

/-- Some fields that may be left out are left out, and the others hold related values. -/
inductive FieldsShorten (R : Json → Json → Prop) :
    List (String × Json) → List (String × Json) → Prop
  | nil : FieldsShorten R [] []
  | keep {name : String} {j j' : Json} {fields fields' : List (String × Json)} :
      R j j' → FieldsShorten R fields fields' →
      FieldsShorten R ((name, j) :: fields) ((name, j') :: fields')
  | drop {name : String} {j : Json} {fields fields' : List (String × Json)} :
      Omittable name j → FieldsShorten R fields fields' →
      FieldsShorten R ((name, j) :: fields) fields'

/-- The second value is the first one without some of the fields that may be left out, at any
depth. -/
inductive Shortens : Json → Json → Prop
  | same (j : Json) : Shortens j j
  | array {items items' : List Json} :
      List.Forall₂ Shortens items items' → Shortens (.array items) (.array items')
  | object {fields fields' : List (String × Json)} :
      FieldsShorten Shortens fields fields' → Shortens (.object fields) (.object fields')

variable {R : Json → Json → Prop} {fields fields' : List (String × Json)} {j v : Json}
  {name : String}

theorem FieldsShorten.refl (hR : ∀ j, R j j) (fields : List (String × Json)) :
    FieldsShorten R fields fields := by
  induction fields with
  | nil => exact .nil
  | cons _ _ ih => exact .keep (hR _) ih

theorem FieldsShorten.sublist (h : FieldsShorten R fields fields') :
    (fields'.map Prod.fst).Sublist (fields.map Prod.fst) := by
  induction h with
  | nil => exact .slnil
  | keep _ _ ih => exact ih.cons_cons _
  | drop _ _ ih => exact ih.cons _

/-- A field is still there, or it could be left out. -/
theorem FieldsShorten.lookup (h : FieldsShorten R fields fields')
    (hn : (fields.map Prod.fst).Nodup) (hv : fields.lookup name = some v) :
    (∃ v', fields'.lookup name = some v' ∧ R v v') ∨
      fields'.lookup name = none ∧ Omittable name v := by
  induction h with
  | nil => simp at hv
  | @keep n _ j' _ _ hj _ ih =>
    simp only [List.map_cons, List.nodup_cons] at hn
    by_cases hname : name = n
    · subst hname
      rw [List.lookup_cons_self] at hv ⊢
      exact .inl ⟨j', rfl, Option.some.inj hv ▸ hj⟩
    · rw [List.lookup_cons, beq_false_of_ne hname] at hv ⊢
      exact ih hn.2 hv
  | @drop n _ _ _ hj h ih =>
    simp only [List.map_cons, List.nodup_cons] at hn
    by_cases hname : name = n
    · subst hname
      rw [List.lookup_cons_self] at hv
      refine .inr ⟨List.lookup_eq_none_iff.2 fun f hf => bne_iff_ne.2 ?_, Option.some.inj hv ▸ hj⟩
      rintro rfl
      exact hn.1 (h.sublist.subset (List.mem_map_of_mem hf))
    · rw [List.lookup_cons, beq_false_of_ne hname] at hv
      exact ih hn.2 hv

theorem Shortens.of_array {items : List Json} (h : Shortens (.array items) j) :
    ∃ items', j = .array items' ∧ List.Forall₂ Shortens items items' := by
  cases h with
  | same => exact ⟨items, rfl, List.forall₂_same.2 fun j _ => .same j⟩
  | array h => exact ⟨_, rfl, h⟩

theorem Shortens.of_object (h : Shortens (.object fields) j) :
    ∃ fields', j = .object fields' ∧ FieldsShorten Shortens fields fields' := by
  cases h with
  | same => exact ⟨fields, rfl, .refl .same fields⟩
  | object h => exact ⟨_, rfl, h⟩

/-! ## Reading -/

variable {α : Type} {read : Json → Option α} {write : α → Json} {a : α}

/-- A value is read as a thing, also when fields have been left out. -/
def Reads (read : Json → Option α) (v : Json) (a : α) : Prop := ∀ j, Shortens v j → read j = some a

theorem Reads.ne_null (h : Reads read v a) (h0 : read .null = none) : v ≠ .null := by
  rintro rfl
  have := (h .null (.same _)).symm.trans h0
  simp at this

theorem reads_bool (b : Bool) : Reads toBool? (.bool b) b := by
  rintro _ ⟨⟩
  rfl

theorem reads_string (s : String) : Reads toString? (.string s) s := by
  rintro _ ⟨⟩
  rfl

theorem reads_double (x : Double) : Reads toDouble? (.double x) x := by
  rintro _ ⟨⟩
  rfl

theorem reads_int64 (n : Int64) : Reads toInt64? (.integer n.toInt) n := by
  rintro _ ⟨⟩
  have hn : Int64.minValue.toInt ≤ n.toInt ∧ n.toInt ≤ Int64.maxValue.toInt :=
    ⟨n.minValue_le_toInt, n.toInt_le⟩
  simp only [toInt64?, if_pos hn, Int64.ofInt_toInt]

theorem reads_uInt32 (n : UInt32) : Reads toUInt32? (.integer n.toNat) n := by
  rintro _ ⟨⟩
  have hn : (0 : Int) ≤ n.toNat ∧ (n.toNat : Int) < 4294967296 := by
    have := n.toNat_lt
    omega
  simp only [toUInt32?, if_pos hn, Int.toNat_natCast, UInt32.ofNat_toNat]

theorem reads_handle (h : Handle k) : Reads Handle.ofJson? h.toJson h := fun j hj => by
  rw [Handle.ofJson?, reads_uInt32 h.index j hj, Option.map_some]

theorem reads_list (h : ∀ a, Reads read (write a) a) (as : List α) :
    Reads (toList? read) (ofList write as) as := by
  intro j hj
  obtain ⟨items, rfl, hitems⟩ := hj.of_array
  clear hj
  rw [toList?]
  induction as generalizing items with
  | nil => cases hitems; rfl
  | cons a _ ih =>
    cases hitems with
    | cons ha has => simp [h a _ ha, ih _ has]

theorem reads_handles (hs : List (Handle k)) : Reads toHandles? (ofHandles hs) hs :=
  reads_list reads_handle hs

theorem reads_option (h : ∀ a, Reads read (write a) a) (h0 : read .null = none) (o : Option α) :
    Reads (toOption? read) (ofOption write o) o := by
  intro j hj
  cases o with
  | none => cases hj; rfl
  | some a =>
    have ha := h a j hj
    cases j with
    | null => simp [h0] at ha
    | _ => simp [toOption?, ha]

theorem reads_name {all : List α} {name : α → String} (h : ∀ a,
    all.find? (name · == name a) = some a)
    (a : α) : Reads (toName? all name) (.string (name a)) a := by
  rintro _ ⟨⟩
  simpa [toName?, toVariant?, isBare] using h a

/-! ## Records and variants -/

/-- What has been read as a record has the given fields, except for some that could be left
out. -/
structure Fields.Of (r : Fields) (fields : List (String × Json)) : Prop where
  named : r.listed = false
  get : ∀ {name : String} {v : Json}, fields.lookup name = some v →
    (∃ v', r.get? name = some v' ∧ Shortens v v') ∨ r.get? name = none ∧ Omittable name v

theorem Shortens.toRecord? (h : Shortens (.object fields) j) (hn : (fields.map Prod.fst).Nodup) :
    ∃ r, j.toRecord? (fields.map Prod.fst) = some r ∧ r.Of fields := by
  obtain ⟨fields', rfl, hf⟩ := h.of_object
  have hunrepeated : unrepeated (fields.map Prod.fst) fields' = true := by
    have hnodup := hf.sublist.nodup hn
    refine List.all_eq_true.2 fun name _ => decide_eq_true ?_
    rw [← List.countP_eq_length_filter]
    calc fields'.countP (fun f => f.1 == name) = (fields'.map Prod.fst).count name := by
          rw [List.count, List.countP_map]; rfl
      _ ≤ 1 := List.nodup_iff_count_le_one.1 hnodup name
  exact ⟨⟨false, fields'⟩, if_pos hunrepeated, rfl, fun hv => hf.lookup hn hv⟩

variable {names : List String} {f : Fields → Option α}

/-- A record is read from its fields. -/
theorem reads_record (h : ∀ r, r.Of fields → f r = some a)
    (hnames : fields.map Prod.fst = names) (hn : names.Nodup) :
    Reads (fun j => j.toRecord? names >>= f) (.object fields) a := by
  subst hnames
  intro j hj
  obtain ⟨r, hr, hf⟩ := hj.toRecord? hn
  exact (congrArg (· >>= f) hr).trans (h r hf)

/-- The content of a variant is read from its fields. -/
theorem reads_content {layout : Layout} (h : ∀ r, r.Of fields → f r = some a)
    (hnames : fields.map Prod.fst = names) (hn : names.Nodup) :
    Reads (fun j => j.toContent? layout names >>= f) (.object fields) a := by
  intro j hj
  obtain ⟨fields', rfl, -⟩ := hj.of_object
  cases layout <;> exact reads_record h hnames hn _ hj

theorem Shortens.of_variant (h : Shortens (.variant tag c) j)
    (hc : ¬ Omittable tag c) : ∃ c', j = .variant tag c' ∧ Shortens c c' := by
  obtain ⟨fields', rfl, hf⟩ := h.of_object
  cases hf with
  | keep hj hf => cases hf; exact ⟨_, rfl, hj⟩
  | drop ho _ => exact absurd ho hc

theorem not_omittable (h : v ≠ .null ∨ name = "Return") (hn : hasDefault name = false) :
    ¬ Omittable name v := by
  rintro (⟨hv, hname⟩ | hm)
  · exact h.elim (· hv) hname
  · simp [hasDefault, hm] at hn

/-- A variant is read as its content is. -/
theorem reads_variant (h : Reads (fun c => read (.variant tag c)) v a)
    (hv : v ≠ .null ∨ tag = "Return") (hn : hasDefault tag = false) :
    Reads read (.variant tag v) a := by
  intro j hj
  obtain ⟨c, rfl, hc⟩ := hj.of_variant (not_omittable hv hn)
  exact h c hc

theorem reads_variant_map {β : Type} {decode : Json → Option β} {make : α → β}
    (h : Reads read v a) (hd : ∀ c, decode (.variant tag c) = (read c).map make)
    (h0 : read .null = none) (hn : hasDefault tag = false) :
    Reads decode (.variant tag v) (make a) :=
  reads_variant (fun c hc => by simp only [hd, h c hc, Option.map_some]) (.inl (h.ne_null h0)) hn

theorem reads_held {β : Type} {id : Handle k} {decode : Json → Option β} {make : Handle k → β}
    (hd : ∀ c, decode (.variant tag c) = (Handle.ofJson? c).map make)
    (hn : hasDefault tag = false) :
    Reads decode (.variant tag id.toJson) (make id) := reads_variant_map (reads_handle id) hd rfl hn

namespace Fields.Of

variable {r : Fields} (h : r.Of fields)

include h

theorem required (name : String) (hv : fields.lookup name = some v) (hr : Reads read v a)
    (h0 : read .null = none) (hn : hasDefault name = false) :
    r.required name read = some a := by
  obtain ⟨v', hget, hs⟩ | ⟨-, ho⟩ := h.get hv
  · rw [Fields.required, hget]
    exact hr v' hs
  · exact absurd ho (not_omittable (.inl (hr.ne_null h0)) hn)

theorem handle (name : String) {id : Handle k} (hv : fields.lookup name = some id.toJson)
    (hn : hasDefault name = false) : r.required name Handle.ofJson? = some id :=
  h.required name hv (reads_handle id) rfl hn

theorem line {n : UInt32} (hv : fields.lookup "line" = some (.integer n.toNat)) :
    r.required "line" toUInt32? = some n := h.required "line" hv (reads_uInt32 n) rfl rfl

theorem defaulted (name : String) (default : α) (hr : ∀ a, Reads read (write a) a)
    (hv : fields.lookup name = some (write a)) (h0 : read .null = none)
    (hd : defaults.lookup name = some (write default)) :
    r.defaulted name default read = some a := by
  obtain ⟨v', hget, hs⟩ | ⟨hget, ho⟩ := h.get hv
  · rw [Fields.defaulted, hget]
    exact hr a v' hs
  · have hm : defaults.lookup name = some (write a) :=
      ho.resolve_left fun hnull => (hr a).ne_null h0 hnull.1
    have hw : write a = write default := Option.some.inj (hm.symm.trans hd)
    rw [Fields.defaulted, hget, ← hr default _ (.same _), ← hw, hr a _ (.same _)]

theorem nullable (name : String) {o : Option α} (hr : ∀ a, Reads read (write a) a)
    (hv : fields.lookup name = some (ofOption write o)) (h0 : read .null = none)
    (hn : hasDefault name = false) : r.nullable name read = some o := by
  obtain ⟨v', hget, hs⟩ | ⟨hget, ho⟩ := h.get hv
  · rw [Fields.nullable, hget]
    exact reads_option hr h0 o v' hs
  · cases o with
    | none => simp [Fields.nullable, hget, h.named]
    | some a => exact absurd ho (not_omittable (.inl ((hr a).ne_null h0)) hn)

/-- A field that may be missing or null. In a list it may be missing too. -/
theorem optional (name : String) {o : Option α} (hr : ∀ a, Reads read (write a) a)
    (hv : fields.lookup name = some (ofOption write o)) (h0 : read .null = none)
    (hn : hasDefault name = false) :
    r.defaulted name none (toOption? read) = some o := by
  have hnull := h.nullable name hr hv h0 hn
  unfold Fields.defaulted
  unfold Fields.nullable at hnull
  cases hget : r.get? name with
  | none => simpa [hget, h.named] using hnull
  | some => simpa [hget] using hnull

end Fields.Of

end Json

open Json

/-! ## Named values -/

theorem IntWidth.reads (w : IntWidth) : Reads (toName? all name) (.string w.name) w :=
  reads_name (fun w => by cases w <;> rfl) w

theorem FloatWidth.reads (w : FloatWidth) : Reads (toName? all name) (.string w.name) w :=
  reads_name (fun w => by cases w <;> rfl) w

theorem PrefixOp.reads (op : PrefixOp) : Reads (toName? all name) (.string op.name) op :=
  reads_name (fun op => by cases op <;> rfl) op

theorem PostfixOp.reads (op : PostfixOp) : Reads (toName? all name) (.string op.name) op :=
  reads_name (fun op => by cases op <;> rfl) op

theorem BinaryOp.reads (op : BinaryOp) : Reads (toName? all name) (.string op.name) op := by
  refine reads_name (fun op => ?_) op
  cases op with
  | arith op | update op => cases op <;> rfl
  | order r => cases r <;> rfl
  | _ => rfl

theorem Status.reads (x : Status) : Reads ofJson? (.string x.name) x :=
  reads_name (fun x => by cases x <;> rfl) x

theorem Visibility.reads (x : Visibility) : Reads ofJson? (.string x.name) x :=
  reads_name (fun x => by cases x <;> rfl) x

theorem CallKind.reads (x : CallKind) : Reads ofJson? (.string x.name) x :=
  reads_name (fun x => by cases x <;> rfl) x

/-! ## Types -/

theorem Interval.reads (i : Interval) : Reads Interval.ofJson? i.toJson i := by
  refine reads_record (fun r hf => ?_) rfl (by decide)
  simp [hf.required "min" rfl (reads_int64 _) rfl rfl,
    hf.required "max" rfl (reads_int64 _) rfl rfl]

namespace Ty

variable {layout : Json.Layout}

/-- A type whose content is no type is read by the name of its form. -/
theorem ofJson?_variant (h : tag ≠ "ArrayPointer") (h' : tag ≠ "ArrayStorage") (hc : c ≠ .null) :
    ofJson? layout (.variant tag c) = flat? layout tag c := by
  rw [ofJson?]
  cases c <;> simp_all [Json.toVariant?, Json.variant, Json.isBare]

theorem reads_flat {t : Ty} (ht : Reads (flat? layout tag) c t) (h0 : flat? layout tag .null = none)
    (hn : (tag == "ArrayPointer" || tag == "ArrayStorage" || hasDefault tag) = false) :
    Reads (ofJson? layout) (.variant tag c) t := by
  simp only [Bool.or_eq_false_iff, beq_eq_false_iff_ne] at hn
  refine reads_variant (fun c' hc => ?_) (.inl (ht.ne_null h0)) hn.2
  have h1 := ht c' hc
  refine (ofJson?_variant hn.1.1 hn.1.2 ?_).trans h1
  rintro rfl
  simp [h0] at h1

theorem ofJson?_arrayPointer (c : Json) : ofJson? layout (.variant "ArrayPointer" c) = do
    let r ← c.toContent? layout ["element", "mutable"]
    return .arrayPointer (← r.required "element" (ofJson? layout))
      (← r.required "mutable" toBool?) := by
  rw [ofJson?]
  simp only [variant, toVariant?, if_true]
  split
  · simp [*]
  · split <;> simp [*, Fields.required]

theorem ofJson?_arrayStorage (c : Json) : ofJson? layout (.variant "ArrayStorage" c) = do
    let r ← c.toContent? layout ["element", "length"]
    return .arrayStorage (← r.required "element" (ofJson? layout))
      (← r.required "length" toUInt32?) := by
  rw [ofJson?]
  simp only [variant, toVariant?, String.reduceEq, if_false, if_true]
  split
  · simp [*]
  · split <;> simp [*, Fields.required]

theorem ofJson?_null : ofJson? layout .null = none := by
  rw [ofJson?]
  rfl

theorem reads (t : Ty) : Reads (ofJson? layout) t.toJson t := by
  induction t with
  | void | null | bool | char | stringPointer | stringStorage =>
    rintro _ ⟨⟩
    rw [ofJson?]
    rfl
  | integer w =>
    exact reads_flat (fun c hc => congrArg (Option.map Ty.integer) (w.reads c hc)) rfl rfl
  | floating w =>
    exact reads_flat (fun c hc => congrArg (Option.map Ty.floating) (w.reads c hc)) rfl rfl
  | range i => exact reads_flat (fun c hc => congrArg (Option.map Ty.range) (i.reads c hc)) rfl rfl
  | classPointer =>
    refine reads_flat (reads_content (fun r hf => ?_) rfl (by decide)) (by cases layout <;> rfl) rfl
    simp [hf.handle "class" rfl rfl, hf.required "mutable" rfl (reads_bool _) rfl rfl]
  | classStorage c =>
    exact reads_flat (fun j hc => congrArg (Option.map Ty.classStorage) (reads_handle c j hc))
      rfl rfl
  | enumeration e =>
    exact reads_flat (fun j hc => congrArg (Option.map Ty.enumeration) (reads_handle e j hc))
      rfl rfl
  | arrayPointer _ _ ih =>
    refine reads_variant (fun c hc => ?_) (.inl (by simp)) rfl
    refine (ofJson?_arrayPointer c).trans (reads_content (fun r hf => ?_) (by rfl) (by decide) c hc)
    simp [hf.required "element" rfl ih ofJson?_null rfl,
      hf.required "mutable" rfl (reads_bool _) rfl rfl]
  | arrayStorage _ _ ih =>
    refine reads_variant (fun c hc => ?_) (.inl (by simp)) rfl
    refine (ofJson?_arrayStorage c).trans (reads_content (fun r hf => ?_) (by rfl) (by decide) c hc)
    simp [hf.required "element" rfl ih ofJson?_null rfl,
      hf.required "length" rfl (reads_uInt32 _) rfl rfl]

/-- The type that is recorded for a part. -/
theorem optional {r : Fields} {fields : List (String × Json)} {t : Option Ty} (h : r.Of fields)
    (hv : fields.lookup "ty" = some (ofTy? t)) : r.defaulted "ty" none (toTy? layout) = some t :=
  h.optional "ty" reads hv ofJson?_null rfl

end Ty

/-! ## Expressions -/

theorem Literal.reads (v : Literal) : Reads Literal.ofJson? v.toJson v := by
  cases v with
  | null => rintro _ ⟨⟩; rfl
  | bool b => exact reads_variant_map (reads_bool b) (fun _ => rfl) rfl rfl
  | int n => exact reads_variant_map (reads_int64 n) (fun _ => rfl) rfl rfl
  | double x => exact reads_variant_map (reads_double x) (fun _ => rfl) rfl rfl
  | string s => exact reads_variant_map (reads_string s) (fun _ => rfl) rfl rfl

section

variable {layout : Json.Layout}

theorem Symbol.reads (x : Symbol) : Reads (Symbol.ofJson? layout) x.toJson x := by
  cases x with
  | type t => exact reads_variant_map t.reads (fun _ => rfl) Ty.ofJson?_null rfl
  | classDecl => exact reads_held (fun _ => rfl) rfl
  | enumDecl => exact reads_held (fun _ => rfl) rfl
  | const => exact reads_held (fun _ => rfl) rfl
  | field => exact reads_held (fun _ => rfl) rfl
  | method => exact reads_held (fun _ => rfl) rfl
  | var => exact reads_held (fun _ => rfl) rfl
  | stringLength => rintro _ ⟨⟩; rfl

theorem Operand.reads (x : Operand) : Reads Operand.ofJson? x.toJson x := by
  cases x with
  | none => rintro _ ⟨⟩; rfl
  | expr => exact reads_held (fun _ => rfl) rfl
  | args es => exact reads_variant_map (reads_handles es) (fun _ => rfl) rfl rfl

theorem Expr.reads (x : Expr) : Reads (Expr.ofJson? layout) x.toJson x := by
  cases x with
  | literal v => exact reads_variant_map v.reads (fun _ => rfl) rfl rfl
  | name _ symbol =>
    refine reads_variant (reads_record (fun r hf => ?_) rfl (by decide)) (.inl (by simp)) rfl
    simp [hf.required "name" rfl (reads_string _) rfl rfl,
      hf.optional "symbol" Symbol.reads rfl rfl rfl]
  | before op =>
    refine reads_variant (reads_content (fun r hf => ?_) rfl (by decide)) (.inl (by simp)) rfl
    simp [hf.required "op" rfl op.reads rfl rfl, hf.handle "inner" rfl rfl]
  | after op =>
    refine reads_variant (reads_content (fun r hf => ?_) rfl (by decide)) (.inl (by simp)) rfl
    simp [hf.required "op" rfl op.reads rfl rfl, hf.handle "inner" rfl rfl]
  | binary op left right =>
    refine reads_variant (reads_content (fun r hf => ?_) rfl (by decide)) (.inl (by simp)) rfl
    simp [hf.required "op" rfl op.reads rfl rfl, hf.handle "left" rfl rfl,
      hf.required "right" rfl right.reads rfl rfl]
  | conditional cond =>
    refine reads_variant (reads_content (fun r hf => ?_) rfl (by decide)) (.inl (by simp)) rfl
    simp [hf.handle "cond" rfl rfl, hf.handle "on_true" rfl rfl,
      hf.handle "on_false" rfl rfl]
  | collection items =>
    refine reads_variant (reads_content (fun r hf => ?_) rfl (by decide)) (.inl (by simp)) rfl
    simp [hf.required "items" rfl (reads_handles _) rfl rfl]
  | var => exact reads_held (fun _ => rfl) rfl

theorem ExprNode.reads (n : ExprNode) : Reads (ExprNode.ofJson? layout) n.toJson n := by
  refine reads_record (fun r hf => ?_) rfl (by decide)
  simp [hf.required "kind" rfl n.kind.reads rfl rfl, hf.line rfl,
    Ty.optional hf rfl]

/-! ## Statements -/

theorem Case.reads (c : Case) : Reads Case.ofJson? c.toJson c := by
  refine reads_record (fun r hf => ?_) rfl (by decide)
  simp [hf.required "values" rfl (reads_handles _) rfl rfl,
    hf.required "body" rfl (reads_handles _) rfl rfl]

theorem Stmt.reads (x : Stmt) : Reads (Stmt.ofJson? layout) x.toJson x := by
  cases x with
  | block body => exact reads_variant_map (reads_handles body) (fun _ => rfl) rfl rfl
  | ifThen cond =>
    refine reads_variant (reads_content (fun r hf => ?_) rfl (by decide)) (.inl (by simp)) rfl
    simp [hf.handle "cond" rfl rfl, hf.handle "on_true" rfl rfl,
      hf.nullable "on_false" reads_handle rfl rfl rfl]
  | whileLoop cond body =>
    refine reads_variant (reads_content (fun r hf => ?_) rfl (by decide)) (.inl (by simp)) rfl
    simp [hf.handle "cond" rfl rfl, hf.handle "body" rfl rfl]
  | doWhile body cond =>
    refine reads_variant (reads_content (fun r hf => ?_) rfl (by decide)) (.inl (by simp)) rfl
    simp [hf.handle "cond" rfl rfl, hf.handle "body" rfl rfl]
  | forLoop _ cond advance body =>
    refine reads_variant (reads_content (fun r hf => ?_) rfl (by decide)) (.inl (by simp)) rfl
    simp [hf.nullable "init" reads_handle rfl rfl rfl, hf.nullable "cond" reads_handle rfl rfl rfl,
      hf.nullable "advance" reads_handle rfl rfl rfl, hf.handle "body" rfl rfl]
  | switch value cases default =>
    refine reads_variant (reads_content (fun r hf => ?_) rfl (by decide)) (.inl (by simp)) rfl
    simp [hf.handle "value" rfl rfl, hf.required "cases" rfl (reads_list Case.reads _) rfl rfl,
      hf.nullable "default" reads_handles rfl rfl rfl]
  | ret value =>
    refine reads_variant (fun c hc => ?_) (.inr rfl) rfl
    exact congrArg (Option.map Stmt.ret) (reads_option reads_handle rfl value c hc)
  | leave | next => rintro _ ⟨⟩; rfl
  | throw => exact reads_held (fun _ => rfl) rfl
  | delete => exact reads_held (fun _ => rfl) rfl
  | expr => exact reads_held (fun _ => rfl) rfl
  | const => exact reads_held (fun _ => rfl) rfl

theorem StmtNode.reads (n : StmtNode) : Reads (StmtNode.ofJson? layout) n.toJson n := by
  refine reads_record (fun r hf => ?_) rfl (by decide)
  simp [hf.required "kind" rfl n.kind.reads rfl rfl, hf.line rfl]

/-! ## Declarations -/

theorem Owner.reads (x : Owner) : Reads Owner.ofJson? x.toJson x := by
  cases x with
  | program => exact reads_held (fun _ => rfl) rfl
  | classDecl => exact reads_held (fun _ => rfl) rfl
  | enumDecl => exact reads_held (fun _ => rfl) rfl
  | body => rintro _ ⟨⟩; rfl

theorem ClassDecl.reads (d : ClassDecl) : Reads ClassDecl.ofJson? d.toJson d := by
  refine reads_record (fun r hf => ?_) rfl (by decide)
  simp [hf.required "name" rfl (reads_string _) rfl rfl, hf.handle "file" rfl rfl,
    hf.line rfl, hf.defaulted "is_public" false reads_bool rfl rfl rfl,
    hf.defaulted "call_type" .normal CallKind.reads rfl rfl rfl,
    hf.nullable "base_name" reads_string rfl rfl rfl,
    hf.optional "base" reads_handle rfl rfl rfl, hf.required "consts" rfl (reads_handles _) rfl rfl,
    hf.required "fields" rfl (reads_handles _) rfl rfl,
    hf.required "methods" rfl (reads_handles _) rfl rfl,
    hf.defaulted "status" .unvisited Status.reads rfl rfl rfl]

theorem EnumDecl.reads (d : EnumDecl) : Reads EnumDecl.ofJson? d.toJson d := by
  refine reads_record (fun r hf => ?_) rfl (by decide)
  simp [hf.required "name" rfl (reads_string _) rfl rfl, hf.handle "file" rfl rfl,
    hf.line rfl, hf.defaulted "is_public" false reads_bool rfl rfl rfl,
    hf.required "values" rfl (reads_handles _) rfl rfl]

theorem Const.reads (d : Const) : Reads (Const.ofJson? layout) d.toJson d := by
  refine reads_record (fun r hf => ?_) rfl (by decide)
  simp [hf.required "name" rfl (reads_string _) rfl rfl, hf.line rfl,
    hf.required "owner" rfl d.owner.reads rfl rfl,
    hf.defaulted "visibility" .hidden Visibility.reads rfl rfl rfl,
    hf.nullable "type_expr" reads_handle rfl rfl rfl, hf.nullable "value" reads_handle rfl rfl rfl,
    hf.defaulted "status" .unvisited Status.reads rfl rfl rfl, Ty.optional hf rfl]

theorem Field.reads (d : Field) : Reads (Field.ofJson? layout) d.toJson d := by
  refine reads_record (fun r hf => ?_) rfl (by decide)
  simp [hf.required "name" rfl (reads_string _) rfl rfl, hf.line rfl,
    hf.defaulted "visibility" .hidden Visibility.reads rfl rfl rfl, hf.handle "type_expr" rfl rfl,
    Ty.optional hf rfl]

theorem Method.reads (d : Method) : Reads (Method.ofJson? layout) d.toJson d := by
  refine reads_record (fun r hf => ?_) rfl (by decide)
  simp [hf.required "name" rfl (reads_string _) rfl rfl, hf.line rfl,
    hf.defaulted "visibility" .hidden Visibility.reads rfl rfl rfl,
    hf.defaulted "call_type" .normal CallKind.reads rfl rfl rfl,
    hf.defaulted "is_mutator" false reads_bool rfl rfl rfl,
    hf.nullable "type_expr" reads_handle rfl rfl rfl,
    hf.required "params" rfl (reads_handles _) rfl rfl, hf.nullable "body" reads_handle rfl rfl rfl,
    Ty.optional hf rfl]

theorem Var.reads (d : Var) : Reads (Var.ofJson? layout) d.toJson d := by
  refine reads_record (fun r hf => ?_) rfl (by decide)
  simp [hf.required "name" rfl (reads_string _) rfl rfl, hf.line rfl,
    hf.handle "type_expr" rfl rfl, hf.nullable "value" reads_handle rfl rfl rfl,
    Ty.optional hf rfl]

/-! ## Programs -/

theorem Arena.reads {α : Type} {read : Json → Option α} {write : α → Json}
    (h : ∀ a, Reads read (write a) a) (a : Arena k α) :
    Reads (Arena.ofJson? read) (a.toJson write) a := fun j hj => by
  simp [ofJson?, reads_list h a.toList j hj, ofList, toList]

theorem Program.reads (p : Program) : Reads (Program.ofJson? layout) p.toJson p := by
  refine reads_record (fun r hf => ?_) rfl (by decide)
  simp [hf.required "files" rfl (Arena.reads reads_string _) rfl rfl,
    hf.required "exprs" rfl (Arena.reads ExprNode.reads _) rfl rfl,
    hf.required "stmts" rfl (Arena.reads StmtNode.reads _) rfl rfl,
    hf.required "classes" rfl (Arena.reads ClassDecl.reads _) rfl rfl,
    hf.required "enums" rfl (Arena.reads EnumDecl.reads _) rfl rfl,
    hf.required "consts" rfl (Arena.reads Const.reads _) rfl rfl,
    hf.required "fields" rfl (Arena.reads Field.reads _) rfl rfl,
    hf.required "methods" rfl (Arena.reads Method.reads _) rfl rfl,
    hf.required "vars" rfl (Arena.reads Var.reads _) rfl rfl,
    hf.defaulted "globals" [] reads_handles rfl rfl rfl,
      hf.defaulted "ordered" [] reads_handles rfl rfl rfl]

end

/-- A program is read from its JSON form as it was, in both layouts of variants, and also from
every form in which fields that hold nothing, or what they would hold if they were missing, have
been left out. -/
theorem program_json_round_trip (layout : Json.Layout) (p : Program) :
    Program.ofJson? layout p.toJson = some p ∧
      ∀ j, Shortens p.toJson j → Program.ofJson? layout j = some p :=
  ⟨p.reads _ (.same _), p.reads⟩

/-- A class that names no base, with a negative zero and a return of nothing. -/
def leaflet : Program :=
  { Program.empty with
    files := .ofList ["größe.ci"]
    exprs := .ofList [⟨.literal (.double ⟨0x8000000000000000⟩), 1, none⟩]
    stmts := .ofList [⟨.ret none, 4294967295⟩]
    classes := .ofList [
      ⟨"Leaflet", ⟨0⟩, 1, false, .static, none, none, [], [], [], .unvisited⟩] }

/-- The leaflet without what may be left out. The statement keeps its null. -/
def leafletShort : Json :=
  .object [("files", .array [.string "größe.ci"]),
    ("exprs", .array [.object [
      ("kind", .variant "Literal" (.variant "Double" (.double ⟨0x8000000000000000⟩))),
      ("line", .integer 1)]]),
    ("stmts", .array [.object [("kind", .variant "Return" .null), ("line", .integer 4294967295)]]),
    ("classes", .array [.object [("name", .string "Leaflet"), ("file", .integer 0),
      ("line", .integer 1), ("call_type", .string "Static"), ("consts", .array []),
      ("fields", .array []), ("methods", .array [])]]),
    ("enums", .array []), ("consts", .array []), ("fields", .array []), ("methods", .array []),
    ("vars", .array [])]

theorem leaflet_shortens : Shortens leaflet.toJson leafletShort := by
  have hnull : ∀ name, name ≠ "Return" → Omittable name .null := fun _ h => .inl ⟨rfl, h⟩
  have hnode : Shortens (ExprNode.toJson ⟨.literal (.double ⟨0x8000000000000000⟩), 1, none⟩)
      (.object [("kind", .variant "Literal" (.variant "Double" (.double ⟨0x8000000000000000⟩))),
        ("line", .integer 1)]) :=
    .object (.keep (.same _) (.keep (.same _) (.drop (hnull _ (by decide)) .nil)))
  have hclass : Shortens
      (ClassDecl.toJson ⟨"Leaflet", ⟨0⟩, 1, false, .static, none, none, [], [], [], .unvisited⟩)
      (.object [("name", .string "Leaflet"), ("file", .integer 0), ("line", .integer 1),
        ("call_type", .string "Static"), ("consts", .array []), ("fields", .array []),
        ("methods", .array [])]) :=
    .object (.keep (.same _) (.keep (.same _) (.keep (.same _) (.drop (.inr rfl) (.keep (.same _)
      (.drop (hnull _ (by decide)) (.drop (hnull _ (by decide)) (.keep (.same _) (.keep (.same _)
      (.keep (.same _) (.drop (.inr rfl) .nil)))))))))))
  exact .object (.keep (.same _) (.keep (.array (.cons hnode .nil)) (.keep (.same _)
    (.keep (.array (.cons hclass .nil)) (.keep (.same _) (.keep (.same _) (.keep (.same _)
    (.keep (.same _) (.keep (.same _) (.drop (.inr rfl) (.drop (.inr rfl) .nil)))))))))))

theorem leaflet_round_trip :
    Shortens leaflet.toJson leafletShort ∧
      Program.ofJson? .listed leafletShort = some leaflet :=
  ⟨leaflet_shortens, (program_json_round_trip .listed leaflet).2 _ leaflet_shortens⟩

end Ci
