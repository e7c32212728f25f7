-- The whole pass that has come to its end. All classes are linked, then all constants,
-- all types of members and all bodies have been resolved, each of them once.
import Ci.Proofs.Work.Phases

namespace Ci

open Pass Resolve Arena

variable {p q q' : Program} {s s1 s2 s3 s' : State} {k : ConstId} {m : MethodId} {c : ClassId}
  {ys zs : List Node} {d : ClassDecl} {ks : List ConstId}

/-! ## Signatures -/

/-- The type that a method returns is known, and the method is otherwise as it was. -/
def Signed (p q : Program) (m : MethodId) : Prop :=
  ∃ d ty, p.methods.get? m = some d ∧ q.methods.get? m = some { d with ty := some ty }

theorem Signed.last (h : Signed p q m) (hl : Lasts q q') : Signed p q' m := by
  obtain ⟨d, ty, hd, hq⟩ := h
  obtain ⟨d', hq', -, hsame⟩ := hl.methods m _ hq
  exact ⟨d, ty, hd, by rw [hq', hsame (by simp)]⟩

section

variable (hf : Fresh p)

include hf

theorem RanSignature.signed (h : RanSignature p s m s') : Signed p s'.program m := by
  obtain @⟨d, ty, s1, s2, found, -, still, params⟩ := h
  have hset : Signed p (s1.setMethod m { d with ty := some ty }).program m :=
    ⟨d, ty, found, Arena.get?_set_self still⟩
  exact hset.last (RanAll.proceeds (fun _ _ _ h => RanParam.proceeds hf h) params).lasts

theorem RanAll.signed {ms : List MethodId} (h : RanAll (RanSignature p) s ms s') :
    ∀ m ∈ ms, Signed p s'.program m := by
  induction h with
  | nil => simp
  | cons first rest ih =>
    have hlasts := (RanAll.proceeds (fun _ _ _ h => RanSignature.proceeds hf h) rest).lasts
    exact List.forall_mem_cons.2 ⟨(first.signed hf).last hlasts, ih⟩

/-- The types of all methods are known once those of all classes are read. -/
theorem RanAll.signed_of_types {cs : List ClassId}
    (h : RanAll (RanTypes p) s cs s') (hc : c ∈ cs) (hd : s.program.classes.get? c = some d)
    (hm : m ∈ d.methods) : Signed p s'.program m := by
  induction h with
  | nil => simp at hc
  | cons first rest ih =>
    have hrest := (RanAll.proceeds (fun _ _ _ h => RanTypes.proceeds hf h) rest).lasts
    rcases List.mem_cons.1 hc with rfl | hc
    · obtain ⟨decl, -, -, methods⟩ := first
      obtain rfl := hd.some_unique decl
      exact Signed.last (RanAll.signed hf methods m hm) hrest
    · exact ih hc (by rw [(RanTypes.proceeds hf first).lasts.classes, hd])

end

/-! ## Bodies -/

theorem ranParams_of_bindParam {vs : List VarId} {u : Unit}
    (run : vs.forM bindParam s = .ok u s') : RanAll BoundParam s vs s' := by
  induction vs generalizing s with
  | nil =>
    obtain rfl := forM_nil_eq_ok.1 run
    exact .nil _
  | cons _ _ ih =>
    obtain ⟨s1, hv, hvs⟩ := forM_cons_eq_ok.1 run
    simp only [bindParam, bind_eq_ok, ask_eq_ok, fetch_ok, define_eq_ok] at hv
    obtain ⟨d, _, ⟨hd, hs⟩, T, hT, rfl⟩ := hv
    rw [hs] at hT
    refine .cons (.mk hd hT) ?_
    rw [hs] at hvs
    exact ih hvs

section

variable (hp : p.TreeShaped) (hf : Fresh p)

include hp hf

theorem ranMethod_of_resolveMethod {file : FileId} {i : ScopeId} (hr : Ready p s)
    (hout : s.method = none) (hsigned : Signed p s.program m)
    (hpend : Pending p s (ys ++ p.bodies [m] ++ zs))
    (run : resolveMethod file i m s = .ok () s') :
    RanMethod p file i s m s' ∧ Ready p s' ∧ Pending p s' (ys ++ zs) := by
  obtain ⟨d, ty, hd, hs⟩ := hsigned
  simp only [resolveMethod, bind_eq_ok, ask_eq_ok, fetch_ok] at run
  obtain ⟨d1, _, ⟨hd1, hs1⟩, run⟩ := run
  rw [hs1] at run
  obtain rfl := hs.some_unique hd1
  have hbodies : p.bodies [m] = d.body.toList.map .stmt := by simp [Program.bodies, hd]
  rw [hbodies] at hpend
  generalize hbody : d.body = body at run hpend
  cases body with
  | none =>
    obtain ⟨-, rfl⟩ := pure_eq_ok.1 run
    exact ⟨.abstract hd hs hbody, hr, by simpa using hpend⟩
  | some b =>
    simp only [bind_eq_ok, addScope_eq_ok, inMethod_eq_ok, within_eq_ok, ask_eq_ok, fetch_ok] at run
    obtain ⟨_, _, ⟨rfl, rfl⟩, _, ⟨t2, ⟨d2, _, ⟨hd2, ht⟩, _, t1, hparams, hstmt⟩, rfl⟩, rfl⟩ := run
    obtain rfl := hs.some_unique hd2
    rw [ht] at hparams
    have hran := ranParams_of_bindParam hparams
    obtain ⟨T, ht1, -, -, hready⟩ := hran.params (p := p)
    have hr1 : Ready p t1 := hready (Ready.place hr.add rfl rfl)
    have hpend1 := hpend.place hr1 (by rw [ht1])
    simp only [resolveStmt, bind_eq_ok, get_eq_ok] at hstmt
    obtain ⟨_, _, ⟨hs1, hs2⟩, hstmt⟩ := hstmt
    rw [hs1, hs2] at hstmt
    have hwalk := walks hp hf _ (hpend1.fit (.stmt b) (by simp)) hstmt
    have hr2 : Ready p { t2.backTo s with method := none } := Ready.place hwalk.ready rfl rfl
    have hpend2 : Pending p t2 (ys ++ [] ++ zs) := by
      refine Pending.replace (x := .stmt b) (by simpa using hpend1) hwalk.moves.spares hwalk.ready
        subset_rfl ?_ ?_ .nil <;> simp
    rw [List.append_nil] at hpend2
    exact ⟨.body hout hd hs hbody hran hwalk, hr2, hpend2.place hr2 rfl⟩

theorem ranCode_of_resolveCode (hr : Ready p s) (hout : s.method = none)
    (hd : s.program.classes.get? c = some d) (hsigned : ∀ m ∈ d.methods, Signed p s.program m)
    (hpend : Pending p s (ys ++ p.bodies d.methods ++ zs)) (run : resolveCode c s = .ok () s') :
    RanCode p s c s' ∧ Ready p s' ∧ Pending p s' (ys ++ zs) := by
  simp only [resolveCode, bind_eq_ok, ask_eq_ok, fetch_ok, classScope_eq_ok] at run
  obtain ⟨d1, _, ⟨hd1, hs1⟩, i, _, ⟨hi, hs2⟩, d2, _, ⟨hd2, hs3⟩, run⟩ := run
  rw [hs3, hs2, hs1] at run
  rw [hs2, hs1] at hd2
  rw [hs1] at hi
  obtain rfl := hd.some_unique hd1
  obtain rfl := hd.some_unique hd2
  obtain ⟨hran, ⟨hr', -⟩, hpend'⟩ := RanAll.of_forM (R := RanMethod p d.file i) (O := fun _ => [])
    (J := fun t => Ready p t ∧ Proceeds s t)
    (fun t m t' Y Z hm ht hpend run => by
      obtain ⟨hran, hr', hpend'⟩ := ranMethod_of_resolveMethod hp hf ht.1
        (ht.2.place.method.trans hout) ((hsigned m hm).last ht.2.lasts)
        (by simpa [Program.bodies] using hpend) run
      exact ⟨hran, ⟨hr', ht.2.trans (hran.proceeds hf)⟩, by simpa using hpend'⟩)
    ⟨hr, .refl s⟩ hpend run
  exact ⟨.mk hd hi hran, hr', by simpa using hpend'⟩

end

/-! ## All phases -/

namespace Linked

variable (h : Linked p s)

include h

/-- What a class holds is what it held. -/
theorem decl (hd : p.classes.get? c = some d) :
    ∃ base, s.program.classes.get? c = some { d with status := .resolved, base } := by
  obtain ⟨base, parent, ha, -⟩ := h.resolved hd
  exact ⟨base, ha.decl⟩

theorem exists_decl (hd : s.program.classes.get? c = some d) :
    ∃ d0 base, p.classes.get? c = some d0 ∧ d = { d0 with status := .resolved, base } := by
  have hlt := h.size ▸ lt_size_of_get? hd
  obtain ⟨d0, hd0⟩ := exists_get? hlt
  obtain ⟨base, hbase⟩ := h.decl hd0
  exact ⟨d0, base, hd0, hd.some_unique hbase⟩

/-- The constants that are listed are those that are declared. -/
theorem mem_listed (hall : ∀ c ∈ p.classes.handles, c ∈ s.program.ordered) :
    k ∈ s.program.listed ↔ p.Declares k := by
  obtain ⟨classes, ordered, hs⟩ := h.program
  have hglobals : s.program.globals = p.globals := by rw [hs]
  have henums : s.program.enums = p.enums := by rw [hs]
  simp only [Program.listed, Program.Declares, List.mem_append, List.mem_flatMap, hglobals, henums]
  constructor
  · rintro ((hk | ⟨e, -, hk⟩) | ⟨c, -, hk⟩)
    · exact .inl hk
    · cases hd : p.enums.get? e with
      | none => simp [hd] at hk
      | some d => exact .inr (.inr ⟨e, d, hd, by simpa [hd] using hk⟩)
    · cases hd : s.program.classes.get? c with
      | none => simp [hd] at hk
      | some =>
        obtain ⟨d0, base, hd0, rfl⟩ := h.exists_decl hd
        exact .inr (.inl ⟨c, d0, hd0, by simpa [hd] using hk⟩)
  · rintro (hk | ⟨c, d, hd, hk⟩ | ⟨e, d, hd, hk⟩)
    · exact .inl (.inl hk)
    · obtain ⟨base, hbase⟩ := h.decl hd
      exact .inr ⟨c, hall c (mem_handles.2 (lt_size_of_get? hd)), by simpa [hbase] using hk⟩
    · exact .inl (.inr ⟨e, mem_handles.2 (lt_size_of_get? hd), by simpa [hd] using hk⟩)

end Linked

/-- The classes are linked and in order when they have been resolved. -/
theorem linked_of_resolveClasses (hf : Fresh p) (hs : Declared p s)
    (run : resolveClasses s = .ok () s') :
    Linked p s' ∧ s'.program.ordered.Perm p.classes.handles ∧ s'.program.ordered.Nodup := by
  have hunvisited := fun d hd => (hf.classes d hd).1
  obtain ⟨hnest, hleaves, hcur, hall, ho⟩ := (Nesting.start hunvisited hs).resolveClasses.ok _ _ run
  obtain ⟨new, hnew⟩ := ho [] (.start hs.program hunvisited)
  rw [hnew.ordered, hf.ordered]
  exact ⟨⟨hnest, hall, hcur.trans hs.current, hleaves.method.trans hs.method,
    hleaves.breakables.trans hs.breakables⟩, hnest.ordered_perm hnew hall, hnew.nodup⟩

/-- The pass has come to its end. Between its phases it was in the given states. -/
structure Phases (p : Program) (s1 s2 s3 s' : State) : Prop where
  linked : Linked p s1
  ordered : s1.program.ordered.Perm p.classes.handles
  nodup : s1.program.ordered.Nodup
  ready : Ready p s2
  consts : RanConsts p s1 s1.program.listed s2
  types : RanAll (RanTypes p) s2 s1.program.ordered s3
  code : RanAll (RanCode p) s3 s1.program.ordered s'

theorem RanConsts.spares (h : RanConsts p s ks s') : Spares p (p.waiting s.program) s s' := by
  induction h with
  | nil => exact ⟨fun _ _ => .refl _ _, subset_rfl⟩
  | cons first _ ih => exact first.moves.spares.trans ih first.moves.spares.waiting

theorem RanConsts.pending (h : RanConsts p s ks s') (hr : Ready p s')
    (hpend : Pending p s ys) : Pending p s' ys :=
  ⟨fun y hy => (hpend.fit y hy).spare h.spares hr (hpend.fit y hy).apart.symm, hpend.apart⟩

/-- The fields, the methods and the code of some classes are those that the classes have now. -/
theorem Linked.elim_decl (h : Linked p s) (hd : s.program.classes.get? c = some d) :
    (p.classes.get? c).elim [] ClassDecl.members = d.members ∧
      ((p.classes.get? c).elim [] fun d => p.bodies d.methods) = p.bodies d.methods := by
  obtain ⟨d0, base, hd0, rfl⟩ := h.exists_decl hd
  simp [hd0, ClassDecl.members]

theorem exists_decl_of_resolveTypes (run : resolveTypes c s = .ok () s') :
    ∃ d, s.program.classes.get? c = some d := by
  simp only [resolveTypes, bind_eq_ok, ask_eq_ok, fetch_ok] at run
  obtain ⟨d, _, ⟨hd, -⟩, -⟩ := run
  exact ⟨d, hd⟩

theorem exists_decl_of_resolveCode (run : resolveCode c s = .ok () s') :
    ∃ d, s.program.classes.get? c = some d := by
  simp only [resolveCode, bind_eq_ok, ask_eq_ok, fetch_ok] at run
  obtain ⟨d, _, ⟨hd, -⟩, -⟩ := run
  exact ⟨d, hd⟩

theorem phases_of_resolveMembers (hp : p.TreeShaped) (hf : Fresh p) (h : Linked p s)
    (hperm : s.program.ordered.Perm p.classes.handles) (hnodup : s.program.ordered.Nodup)
    (run : resolveMembers s = .ok () s') : ∃ s2 s3, Phases p s s2 s3 s' := by
  simp only [resolveMembers, bind_eq_ok, get_eq_ok] at run
  obtain ⟨_, s2, hconsts, _, _, ⟨hs, ht⟩, _, s3, htypes, hcode⟩ := run
  rw [hs, ht] at htypes
  rw [hs] at hcode
  have hlisted : ∀ k ∈ s.program.listed, p.Declares k := fun k =>
    (h.mem_listed fun c hc => hperm.mem_iff.2 hc).1
  obtain ⟨hran1, hr2⟩ := ranConsts_of_resolveConsts hp hf h.ready hlisted hconsts
  have hproceeds := hran1.proceeds hf
  rw [hproceeds.ordered] at htypes hcode
  have hpend2 : Pending p s2 (p.members s.program.ordered) :=
    hran1.pending hr2 (h.pending hp hnodup)
  obtain ⟨hran2, ⟨hr3, hclasses3⟩, hpend3⟩ := RanAll.of_forM (R := RanTypes p)
    (I := fun c => (p.classes.get? c).elim [] ClassDecl.members)
    (O := fun c => (p.classes.get? c).elim [] fun d => p.bodies d.methods)
    (J := fun t => Ready p t ∧ t.program.classes = s.program.classes) (Y := []) (Z := [])
    (fun t c t' Y Z _ ht hpend run => by
      obtain ⟨d, hd⟩ := exists_decl_of_resolveTypes run
      have helim := h.elim_decl (ht.2 ▸ hd)
      simp only [helim.1, helim.2] at hpend ⊢
      obtain ⟨hran, hr', hpend'⟩ := ranTypes_of_resolveTypes hp hf ht.1 hd hpend run
      exact ⟨hran, ⟨hr', (hran.proceeds hf).lasts.classes.trans ht.2⟩, hpend'⟩)
    ⟨hr2, hproceeds.lasts.classes⟩ (by simpa [Program.members] using hpend2) htypes
  have hout : s3.method = none :=
    ((hproceeds.trans (hran2.proceeds fun _ _ _ h => h.proceeds hf)).place.method).trans h.method
  obtain ⟨hran3, -, -⟩ := RanAll.of_forM (R := RanCode p)
    (I := fun c => (p.classes.get? c).elim [] fun d => p.bodies d.methods) (O := fun _ => [])
    (J := fun t => Ready p t ∧ Proceeds s3 t) (Y := []) (Z := [])
    (fun t c t' Y Z hc ht hpend run => by
      obtain ⟨d, hd⟩ := exists_decl_of_resolveCode run
      have hd3 : s3.program.classes.get? c = some d := by rw [← ht.2.lasts.classes, hd]
      have hd2 : s2.program.classes.get? c = some d := by
        rw [hproceeds.lasts.classes, ← hclasses3, hd3]
      have helim := h.elim_decl (hclasses3 ▸ hd3)
      simp only [helim.2] at hpend
      obtain ⟨hran, hr', hpend'⟩ := ranCode_of_resolveCode hp hf ht.1
        (ht.2.place.method.trans hout) hd
        (fun m hm => (RanAll.signed_of_types hf hran2 hc hd2 hm).last ht.2.lasts) hpend run
      exact ⟨hran, ⟨hr', ht.2.trans (hran.proceeds hf)⟩, by simpa using hpend'⟩)
    ⟨hr3, .refl s3⟩ hpend3 hcode
  exact ⟨s2, s3, h, hperm, hnodup, hr2, hran1, hran2, hran3⟩

/-- A pass that comes to its end goes through all of its phases. -/
theorem phases_of_run (hp : p.TreeShaped) (hf : Fresh p)
    (run : Resolve.run (.start p) = .ok () s') :
    ∃ s0 s1 s2 s3, register (.start p) = .ok () s0 ∧ Declared p s0 ∧
      resolveClasses s0 = .ok () s1 ∧ resolveMembers s1 = .ok () s' ∧
      Phases p s1 s2 s3 s' := by
  rw [run_eq] at run
  obtain ⟨_, s0, hregister, run⟩ := bind_eq_ok.1 run
  obtain ⟨_, s1, hclasses, hmembers⟩ := bind_eq_ok.1 run
  have hdeclared := declared_of_register hregister
  obtain ⟨hlinked, hperm, hnodup⟩ := linked_of_resolveClasses hf hdeclared hclasses
  obtain ⟨s2, s3, hphases⟩ := phases_of_resolveMembers hp hf hlinked hperm hnodup hmembers
  exact ⟨s0, s1, s2, s3, hregister, hdeclared, hclasses, hmembers, hphases⟩

namespace Phases

variable (h : Phases p s1 s2 s3 s')

include h

theorem proceeds_types (hf : Fresh p) : Proceeds s2 s3 :=
  h.types.proceeds fun _ _ _ h => h.proceeds hf

theorem proceeds_code (hf : Fresh p) : Proceeds s3 s' :=
  h.code.proceeds fun _ _ _ h => h.proceeds hf

theorem proceeds (hf : Fresh p) : Proceeds s1 s' :=
  (h.consts.proceeds hf).trans ((h.proceeds_types hf).trans (h.proceeds_code hf))

/-- Every constant is resolved before the types of members are read. -/
theorem const_resolved (hf : Fresh p) (hk : p.Declares k) :
    ∃ d, s2.program.consts.get? k = some d ∧ d.status = .resolved := by
  have hmem := (h.linked.mem_listed fun c hc => h.ordered.mem_iff.2 hc).2 hk
  have hrun := h.consts
  generalize s1.program.listed = ks at hmem hrun
  clear h
  induction hrun with
  | nil => simp at hmem
  | cons first rest ih =>
    rcases List.mem_cons.1 hmem with rfl | hmem
    · obtain ⟨d, hd, hs⟩ := first.resolved
      exact ⟨d, (RanConsts.proceeds hf rest).lasts.consts _ d hd hs, hs⟩
    · exact ih hmem

/-- No constant waits when a later part of the pass goes on. -/
theorem not_waiting (hf : Fresh p) (hl : Lasts s2.program s.program) : p.waiting s.program = ∅ := by
  refine Set.eq_empty_iff_forall_notMem.2 ?_
  rintro x ⟨k, d, hk, hd, hs, -⟩
  obtain ⟨d', hd', hs'⟩ := h.const_resolved hf hk
  obtain rfl := hd.some_unique (hl.consts k d' hd' hs')
  rw [hs] at hs'
  cases hs'

end Phases

end Ci
