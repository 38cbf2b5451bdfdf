import HostScript.Proofs.Emits

/-! Code made for expressions makes sense.

The tree that code is made from has values of the expected kind (`Emits.typed`), so
when nothing is reported about an expression, what was made for it is the code of a
tree that makes sense (`emit_coded`). This takes that the declarations name types that
values can have, that no text has a `NUL` character, and that nothing without a value
is compared or cast. -/
namespace HostScript

open Check Folding

variable {F : Folding} {R : Rules} {f : Fragment} {l : Literal} {s : Scope} {span : Span}

/-- The fragment is the code of a tree that makes sense as a value of a kind. -/
def Coded (R : Rules) (k : Kind) (f : Fragment) : Prop :=
  ∃ n : Node, f = .ofPieces n.pieces ∧ n.Typed R k

/-- Every variable in sight can be read. -/
def Scope.Reads (R : Rules) (s : Scope) : Prop :=
  ∀ name v k, s.vars.find? name = some v → v.type.primitive = .kind k → R.reads k v.address

/-- The expression asks the memory and the host for nothing. -/
def Expr.Closed : Expr → Prop
  | .literal _ _ => True
  | .object _ _ => False
  | .parens _ inner => inner.Closed
  | .cast _ _ operand => operand.Closed
  | .unary _ _ operand => operand.Closed
  | .binary _ _ left right => left.Closed ∧ right.Closed
  | .ternary _ condition yes no => condition.Closed ∧ yes.Closed ∧ no.Closed

namespace Folding

/-- Literals made of texts without `NUL` characters have none. -/
def IsClean (F : Folding) : Prop :=
  ∀ e l, (∀ x ∈ e.texts, Clean x) → Passes (F.literal e) (some l) → l.Clean

theorem isClean_full : full.IsClean := fun e _ hx h => clean_fold e hx h

theorem isClean_off : off.IsClean := by
  intro e l hx h
  cases e with
  | literal span value => exact clean_fold (.literal span value) hx h
  | _ => cases passes_pure.1 h

/-- Bits of floating-point numbers may be asked for everywhere, or only what is asked for when all
that is known is used is known to be permitted. -/
def Allows (F : Folding) (R : Rules) (asks : List Ask) : Prop := R.floatBits ∨ F = full ∧ R.Permits asks

theorem allows_append (h : F.Allows R (as ++ bs)) : F.Allows R as ∧ F.Allows R bs := by
  obtain h | ⟨hF, h⟩ := h
  · exact ⟨.inl h, .inl h⟩
  · obtain ⟨ha, hb⟩ := Rules.permits_append.1 h
    exact ⟨.inr ⟨hF, ha⟩, .inr ⟨hF, hb⟩⟩

theorem allows_asking (hnone : Passes (F.literal e) none) (h : F.Allows R (e.asking s t parts)) :
    ((Ask.mk s e t).wantsFloatBits = true → R.floatBits) ∧ F.Allows R parts := by
  obtain h | ⟨rfl, h⟩ := h
  · exact ⟨fun _ => h, .inl h⟩
  · obtain ⟨-, hself, hparts⟩ := Rules.permits_asking hnone.fst h
    exact ⟨hself, .inr ⟨rfl, hparts⟩⟩

/-- What is asked for by a choice that is known to go a way. -/
def choiceAsks (s : Scope) (condition yes no : Expr) (t : Ty) : Option Bool → List Ask
  | some true => yes.asks s t
  | some false => no.asks s t
  | none => condition.asks s .bool ++ yes.asks s t ++ no.asks s t

/-- Of a choice, what is asked for is that of the way it is known to go. -/
theorem allows_choice {condition yes no : Expr} {t : Ty} (hchoice : Passes (F.choice condition) b)
    (h : F.Allows R (choiceAsks s condition yes no t condition.knownBool?)) :
    F.Allows R (choiceAsks s condition yes no t b) := by
  obtain h | ⟨rfl, h⟩ := h
  · exact .inl h
  · exact .inr ⟨rfl, knownBool_of_choice hchoice ▸ h⟩

end Folding

theorem typed_ofLiteral (hk : l.primitive = .kind k) (hc : l.Clean) : (Node.ofLiteral l).Typed R k := by
  cases l with
  | int _ _ | float _ _ => cases hk; exact ⟨rfl, Kind.noConfusion, Kind.noConfusion, trivial⟩
  | bool _ | null => cases hk; rfl
  | string s => cases hk; exact ⟨rfl, Kind.noConfusion, Kind.noConfusion, hc⟩
  | _ => cases hk

/-! ### Trees make sense -/

/-- A literal of the expected kind. -/
theorem Folding.IsClean.typed {t : Ty} (hF : F.IsClean) (hx : ∀ x ∈ e.texts, Clean x) (hk : t.primitive = .kind k)
    (hl : Passes (F.literal e) (some l)) (hcast : l.cast t.primitive = .ok m) : (Node.ofLiteral m).Typed R k :=
  typed_ofLiteral ((Literal.cast_primitive hcast).trans hk) (Literal.clean_cast (hF e l hx hl) hcast)

theorem pointer_of_passes (h : Passes (objectType s o) (some (.object name))) (t : Ty) (k : Kind)
    (ht : Passes (objectType s o) (some t)) (hk : t.primitive = .kind k) : k = .pointer := by
  cases h.fst.symm.trans ht.fst
  cases hk
  rfl

theorem Scope.Fits.cast_kind (h : s.Fits (.cast span type operand) t) (hj : type.type.primitive = .kind j)
    (hk : t.primitive = .kind k) : j = k := by
  obtain ⟨u, htype, hassign⟩ := h
  unfold typeOf Scope.namedType at htype
  split at htype
  · cases passes_pure.1 htype
    exact Api.assignable_same hassign (Primitive.kind?_eq_some.2 hk) hj
  · exact absurd htype (not_passes_refuse _ _ _)

/-- Comparisons, `&&` and `||` are truth values. -/
theorem Scope.Fits.truth_kind (h : s.Fits (.binary span op left right) t)
    (hop : (∃ c, op = .compare c) ∨ op = .and ∨ op = .or) (hk : t.primitive = .kind k) : Kind.bool = k := by
  obtain ⟨u, htype, hassign⟩ := h
  have hu : u = .bool := by
    obtain ⟨c, rfl⟩ | hop := hop
    · obtain ⟨_, _, -, -, rfl, -⟩ := passes_typeOf_binary htype (by simp)
      rfl
    · unfold typeOf at htype
      rw [if_pos hop] at htype
      exact (Option.some.inj (passes_pure.1 htype)).symm
  subst hu
  exact Api.assignable_same hassign (Primitive.kind?_eq_some.2 hk) rfl

/-- What the code of an expression takes: variables that can be read, texts without `NUL` characters,
and that what is asked for is allowed. -/
structure Folding.Admits (F : Folding) (R : Rules) (s : Scope) (e : Expr) (asks : List Ask) : Prop where
  reads : ¬ e.Closed → s.Reads R
  clean : ∀ x ∈ e.texts, Clean x
  allows : F.Allows R asks

section Admits

variable {left right : Expr} {as bs : List Ask}

theorem Folding.Admits.allowed (h : F.Admits R s e (e.asking s t as)) (hnone : Passes (F.literal e) none) :
    F.Allows R as := (allows_asking hnone h.allows).2

/-- Both sides of an operator. -/
theorem Folding.Admits.binary (hnone : Passes (F.literal (.binary span op left right)) none)
    (h : F.Admits R s (.binary span op left right) (Expr.asking s (.binary span op left right) t (as ++ bs))) :
    F.Admits R s left as ∧ F.Admits R s right bs := by
  obtain ⟨hleft, hright⟩ := List.forall_mem_append.1 h.clean
  obtain ⟨has, hbs⟩ := allows_append (h.allowed hnone)
  exact ⟨⟨fun hc => h.reads fun h => hc h.1, hleft, has⟩, fun hc => h.reads fun h => hc h.2, hright, hbs⟩

end Admits

mutual
theorem Emits.typed (hF : F.IsClean) : Emits F s e t n → F.Admits R s e (e.asks s t) → t.primitive = .kind k →
    n.Typed R k
  | .literal hl _ hcast, h, hk => hF.typed h.clean hk hl hcast
  | .object hleaves hobject, h, hk => by
    obtain ⟨u, htype, hassign⟩ := hleaves.fits
    refine hobject.typed hF (h.reads id) h.clean (h.allowed hleaves.unknown) fun w j hw hj => ?_
    cases htype.fst.symm.trans hw.fst
    exact Api.assignable_same hassign (Primitive.kind?_eq_some.2 hk) hj
  | .parens hleaves hinner, h, hk => hinner.typed hF ⟨h.reads, h.clean, h.allowed hleaves.unknown⟩ hk
  | @Emits.castSame _ _ _ operand _ _ _ _ source hleaves hkind hsource hsame hoperand, h, hk => by
    obtain rfl := hleaves.fits.cast_kind hkind hk
    have hparts := h.allowed hleaves.unknown
    rw [show operand.type? s = some source from hsource.fst] at hparts
    exact hoperand.typed hF ⟨h.reads, h.clean, hparts⟩ (castOperandType_kind hkind hsame)
  | @Emits.cast _ _ _ operand _ _ _ _ type source hleaves hkind hsource hj hne hoperand, h, hk => by
    have htypes : castOperandType source type.type = source := by
      simp [castOperandType, hj, Primitive.isUntyped]
    have hparts := h.allowed hleaves.unknown
    rw [show operand.type? s = some source from hsource.fst] at hparts
    dsimp only at hparts
    rw [htypes] at hparts
    have hn := hoperand.typed hF ⟨h.reads, h.clean, hparts⟩ hj
    exact hn
  | .not hleaves hoperand, h, hk => by
    obtain ⟨u, htype, hassign⟩ := hleaves.fits
    obtain ⟨w, -, hw⟩ := passes_typeOf_unary htype
    cases passes_pure.1 hw
    obtain rfl : Kind.bool = k := Api.assignable_same hassign (Primitive.kind?_eq_some.2 hk) rfl
    exact ⟨rfl, hoperand.typed hF ⟨h.reads, h.clean, h.allowed hleaves.unknown⟩ rfl⟩
  | .negate hleaves hoperand, h, hk => by
    obtain ⟨u, htype, hassign⟩ := hleaves.fits
    obtain ⟨w, -, hw⟩ := passes_typeOf_unary htype
    obtain ⟨hop, -⟩ | ⟨-, hn⟩ | ⟨hop, -⟩ := passes_unaryType hw
    · cases hop
    · exact ⟨Api.assignable_numeric hassign (Primitive.kind?_eq_some.2 hk) hn,
        hoperand.typed hF ⟨h.reads, h.clean, h.allowed hleaves.unknown⟩ hk⟩
    · cases hop
  | @Emits.complement _ _ _ _ t _ hleaves hoperand, h, hk => by
    obtain ⟨u, htype, hassign⟩ := hleaves.fits
    obtain ⟨hbits, hparts⟩ := allows_asking hleaves.unknown h.allows
    obtain ⟨w, -, hw⟩ := passes_typeOf_unary htype
    obtain ⟨hop, -⟩ | ⟨hop, -⟩ | ⟨-, hi⟩ := passes_unaryType hw
    · cases hop
    · cases hop
    · refine ⟨Api.assignable_numeric hassign (Primitive.kind?_eq_some.2 hk) (Primitive.isNumeric_of_isInteger hi),
        fun hf => hbits ?_, hoperand.typed hF ⟨h.reads, h.clean, hparts⟩ hk⟩
      show t.primitive.isFloat = true
      rw [hk]
      exact hf
  | @Emits.arith _ _ _ op _ _ t _ _ hleaves hleft hright, h, hk => by
    obtain ⟨u, htype, hassign⟩ := hleaves.fits
    have hbits := (allows_asking hleaves.unknown h.allows).1
    obtain ⟨hl, hr⟩ := Admits.binary hleaves.unknown h
    have hm := hleft.typed hF hl hk
    have hn := hright.typed hF hr hk
    obtain ⟨_, _, -, -, htype⟩ := passes_typeOf_binary htype (by simp)
    obtain ⟨rfl, rfl⟩ | ⟨hnumeric, -⟩ := passes_arithmeticType htype
    · obtain rfl : Kind.string = k := Api.assignable_same hassign (Primitive.kind?_eq_some.2 hk) rfl
      rw [Node.ofArith, if_pos ⟨rfl, hk⟩]
      exact ⟨rfl, hm, hn⟩
    · have hnum : k.IsNumeric := Api.assignable_numeric hassign (Primitive.kind?_eq_some.2 hk) hnumeric
      have hstring : ¬ (op = .add ∧ t.primitive = .kind .string) := by
        rintro ⟨-, ht⟩
        cases hk.symm.trans ht
        cases hnum
      rw [Node.ofArith, if_neg hstring]
      refine ⟨⟨hnum, fun hb hf => hbits ?_⟩, hm, hn⟩
      show (op.isBitwise && t.primitive.isFloat) = true
      rw [hb, hk]
      exact hf
  | @Emits.compare _ _ _ op left right _ l r _ _ _ hleaves hl hr hkl hkr hleft hright, h, hk => by
    obtain rfl := hleaves.fits.truth_kind (.inl ⟨op, rfl⟩) hk
    unfold Expr.asks at h
    dsimp only at h
    rw [show left.type? s = some l from hl.fst, show right.type? s = some r from hr.fst] at h
    obtain ⟨hl, hr⟩ := Admits.binary hleaves.unknown h
    exact ⟨rfl, hleft.typed hF hl hkl, hright.typed hF hr hkr⟩
  | .and hleaves hleft hright, h, hk => by
    obtain rfl := hleaves.fits.truth_kind (.inr (.inl rfl)) hk
    obtain ⟨hl, hr⟩ := Admits.binary hleaves.unknown h
    exact ⟨rfl, hleft.typed hF hl rfl, hright.typed hF hr rfl⟩
  | .or hleaves hleft hright, h, hk => by
    obtain rfl := hleaves.fits.truth_kind (.inr (.inr rfl)) hk
    obtain ⟨hl, hr⟩ := Admits.binary hleaves.unknown h
    exact ⟨rfl, hleft.typed hF hl rfl, hright.typed hF hr rfl⟩
  | .coalesce hleaves hleft hright, h, hk => by
    obtain ⟨u, htype, hassign⟩ := hleaves.fits
    obtain ⟨_, _, -, -, hptr, htype⟩ := passes_typeOf_binary htype (by simp)
    obtain rfl : Kind.pointer = k :=
      Api.assignable_same hassign (Primitive.kind?_eq_some.2 hk) (passes_branchType_pointer hptr htype)
    obtain ⟨hl, hr⟩ := Admits.binary hleaves.unknown h
    exact ⟨rfl, hleft.typed hF hl hk, hright.typed hF hr hk⟩
  | @Emits.chosen _ _ _ _ _ _ _ b _ hleaves hchoice hbranch, h, hk => by
    obtain ⟨hcy, hn⟩ := List.forall_mem_append.1 h.clean
    obtain ⟨hc, hy⟩ := List.forall_mem_append.1 hcy
    have hparts := allows_choice hchoice (h.allowed hleaves.unknown)
    cases b with
    | true => exact hbranch.typed hF ⟨fun hc => h.reads fun h => hc h.2.1, hy, hparts⟩ hk
    | false => exact hbranch.typed hF ⟨fun hc => h.reads fun h => hc h.2.2, hn, hparts⟩ hk
  | .ternary hleaves hchoice hcondition hyes hno, h, hk => by
    obtain ⟨hcy, hn⟩ := List.forall_mem_append.1 h.clean
    obtain ⟨hc, hy⟩ := List.forall_mem_append.1 hcy
    obtain ⟨hacy, han⟩ := allows_append (allows_choice hchoice (h.allowed hleaves.unknown))
    obtain ⟨hac, hay⟩ := allows_append hacy
    exact ⟨hcondition.typed hF ⟨fun hc => h.reads fun h => hc h.1, hc, hac⟩ rfl,
      hyes.typed hF ⟨fun hc => h.reads fun h => hc h.2.1, hy, hay⟩ hk,
      hno.typed hF ⟨fun hc => h.reads fun h => hc h.2.2, hn, han⟩ hk⟩

theorem EmitsObject.typed (hF : F.IsClean) : EmitsObject F s o n → s.Reads R → (∀ x ∈ o.texts, Clean x) →
    F.Allows R (o.asks s) → (∀ t j, Passes (objectType s o) (some t) → t.primitive = .kind j → j = k) → n.Typed R k
  | @EmitsObject.read _ _ j access v hv hj, hr, _, _, hk => by
    have htype : Passes (objectType s (.root access)) (some v.type) := by
      unfold objectType
      rw [hv]
      exact passes_pure.2 rfl
    obtain rfl := hk _ j htype hj
    cases access with
    | name ident => exact ⟨rfl, hr _ v j hv hj⟩
    | call span ident args => cases hv
  | .global hv haccess, hr, hx, ha, _ => by
    unfold Object.asks at ha
    rw [hv] at ha
    obtain ⟨hlength, hargs⟩ := haccess.typed hF hr hx ha
    exact ⟨trivial, hlength, hargs⟩
  | @EmitsObject.member _ _ _ _ _ _ _ owner _ hname howner haccess, hr, hx, ha, _ => by
    obtain ⟨hxo, hxa⟩ := List.forall_mem_append.1 hx
    unfold Object.asks at ha
    rw [show owner.type? s = _ from hname.fst] at ha
    obtain ⟨hao, haa⟩ := allows_append ha
    obtain ⟨hlength, hargs⟩ := haccess.typed hF hr hxa haa
    exact ⟨howner.typed hF hr hxo hao (pointer_of_passes hname), hlength, hargs⟩
  | @EmitsObject.index _ _ index _ _ _ _ _ owner _ _ hname ht hi hj howner hindex, hr, hx, ha, _ => by
    obtain ⟨hxo, hxi⟩ := List.forall_mem_append.1 hx
    unfold Object.asks at ha
    rw [show owner.type? s = _ from hname.fst, show index.type? s = _ from ht.fst] at ha
    dsimp only at ha
    rw [hi.fst] at ha
    obtain ⟨hao, hai⟩ := allows_append ha
    exact ⟨howner.typed hF hr hxo hao (pointer_of_passes hname), hindex.typed hF ⟨fun _ => hr, hxi, hai⟩ hj⟩

theorem EmitsAccess.typed (hF : F.IsClean) : EmitsAccess F s owner a d args → s.Reads R → (∀ x ∈ a.texts, Clean x) →
    F.Allows R (a.asks s owner) → args.length < 256 ∧ args.Typed R
  | .name _, _, _, _ => ⟨by decide, trivial⟩
  | .call htypes hf hlength hargs, hr, hx, ha => by
    unfold Access.asks at ha
    rw [htypes.fst, mapM_id_map_some] at ha
    dsimp only at ha
    rw [hf.fst] at ha
    exact ⟨by rw [hargs.length_eq]; omega, hargs.typed hF hr hx ha⟩

theorem EmitsArgs.typed (hF : F.IsClean) : EmitsArgs F s es types declared args → s.Reads R →
    (∀ x ∈ Expr.textsOf es, Clean x) → F.Allows R (Expr.argumentAsks s es types declared) → args.Typed R
  | .nil, _, _, _ => trivial
  | .cons hk he hrest, hr, hx, ha => by
    obtain ⟨hxe, hxr⟩ := List.forall_mem_append.1 hx
    obtain ⟨hae, har⟩ := allows_append ha
    exact ⟨he.typed hF ⟨fun _ => hr, hxe, hae⟩ hk, hrest.typed hF hr hxr har⟩
end

/-! ### Code makes sense -/

variable {k : Kind} {o : Object} {t : Ty}

/-- The fragment is the code of what a member is reached through. -/
def CodedTarget (R : Rules) (f : Fragment) : Prop :=
  ∃ t : Target, f = .ofPieces t.pieces ∧ t.Typed R

/-- The fragment is the code of a call. -/
def CodedCall (R : Rules) (op : Opcode) (f : Fragment) : Prop :=
  ∃ (t : Target) (d : String) (args : Args),
    f = .ofPieces (.op op :: (t.pieces ++ (.symbol d :: .raw [UInt8.ofNat args.length] :: args.pieces))) ∧
      t.Typed R ∧ args.length < 256 ∧ args.Typed R

theorem Coded.target (h : Coded R .pointer f) : CodedTarget R f := by
  obtain ⟨n, rfl, hn⟩ := h
  exact ⟨.of n, rfl, hn⟩

theorem codedTarget_global (f : Fragment) (h : Passes (pure (Fragment.opcode .noOp)) f) : CodedTarget R f := by
  cases passes_pure.1 h
  exact ⟨.global, (Fragment.ofPieces_opcode _).symm, trivial⟩

section

variable (hs : s.Formed) (hr : s.Reads R)
include hs hr

theorem emit_coded (e : Expr) (he : e.Formed) (hx : ∀ x ∈ e.texts, Clean x)
    (hk : t.primitive = .kind k) (hp : R.Permits (e.asks s t)) (h : Passes (emit s e t) f) : Coded R k f := by
  obtain ⟨n, rfl, hn⟩ := emit_emits hs e he hk hp h
  exact ⟨n, rfl, hn.typed isClean_full ⟨fun _ => hr, hx, .inr ⟨rfl, hp⟩⟩ hk⟩

theorem emitObject_coded (o : Object) (ho : o.Formed) (hx : ∀ x ∈ o.texts, Clean x)
    (hp : R.Permits (o.asks s)) (hk : ∀ t j, Passes (objectType s o) (some t) → t.primitive = .kind j → j = k)
    (h : Passes (emitObject s o true) f) : Coded R k f := by
  obtain ⟨n, rfl, hn⟩ := emitObject_emits hs o ho hp h
  exact ⟨n, rfl, hn.typed isClean_full hr hx (.inr ⟨rfl, hp⟩) hk⟩

theorem emitAccess_coded (owner : Option String) [Plain target]
    (htarget : ∀ g, Passes target g → CodedTarget R g) (a : Access) (ha : a.Formed) (hx : ∀ x ∈ a.texts, Clean x)
    (hp : R.Permits (a.asks s owner)) (h : Passes (emitAccess s owner target a used) f) :
    CodedCall R (if !used && a.isCall then .callUnused else .call) f := by
  obtain ⟨t, d, args, rfl, ht, hargs⟩ := emitAccess_emits hs owner htarget a ha hp h
  obtain ⟨hlength, hargs⟩ := hargs.typed isClean_full hr hx (.inr ⟨rfl, hp⟩)
  exact ⟨t, d, args, rfl, ht, hlength, hargs⟩

/-- Code for a call whose result is not used. -/
theorem emitObject_unused (ho : o.Formed) (hx : ∀ x ∈ o.texts, Clean x)
    (hcall : o.isCall = true) (hp : R.Permits (o.asks s)) (h : Passes (emitObject s o false) f) :
    CodedCall R .callUnused f := by
  cases o with
  | root access =>
    cases access with
    | name ident => cases hcall
    | call span ident args =>
      exact emitAccess_coded hs hr none codedTarget_global _ ho
        (by simpa [Object.texts] using hx) hp h
  | member span owner access =>
    cases access with
    | name ident => cases hcall
    | call callSpan ident args =>
      obtain ⟨name, hname, h⟩ := passes_ownerBefore_bind h
      unfold Object.asks at hp
      rw [show owner.type? s = _ from hname.fst] at hp
      obtain ⟨hpo, hpa⟩ := Rules.permits_append.1 hp
      refine emitAccess_coded hs hr (some name) (fun g hg => ?_) _ ho.2
        (fun x hx' => hx x (by simp [Object.texts, hx'])) hpa h
      exact (emitObject_coded hs hr owner ho.1 (fun x hx' => hx x (by simp [Object.texts, hx'])) hpo
        (pointer_of_passes hname) hg).target
  | index span owner index => cases hcall

end

end HostScript
