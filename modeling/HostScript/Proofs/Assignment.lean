import HostScript.Proofs.Emission

/-! Code made for assignments.

An update of a variable becomes one assignment, in which an operator stands between
the old value of the variable and the given one. An update of a member becomes one
statement for the host that carries the operator along. -/
namespace HostScript

open Check Fragment Option

variable {op : ArithOp} {index : Expr} {owner : Option String} {R : Rules} {s : Scope} {actionSpan : Span}
  {debug : Bool} {f : Fragment} {k : Kind} {target : Object} {span : Span} {name : String} {t : Ty} {u : Update}
  {v : Variable}

/-! ### Reports stay -/

namespace Update

variable (u : Update) (s : Scope) (t : Ty)

instance : Plain (u.emitValue s t) := by
  unfold emitValue
  repeat' first | infer_instance | split

instance (span : Span) : Plain (u.applies t span) := by
  unfold applies
  split <;> infer_instance

theorem passes_applies {u : Update} {t : Ty} (h : Passes (u.applies t span) b) :
    b = true ∧ u.problem? t.primitive = none := by
  unfold applies at h
  split at h
  · exact ⟨(passes_pure.1 h).symm, ‹_›⟩
  · exact absurd h (not_passes_report_bind _ _ _)

/-- What is done with an operator that applies. -/
theorem passes_applies_bind {u : Update} {t : Ty}
    (h : Passes (u.applies t span >>= fun b => if (!b) = true then pure refused else g) a) (hg : Plain g) :
    u.problem? t.primitive = none ∧ Passes g a := by
  obtain ⟨b, hb, h⟩ := h.parts
  obtain ⟨rfl, hproblem⟩ := passes_applies hb
  exact ⟨hproblem, h⟩

end Update

section Plain

variable (s : Scope)

instance (debug : Bool) (name : String) (v : Variable) (u : Update) (span : Span) :
    Plain (emitVariableUpdate s debug name v u span) := by
  repeat' first | infer_instance | refine .bind inferInstance fun _ => ?_ | split

instance {owner : Option String} {target : Check Fragment} [Plain target]
    (name : Ident) (t : Ty) (k : Kind) (u : Update) (span : Span) :
    Plain (emitPropertyUpdate s owner target name t k u span) := by
  unfold emitPropertyUpdate
  infer_instance

instance (span : Span) (owner : Object) (index : Expr) (t : Ty) (k : Kind)
    (u : Update) (actionSpan : Span) : Plain (emitSubscriptUpdate s span owner index t k u actionSpan) := by
  repeat' first | infer_instance | refine .bind inferInstance fun _ => ?_ | split

instance (debug : Bool) (target : Object) (u : Update) (span : Span) : Plain (emitUpdate s debug target u span) := by
  unfold emitUpdate
  repeat' first | infer_instance | refine .bind inferInstance fun _ => ?_ | split

end Plain

/-! ### What an update is made of -/

/-- The code of an assignment to a variable, without what a debugger is told. -/
def Fragment.assign (v : Variable) (k : Kind) (u : Update) (value : Fragment) : Fragment :=
  (if u.op?.isSome then .opcode .assign ++ .kind k ++ .place v ++ .opcode (u.opcode v.type) ++ .read v
    else .opcode .assign ++ .kind k ++ .place v) ++ value

theorem passes_emitVariableUpdate
    (hk : v.type.primitive = .kind k) : Passes (emitVariableUpdate s debug name v u span) f ↔
      ∃ g, u.problem? v.type.primitive = none ∧ Passes (u.emitValue s v.type) g ∧
        f = if debug then .assign v k u g ++ .debugUpdate name v else .assign v k u g := by
  unfold emitVariableUpdate
  constructor
  · intro h
    obtain ⟨hproblem, h⟩ := Update.passes_applies_bind h (by split <;> infer_instance)
    rw [hk] at h
    obtain ⟨g, hg, h⟩ := h.parts
    exact ⟨g, hproblem, hg, (passes_pure.1 h).symm⟩
  · rintro ⟨g, hproblem, hg, rfl⟩
    rw [Update.applies, hproblem, hk]
    exact Passes.bind rfl (hg.bind rfl)

theorem passes_emitPropertyUpdate {target : Check Fragment} [Plain target] {name : Ident}
    (h : Passes (emitPropertyUpdate s owner target name t k u span) f) :
    ∃ (p : Member PropertyDecl) (a b : Fragment), u.problem? t.primitive = none ∧ Passes target a ∧
      Passes (u.emitValue s t) b ∧ f = opcode .assignProperty ++ .kind k ++ a ++
        .symbol p.propertyDescriptor ++ .opcode (u.opcode t) ++ b := by
  obtain ⟨p, -, h⟩ := h.found
  dsimp only at h
  split at h
  · exact absurd h (not_passes_report_bind _ _ _)
  · obtain ⟨hproblem, h⟩ := Update.passes_applies_bind h inferInstance
    obtain ⟨a, ha, h⟩ := h.parts
    obtain ⟨b, hb, h⟩ := h.parts
    exact ⟨p, a, b, hproblem, ha, hb, (passes_pure.1 h).symm⟩

theorem passes_emitSubscriptUpdate (hs : s.Formed) {owner : Object}
    (h : Passes (emitSubscriptUpdate s span owner index t k u actionSpan) f) :
    ∃ name w i j a b c, Passes (objectType s owner) (some (.object name)) ∧ Passes (typeOf s index) (some w) ∧
      Passes (s.indexer name w span) (some i) ∧ i.decl.index.type.primitive = .kind j ∧
        u.problem? t.primitive = none ∧ Passes (emitObject s owner true) a ∧
          Passes (emit s index i.decl.index.type) b ∧ Passes (u.emitValue s t) c ∧
            f = opcode .assignSubscript ++ .kind k ++ a ++ .kind j ++ b ++ .opcode (u.opcode t) ++ c := by
  obtain ⟨name, w, i, hname, hw, hindexer, h⟩ := passes_indexer_bind h fun _ => by
    repeat' first | infer_instance | refine .bind inferInstance fun _ => ?_ | split
  split at h
  · exact absurd h (not_passes_report_bind _ _ _)
  · obtain ⟨hproblem, h⟩ := Update.passes_applies_bind h (by split <;> infer_instance)
    obtain ⟨j, hj⟩ := (hs.indexer hindexer).2
    rw [hj] at h
    obtain ⟨a, ha, h⟩ := h.parts
    obtain ⟨b, hb, h⟩ := h.parts
    obtain ⟨c, hc, h⟩ := h.parts
    exact ⟨name, w, i, j, a, b, c, hname, hw, hindexer, hj, hproblem, ha, hb, hc, (passes_pure.1 h).symm⟩

theorem Object.find_of_variable (h : target.var? vars = some (name, v)) : vars.find? name = some v := by
  cases target with
  | root access =>
    cases access with
    | name ident =>
      obtain ⟨w, hw, heq⟩ := map_eq_some_iff.1 h
      cases heq
      exact hw
    | call span ident args => cases h
  | member _ _ _ | index _ _ _ => cases h

/-- What can be updated, with the update that is made code for. -/
inductive Updates (s : Scope) (debug : Bool) (u : Update) (span : Span) (f : Fragment) : Object → Prop
  | stored {target : Object} {name : String} {v : Variable} (hv : target.var? s.vars = some (name, v))
      (h : Passes (emitVariableUpdate s debug name v u span) f) : Updates s debug u span f target
  | subscript {indexSpan : Span} {owner : Object} {index : Expr} {t : Ty} {k : Kind}
      (ht : Passes (objectType s (.index indexSpan owner index)) (some t)) (hk : t.primitive = .kind k)
      (h : Passes (emitSubscriptUpdate s indexSpan owner index t k u span) f) :
      Updates s debug u span f (.index indexSpan owner index)
  | property {name : Ident} {t : Ty} {k : Kind} (hv : s.vars.find? name.name = none)
      (ht : Passes (objectType s (.root (.name name))) (some t)) (hk : t.primitive = .kind k)
      (h : Passes (emitPropertyUpdate s none (return .opcode .noOp) name t k u span) f) :
      Updates s debug u span f (.root (.name name))
  | member {memberSpan : Span} {owner : Object} {name : Ident} {t : Ty} {k : Kind} {ownerName : String}
      (ht : Passes (objectType s (.member memberSpan owner (.name name))) (some t)) (hk : t.primitive = .kind k)
      (howner : Passes (objectType s owner) (some (.object ownerName)))
      (h : Passes (emitPropertyUpdate s (some ownerName) (emitObject s owner true) name t k u span) f) :
      Updates s debug u span f (.member memberSpan owner (.name name))

theorem passes_emitUpdate (hs : s.Formed) (h : Passes (emitUpdate s debug target u span) f) :
    Updates s debug u span f target := by
  unfold emitUpdate at h
  split at h
  · exact .stored ‹_› h
  · rename_i hv
    split at h
    · exact absurd h (not_passes_report_bind _ _ _)
    · rename_i hcall
      obtain ⟨t, ht, h⟩ := h.foundOf ⟨fun _ => by repeat' first | infer_instance | split⟩
      obtain ⟨k, hk⟩ := hasKind_objectType hs (by simpa using hcall) ht
      dsimp only at h
      rw [hk] at h
      dsimp only [Primitive.kind?] at h
      split at h
      · exact .subscript ht hk h
      · exact .property (map_eq_none_iff.1 hv) ht hk h
      · obtain ⟨ownerName, hname, h⟩ := passes_ownerBefore_bind h
        exact .member ht hk hname h
      · rename_i hindex hroot hmember
        -- what is left are calls, and these were refused
        cases target with
        | root access =>
          cases access with
          | name ident => exact absurd rfl (hroot ident)
          | call callSpan ident args => exact absurd rfl hcall
        | member memberSpan owner access =>
          cases access with
          | name ident => exact absurd rfl (hmember _ _ ident)
          | call callSpan ident args => exact absurd rfl hcall
        | index indexSpan owner index => exact absurd rfl (hindex _ _ _)

/-! ### Operators -/

namespace Update

/-- The value that is given, but for a step. -/
def value? : Update → Option Expr
  | .assign _ value => some value
  | .step _ => none

/-- Code can be made for the given value, as one of a type. -/
def Fits (R : Rules) (s : Scope) (t : Ty) (u : Update) : Prop :=
  ∀ e, u.value? = some e → e.Formed ∧ (∀ x ∈ e.texts, Clean x) ∧ R.Permits (e.asks s t)

theorem kind_of_problem_none (h : u.problem? (.kind k) = none) (hop : u.op? = some op) :
    (op = .add ∧ k = .string) ∨ (k.IsNumeric ∧ (op.isBitwise = true → ¬ k.IsFloat)) := by
  unfold problem? at h
  rw [hop] at h
  cases u with
  | step down =>
    have hnum : k.IsNumeric := by simpa [Kind.IsNumeric] using h
    refine .inr ⟨hnum, fun hb => ?_⟩
    cases hop
    cases down <;> cases hb
  | assign o value =>
    dsimp only at h
    split at h
    · split at h
      · rename_i hint
        refine .inr ⟨Primitive.isNumeric_of_isInteger hint, fun _ hf => ?_⟩
        cases k with
        | float k => cases hint
        | _ => cases hf
      · cases h
    · rename_i hb
      split at h
      · exact .inr ⟨‹_›, fun hb' => absurd hb' hb⟩
      · split at h
        · rename_i hadd
          split at h
          · rename_i hstring
            exact .inl ⟨hadd, Primitive.kind.inj hstring⟩
          · cases h
        · cases h

theorem updates_opcode (hk : t.primitive = .kind k) (h : u.problem? t.primitive = none) : (u.opcode t).Updates k := by
  rw [hk] at h
  unfold opcode
  split
  · exact .inl rfl
  · rename_i op hop
    obtain ⟨rfl, rfl⟩ | ⟨hnum, hb⟩ := kind_of_problem_none h hop
    · exact .inr (.inl ⟨by simp [resultOpcode, hk], rfl⟩)
    · refine .inr (.inr ⟨op, ?_, hnum, hb⟩)
      have hstring : k ≠ .string := by
        rintro rfl
        cases hnum
      simp [resultOpcode, hk, hstring, Opcode.ofBinary]

/-- The operator between the old value and the given one. -/
theorem updated_coded {l r : Node} (hk : t.primitive = .kind k) (h : u.problem? t.primitive = none)
    (hop : u.op? = some op) (hl : l.Typed R k) (hr : r.Typed R k) :
    ∃ n : Node, n.pieces = .op (u.opcode t) :: (l.pieces ++ r.pieces) ∧ n.Typed R k := by
  rw [hk] at h
  unfold opcode
  rw [hop]
  obtain ⟨rfl, rfl⟩ | ⟨hnum, hb⟩ := kind_of_problem_none h hop
  · exact ⟨.concat l r, by simp [resultOpcode, hk, Node.pieces], rfl, hl, hr⟩
  · refine ⟨.arith op l r, ?_, ⟨hnum, fun hbits hf => absurd hf (hb hbits)⟩, hl, hr⟩
    have hstring : k ≠ .string := by
      rintro rfl
      cases hnum
    simp [resultOpcode, hk, hstring, Opcode.ofBinary, Node.pieces]

/-- One is a number of every kind. -/
theorem cast_one (hk : k.IsNumeric) : ∃ one, Literal.cast (.untypedInteger 1) (.kind k) = .ok one := by
  cases k with
  | int k | float k => cases k <;> exact ⟨_, rfl⟩
  | _ => cases hk

theorem one_coded (R : Rules) (hk : k.IsNumeric) :
    ∃ one, Literal.cast (.untypedInteger 1) (.kind k) = .ok one ∧ Coded R k (.literal one) := by
  obtain ⟨one, hone⟩ := cast_one hk
  exact ⟨one, hone, Node.ofLiteral one, pieces_ofLiteral one,
    typed_ofLiteral (Literal.cast_primitive hone) (Literal.clean_cast (l := .untypedInteger 1) trivial hone)⟩

theorem Fits.value_coded (hs : s.Formed) (hr : s.Reads R) (hu : u.Fits R s t) (hk : t.primitive = .kind k)
    (hproblem : u.problem? t.primitive = none) (h : Passes (u.emitValue s t) f) : Coded R k f := by
  cases u with
  | assign op value =>
    obtain ⟨he, hx, hp⟩ := hu value rfl
    exact emit_coded hs hr value he hx hk hp h
  | step down =>
    have hnum : k.IsNumeric := by
      rw [hk] at hproblem
      simpa [problem?, op?, Kind.IsNumeric] using hproblem
    obtain ⟨one, hone, hcoded⟩ := one_coded R hnum
    unfold emitValue at h
    rw [hk] at h
    rw [hone] at h
    cases passes_pure.1 h
    exact hcoded

end Update

/-! ### Statements -/

/-- The statements that an update of a variable becomes. -/
def Variable.updates (debug : Bool) (name : String) (v : Variable) (k : Kind) (n : Node) : List Instr :=
  .assign k v.address n :: if debug then [.debugUpdate name k (.variable k v.address)] else []

theorem debugUpdate_coded (hk : v.type.primitive = .kind k) : debugUpdate name v =
      .ofPieces (Instr.debugUpdate name k (.variable k v.address)).pieces := by
  unfold debugUpdate
  rw [hk]
  dsimp only [Primitive.kind?]
  rw [read_coded hk, ← ofPieces_opcode, ← ofPieces_text, ← ofPieces_kind,
    ← ofPieces_append, ← ofPieces_append, ← ofPieces_append]
  rfl

theorem assign_coded (hk : v.type.primitive = .kind k) : opcode .assign ++ .kind k ++ .place v ++ .ofPieces n.pieces =
      .ofPieces (Instr.assign k v.address n).pieces := by
  rw [place_coded hk, ← ofPieces_opcode, ← ofPieces_kind, ← ofPieces_append, ← ofPieces_append, ← ofPieces_append]
  rfl

/-- The code of an assignment to a variable, with what a debugger is told. -/
theorem updates_coded (hk : v.type.primitive = .kind k) (hf : f = .ofPieces (Instr.assign k v.address n).pieces) :
    (if debug then f ++ .debugUpdate name v else f) =
      .ofPieces ((Variable.updates debug name v k n).flatMap Instr.pieces) := by
  subst hf
  cases debug with
  | false => simp [Variable.updates]
  | true =>
    rw [debugUpdate_coded hk, ← ofPieces_append]
    simp [Variable.updates]

section

variable (hs : s.Formed) (hr : s.Reads R)
include hs hr

theorem emitVariableUpdate_coded (hv : s.vars.find? name = some v)
    (hk : v.type.primitive = .kind k) (hu : u.Fits R s v.type) (h : Passes (emitVariableUpdate s debug name v u span) f) :
    ∃ n : Node, n.Typed R k ∧ f = .ofPieces ((v.updates debug name k n).flatMap Instr.pieces) := by
  obtain ⟨g, hproblem, hg, hcode⟩ := (passes_emitVariableUpdate hk).1 h
  obtain ⟨given, rfl, hgiven⟩ := hu.value_coded hs hr hk hproblem hg
  cases hop : u.op? with
  | none =>
    refine ⟨given, hgiven, hcode.trans (updates_coded hk ?_)⟩
    simp only [assign, hop]
    exact assign_coded hk
  | some op =>
    obtain ⟨n, hn, htyped⟩ := Update.updated_coded (l := .variable k v.address) hk hproblem hop
      ⟨rfl, hr _ v k hv hk⟩ hgiven
    refine ⟨n, htyped, hcode.trans (updates_coded hk ?_)⟩
    simp only [assign, hop, isSome_some, if_true, place_coded hk, read_coded hk]
    rw [← ofPieces_opcode, ← ofPieces_kind, ← ofPieces_opcode, ← ofPieces_append, ← ofPieces_append, ← ofPieces_append,
      ← ofPieces_append, ← ofPieces_append]
    simp [Instr.pieces, hn, Piece.op, Piece.kind]

theorem emitPropertyUpdate_coded
    {target : Check Fragment} [Plain target] (htarget : ∀ g, Passes target g → CodedTarget R g) {name : Ident}
    (hk : t.primitive = .kind k) (hu : u.Fits R s t)
    (h : Passes (emitPropertyUpdate s owner target name t k u span) f) :
    ∃ tree d n, (Instr.assignProperty k tree d (u.opcode t) n).Typed R (fun _ _ => False) ∧
      f = .ofPieces (Instr.assignProperty k tree d (u.opcode t) n).pieces := by
  obtain ⟨p, a, b, hproblem, ha, hb, rfl⟩ := passes_emitPropertyUpdate h
  obtain ⟨tree, rfl, htree⟩ := htarget a ha
  obtain ⟨n, rfl, hn⟩ := hu.value_coded hs hr hk hproblem hb
  refine ⟨tree, p.propertyDescriptor, n, ⟨htree, Update.updates_opcode hk hproblem, hn⟩, ?_⟩
  rw [← ofPieces_opcode, ← ofPieces_kind, ← ofPieces_symbol, ← ofPieces_opcode, ← ofPieces_append, ← ofPieces_append,
    ← ofPieces_append, ← ofPieces_append, ← ofPieces_append]
  simp [Instr.pieces, Piece.op, Piece.kind]

theorem emitSubscriptUpdate_coded {owner : Object}
    (ho : owner.Formed) (hi : index.Formed) (hxo : ∀ x ∈ owner.texts, Clean x) (hxi : ∀ x ∈ index.texts, Clean x)
    (hp : R.Permits (Object.asks s (.index span owner index))) (hk : t.primitive = .kind k)
    (hu : u.Fits R s t) (h : Passes (emitSubscriptUpdate s span owner index t k u actionSpan) f) :
    ∃ target j i n, (Instr.assignSubscript k target j i (u.opcode t) n).Typed R (fun _ _ => False) ∧
      f = .ofPieces (Instr.assignSubscript k target j i (u.opcode t) n).pieces := by
  obtain ⟨name, w, i, j, a, b, c, hname, hw, hindexer, hj, hproblem, ha, hb, hc, rfl⟩ := passes_emitSubscriptUpdate hs h
  unfold Object.asks at hp
  rw [show owner.type? s = _ from hname.fst, show index.type? s = _ from hw.fst] at hp
  dsimp only at hp
  rw [hindexer.fst] at hp
  obtain ⟨hpo, hpi⟩ := Rules.permits_append.1 hp
  obtain ⟨l, rfl, hl⟩ := emitObject_coded hs hr owner ho hxo hpo (pointer_of_passes hname) ha
  obtain ⟨m, rfl, hm⟩ := emit_coded hs hr index hi hxi hj hpi hb
  obtain ⟨n, rfl, hn⟩ := hu.value_coded hs hr hk hproblem hc
  refine ⟨l, j, m, n, ⟨hl, hm, Update.updates_opcode hk hproblem, hn⟩, ?_⟩
  simp only [← ofPieces_opcode, ← ofPieces_kind, ← ofPieces_append]
  simp [Instr.pieces, Piece.op, Piece.kind]

/-- What an update becomes: assignments to a variable, or one statement that asks the host. -/
theorem emitUpdate_coded (ho : target.Formed) (hx : ∀ x ∈ target.texts, Clean x)
    (hu : ∀ e, u.value? = some e → e.Formed ∧ ∀ x ∈ e.texts, Clean x)
    (hp : R.Permits (Surveying.update s.api target u.value? s.vars).1.asks)
    (h : Passes (emitUpdate s debug target u span) f) :
    (∃ name v k n, s.vars.find? name = some v ∧ v.type.primitive = .kind k ∧ Node.Typed R k n ∧
        f = .ofPieces ((v.updates debug name k n).flatMap Instr.pieces)) ∨
      ∃ i : Instr, i.Typed R (fun _ _ => False) ∧ (i.Proceeds ∧ ¬ i.Tells) ∧ f = .ofPieces i.pieces := by
  have hfits : ∀ t, (∀ e, u.value? = some e → R.Permits (e.asks s t)) → u.Fits R s t := fun t ht e he =>
    ⟨(hu e he).1, (hu e he).2, ht e he⟩
  -- what is asked of a target that is no variable, and of the value given to it
  have hparts : ∀ {t : Ty}, target.var? s.vars = none → Passes (objectType s target) (some t) →
      R.Permits (target.asks s) ∧ u.Fits R s t := by
    intro t hv ht
    unfold Surveying.update Surveying.asking at hp
    dsimp only [Survey.ofAsks] at hp
    rw [hv] at hp
    obtain ⟨hptarget, hpvalue⟩ := Rules.permits_append.1 hp
    rw [show target.type? s = some t from ht.fst] at hpvalue
    refine ⟨hptarget, hfits t fun e he => ?_⟩
    rw [he] at hpvalue
    exact hpvalue
  cases passes_emitUpdate hs h with
  | @stored _ name v hv hcode =>
    have hfind := Object.find_of_variable hv
    obtain ⟨k, hk⟩ := (hs.vars.find hfind).2
    unfold Surveying.update Surveying.asking at hp
    dsimp only [Survey.ofAsks] at hp
    rw [hv] at hp
    obtain ⟨n, hn, hf⟩ := emitVariableUpdate_coded hs hr hfind hk
      (hfits _ fun e he => by rw [he] at hp; exact hp) hcode
    exact .inl ⟨name, v, k, n, hfind, hk, hn, hf⟩
  | subscript ht hk hcode =>
    obtain ⟨hptarget, hfit⟩ := hparts rfl ht
    obtain ⟨l, j, m, n, htyped, hf⟩ := emitSubscriptUpdate_coded hs hr ho.1 ho.2
      (fun x hx' => hx x (by simp [Object.texts, hx'])) (fun x hx' => hx x (by simp [Object.texts, hx']))
      hptarget hk hfit hcode
    exact .inr ⟨_, htyped, ⟨trivial, id⟩, hf⟩
  | property hv ht hk hcode =>
    obtain ⟨-, hfit⟩ := hparts (map_eq_none_iff.2 hv) ht
    obtain ⟨tree, d, n, htyped, hf⟩ := emitPropertyUpdate_coded hs hr codedTarget_global
      hk hfit hcode
    exact .inr ⟨_, htyped, ⟨trivial, id⟩, hf⟩
  | @member _ owner name t k ownerName ht hk hname hcode =>
    obtain ⟨hptarget, hfit⟩ := hparts rfl ht
    unfold Object.asks at hptarget
    rw [show owner.type? s = _ from hname.fst] at hptarget
    obtain ⟨tree, d, n, htyped, hf⟩ := emitPropertyUpdate_coded hs hr
      (fun g hg => (emitObject_coded hs hr owner ho.1 (fun x hx' => hx x (by simp [Object.texts, hx']))
        (Rules.permits_append.1 hptarget).1 (pointer_of_passes hname) hg).target) hk hfit hcode
    exact .inr ⟨_, htyped, ⟨trivial, id⟩, hf⟩

end

end HostScript
