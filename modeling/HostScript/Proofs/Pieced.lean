import HostScript.Proofs.Compiling

/-! Code of files with problems.

A file gets code even if problems are found in it. Such code is never run, but it is put
behind and in front of other code all the same, and for that it is a row of pieces like
any other: whatever is reported, nothing is made that is not made of pieces
(`pieced_compile`), and nothing is done to code that stands before it (`compile_behind`). -/
namespace HostScript

variable {ctx : Context} {f g : Fragment} {name : Ident} {owner : Option String}

/-! ### Fragments -/

namespace Fragment

def Pieced (f : Fragment) : Prop := ∃ ps, f = ofPieces ps

theorem pieced_empty : Pieced ∅ := ⟨[], rfl⟩

theorem Pieced.append (hf : f.Pieced) (hg : g.Pieced) : (f ++ g).Pieced := by
  obtain ⟨ps, rfl⟩ := hf
  obtain ⟨qs, rfl⟩ := hg
  exact ⟨ps ++ qs, (ofPieces_append ps qs).symm⟩

theorem Pieced.resolveJumps (hf : f.Pieced) (l : Leap) (target : Target) : (f.resolveJumps l.mark target).Pieced := by
  obtain ⟨ps, rfl⟩ := hf
  exact ⟨_, resolveJumps_ofPieces l target ps⟩

/-- Code that is made of pieces, with only some host members named in it. -/
class Naming (names : String → Prop) (f : Fragment) : Prop where
  pieced : f.Pieced
  named : ∀ m ∈ f.marks, ∀ d, m.kind = .symbol d → names d

section Naming

variable {names : String → Prop}

instance naming_empty : Naming names ∅ := ⟨pieced_empty, nofun⟩

theorem Naming.append (hf : f.Naming names) (hg : g.Naming names) : (f ++ g).Naming names := by
  refine ⟨hf.pieced.append hg.pieced, fun m hm => ?_⟩
  obtain hm | hm := Array.mem_append.1 hm
  · exact hf.named m hm
  · obtain ⟨m', hm', rfl⟩ := Array.mem_map.1 hm
    exact hg.named m' hm'

instance {f g : Fragment} [hf : f.Naming names] [hg : g.Naming names] :
    (f ++ g).Naming names := hf.append hg

instance naming_ofBytes (bytes : List UInt8) : (ofBytes bytes).Naming names := ⟨⟨_, (ofPieces_raw bytes).symm⟩, nofun⟩

instance naming_opcode (op : Opcode) : (opcode op).Naming names := naming_ofBytes [_]

instance (k : Kind) : (kind k).Naming names := naming_ofBytes [_]

instance (n : Nat) : (byte n).Naming names := naming_ofBytes [_]

instance (n : Nat) : (word n).Naming names := naming_ofBytes _

instance (n : Nat) : (distance n).Naming names := naming_ofBytes _

instance (t : String) : (text t).Naming names := naming_ofBytes _

theorem naming_piece (h : ∀ d, p = .symbol d → names d) : (ofPieces [p]).Naming names := by
  refine ⟨⟨_, rfl⟩, fun m hm d hd => h d ?_⟩
  obtain ⟨kind, hkind, rfl⟩ : ∃ kind, p.mark? = some kind ∧ Mark.mk 0 kind = m := by
    simpa [ofPieces, Piece.marksFrom] using hm
  cases hd
  cases p with
  | symbol d' =>
    cases hkind
    rfl
  | place isString address => cases isString <;> cases hkind
  | leap l => cases l <;> cases hkind
  | _ => cases hkind

instance naming_place (v : Variable) : (place v).Naming names := by
  rw [← ofPieces_place]
  exact naming_piece nofun

instance (v : Variable) : (read v).Naming names := (naming_opcode _).append (naming_place v)

theorem naming_symbol (h : names d) : (symbol d).Naming names := by
  rw [← ofPieces_symbol]
  refine naming_piece fun d' hd => ?_
  cases hd
  exact h

instance (l : Literal) : (literal l).Naming names := by
  unfold literal
  split
  · exact naming_opcode _
  · exact naming_opcode _
  · exact naming_opcode _
  · simpa [ofBytes] using naming_ofBytes (Opcode.code .literal :: (Utf8.encode _ ++ [0]))
  · simpa [ofBytes] using naming_ofBytes (Opcode.code .literal :: l.value.bytes)

instance (name : String) (v : Variable) : (debugUpdate name v).Naming names := by
  unfold debugUpdate
  split <;> infer_instance

theorem Naming.resolveJumps (hf : f.Naming names) (l : Leap) (target : Target) :
    (f.resolveJumps l.mark target).Naming names :=
  ⟨hf.pieced.resolveJumps l target, fun m hm => hf.named m (Array.mem_filter.1 hm).1⟩

instance {f : Fragment} [hf : f.Naming names] (target : Target) :
    (f.resolveJumps .breakJump target).Naming names := hf.resolveJumps .breaks target

instance {f : Fragment} [hf : f.Naming names] (target : Target) :
    (f.resolveJumps .continueJump target).Naming names := hf.resolveJumps .continues target

instance {p : Prop} [Decidable p] {f g : Fragment} [f.Naming names] [g.Naming names] :
    (if p then f else g).Naming names := by
  split <;> infer_instance

end Naming

end Fragment

/-- Every host member that can be meant is one of `names`. -/
class Api.Grants (api : Api) (names : String → Prop) : Prop where
  property : ∀ {owner name p}, p ∈ api.propertiesNamed owner name → names p.propertyDescriptor
  callee : ∀ {owner name types f}, f ∈ api.callees owner name types → names f.functionDescriptor

instance Api.grants_any (api : Api) : api.Grants fun _ => True := ⟨fun _ => trivial, fun _ => trivial⟩

open Fragment

/-! ### Results whatever the state -/

section Always

variable {σ α β : Type} {P : α → Prop} {Q : β → Prop}

/-- Whatever the state, the result satisfies `P`. -/
def Always (c : StateM σ α) (P : α → Prop) : Prop := ∀ s, P (c s).1

theorem always_pure (h : P a) : Always (pure a : StateM σ α) P := fun _ => h

theorem Always.bind {f : α → StateM σ β} (hc : Always c P) (hf : ∀ a, P a → Always (f a) Q) :
    Always (c >>= f) Q := fun s => hf _ (hc s) _

/-- What was computed before does not matter. -/
theorem Always.after (c : StateM σ α) {f : α → StateM σ β} (hf : ∀ a, Always (f a) Q) : Always (c >>= f) Q :=
  fun _ => hf _ _

/-- What follows a plain check is about what it gives. -/
theorem Check.Plain.always_bind [hc : Plain c] {f : α → Check β} (hf : Always (f (c #[]).1) Q) :
    Always (c >>= f) Q := by
  intro r
  show Q (f (c r).1 (c r).2).1
  rw [hc.steady r]
  exact hf _

/-- The code that is made is made of pieces, with only some members named in it. -/
class Names (names : String → Prop) (c : StateM σ Fragment) : Prop where
  always : Always c (Naming names)

variable {names : String → Prop}

theorem always_naming (c : StateM σ Fragment) [hc : Names (fun _ => True) c] :
    Always c (Naming fun _ => True) := hc.always

instance {f : Fragment} [hf : f.Naming names] : Names names (pure f : StateM σ Fragment) := ⟨always_pure hf⟩

theorem Names.bind {f : Fragment → StateM σ Fragment} (hc : Names names c)
    (hf : ∀ a, Naming names a → Names names (f a)) :
    Names names (c >>= f) := ⟨hc.always.bind fun a ha => (hf a ha).always⟩

theorem Names.after {f : α → StateM σ Fragment} (hf : ∀ a, Names names (f a)) : Names names (c >>= f) :=
  ⟨.after c fun a => (hf a).always⟩

instance (f : Subtype (Naming names)) : f.1.Naming names := f.2

instance {c : StateM σ Fragment} {f : Fragment → StateM σ Fragment} [hc : Names names c]
    [hf : ∀ a : Subtype (Naming names), Names names (f a.1)] : Names names (c >>= f) := hc.bind fun a ha => hf ⟨a, ha⟩

instance {c : StateM σ (Option α)} {f : Option α → StateM σ Fragment} [hn : Names names (f none)]
    [hs : ∀ a, Names names (f (some a))] : Names names (c >>= f) := .after fun
  | none => hn
  | some a => hs a

instance (priority := low) {c : StateM σ α} {f : α → StateM σ Fragment} [hf : ∀ a, Names names (f a)] :
    Names names (c >>= f) := .after hf

instance {p : Prop} [Decidable p] {c d : StateM σ Fragment} [Names names c] [Names names d] :
    Names names (if p then c else d) := by
  split <;> infer_instance

end Always

/-! ### Expressions -/

section Emit

variable {s : Scope} {names : String → Prop}

instance names_emitAs {e : Expr} {expected : Ty} {code : Ty → Check Fragment} [∀ t, Names names (code t)] :
    Names names (emitAs s e expected code) := by
  unfold emitAs
  infer_instance

instance {span : Span} {op : CompareOp} {l r : Ty} {left right : Ty → Check Fragment}
    [∀ t, Names names (left t)] [∀ t, Names names (right t)] : Names names (emitComparison span op l r left right) := by
  repeat' first | infer_instance | refine .after fun _ => ?_ | split

instance {api : Api} {span : Span} {source target : Ty} {operand : Ty → Check Fragment}
    [∀ t, Names names (operand t)] : Names names (emitCast api span source target operand) := by
  unfold emitCast
  repeat' first | infer_instance | split

variable [hs : s.api.Grants names]
include hs

/-- Code that a property is put in, once it is found. -/
theorem names_property {f : Option (Member PropertyDecl) → Check Fragment} (hn : Names names (f none))
    (hp : ∀ p, Naming names (symbol p.propertyDescriptor) → Names names (f (some p))) :
    Names names (s.property owner name >>= f) := by
  unfold Scope.property
  split
  · rename_i p rest heq
    exact hp p (naming_symbol (hs.property (heq ▸ List.mem_cons_self ..)))
  · exact ⟨fun _ => hn.always _⟩

theorem names_callee {f : Option (Member FunctionDecl) → Check Fragment} (hn : Names names (f none))
    (hf : ∀ m, Naming names (symbol m.functionDescriptor) → Names names (f (some m))) :
    Names names (s.callee owner name types >>= f) := by
  unfold Scope.callee
  split
  · exact ⟨fun _ => hn.always _⟩
  · rename_i m heq
    refine hf m (naming_symbol (@Api.Grants.callee _ _ hs owner name.name types m ?_))
    cases hcallees : s.api.callees owner name.name types with
    | nil =>
      rw [hcallees] at heq
      cases heq
    | cons g rest =>
      rw [hcallees] at heq
      cases (Prod.mk.inj (Option.some.inj heq)).1
      exact List.mem_cons_self ..
  · exact ⟨fun _ => hn.always _⟩

mutual
instance names_emit : (e : Expr) → (expected : Ty) → Names names (emit s e expected)
  | .literal span value, expected => by
    unfold emit
    infer_instance
  | .object span object, expected => by
    have := names_emitObject object true
    unfold emit
    infer_instance
  | .parens span inner, expected => by
    have := names_emit inner expected
    unfold emit
    infer_instance
  | .cast span type operand, expected => by
    have := names_emit operand
    unfold emit
    infer_instance
  | .unary span op operand, expected => by
    have := names_emit operand
    unfold emit
    cases op <;> infer_instance
  | .binary span op left right, expected => by
    have := names_emit left
    have := names_emit right
    unfold emit
    cases op <;> infer_instance
  | .ternary span condition yes no, expected => by
    have := names_emit condition
    have := names_emit yes
    have := names_emit no
    exact @names_emitAs _ _ _ _ _ fun _ => .after fun _ => by split <;> infer_instance

instance names_emitObject : (o : Object) → (used : Bool) → Names names (emitObject s o used)
  | .root access, used => by
    have := fun target [Names names target] => names_emitAccess access used none target
    unfold emitObject
    split <;> infer_instance
  | .member span owner access, used => by
    have := names_emitObject owner true
    have := fun name target [Names names target] => names_emitAccess access used (some name) target
    unfold emitObject
    infer_instance
  | .index span owner index, used => by
    have := names_emitObject owner true
    have := names_emit index
    repeat' first | infer_instance | refine .after fun _ => ?_ | split

instance names_emitAccess : (a : Access) → (used : Bool) → (owner : Option String) →
    (target : Check Fragment) → [Names names target] → Names names (emitAccess s owner target a used)
  | .name ident, used, owner, target, _ => names_property inferInstance fun p hp => inferInstance
  | .call span ident args, used, owner, target, _ => by
    have := fun types declared code [Naming names code] => names_emitArguments args types declared code
    refine .after fun types => ?_
    split
    · exact names_callee inferInstance fun f hf => inferInstance
    · infer_instance

instance names_emitArguments : (args : List Expr) → (types declared : List Ty) → (code : Fragment) →
    [Naming names code] → Names names (emitArguments s args types declared code)
  | [], _, _, _, _ | e :: _, [], _, _, _ => by
    unfold emitArguments
    infer_instance
  | e :: rest, actual :: types, declared, code, _ => by
    have := names_emit e
    have := fun types declared code [Naming names code] => names_emitArguments rest types declared code
    repeat' first | infer_instance | refine .after fun _ => ?_ | split
end

instance (u : Update) (t : Ty) : Names names (u.emitValue s t) := by
  unfold Update.emitValue
  repeat' first | infer_instance | split

instance {owner : Option String} {target : Check Fragment} [Names names target] (name : Ident) (t : Ty)
    (k : Kind) (u : Update) (span : Span) : Names names (emitPropertyUpdate s owner target name t k u span) := by
  exact names_property inferInstance fun p hp => inferInstance

instance (span : Span) (owner : Object) (index : Expr) (t : Ty) (k : Kind) (u : Update)
    (actionSpan : Span) : Names names (emitSubscriptUpdate s span owner index t k u actionSpan) := by
  repeat' first | infer_instance | refine .after fun _ => ?_ | split

instance (debug : Bool) (name : String) (v : Variable) (u : Update) (span : Span) :
    Names names (emitVariableUpdate s debug name v u span) := by
  repeat' first | infer_instance | refine .after fun _ => ?_ | split

instance (debug : Bool) (target : Object) (u : Update) (span : Span) :
    Names names (emitUpdate s debug target u span) := by
  unfold emitUpdate
  repeat' first | infer_instance | refine .after fun _ => ?_ | split

end Emit

/-! ### Statements -/

namespace Compiling

variable {names : String → Prop}

instance names_check {f : Scope → Check Fragment} [h : ∀ vars, Names names (f ⟨ctx.api, vars⟩)] :
    Names names (check ctx f) :=
  ⟨fun p => (h p.vars).always p.reports⟩

instance names_leave : Names names (leave ctx) := by
  have hall : ∀ (vars : List (String × Variable)) (code : Fragment), code.Naming names →
      (vars.foldl (fun code v => code ++ Fragment.opcode .debugDelete ++ .text v.1) code).Naming names := by
    intro vars
    induction vars with
    | nil => exact fun _ h => h
    | cons x rest ih => exact fun code h => ih _ inferInstance
  refine ⟨fun p => ?_⟩
  show Fragment.Naming names (if ctx.debug then _ else ∅)
  split
  · exact hall _ _ naming_empty
  · exact naming_empty

instance names_inScope {c : Compiling Fragment} [Names names c] : Names names (inScope ctx c) := by
  unfold inScope
  infer_instance

theorem names_jump (place : Place) (span : Span) (l : Leap) (problem : Problem) :
    Names names (jump ctx place span l.mark problem) := by
  have : Naming names (.mark l.mark ++ .opcode .placeholder ++ .word 0) := by
    rw [← ofPieces_leap]
    exact naming_piece nofun
  unfold jump
  infer_instance

variable [hctx : ctx.api.Grants names]
include hctx

instance (type : TypeRef) (name : Ident) (value : Option Expr) : Names names (declare ctx type name value) := by
  have : Names names (valueCode ctx type value) := by
    unfold valueCode
    split <;> infer_instance
  have : Names names (declareValue ctx type name value) := by
    refine .after fun _ => ?_
    split
    · exact .bind inferInstance fun _ _ => .after fun _ => by split <;> infer_instance
    · infer_instance
  rw [declare_eq]
  infer_instance

instance (place : Place) (a : Action) : Names names (actionCode ctx place a) := by
  have hjump := fun span => @names_jump ctx names place span
  unfold actionCode
  split
  · infer_instance
  · infer_instance
  · infer_instance
  · exact @names_check _ _ _ inferInstance
  · exact hjump _ .breaks _
  · exact hjump _ .continues _
  · infer_instance

instance (place : Place) (a : Action) : Names names (action ctx place a) := by
  refine .bind inferInstance fun code _ => ?_
  split
  · have : Naming names (.mark .line ++ .word (min (ctx.sources.line a.span) 65535)) := by
      rw [← ofPieces_line]
      exact naming_piece nofun
    dsimp only
    rw [append_assoc (opcode .debugLine)]
    infer_instance
  · infer_instance

instance (place : Place) (a : Option Action) : Names names (optionalAction ctx place a) := by
  unfold optionalAction
  split <;> infer_instance

omit hctx in
instance naming_backToStart {code : Fragment} [code.Naming names] : (backToStart code).Naming names := by
  unfold backToStart
  infer_instance

instance (condition : Option Expr) {body : Fragment} [body.Naming names] : Names names (looped ctx condition body) := by
  unfold looped
  split <;> infer_instance

section Control

variable {body otherwise : Compiling Fragment} [Names names body]

instance (condition : Expr) : Names names (whileCode ctx condition body) := by
  unfold whileCode
  infer_instance

instance (place : Place) (start : Option Action) (condition : Option Expr) (step : Option Action) :
    Names names (forCode ctx place start condition step body) := by
  have : ∀ constant, Names names (forLoop ctx place constant condition step body) := by
    unfold forLoop
    infer_instance
  rw [forCode_eq]
  unfold forInner
  exact @names_inScope _ _ _ inferInstance

instance (condition : Expr) : Names names (doWhileCode ctx body condition) :=
  .bind inferInstance fun _ _ => .after fun _ => by split <;> infer_instance

instance (condition : Expr) [Names names otherwise] : Names names (branchCode ctx condition body otherwise) := by
  exact .after fun _ => by split <;> infer_instance

end Control

mutual
instance names_statement (place : Place) : (s : Statement) → Names names (statement ctx place s)
  | .importing _ _ | .global _ _ | .type _ | .metadata _ _ | .action _ => by
    unfold statement
    infer_instance
  | .block body => names_block place body
  | .whileLoop _ body | .forLoop _ _ _ body | .doWhile body _ => by
    have := fun place => names_block place body
    unfold statement
    infer_instance
  | .branch b => names_branch place b

instance names_block (place : Place) : (b : Block) → Names names (block ctx place b)
  | .mk span body => by
    have := fun place => names_statements place body ∅
    unfold block
    infer_instance

instance names_branch (place : Place) : (b : Branch) → Names names (branch ctx place b)
  | .mk condition body other => by
    have := names_block place body
    have := names_otherwise place other
    unfold branch
    infer_instance

instance names_otherwise (place : Place) : (o : Otherwise) → Names names (otherwise ctx place o)
  | .nothing => by
    unfold otherwise
    infer_instance
  | .branch b => names_branch place b
  | .block body => names_block place body

instance names_statements (place : Place) : (ss : List Statement) → (code : Fragment) →
    [code.Naming names] → Names names (statements ctx place ss code)
  | [], code, _ => by
    unfold statements
    infer_instance
  | s :: rest, code, _ => by
    have := names_statement place s
    have := fun code [Naming names code] => names_statements place rest code
    unfold statements
    infer_instance
end

omit hctx in
/-- Statements are put behind code without a look at it. -/
theorem statements_behind (place : Place) (ss : List Statement) (pre code : Fragment) (p : Progress) :
    statements ctx place ss (pre ++ code) p =
      (pre ++ (statements ctx place ss code p).1, (statements ctx place ss code p).2) := by
  induction ss generalizing code p with
  | nil =>
    rfl
  | cons s rest ih =>
    show statements ctx place rest (pre ++ code ++ _) _ = _
    rw [append_assoc]
    exact ih _ _

end Compiling

namespace Script

theorem naming_compile [ctx.api.Grants names] (script : Script) (vars : Variables) :
    (script.compile ctx ∅ vars).1.Naming names :=
  (Compiling.names_statements _ script ∅).always _

theorem pieced_compile (ctx : Context) (script : Script) (vars : Variables) : (script.compile ctx ∅ vars).1.Pieced :=
  (@naming_compile ctx (fun _ => True) _ script vars).pieced

theorem compile_behind (ctx : Context) (script : Script) (pre : Fragment) (vars : Variables) :
    script.compile ctx pre vars = (pre ++ (script.compile ctx ∅ vars).1, (script.compile ctx ∅ vars).2) := by
  have h := @Compiling.statements_behind ctx ⟨false, false⟩ script pre ∅ ⟨vars, #[]⟩
  rwa [append_empty] at h

end Script

end HostScript
