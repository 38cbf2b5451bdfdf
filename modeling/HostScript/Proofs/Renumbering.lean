import HostScript.Compile.Statement
import Mathlib.Data.List.Basic

/-! Files under other numbers.

A span names its file by a number, which depends on the order in which files were loaded and
nothing else does. Here the files are given other numbers, everywhere at once, and what names stand
for is found as before: a search that looks at names and types finds the same declarations
(`Api.callees_renumber` and others), and as long as different files keep different numbers, a search
that looks at places does too (`firstTwo_renumber`). -/
namespace HostScript

open List Option

/-! ### Trees -/

section Trees

variable (f : Nat → Nat)

def Span.renumber (s : Span) : Span := { s with file := f s.file }

def Ident.renumber (i : Ident) : Ident := { i with span := i.span.renumber f }

def TypeRef.renumber (t : TypeRef) : TypeRef := { t with span := t.span.renumber f }

def Param.renumber (p : Param) : Param := ⟨p.type.renumber f, p.name.renumber f⟩

def FunctionDecl.renumber (d : FunctionDecl) : FunctionDecl :=
  ⟨d.result.renumber f, d.name.renumber f, d.params.map (Param.renumber f), d.variadic, d.span.renumber f⟩

def PropertyDecl.renumber (d : PropertyDecl) : PropertyDecl :=
  ⟨d.readonly, d.type.renumber f, d.name.renumber f, d.span.renumber f⟩

def SubscriptDecl.renumber (d : SubscriptDecl) : SubscriptDecl :=
  ⟨d.readonly, d.result.renumber f, d.index.renumber f, d.name.renumber f, d.span.renumber f⟩

def MemberDecl.renumber : MemberDecl → MemberDecl
  | .function d => .function (d.renumber f)
  | .property d => .property (d.renumber f)
  | .subscript d => .subscript (d.renumber f)

def TypeDecl.renumber (t : TypeDecl) : TypeDecl :=
  ⟨t.name.renumber f, t.ancestors.map (Ident.renumber f), t.members.map (MemberDecl.renumber f), t.span.renumber f⟩

mutual
def Expr.renumber : Expr → Expr
  | .literal span value => .literal (span.renumber f) value
  | .object span object => .object (span.renumber f) object.renumber
  | .parens span inner => .parens (span.renumber f) inner.renumber
  | .cast span type operand => .cast (span.renumber f) (type.renumber f) operand.renumber
  | .unary span op operand => .unary (span.renumber f) op operand.renumber
  | .binary span op left right => .binary (span.renumber f) op left.renumber right.renumber
  | .ternary span condition yes no => .ternary (span.renumber f) condition.renumber yes.renumber no.renumber

def Object.renumber : Object → Object
  | .root access => .root access.renumber
  | .member span owner access => .member (span.renumber f) owner.renumber access.renumber
  | .index span owner index => .index (span.renumber f) owner.renumber index.renumber

def Access.renumber : Access → Access
  | .name ident => .name (ident.renumber f)
  | .call span ident args => .call (span.renumber f) (ident.renumber f) (Expr.renumberAll args)

def Expr.renumberAll : List Expr → List Expr
  | [] => []
  | e :: rest => e.renumber :: Expr.renumberAll rest
end

def ActionKind.renumber : ActionKind → ActionKind
  | .declare type name value => .declare (type.renumber f) (name.renumber f) (value.map (Expr.renumber f))
  | .assign target op value => .assign (target.renumber f) op (value.renumber f)
  | .step target down => .step (target.renumber f) down
  | .call target => .call (target.renumber f)
  | .breakLoop => .breakLoop
  | .continueLoop => .continueLoop
  | .exit => .exit

def Action.renumber (a : Action) : Action := ⟨a.span.renumber f, a.kind.renumber f⟩

mutual
def Statement.renumber : Statement → Statement
  | .importing span path => .importing (span.renumber f) path
  | .global span members => .global (span.renumber f) (members.map (MemberDecl.renumber f))
  | .type decl => .type (decl.renumber f)
  | .metadata span text => .metadata (span.renumber f) text
  | .block body => .block body.renumber
  | .whileLoop condition body => .whileLoop (condition.renumber f) body.renumber
  | .forLoop start condition step body =>
    .forLoop (start.map (Action.renumber f)) (condition.map (Expr.renumber f)) (step.map (Action.renumber f)) body.renumber
  | .doWhile body condition => .doWhile body.renumber (condition.renumber f)
  | .branch branch => .branch branch.renumber
  | .action action => .action (action.renumber f)

def Block.renumber : Block → Block
  | .mk span statements => .mk (span.renumber f) (Statement.renumberAll statements)

def Branch.renumber : Branch → Branch
  | .mk condition body otherwise => .mk (condition.renumber f) body.renumber otherwise.renumber

def Otherwise.renumber : Otherwise → Otherwise
  | .nothing => .nothing
  | .branch branch => .branch branch.renumber
  | .block body => .block body.renumber

def Statement.renumberAll : List Statement → List Statement
  | [] => []
  | s :: rest => s.renumber :: Statement.renumberAll rest
end

def Script.renumber (script : Script) : Script := Statement.renumberAll f script

def Member.renumber {α : Type} (g : α → α) (m : Member α) : Member α := ⟨m.owner, g m.decl⟩

def Api.renumber (api : Api) : Api := ⟨api.types.map (TypeDecl.renumber f), api.globals.map (MemberDecl.renumber f)⟩

end Trees

section Trees

variable {f : Nat → Nat}

theorem Span.renumber_injective (hf : Function.Injective f) : Function.Injective (Span.renumber f) := by
  intro s t h
  obtain ⟨hfile, hstart, hstop⟩ := Span.mk.inj h
  exact Span.mk.injEq .. ▸ ⟨hf hfile, hstart, hstop⟩

theorem Span.join_renumber (s t : Span) : (s.join t).renumber f = (s.renumber f).join (t.renumber f) := rfl

theorem Expr.renumberAll_eq (es : List Expr) : renumberAll f es = es.map (Expr.renumber f) := by
  induction es with
  | nil => rfl
  | cons e rest ih => rw [renumberAll, ih, map_cons]

theorem Statement.renumberAll_eq (ss : List Statement) : renumberAll f ss = ss.map (Statement.renumber f) := by
  induction ss with
  | nil => rfl
  | cons s rest ih => rw [renumberAll, ih, map_cons]

@[simp] theorem Expr.span_renumber (e : Expr) : (e.renumber f).span = e.span.renumber f := by
  cases e <;> simp only [renumber, span]

@[simp] theorem Access.span_renumber (a : Access) : (a.renumber f).span = a.span.renumber f := by
  cases a <;> simp only [renumber, span, Ident.renumber]

@[simp] theorem Access.isCall_renumber (a : Access) : (a.renumber f).isCall = a.isCall := by
  cases a <;> simp only [renumber, isCall]

@[simp] theorem Object.span_renumber (o : Object) : (o.renumber f).span = o.span.renumber f := by
  cases o <;> simp only [renumber, span, Access.span_renumber]

@[simp] theorem Object.lastSpan_renumber (o : Object) : (o.renumber f).lastSpan = o.lastSpan.renumber f := by
  cases o <;> simp only [renumber, lastSpan, Access.span_renumber]

@[simp] theorem Object.isCall_renumber (o : Object) : (o.renumber f).isCall = o.isCall := by
  cases o <;> simp only [renumber, isCall, Access.isCall_renumber]

@[simp] theorem FunctionDecl.types_renumber (d : FunctionDecl) : (d.renumber f).types = d.types := by
  simp [types, renumber, Param.renumber, TypeRef.renumber]

end Trees

/-! ### Declarations of scripts -/

namespace Script

variable {f : Nat → Nat} (script : Script)

theorem imports_renumber : (script.renumber f).imports = script.imports := by
  unfold imports renumber
  rw [Statement.renumberAll_eq, filterMap_map]
  refine filterMap_congr fun s _ => ?_
  cases s <;> rfl

theorem types_renumber : (script.renumber f).types = script.types.map (TypeDecl.renumber f) := by
  unfold types renumber
  rw [Statement.renumberAll_eq, filterMap_map, map_filterMap]
  refine filterMap_congr fun s _ => ?_
  cases s <;> rfl

theorem globals_renumber : (script.renumber f).globals = script.globals.map (MemberDecl.renumber f) := by
  unfold globals renumber
  rw [Statement.renumberAll_eq, flatMap_map, map_flatMap]
  refine flatMap_congr fun s _ => ?_
  cases s <;> rfl

end Script

/-- Declarations are collected in the same order. -/
theorem Api.ofScripts_renumber (scripts : List Script) :
    Api.ofScripts (scripts.map (Script.renumber f)) = (Api.ofScripts scripts).renumber f := by
  simp only [ofScripts, Api.renumber, flatMap_map, map_flatMap, Script.types_renumber, Script.globals_renumber]

/-! ### Searches -/

/-- The first of some declarations and the next one that stands elsewhere are the same ones. -/
theorem firstTwo_renumber {f : Nat → Nat} (hf : Function.Injective f) {span : α → Span} {g : α → α}
    (hg : ∀ a, span (g a) = (span a).renumber f) (as : List α) :
    firstTwo? span (as.map g) = (firstTwo? span as).map fun r => (g r.1, r.2.map g) := by
  cases as with
  | nil => rfl
  | cons a rest =>
    rw [map_cons, firstTwo?, firstTwo?, List.find?_map, map_some]
    have hsame : ((fun b => decide (span b ≠ span (g a))) ∘ g) = fun b => decide (span b ≠ span a) := by
      funext b
      simp only [Function.comp_apply, hg, ne_eq, (Span.renumber_injective hf).eq_iff]
    rw [hsame]

namespace Api

variable {f : Nat → Nat} (api : Api)

@[simp] theorem findType_renumber (name : String) :
    (api.renumber f).findType? name = (api.findType? name).map (TypeDecl.renumber f) :=
  List.find?_map ..

@[simp] theorem typesNamed_renumber (name : String) :
    (api.renumber f).typesNamed name = (api.typesNamed name).map (TypeDecl.renumber f) :=
  filter_map ..

@[simp] theorem declares_renumber (t : Ty) : (api.renumber f).declares t = api.declares t := by
  cases t <;> simp [declares]

@[simp] theorem ancestorsOf_renumber (t : TypeDecl) : ancestorsOf (t.renumber f) = ancestorsOf t := by
  simp [ancestorsOf, TypeDecl.renumber, Ident.renumber]

@[simp] theorem links_renumber : (api.renumber f).links = api.links := by
  simp [links, Api.renumber, Function.comp_def, TypeDecl.renumber]

/-- Types are found by name, so the walk is the same. -/
theorem lineageFrom_renumber (fuel : Nat) (queue seen : List String) :
    (api.renumber f).lineageFrom fuel queue seen = (api.lineageFrom fuel queue seen).map (TypeDecl.renumber f) := by
  induction fuel generalizing queue seen with
  | zero => rfl
  | succ fuel ih =>
    cases queue with
    | nil => rfl
    | cons name queue =>
      simp only [lineageFrom, findType_renumber, ih]
      split
      · rfl
      · cases api.findType? name with
        | none => rfl
        | some t => simp

@[simp] theorem lineage_renumber (name : String) :
    (api.renumber f).lineage name = (api.lineage name).map (TypeDecl.renumber f) := by
  rw [lineage, links_renumber, lineageFrom_renumber]
  rfl

@[simp] theorem inherits_renumber (child ancestor : String) :
    (api.renumber f).inherits child ancestor = api.inherits child ancestor := by
  rw [inherits, lineage_renumber, List.any_map]
  rfl

@[simp] theorem commonAncestors_renumber (a b : String) :
    (api.renumber f).commonAncestors a b = api.commonAncestors a b := by
  simp [commonAncestors, Function.comp_def, TypeDecl.renumber, Ident.renumber]

@[simp] theorem assignable_renumber (source target : Ty) :
    (api.renumber f).assignable source target = api.assignable source target := by
  simp [assignable]

theorem cycleFrom_renumber (fuel : Nat) (path : List String) (name : String) :
    (api.renumber f).cycleFrom fuel path name = api.cycleFrom fuel path name := by
  induction fuel generalizing path name with
  | zero => rw [cycleFrom, cycleFrom]
  | succ fuel ih =>
    rw [cycleFrom, cycleFrom, findType_renumber]
    cases api.findType? name with
    | none => rfl
    | some t => simp only [map_some, ancestorsOf_renumber, funext (ih (path ++ [name]))]

@[simp] theorem cycle_renumber (name : String) : (api.renumber f).cycle? name = api.cycle? name := by
  rw [cycle?, cycleFrom_renumber]
  simp [cycle?, Api.renumber]

theorem diamondFrom_renumber (fuel : Nat) (stack seen : List String) :
    (api.renumber f).diamondFrom fuel stack seen = api.diamondFrom fuel stack seen := by
  induction fuel generalizing stack seen with
  | zero => rfl
  | succ fuel ih =>
    cases stack with
    | nil => rfl
    | cons name stack => simp [diamondFrom, ih, Function.comp_def]

@[simp] theorem diamond_renumber (name : String) : (api.renumber f).diamond? name = api.diamond? name := by
  rw [diamond?, links_renumber, diamondFrom_renumber]
  rfl

/-! ### Members -/

theorem members_renumber (owner : Option String) :
    (api.renumber f).members owner = (api.members owner).map (Member.renumber (MemberDecl.renumber f)) := by
  cases owner with
  | none =>
    rw [members, members, List.map_map, Api.renumber, List.map_map]
    rfl
  | some owner =>
    rw [members, members, lineage_renumber, List.flatMap_map, List.map_flatMap]
    refine List.flatMap_congr fun t _ => ?_
    rw [TypeDecl.renumber, List.map_map, List.map_map]
    rfl

/-- Members of one sort, when renumbering keeps the sort. -/
theorem parts_renumber {part : MemberDecl → Option β} {g : β → β} (hpart : ∀ d, part (d.renumber f) = (part d).map g)
    (owner : Option String) : ((api.renumber f).members owner).filterMap (Member.part? part) =
      ((api.members owner).filterMap (Member.part? part)).map (Member.renumber g) := by
  rw [members_renumber, List.filterMap_map, List.map_filterMap]
  refine List.filterMap_congr fun m _ => ?_
  simp only [Function.comp_apply, Member.part?, Member.renumber, hpart, Option.map_map]
  rfl

theorem functions_renumber (owner : Option String) :
    (api.renumber f).functions owner = (api.functions owner).map (Member.renumber (FunctionDecl.renumber f)) :=
  parts_renumber api (fun d => by cases d <;> rfl) owner

theorem properties_renumber (owner : Option String) :
    (api.renumber f).properties owner = (api.properties owner).map (Member.renumber (PropertyDecl.renumber f)) :=
  parts_renumber api (fun d => by cases d <;> rfl) owner

theorem subscripts_renumber (owner : Option String) :
    (api.renumber f).subscripts owner = (api.subscripts owner).map (Member.renumber (SubscriptDecl.renumber f)) :=
  parts_renumber api (fun d => by cases d <;> rfl) owner

@[simp] theorem accepts_renumber (d : FunctionDecl) (given : List Ty) :
    (api.renumber f).accepts (d.renumber f) given = api.accepts d given := by
  simp [accepts, FunctionDecl.renumber, FunctionDecl.types, Function.comp_def, Param.renumber, TypeRef.renumber]

/-- Members that a test picks, when renumbering does not matter to the test. -/
theorem filter_renumber {test test' : Member α → Bool} {g : α → α} (htest : ∀ m, test' (m.renumber g) = test m)
    (ms : List (Member α)) : (ms.map (Member.renumber g)).filter test' = (ms.filter test).map (Member.renumber g) := by
  rw [List.filter_map]
  exact congrArg (List.map _) (List.filter_congr fun m _ => htest m)

section

variable (owner : Option String) (name : String)
include owner name

@[simp] theorem callees_renumber (given : List Ty) :
    (api.renumber f).callees owner name given =
      (api.callees owner name given).map (Member.renumber (FunctionDecl.renumber f)) := by
  rw [callees, functions_renumber]
  exact filter_renumber (fun m => congrArg (decide (m.decl.name.name = name) && ·) (accepts_renumber ..)) _

@[simp] theorem functionsOf_renumber (types : List Ty) (variadic : Bool) :
    (api.renumber f).functionsOf owner name types variadic =
      (api.functionsOf owner name types variadic).map (Member.renumber (FunctionDecl.renumber f)) := by
  rw [functionsOf, functions_renumber]
  refine filter_renumber (fun m => ?_) _
  simp only [Member.renumber, FunctionDecl.types_renumber]
  rfl

@[simp] theorem propertiesNamed_renumber :
    (api.renumber f).propertiesNamed owner name =
      (api.propertiesNamed owner name).map (Member.renumber (PropertyDecl.renumber f)) := by
  rw [propertiesNamed, properties_renumber]
  exact filter_renumber (fun m => rfl) _

end

@[simp] theorem indexers_renumber (owner : String) (index : Ty) :
    (api.renumber f).indexers owner index = (api.indexers owner index).map (Member.renumber (SubscriptDecl.renumber f)) := by
  rw [indexers, subscripts_renumber]
  exact filter_renumber (fun m => assignable_renumber ..) _

@[simp] theorem subscriptsOf_renumber (owner : String) (index : Ty) : (api.renumber f).subscriptsOf owner index =
      (api.subscriptsOf owner index).map (Member.renumber (SubscriptDecl.renumber f)) := by
  rw [subscriptsOf, subscripts_renumber]
  exact filter_renumber (fun m => rfl) _

end Api

/-! ### Variables -/

section Variables

variable (f : Nat → Nat)

def Variable.renumber (v : Variable) : Variable := { v with span := v.span.renumber f }

def Variable.renumberEntry (e : String × Variable) : String × Variable := (e.1, e.2.renumber f)

def Frame.renumber (frame : Frame) : Frame := { frame with vars := frame.vars.map (Variable.renumberEntry f) }

def Variables.renumber (vs : Variables) : Variables :=
  ⟨vs.top.renumber f, vs.outer.map (Frame.renumber f), vs.inUse, vs.needed⟩

end Variables

theorem Frame.find_renumber (frame : Frame) (name : String) :
    (frame.renumber f).find? name = (frame.find? name).map (Variable.renumber f) := by
  unfold Frame.find? Frame.renumber
  rw [Array.find?_map, Option.map_map, Option.map_map]
  rfl

namespace Variables

variable {f : Nat → Nat} (vs : Variables)

@[simp] theorem find_renumber (name : String) :
    (vs.renumber f).find? name = (vs.find? name).map (Variable.renumber f) := by
  have hframes : (vs.renumber f).frames = vs.frames.map (Frame.renumber f) := rfl
  unfold find?
  rw [hframes, List.findSome?_map]
  simp only [Function.comp_def, Frame.find_renumber]
  rw [map_findSome?]
  rfl

theorem push_renumber : (vs.renumber f).push = vs.push.renumber f := by
  simp [push, Variables.renumber, Frame.renumber]

theorem pop_renumber : (vs.renumber f).pop = (vs.pop.1.map (Variable.renumberEntry f), vs.pop.2.renumber f) := by
  obtain ⟨top, outer, inUse, needed⟩ := vs
  cases outer with
  | nil => rfl
  | cons frame outer => simp [pop, Variables.renumber, Frame.renumber]

theorem add_renumber (frame : Frame) (name : String) (v : Variable) :
    (frame.renumber f).add name (v.renumber f) = (frame.add name v).renumber f := by
  simp [Frame.add, Frame.renumber, Variable.renumberEntry]

/-- A variable gets the same place, or is refused as before. -/
theorem declare_renumber (name : String) (type : Ty) (span : Span) :
    (vs.renumber f).declare name type (span.renumber f) =
      (vs.declare name type span).map fun r => (r.1.renumber f, r.2.renumber f) := by
  have hfind : ((vs.renumber f).find? name).isSome = (vs.find? name).isSome := by simp
  have hinUse : (vs.renumber f).inUse = vs.inUse := rfl
  unfold declare
  rw [hfind, hinUse]
  split
  · rfl
  · dsimp only
    split
    · rfl
    · have htop := @add_renumber f vs.top name ⟨type, addressIn vs.inUse type, span⟩
      exact congrArg (fun top => Except.ok (_, (⟨top, _, _, _⟩ : Variables))) htop

theorem globals_renumber : (vs.renumber f).globals = vs.globals.renumber f := by
  unfold globals Variables.renumber
  rw [List.getLast?_map]
  cases vs.outer.getLast? <;> rfl

theorem importOne_renumber (base : Storage) (acc : List (String × Variable) × Variables) (entry : String × Variable) :
    importOne base (acc.1.map (Variable.renumberEntry f), acc.2.renumber f) (Variable.renumberEntry f entry) =
      ((importOne base acc entry).1.map (Variable.renumberEntry f), (importOne base acc entry).2.renumber f) := by
  obtain ⟨clashes, vs⟩ := acc
  have hfind : ((vs.renumber f).find? (Variable.renumberEntry f entry).1).isSome = (vs.find? entry.1).isSome := by
    simp [Variable.renumberEntry]
  unfold importOne
  dsimp only
  rw [hfind]
  split
  · rfl
  · have htop := @add_renumber f vs.top entry.1 (relocate base entry.2)
    exact congrArg (fun top => (_, (⟨top, _, _, _⟩ : Variables))) htop

theorem append_renumber (other : Variables) : (vs.renumber f).append (other.renumber f) =
      ((vs.append other).1.map (Variable.renumberEntry f), (vs.append other).2.renumber f) := by
  have hfold : ∀ (es : List (String × Variable)) (acc : List (String × Variable) × Variables),
      (es.map (Variable.renumberEntry f)).foldl (importOne vs.needed) (acc.1.map (Variable.renumberEntry f), acc.2.renumber f) =
        ((es.foldl (importOne vs.needed) acc).1.map (Variable.renumberEntry f),
          (es.foldl (importOne vs.needed) acc).2.renumber f) := by
    intro es
    induction es with
    | nil => exact fun _ => rfl
    | cons e rest ih =>
      intro acc
      rw [map_cons, foldl_cons, importOne_renumber, ih]
      rfl
  have hall := hfold other.globals.vars.toList ([], vs)
  unfold append
  rw [globals_renumber, ← Array.foldl_toList, ← Array.foldl_toList]
  dsimp only [Frame.renumber]
  rw [Array.toList_map]
  have hall' : (other.globals.vars.toList.map (Variable.renumberEntry f)).foldl (importOne (vs.renumber f).needed)
      ([], vs.renumber f) = _ := hall
  rw [hall']
  refine Prod.ext ?_ rfl
  exact map_reverse.symm

end Variables

/-! ### Reports -/

def Report.renumber (f : Nat → Nat) (r : Report) : Report := { r with span := r.span.renumber f }

def Reports.renumber (f : Nat → Nat) (reports : Reports) : Reports := reports.map (Report.renumber f)

/-- Reports are compared by span: two that differ must not become the same. -/
theorem Reports.add_renumber (hf : Function.Injective f) (reports : Reports) (span : Span) (problem : Problem) :
    (reports.renumber f).add (span.renumber f) problem = (reports.add span problem).renumber f := by
  have hmentions : (reports.renumber f).mentions (span.renumber f) problem = reports.mentions span problem := by
    unfold mentions Reports.renumber
    rw [Array.any_map]
    congr 1
    funext r
    have hspan : decide (r.span.renumber f = span.renumber f) = decide (r.span = span) :=
      decide_eq_decide.2 (Span.renumber_injective hf).eq_iff
    exact congrArg (· && decide (r.problem.message = problem.message)) hspan
  unfold add
  rw [hmentions]
  split
  · rfl
  · simp [Reports.renumber, Report.renumber]

end HostScript
