import HostScript.Proofs.Declared

/-! Sessions with their files in another order.

A session is *carried* into another one when its files are there too, with the same texts and the
same imports, under other numbers. A file then sees the same files in the same order
(`Carries.visible`), so it is refused for the same reason (`Carries.obstacle`) or becomes the same
code with the same problems (`Carries.product`, `Carries.findings`). -/
namespace HostScript

open List Option

namespace Session

/-- The files of one session are files of another one under other numbers. -/
structure Carries (f : Nat → Nat) (s t : Session) : Prop where
  injective : Function.Injective f
  debug : t.debug = s.debug
  source : ∀ k : Nat, t.sources[f k]? = s.sources[k]?
  script : ∀ k, t.script? (f k) = (s.script? k).map (Script.renumber f)
  imports : ∀ k, t.importsOf (f k) = (s.importsOf k).map f

namespace Carries

variable {f : Nat → Nat} {s t : Session}

/-! ### What a file sees -/

section

variable (h : Carries f s t)
include h

theorem visibleFrom (fuel : Nat) (stack order : List Nat) :
    t.visibleFrom fuel (stack.map f) (order.map f) = (s.visibleFrom fuel stack order).map f := by
  induction fuel generalizing stack order with
  | zero => rfl
  | succ fuel ih =>
    cases stack with
    | nil => rfl
    | cons i rest =>
      rw [map_cons, Session.visibleFrom, Session.visibleFrom, h.imports]
      simp only [List.mem_map_of_injective h.injective]
      split
      · exact ih rest order
      · have := ih (s.importsOf i ++ rest) (order ++ [i])
        rwa [map_append, map_append] at this

theorem visible (i : Nat) : t.visible (f i) = (s.visible i).map f := by
  -- as many steps as both walks need
  rw [← visibleFrom_enough t (Nat.succ_le_succ (Nat.le_max_right s.links _)),
    ← visibleFrom_enough s (Nat.succ_le_succ (Nat.le_max_left _ t.links))]
  exact h.visibleFrom _ [i] []

theorem repeatedFrom (fuel : Nat) (stack seen : List Nat) :
    t.repeatedFrom fuel (stack.map f) (seen.map f) = (s.repeatedFrom fuel stack seen).map f := by
  induction fuel generalizing stack seen with
  | zero => rfl
  | succ fuel ih =>
    cases stack with
    | nil => rfl
    | cons i rest =>
      rw [map_cons, Session.repeatedFrom, Session.repeatedFrom, h.imports]
      simp only [List.mem_map_of_injective h.injective]
      split
      · rfl
      · have := ih ((s.importsOf i).reverse ++ rest) (i :: seen)
        rwa [map_append, map_reverse] at this

theorem repeated (i : Nat) : t.repeated? (f i) = (s.repeated? i).map f := by
  rw [← repeatedFrom_enough t (Nat.succ_le_succ (Nat.le_max_right s.links _)),
    ← repeatedFrom_enough s (Nat.succ_le_succ (Nat.le_max_left _ t.links))]
  exact h.repeatedFrom _ [i] []

theorem api (i : Nat) : t.api (f i) = (s.api i).renumber f := by
  unfold Session.api
  rw [h.visible, filterMap_map, ← Api.ofScripts_renumber, map_filterMap]
  exact congrArg Api.ofScripts (filterMap_congr fun j _ => h.script j)

theorem locate (span : Span) : t.sources.locate (span.renumber f) = s.sources.locate span := by
  unfold Sources.locate
  rw [show (span.renumber f).file = f span.file from rfl, h.source]
  rfl

theorem pathOf (i : Nat) : t.pathOf (f i) = s.pathOf i := by
  unfold Session.pathOf
  rw [h.source]

theorem obstacle (i : Nat) (script : Script) :
    t.obstacle? (f i) (script.renumber f) = s.obstacle? i script := by
  have hcycle : t.inheritanceCycle? (t.api (f i)) (script.renumber f) = s.inheritanceCycle? (s.api i) script := by
    unfold inheritanceCycle?
    rw [h.api, Script.types_renumber, List.findSome?_map]
    congr 1
    funext type
    have hlocate : t.sources.locate (type.renumber f).name.span = s.sources.locate type.name.span := h.locate type.name.span
    simp only [Function.comp_apply, Api.cycle_renumber, hlocate]
    rfl
  unfold obstacle?
  rw [hcycle, h.repeated, Option.map_map]
  have hpaths : (fun j => Diagnostic.inFile (t.pathOf (f i)) (.importedTwice (t.pathOf j))) ∘ f =
      fun j => .inFile (s.pathOf i) (.importedTwice (s.pathOf j)) := by
    funext j
    simp only [Function.comp_apply, h.pathOf]
  rw [hpaths]

end

end Carries

/-! ### Code -/

def Linked.renumber (f : Nat → Nat) (l : Linked) : Linked :=
  ⟨l.code, l.vars.renumber f, l.clashes.map (Variable.renumberEntry f)⟩

theorem Linked.add_renumber (l : Linked) (code : Fragment) (vars : Variables) :
    (l.renumber f).add code (vars.renumber f) = (l.add code vars).renumber f := by
  have happend : (l.renumber f).vars.append (vars.renumber f) =
      ((l.vars.append vars).1.map (Variable.renumberEntry f), (l.vars.append vars).2.renumber f) := l.vars.append_renumber vars
  unfold Linked.add
  rw [happend]
  simp only [Linked.renumber, map_append]
  rfl

/-- The problems that compiling a script behind its imports finds. -/
def findings (s : Session) (i : Nat) (script : Script) (l : Linked) : List Diagnostic :=
  (l.clashes.map fun e => .located (s.sources.locate e.2.span) (.variableTaken e.1)) ++
    (script.compile ⟨s.sources, s.api i, s.debug⟩ l.code.zeroLines l.vars).2.reports.toList.map fun r =>
      .located (s.sources.locate r.span) r.problem

/-- The code of a script behind its imports, and the variables that it leaves. -/
def product (s : Session) (i : Nat) (script : Script) (l : Linked) : Fragment × Variables :=
  let r := script.compile ⟨s.sources, s.api i, s.debug⟩ l.code.zeroLines l.vars
  (r.1, r.2.vars)

theorem compileScript_eq (s : Session) (i : Nat) (script : Script) (l : Linked) :
    s.compileScript i script l = s.modifyUnit i fun u =>
      { u with diagnostics := u.diagnostics ++ s.findings i script l, result := some (s.product i script l) } := by
  unfold compileScript findings product
  simp only [append_assoc]

namespace Carries

variable {f : Nat → Nat} {s t : Session}

section

variable (h : Carries f s t) (i : Nat) (script : Script) (l : Linked)
include h i script l

theorem compile :
    (script.renumber f).compile ⟨t.sources, t.api (f i), t.debug⟩ (l.renumber f).code.zeroLines (l.renumber f).vars =
      ((script.compile ⟨s.sources, s.api i, s.debug⟩ l.code.zeroLines l.vars).1,
        (script.compile ⟨s.sources, s.api i, s.debug⟩ l.code.zeroLines l.vars).2.renumber f) := by
  refine Script.compile_renumber h.injective ⟨h.api i, fun _ => h.debug, fun span => ?_⟩ script _ l.vars
  exact congrArg Location.line (h.locate span)

theorem findings :
    t.findings (f i) (script.renumber f) (l.renumber f) = s.findings i script l := by
  unfold Session.findings
  rw [h.compile]
  simp only [Linked.renumber, Progress.renumber, Reports.renumber, List.map_map, Array.toList_map]
  refine congrArg₂ (· ++ ·) (List.map_congr_left fun e _ => ?_) (List.map_congr_left fun r _ => ?_)
  · exact congrArg (Diagnostic.located · _) (h.locate e.2.span)
  · exact congrArg (Diagnostic.located · _) (h.locate r.span)

theorem product :
    t.product (f i) (script.renumber f) (l.renumber f) =
      ((s.product i script l).1, (s.product i script l).2.renumber f) := by
  unfold Session.product
  rw [h.compile]
  rfl

end

end Carries

end Session

end HostScript
