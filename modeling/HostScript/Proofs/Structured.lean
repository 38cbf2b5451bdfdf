import HostScript.Proofs.Jumps

/-! The layout of control flow.

`Statement.Laid` says how the code of a statement is laid out between two positions: where its parts
start and end, and where each jump leads. It follows the tree, so it speaks of every statement at any
depth. Conditions that are known leave parts out, and a debugger is told when a scope ends; both are
part of the layout. Where the code of a file stands it is laid out so (`laid_statements`), also when
there are problems with the file. -/
namespace HostScript

open Fragment

/-! ### The parts of a layout -/

def Leap.action : Leap → ActionKind
  | .breaks => .breakLoop
  | .continues => .continueLoop

/-- Where the step of a `for` loop jumps: it breaks off its own loop, if there is another one around it. -/
def Exits.stepping (x : Exits) (finish : Nat) : Exits
  | .breaks => (x .breaks).map fun _ => finish
  | .continues => x .continues

namespace Compiling

variable {α β : Type}

/-- The result is `a`, from some state on. -/
def Yields (c : Compiling α) (a : α) : Prop := ∃ p, (c p).1 = a

/-- What two steps yield comes from what the first one yields. -/
theorem Yields.parts {c : Compiling α} {f : α → Compiling β} {b : β} (h : Yields (c >>= f) b) :
    ∃ a, Yields c a ∧ Yields (f a) b := by
  obtain ⟨p, hp⟩ := h
  exact ⟨_, ⟨p, rfl⟩, _, hp⟩

theorem yields_pure {a b : α} :
    Yields (pure a : Compiling α) b ↔ a = b := ⟨fun ⟨_, h⟩ => h, fun h => ⟨⟨.empty, #[]⟩, h⟩⟩

theorem Yields.whole {c : Compiling Fragment} [hc : Names (fun _ => True) c] (h : Yields c f) : f.Whole := by
  obtain ⟨p, rfl⟩ := h
  exact hc.always p

end Compiling

open Compiling

section Parts

variable (ctx : Context) (code : Array UInt8)

/-- The fragment stands from `lo` to `hi`. -/
structure Fragment.Fills (f : Fragment) (lo hi : Nat) : Prop where
  stands : f.Stands code lo .none
  ends : lo + f.size = hi

/-- The condition is tested at `p`, and its code ends at `q`. Where it does not hold, code goes on at `t`. -/
inductive Expr.Tested (e : Expr) (p q t : Nat) : Prop
  | intro {test : Fragment} (hyields : Yields (check ctx fun s => emit s e .bool) test) (htests : Tests code test p t)
      (hq : p + 1 + test.size = q) : Tested e p q t

/-- What a loop starts with at `lo`: nothing, or the test of its condition. The body starts at `first`. -/
inductive Enters : Option Expr → (lo first finish : Nat) → Prop
  | always : Enters none lo lo finish
  | tested {e : Expr} (h : e.Tested ctx code lo q finish) : Enters (some e) lo (q + 2) finish

/-- The code of an action, with its jump last. -/
inductive Action.Laid (a : Action) (lo hi : Nat) (x : Exits) : Prop
  | intro {place : Place} {f : Fragment} (hyields : Yields (action ctx place a) f) (hfills : f.Fills code lo hi)
      (hleaps : ∀ l t, a.kind = l.action → x l = some t → ∃ p, lo ≤ p ∧ p + 3 = hi ∧ Jumps code p t) : Laid a lo hi x

/-- An action that may be missing. -/
inductive Action.LaidOption : Option Action → Nat → Nat → Exits → Prop
  | none : LaidOption none lo lo x
  | some {a : Action} (h : a.Laid ctx code lo hi x) : LaidOption (some a) lo hi x

/-- A debugger is told that a scope ends. -/
def Farewell (lo hi : Nat) : Prop := ∃ vs, (farewell ctx vs).Fills code lo hi

/-! ### The layout of statements -/

mutual
/-- A statement is laid out from `lo` to `hi`, with jumps out of it as `x` says. -/
inductive Statement.Laid : Statement → (lo hi : Nat) → Exits → Prop
  | importing : Statement.Laid (.importing span path) lo lo x
  | global : Statement.Laid (.global span members) lo lo x
  | type : Statement.Laid (.type decl) lo lo x
  | metadata {text : String} (h : (opcode .metadata ++ .text text).Fills code lo hi) :
      Statement.Laid (.metadata span text) lo hi x
  | block (h : Block.Laid b lo hi x) : Statement.Laid (.block b) lo hi x
  | loop (h : Statement.Loops s lo hi finish again x) : Statement.Laid s lo hi x
  /-- A loop that never runs. -/
  | neverWhile {condition : Expr} (hknown : condition.knownBool? = some false) :
      Statement.Laid (.whileLoop condition body) lo lo x
  | neverFor {condition : Expr} (hknown : condition.knownBool? = some false)
      (hstart : Action.LaidOption ctx code start lo finish x) (hleave : Farewell ctx code finish hi) :
      Statement.Laid (.forLoop start (some condition) step body) lo hi x
  | branch (h : Branch.Laid b lo hi x) : Statement.Laid (.branch b) lo hi x
  | action {a : Action} (h : a.Laid ctx code lo hi x) : Statement.Laid (.action a) lo hi x

/-- A loop that may run: `break` leads to `finish`, behind it, and `continue` to `again`. -/
inductive Statement.Loops : Statement → (lo hi finish again : Nat) → Exits → Prop
  | whileLoop {condition : Expr} (hknown : condition.knownBool? ≠ some false)
      (henter : Enters ctx code (loopTest (some condition)) lo first hi)
      (hbody : Block.Laid body first last (.around hi lo)) (hback : Jumps code last lo) (hend : last + 3 = hi) :
      Statement.Loops (.whileLoop condition body) lo hi hi lo x
  | forLoop {x : Exits} (hknown : loopKnown? condition ≠ some false)
      (hstart : Action.LaidOption ctx code start lo loop x)
      (henter : Enters ctx code (loopTest condition) loop first finish)
      (hbody : Block.Laid body first again (.around finish again))
      (hstep : Action.LaidOption ctx code step again last (x.stepping finish)) (hback : Jumps code last loop)
      (hend : last + 3 = finish) (hleave : Farewell ctx code finish hi) :
      Statement.Loops (.forLoop start condition step body) lo hi finish again x
  /-- A condition that is known to fail is not tested. -/
  | doOnce {condition : Expr} (hknown : condition.knownBool? = some false)
      (hbody : Block.Laid body lo hi (.around hi hi)) : Statement.Loops (.doWhile body condition) lo hi hi hi x
  | doForever {condition : Expr} (hknown : condition.knownBool? = some true)
      (hbody : Block.Laid body lo again (.around hi again)) (hback : Jumps code again lo) (hend : again + 3 = hi) :
      Statement.Loops (.doWhile body condition) lo hi hi again x
  | doWhile {condition : Expr} (hknown : condition.knownBool? = none)
      (hbody : Block.Laid body lo again (.around hi again)) (htest : condition.Tested ctx code again q hi)
      (hback : Jumps code (q + 2) lo) (hend : q + 2 + 3 = hi) :
      Statement.Loops (.doWhile body condition) lo hi hi again x

inductive Block.Laid : Block → (lo hi : Nat) → Exits → Prop
  | mk (hbody : Script.Laid body lo m x) (hleave : Farewell ctx code m hi) : Block.Laid (.mk span body) lo hi x

/-- Where the condition of a branch fails, its other part follows. Behind the first part a jump leads over the
other one, if that one has code. -/
inductive Branch.Laid : Branch → (lo hi : Nat) → Exits → Prop
  | yes {condition : Expr} (hknown : condition.knownBool? = some true) (hbody : Block.Laid body lo hi x) :
      Branch.Laid (.mk condition body o) lo hi x
  | no {condition : Expr} (hknown : condition.knownBool? = some false) (hother : Otherwise.Laid o lo hi x) :
      Branch.Laid (.mk condition body o) lo hi x
  | one {condition : Expr} (hknown : condition.knownBool? = none) (htest : condition.Tested ctx code lo q hi)
      (hbody : Block.Laid body (q + 2) hi x) (hother : Otherwise.Laid o hi hi x) :
      Branch.Laid (.mk condition body o) lo hi x
  | both {condition : Expr} (hknown : condition.knownBool? = none) (htest : condition.Tested ctx code lo q (m + 3))
      (hbody : Block.Laid body (q + 2) m x) (hjump : Jumps code m hi) (hother : Otherwise.Laid o (m + 3) hi x) :
      Branch.Laid (.mk condition body o) lo hi x

inductive Otherwise.Laid : Otherwise → (lo hi : Nat) → Exits → Prop
  | nothing : Otherwise.Laid .nothing lo lo x
  | branch (h : Branch.Laid b lo hi x) : Otherwise.Laid (.branch b) lo hi x
  | block (h : Block.Laid b lo hi x) : Otherwise.Laid (.block b) lo hi x

/-- Statements are laid out one behind the other. -/
inductive Script.Laid : Script → (lo hi : Nat) → Exits → Prop
  | nil : Script.Laid [] lo lo x
  | cons (hs : Statement.Laid s lo m x) (hrest : Script.Laid rest m hi x) : Script.Laid (s :: rest) lo hi x
end

end Parts

variable {code : Array UInt8} {ctx : Context} {x : Exits} {f inner test : Fragment} {lo : Nat} {start step : Option Action}
  {b : Option Bool} {condition e : Expr} {place : Place}

/-! ### Fragments that are laid out -/

section Looped

/-- A body between the code of its test, if it has one, and the jump back. -/
def loopedCode : Option Fragment → Fragment → Fragment
  | none, inner => backToStart inner
  | some test, inner => backToStart (.opcode .conditional ++ test ++ .distance (inner.size + 3) ++ inner)

/-- How far the body is from the start of its loop. -/
def entrySize : Option Fragment → Nat
  | none => 0
  | some test => 1 + test.size + 2

theorem size_loopedCode (test : Option Fragment) (inner : Fragment) :
    (loopedCode test inner).size = entrySize test + inner.size + 3 := by
  cases test with
  | none => simp [loopedCode, entrySize, size_backToStart]
  | some t =>
    simp only [loopedCode, entrySize, size_backToStart, size_append, size_opcode, size_distance]

/-- The code of a condition. -/
def TestCode (ctx : Context) (e : Expr) (test : Fragment) : Prop := Yields (check ctx fun s => emit s e .bool) test

theorem TestCode.whole (h : TestCode ctx e test) : test.Whole := Yields.whole h

theorem Tests.tested {p t : Nat} (h : TestCode ctx e test) (ht : Tests code test p t) :
    e.Tested ctx code p (p + 1 + test.size) t := .intro h ht rfl

variable {condition : Option Expr} {test : Option Fragment}

theorem whole_loopedCode [inner.Whole] (ht : Option.Rel (TestCode ctx) condition test) :
    (loopedCode test inner).Whole := by
  cases ht with
  | none => exact naming_backToStart
  | some h =>
    have := h.whole
    exact naming_backToStart

theorem stands_looped [inner.Whole] (ht : Option.Rel (TestCode ctx) condition test)
    (hsize : (loopedCode test inner).size < 256 ^ 2) (hs : (loopedCode test inner).Stands code lo x) :
    Enters ctx code condition lo (lo + entrySize test) (lo + (loopedCode test inner).size) ∧
      inner.Stands code (lo + entrySize test) x ∧ Jumps code (lo + entrySize test + inner.size) lo := by
  rw [size_loopedCode] at hsize ⊢
  cases ht with
  | none =>
    obtain ⟨hinner, hback⟩ := hs.of_backToStart (by unfold entrySize at hsize; omega)
    exact ⟨.always, hinner, hback⟩
  | @some e t ht =>
    have := ht.whole
    unfold entrySize at hsize ⊢
    obtain ⟨hentry, hback⟩ := hs.of_backToStart (by simpa [size_append, size_opcode, size_distance] using hsize)
    obtain ⟨htests, hinner⟩ := hentry.tests (by omega)
    simp only [size_append] at hback
    rw [show lo + 1 + t.size + 2 + (inner.size + 3) = lo + (1 + t.size + 2 + inner.size + 3) by omega] at htests
    rw [show lo + (1 + t.size + 2) = lo + 1 + t.size + 2 by omega]
    exact ⟨.tested (Tests.tested ht htests), hinner, by rwa [← Nat.add_assoc, ← Nat.add_assoc, ← Nat.add_assoc] at hback⟩

end Looped

/-! ### Loops that are laid out -/

theorem Fragment.size_word (n : Nat) : (word n).size = 2 := by simp [size, word, ofBytes]

section Loops

variable {test : Option Fragment} {body : Block}

/-- A loop with all its jumps filled in. -/
def whileOf (test : Option Fragment) (inner : Fragment) : Fragment :=
  ((loopedCode test inner).resolveJumps .breakJump .finish).resolveJumps .continueJump .start

theorem size_whileOf (test : Option Fragment) (inner : Fragment) :
    (whileOf test inner).size = entrySize test + inner.size + 3 := by
  unfold whileOf
  rw [size_resolveJumps, size_resolveJumps, size_loopedCode]

/-- The body of a `while` loop jumps behind the loop or back to its start. -/
theorem stands_whileOf [inner.Whole] (ht : Option.Rel (TestCode ctx) (loopTest (some condition)) test)
    (hknown : condition.knownBool? ≠ some false) (hsize : (whileOf test inner).size < 256 ^ 2)
    (hbody : ∀ {lo x}, inner.Stands code lo x → body.Laid ctx code lo (lo + inner.size) x)
    (hs : (whileOf test inner).Stands code lo x) :
    inner.Stands code (lo + entrySize test) (.around (lo + (whileOf test inner).size) lo) ∧
      Statement.Loops ctx code (.whileLoop condition body) lo (lo + (whileOf test inner).size)
        (lo + (whileOf test inner).size) lo x := by
  have hlooped : (whileOf test inner).size = (loopedCode test inner).size := by rw [size_whileOf, size_loopedCode]
  rw [hlooped] at hsize ⊢
  have hbreaks := Stands.of_resolveJumps (l := .continues) hs (by rwa [size_resolveJumps])
  have hfree := Stands.of_resolveJumps (l := .breaks) hbreaks hsize
  rw [Exits.set_set] at hfree
  obtain ⟨henter, hinner, hback⟩ := stands_looped ht hsize hfree
  refine ⟨hinner, .whileLoop hknown henter (hbody hinner) hback ?_⟩
  rw [size_loopedCode]
  omega

/-- A loop with a start and a step, in a scope of its own. -/
def forOf (head : Fragment) (test : Option Fragment) (inner last bye : Fragment) : Fragment :=
  head ++ (loopedCode test (inner.resolveJumps .continueJump .finish ++ last)).resolveJumps .breakJump .finish ++ bye

theorem size_forOf (head : Fragment) (test : Option Fragment) (inner last bye : Fragment) :
    (forOf head test inner last bye).size = head.size + (entrySize test + (inner.size + last.size) + 3) + bye.size := by
  unfold forOf
  simp only [size_append, size_resolveJumps, size_loopedCode]

theorem stands_forOf [inner.Whole] {head last bye : Fragment} [head.Whole] [last.Whole] [bye.Whole]
    {condition : Option Expr} (ht : Option.Rel (TestCode ctx) (loopTest condition) test)
    (hknown : loopKnown? condition ≠ some false) (hsize : (forOf head test inner last bye).size < 256 ^ 2)
    (hstart : head.Stands code lo x → Action.LaidOption ctx code start lo (lo + head.size) x)
    (hbody : ∀ {lo x}, inner.Stands code lo x → body.Laid ctx code lo (lo + inner.size) x)
    (hstep : ∀ {lo finish}, last.Stands code lo (x.set .breaks finish) →
      Action.LaidOption ctx code step lo (lo + last.size) (x.stepping finish))
    (hbye : ∀ {lo}, bye.Stands code lo .none → Farewell ctx code lo (lo + bye.size))
    (hs : (forOf head test inner last bye).Stands code lo x) :
    let first := lo + head.size + entrySize test
    let again := first + inner.size
    let finish := again + last.size + 3
    inner.Stands code first (.around finish again) ∧
      Statement.Loops ctx code (.forLoop start condition step body) lo (lo + (forOf head test inner last bye).size)
        finish again x := by
  intro first again finish
  have : (loopedCode test (inner.resolveJumps .continueJump .finish ++ last)).Whole := whole_loopedCode ht
  have hall := size_forOf head test inner last bye
  have hinnerSize := size_resolveJumps .continueJump .finish inner
  have hloopSize := size_loopedCode test (inner.resolveJumps .continueJump .finish ++ last)
  rw [size_append] at hloopSize
  have hfinish : lo + head.size + (loopedCode test (inner.resolveJumps .continueJump .finish ++ last)).size = finish := by
    omega
  have hfree := Stands.of_resolveJumps (l := .breaks) hs.left.right (by omega)
  rw [show Target.position _ _ .finish = _ + _ from rfl, hfinish] at hfree
  obtain ⟨henter, hboth, hback⟩ := stands_looped ht (by omega) hfree
  have hlast := hboth.right
  have hinner := Stands.of_resolveJumps (l := .continues) hboth.left (by omega)
  have hbye' := hs.right.mono x.none_le
  rw [hinnerSize] at hlast
  rw [Exits.set_set_comm] at hinner
  rw [size_append, hinnerSize] at hback
  rw [hfinish] at henter
  rw [size_append, size_resolveJumps, ← Nat.add_assoc, hfinish] at hbye'
  refine ⟨hinner, .forLoop hknown (hstart hs.left.left) henter (hbody hinner) (hstep hlast) ?_ rfl ?_⟩
  · rwa [Nat.add_assoc]
  · have hleave := hbye hbye'
    rwa [show finish + bye.size = lo + (forOf head test inner last bye).size by omega] at hleave

/-- The body of a loop that is tested at its end. -/
def doOf (known : Option Bool) (inner test : Fragment) : Fragment :=
  (checkedCode known (inner.resolveJumps .continueJump .finish) test).resolveJumps .breakJump .finish

theorem le_size_doOf (known : Option Bool) (inner test : Fragment) : inner.size ≤ (doOf known inner test).size := by
  unfold doOf checkedCode
  split <;> simp only [size_backToStart, size_append, size_resolveJumps] <;> omega

theorem stands_doOf [inner.Whole] {known : Option Bool} {test : Fragment}
    (hknown : condition.knownBool? = known) (ht : known = none → TestCode ctx condition test)
    (hsize : (doOf known inner test).size < 256 ^ 2)
    (hbody : ∀ {lo x}, inner.Stands code lo x → body.Laid ctx code lo (lo + inner.size) x)
    (hs : (doOf known inner test).Stands code lo x) :
    inner.Stands code lo (.around (lo + (doOf known inner test).size) (lo + inner.size)) ∧
      Statement.Loops ctx code (.doWhile body condition) lo (lo + (doOf known inner test).size)
        (lo + (doOf known inner test).size) (lo + inner.size) x := by
  have hinnerSize := size_resolveJumps .continueJump .finish inner
  have hchecked : (doOf known inner test).size =
      (checkedCode known (inner.resolveJumps .continueJump .finish) test).size := size_resolveJumps ..
  have hfree := Stands.of_resolveJumps (l := .breaks) hs (by omega)
  rw [show Target.position _ _ .finish = _ + _ from rfl, ← hchecked] at hfree
  generalize hhi : lo + (doOf known inner test).size = hi at hfree
  -- Where `continue` leads is known once the body is told apart from what stands behind it.
  have hinside (h : (inner.resolveJumps .continueJump .finish).Stands code lo (x.set .breaks hi)) (hlt : inner.size < 256 ^ 2) :
      inner.Stands code lo (.around hi (lo + inner.size)) := by
    have hinner := Stands.of_resolveJumps (l := .continues) h hlt
    rwa [Exits.set_set_comm] at hinner
  cases known with
  | some b =>
    cases b with
    | false =>
      rw [checkedCode] at hchecked
      obtain rfl : lo + inner.size = hi := by omega
      have hinner := hinside hfree (by omega)
      exact ⟨hinner, .doOnce hknown (hbody hinner)⟩
    | true =>
      rw [checkedCode, size_backToStart] at hchecked
      obtain ⟨hstands, hback⟩ := hfree.of_backToStart (by omega)
      have hinner := hinside hstands (by omega)
      rw [hinnerSize] at hback
      exact ⟨hinner, .doForever hknown (hbody hinner) hback (by omega)⟩
  | none =>
    have htest := ht rfl
    have := htest.whole
    simp only [checkedCode, size_backToStart, size_append, size_opcode, size_word] at hchecked
    obtain ⟨hstands, hback⟩ := hfree.of_backToStart (by simp only [size_append, size_opcode, size_word]; omega)
    rw [append_assoc, append_assoc, ← append_assoc (.opcode _)] at hstands
    obtain ⟨htests, -⟩ := Stands.tests (n := 3) (by decide) (by rw [append_empty]; exact hstands.right)
    have hinner := hinside hstands.left (by omega)
    have htested := Tests.tested htest htests
    simp only [size_append, hinnerSize, ← Nat.add_assoc] at hback htested
    rw [show lo + inner.size + 1 + test.size + 2 + 3 = hi by omega] at htested
    exact ⟨hinner, .doWhile hknown (hbody hinner) htested hback (by omega)⟩

/-- Code that a branch skips over, and the branch as a whole. -/
theorem size_branchedCode_le (test yes no : Fragment) : yes.size + no.size ≤ (branchedCode test yes no).size := by
  unfold branchedCode
  split <;> simp only [size_append] <;> omega

theorem stands_branchedCode {test yes no : Fragment} [yes.Whole] [no.Whole] {o : Otherwise}
    (ht : TestCode ctx condition test)
    (hknown : condition.knownBool? = none) (hsize : (branchedCode test yes no).size < 256 ^ 2)
    (hyes : ∀ {lo}, yes.Stands code lo x → body.Laid ctx code lo (lo + yes.size) x)
    (hno : ∀ {lo}, no.Stands code lo x → o.Laid ctx code lo (lo + no.size) x) (hs : (branchedCode test yes no).Stands code lo x) :
    Branch.Laid ctx code (.mk condition body o) lo (lo + (branchedCode test yes no).size) x := by
  have := ht.whole
  unfold branchedCode at hsize hs ⊢
  simp only [size_append, size_opcode] at hsize ⊢
  split at hs
  · rename_i hempty
    simp only [hempty, if_true] at hsize
    obtain ⟨htests, hyes'⟩ := Stands.tests (by omega) hs.left
    have hno' := hs.right
    have htested := Tests.tested ht htests
    have hother := hno hno'
    simp only [size_append, hempty, ← Nat.add_assoc] at hother ⊢
    exact .one hknown htested (hyes hyes') hother
  · rename_i hfull
    simp only [if_neg hfull, size_append, size_opcode, size_distance] at hsize ⊢
    obtain ⟨htests, hbody⟩ := Stands.tests (by simp only [size_append, size_opcode, size_distance]; omega) hs.left
    have hno' := hs.right
    have htested := Tests.tested ht htests
    have hother := hno hno'
    have hword := hbody.right.distance (by omega)
    simp only [size_append, ← Nat.add_assoc] at htested hother hword ⊢
    refine .both hknown htested (hyes hbody.left.left) (.forward (d := no.size) (by omega) ?_ ?_) hother
    · exact Code.hasAt_cons.2 ⟨hbody.left.right.opcode, hword⟩
    · omega

end Loops

/-! ### What statements are made of -/

namespace Compiling

variable {body otherwise : Compiling Fragment}

theorem yields_known (h : Yields (known ctx e) b) : b = e.knownBool? := by
  obtain ⟨p, rfl⟩ := h
  exact congrArg (·.bind Literal.bool?) ((plain_fold e).steady p.reports)

theorem yields_looped {condition : Option Expr} (h : Yields (looped ctx condition inner) f) :
    ∃ test, Option.Rel (TestCode ctx) condition test ∧ f = loopedCode test inner := by
  cases condition with
  | none => exact ⟨none, .none, (yields_pure.1 h).symm⟩
  | some e =>
    obtain ⟨test, htest, h⟩ := h.parts
    exact ⟨some test, .some htest, (yields_pure.1 h).symm⟩

/-- A loop that is known to end at once leaves no code. -/
theorem yields_whileCode (h : Yields (whileCode ctx condition body) f) : (condition.knownBool? = some false ∧ f = ∅) ∨
      (condition.knownBool? ≠ some false ∧ ∃ test inner, Option.Rel (TestCode ctx) (loopTest (some condition)) test ∧
        Yields body inner ∧ f = whileOf test inner) := by
  obtain ⟨b, hb, h⟩ := h.parts
  obtain rfl := yields_known hb
  split at h
  · exact .inl ⟨‹_›, (yields_pure.1 h).symm⟩
  · obtain ⟨inner, hinner, h⟩ := h.parts
    obtain ⟨whole, hwhole, h⟩ := h.parts
    obtain ⟨test, htest, rfl⟩ := yields_looped hwhole
    exact .inr ⟨‹_›, test, inner, htest, hinner, (yields_pure.1 h).symm⟩

theorem yields_inScope (h : Yields (inScope ctx body) f) :
    ∃ code vs, Yields body code ∧ f = code ++ farewell ctx vs := by
  obtain ⟨_, -, h⟩ := h.parts
  obtain ⟨code, hcode, h⟩ := h.parts
  obtain ⟨bye, ⟨p, rfl⟩, h⟩ := h.parts
  exact ⟨code, p.vars, hcode, (yields_pure.1 h).symm⟩

theorem yields_forKnown {condition : Option Expr} (h : Yields (forKnown ctx condition) b) :
    b = loopKnown? condition := by
  cases condition with
  | none => exact (yields_pure.1 h).symm
  | some e => exact yields_known h

theorem yields_forCode {condition : Option Expr} (h : Yields (forCode ctx place start condition step body) f) :
    ∃ head vs, Yields (optionalAction ctx place start) head ∧
      ((loopKnown? condition = some false ∧ f = head ++ farewell ctx vs) ∨
        (loopKnown? condition ≠ some false ∧ ∃ test inner last, Option.Rel (TestCode ctx) (loopTest condition) test ∧
          Yields body inner ∧ Yields (optionalAction ctx place step) last ∧
            f = forOf head test inner last (farewell ctx vs))) := by
  rw [forCode_eq] at h
  obtain ⟨code, vs, hcode, rfl⟩ := yields_inScope h
  obtain ⟨head, hhead, h⟩ := hcode.parts
  obtain ⟨b, hb, h⟩ := h.parts
  obtain rfl := yields_forKnown hb
  obtain ⟨loop, hloop, h⟩ := h.parts
  obtain rfl := yields_pure.1 h
  refine ⟨head, vs, hhead, ?_⟩
  unfold forLoop at hloop
  split at hloop
  · obtain rfl := yields_pure.1 hloop
    exact .inl ⟨‹_›, by rw [append_empty]⟩
  · obtain ⟨inner, hinner, h⟩ := hloop.parts
    obtain ⟨last, hlast, h⟩ := h.parts
    obtain ⟨whole, hwhole, h⟩ := h.parts
    obtain ⟨test, htest, rfl⟩ := yields_looped hwhole
    obtain rfl := yields_pure.1 h
    exact .inr ⟨‹_›, test, inner, last, htest, hinner, hlast, rfl⟩

theorem yields_doWhileCode (h : Yields (doWhileCode ctx body condition) f) :
    ∃ inner test, Yields body inner ∧ (condition.knownBool? = none → TestCode ctx condition test) ∧
      f = doOf condition.knownBool? inner test := by
  obtain ⟨inner, hinner, h⟩ := h.parts
  obtain ⟨b, hb, h⟩ := h.parts
  obtain rfl := yields_known hb
  refine ⟨inner, ?_⟩
  generalize condition.knownBool? = known at h
  cases known with
  | some b =>
    refine ⟨∅, hinner, nofun, ?_⟩
    cases b with
    | false | true => exact (yields_pure.1 h).symm
  | none =>
    obtain ⟨test, htest, h⟩ := h.parts
    exact ⟨test, hinner, fun _ => htest, (yields_pure.1 h).symm⟩

/-- A known condition leaves the code of one branch. -/
theorem yields_branchCode (h : Yields (branchCode ctx condition body otherwise) f) :
    (condition.knownBool? = some true ∧ Yields body f) ∨ (condition.knownBool? = some false ∧ Yields otherwise f) ∨
      (condition.knownBool? = none ∧ ∃ test yes no, TestCode ctx condition test ∧ Yields body yes ∧ Yields otherwise no ∧
        f = branchedCode test yes no) := by
  obtain ⟨b, hb, h⟩ := h.parts
  obtain rfl := yields_known hb
  split at h
  · exact .inl ⟨‹_›, h⟩
  · exact .inr (.inl ⟨‹_›, h⟩)
  · obtain ⟨test, htest, h⟩ := h.parts
    obtain ⟨yes, hyes, h⟩ := h.parts
    obtain ⟨no, hno, h⟩ := h.parts
    exact .inr (.inr ⟨‹_›, test, yes, no, htest, hyes, hno, (yields_pure.1 h).symm⟩)

theorem yields_statements {s : Statement} {rest : List Statement} (h : Yields (statements ctx place (s :: rest) ∅) f) :
    ∃ g h, Yields (statement ctx place s) g ∧ Yields (statements ctx place rest ∅) h ∧ f = g ++ h := by
  obtain ⟨p, rfl⟩ := h
  refine ⟨_, _, ⟨p, rfl⟩, ⟨(statement ctx place s p).2, rfl⟩, ?_⟩
  have hbehind : statements ctx place rest ((statement ctx place s p).1 ++ ∅) (statement ctx place s p).2 = _ :=
    statements_behind place rest (statement ctx place s p).1 ∅ (statement ctx place s p).2
  have hcons : statements ctx place (s :: rest) ∅ p =
      statements ctx place rest (∅ ++ (statement ctx place s p).1) (statement ctx place s p).2 := by
    rfl
  rw [append_empty] at hbehind
  rw [hcons, empty_append, hbehind]

end Compiling

/-! ### Statements are laid out -/

/-- Jumps out of loops are told of within loops only. -/
def Exits.Within (x : Exits) (place : Place) : Prop := ∀ l t, x l = some t → place.inLoop = true

theorem Exits.Within.stepping (h : x.Within place) (finish : Nat) : (x.stepping finish).Within place := by
  intro l t ht
  cases l with
  | continues => exact h .continues t ht
  | breaks =>
    obtain ⟨s, hs, -⟩ := Option.map_eq_some_iff.1 ht
    exact h .breaks s hs

theorem Exits.stepping_le (x : Exits) (finish : Nat) : (x.stepping finish).Le (x.set .breaks finish) := by
  intro l t ht
  cases l with
  | continues => exact ht
  | breaks =>
    obtain ⟨s, -, rfl⟩ := Option.map_eq_some_iff.1 ht
    rfl

theorem laid_action {a : Action} (hx : x.Within place) (h : Yields (action ctx place a) f) (hs : f.Stands code lo x) :
    a.Laid ctx code lo (lo + f.size) x := by
  refine .intro h ⟨hs.mono x.none_le, rfl⟩ fun l t hl ht => ?_
  obtain ⟨g, hg, h⟩ := h.parts
  obtain rfl : mark l.mark ++ opcode .placeholder ++ word 0 = g := by
    have hjump : ∀ problem, Yields (jump ctx place a.span l.mark problem) g →
        mark l.mark ++ opcode .placeholder ++ word 0 = g := by
      intro problem h
      unfold jump at h
      rw [if_pos (hx l t ht)] at h
      exact yields_pure.1 h
    unfold actionCode at hg
    rw [hl] at hg
    cases l with
    | breaks | continues => exact hjump _ hg
  have hsize : (mark l.mark ++ opcode .placeholder ++ word 0).size = 3 := by
    rfl
  split at h
  · obtain rfl := yields_pure.1 h
    have : (opcode .debugLine ++ mark .line ++ word (min (ctx.sources.line a.span) 65535)).Whole := by
      rw [append_assoc, ← ofPieces_line]
      exact (naming_opcode _).append (naming_piece fun _ h => by cases h)
    refine ⟨_, Nat.le_add_right _ _, ?_, hs.right.jumps ht⟩
    rw [size_append _ (mark l.mark ++ _ ++ _), hsize, Nat.add_assoc]
  · obtain rfl := yields_pure.1 h
    exact ⟨lo, Nat.le_refl _, by rw [hsize], hs.jumps ht⟩

theorem laid_optionalAction {a : Option Action} (hx : x.Within place) (h : Yields (optionalAction ctx place a) f)
    (hs : f.Stands code lo x) : Action.LaidOption ctx code a lo (lo + f.size) x := by
  cases a with
  | none =>
    obtain rfl := yields_pure.1 h
    exact .none
  | some a => exact .some (laid_action hx h hs)

instance whole_farewell (vs : Variables) : (farewell ctx vs).Whole := names_leave.always (c := leave ctx) ⟨vs, #[]⟩

theorem farewell_stands {vs : Variables} (h : (farewell ctx vs).Stands code lo .none) :
    Farewell ctx code lo (lo + (farewell ctx vs).size) := ⟨vs, h, rfl⟩

/-- Wherever the code of `c` stands, `P` holds of where it starts and ends. -/
def Lays (code : Array UInt8) (place : Place) (c : Compiling Fragment) (P : Nat → Nat → Exits → Prop) : Prop :=
  ∀ f x lo, Yields c f → f.size < 256 ^ 2 → x.Within place → f.Stands code lo x → P lo (lo + f.size) x

mutual
/-- Where the code of a statement stands, the statement is laid out. -/
theorem laid_statement (place : Place) : (s : Statement) → Lays code place (statement ctx place s) (s.Laid ctx code)
  | .importing span path => by
    intro f x lo h hsize hx hs
    obtain ⟨_, -, h⟩ := h.parts
    obtain rfl := yields_pure.1 h
    exact .importing
  | .global span members => by
    intro f x lo h hsize hx hs
    obtain ⟨_, -, h⟩ := h.parts
    obtain ⟨_, -, h⟩ := h.parts
    obtain rfl := yields_pure.1 h
    exact .global
  | .type decl => by
    intro f x lo h hsize hx hs
    obtain ⟨_, -, h⟩ := h.parts
    obtain ⟨_, -, h⟩ := h.parts
    obtain rfl := yields_pure.1 h
    exact .type
  | .metadata span text => by
    intro f x lo h hsize hx hs
    obtain rfl := yields_pure.1 h
    exact .metadata ⟨hs.mono x.none_le, rfl⟩
  | .block body => by
    intro f x lo h hsize hx hs
    exact .block (laid_block place body _ _ _ h hsize hx hs)
  | .whileLoop condition body => by
    intro f x lo h hsize hx hs
    obtain ⟨hknown, rfl⟩ | ⟨hknown, test, inner, htest, hinner, rfl⟩ := yields_whileCode h
    · exact .neverWhile hknown
    · have := hinner.whole
      have hlt : inner.size < 256 ^ 2 := by rw [size_whileOf] at hsize; omega
      exact .loop (stands_whileOf htest hknown hsize (laid_block _ body _ _ _ hinner hlt fun _ _ _ => rfl) hs).2
  | .forLoop start condition step body => by
    intro f x lo h hsize hx hs
    obtain ⟨head, vs, hhead, ⟨hknown, rfl⟩ | ⟨hknown, test, inner, last, htest, hinner, hlast, rfl⟩⟩ := yields_forCode h
    · have := hhead.whole
      obtain ⟨e, rfl⟩ : ∃ e, condition = some e := by
        cases condition with
        | none => cases hknown
        | some e => exact ⟨e, rfl⟩
      rw [size_append, ← Nat.add_assoc]
      exact .neverFor hknown (laid_optionalAction hx hhead hs.left) (farewell_stands (hs.right.mono x.none_le))
    · have := hhead.whole
      have := hinner.whole
      have := hlast.whole
      have hlt : inner.size < 256 ^ 2 := by rw [size_forOf] at hsize; omega
      exact .loop (stands_forOf htest hknown hsize (laid_optionalAction hx hhead)
        (laid_block _ body _ _ _ hinner hlt fun _ _ _ => rfl)
        (fun h => laid_optionalAction (hx.stepping _) hlast (h.mono (x.stepping_le _))) farewell_stands hs).2
  | .doWhile body condition => by
    intro f x lo h hsize hx hs
    obtain ⟨inner, test, hinner, htest, rfl⟩ := yields_doWhileCode h
    have := hinner.whole
    have hlt := Nat.lt_of_le_of_lt (le_size_doOf _ inner test) hsize
    exact .loop (stands_doOf rfl htest hsize (laid_block _ body _ _ _ hinner hlt fun _ _ _ => rfl) hs).2
  | .branch b => by
    intro f x lo h hsize hx hs
    exact .branch (laid_branch place b _ _ _ h hsize hx hs)
  | .action a => by
    intro f x lo h hsize hx hs
    exact .action (laid_action hx h hs)

theorem laid_block (place : Place) : (b : Block) → Lays code place (block ctx place b) (b.Laid ctx code)
  | .mk span body => by
    intro f x lo h hsize hx hs
    obtain ⟨inner, vs, hinner, rfl⟩ := yields_inScope h
    have := hinner.whole
    rw [size_append] at hsize
    rw [size_append, ← Nat.add_assoc]
    exact .mk (laid_statements _ body _ _ _ hinner (by omega) hx hs.left) (farewell_stands (hs.right.mono x.none_le))

theorem laid_branch (place : Place) : (b : Branch) → Lays code place (branch ctx place b) (b.Laid ctx code)
  | .mk condition body other => by
    intro f x lo h hsize hx hs
    obtain ⟨hknown, h⟩ | ⟨hknown, h⟩ | ⟨hknown, test, yes, no, htest, hyes, hno, rfl⟩ := yields_branchCode h
    · exact .yes hknown (laid_block place body _ _ _ h hsize hx hs)
    · exact .no hknown (laid_otherwise place other _ _ _ h hsize hx hs)
    · have := hyes.whole
      have := hno.whole
      have hle := size_branchedCode_le test yes no
      exact stands_branchedCode htest hknown hsize (fun h => laid_block place body _ _ _ hyes (by omega) hx h)
        (fun h => laid_otherwise place other _ _ _ hno (by omega) hx h) hs

theorem laid_otherwise (place : Place) : (o : Otherwise) → Lays code place (otherwise ctx place o) (o.Laid ctx code)
  | .nothing => by
    intro f x lo h hsize hx hs
    obtain rfl := yields_pure.1 h
    exact .nothing
  | .branch b => by
    intro f x lo h hsize hx hs
    exact .branch (laid_branch place b _ _ _ h hsize hx hs)
  | .block body => by
    intro f x lo h hsize hx hs
    exact .block (laid_block place body _ _ _ h hsize hx hs)

theorem laid_statements (place : Place) :
    (ss : List Statement) → Lays code place (statements ctx place ss ∅) (Script.Laid ctx code ss)
  | [] => by
    intro f x lo h hsize hx hs
    obtain rfl := yields_pure.1 h
    exact .nil
  | s :: rest => by
    intro f x lo h hsize hx hs
    obtain ⟨g, g', hg, hg', rfl⟩ := yields_statements h
    have := hg.whole
    have := hg'.whole
    rw [size_append] at hsize
    rw [size_append, ← Nat.add_assoc]
    exact .cons (laid_statement place s _ _ _ hg (by omega) hx hs.left) (laid_statements place rest _ _ _ hg' (by omega) hx hs.right)
end

end HostScript
