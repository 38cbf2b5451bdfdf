import HostScript.Proofs.Extent
import HostScript.Proofs.Lockstep

/-! Evaluation in a machine that could change.

Evaluating an expression takes the memory as it is and is told whether it is dead. A machine
that has both in its state could change them on the way, and does so where it skips a part:
it sets its flag, evaluates the part and puts the flag back (`Work`). Both ways to evaluate come
to the same, so the state is as it was afterwards, also behind a fault. Where an expression ends
is settled by its code alone, and a dead one does not reach the host. -/
namespace HostScript

variable {code : Array UInt8} {memory : Memory} {p q : Nat}

/-! ### Without the host -/

/-- Evaluated dead, an expression does not reach the host. -/
theorem mute_evaluate (k : Kind) (p : Nat) : ∃ r, (∀ s, Setting.evaluate ⟨code, memory, host⟩ true k p s = (r, s)) ∧
      ∀ t, Setting.evaluate ⟨code, memory, host'⟩ true k p t = (r, t) := by
  -- both do what is done before a host that has no service
  have hsame {σ : Type} (host : Host σ) (s : σ) : Setting.evaluate ⟨code, memory, host⟩ true k p s =
      ((Setting.evaluate ⟨code, memory, Host.idle⟩ true k p ()).1, s) := by
    have hstep : Lockstep (.always fun t _ => t = s) (Setting.evaluate ⟨code, memory, host⟩ true k)
        (Setting.evaluate ⟨code, memory, Host.idle⟩ true k) := lockstep_evaluate (fun hawake => by cases hawake) k
    obtain ⟨hresult, hstate⟩ := keeps_always.1 (hstep.keeps p) s () rfl
    exact Prod.ext hresult hstate
  exact ⟨_, hsame host, hsame host'⟩

/-! ### A machine with a flag -/

/-- All that evaluating could change. -/
structure Registers where
  cursor : Nat
  memory : Memory
  /-- Whether what is evaluated is dead. -/
  dead : Bool
  deriving DecidableEq, Repr

/-- A computation that changes registers, asks a host and may halt. -/
abbrev Work (σ : Type) := ExceptT Fault (StateT Registers (StateM σ))

namespace Work

variable {σ α β : Type}

/-- Something that only moves the cursor. -/
def moving (x : Exec σ α) : Work σ α := fun r s =>
  let ((result, cursor), s) := x r.cursor s
  ((result, { r with cursor }), s)

def isDead : Work σ Bool := return (← get).dead

def setDead (dead : Bool) : Work σ Unit := modify fun r => { r with dead }

/-- What a computation comes to; a fault is a result like any other. -/
def attempt (x : Work σ α) : Work σ (Except Fault α) := fun r s =>
  let ((result, r), s) := x r s
  ((.ok result, r), s)

def bool (eval : Kind → Work σ Value) : Work σ Bool := do
  let c ← moving Exec.cursor
  match ← eval .bool with
  | .bool b => return b
  | v => moving (Exec.malformed c (.notBool v))

def pointer (eval : Kind → Work σ Value) : Work σ Pointer := do
  let c ← moving Exec.cursor
  match ← eval .pointer with
  | .pointer p => return p
  | v => moving (Exec.malformed c (.notPointer v))

/-- Moves past an expression: dead while it is evaluated, and as before behind it. -/
def skip (eval : Kind → Work σ Value) (k : Kind) : Work σ Unit := do
  let wasDead ← isDead
  setDead true
  let result ← attempt (eval k)
  setDead wasDead
  match result with
  | .ok _ => return ()
  | .error fault => moving (Exec.halt fault)

def combine (op : Opcode) (k : Kind) (position : Nat) (l r : Value) : Work σ Value := do
  moving (Setting.combine op k (← isDead) position l r)

section Parts

variable (code : Array UInt8) (host : Host σ) (eval : Kind → Work σ Value)

def target : Work σ (Option Pointer) := do
  let c ← moving Exec.cursor
  if code[c]? = some (Opcode.code .noOp) then
    moving (Exec.goTo (c + 1))
    return none
  else return some (← pointer eval)

def arguments : Nat → Work σ (List Value)
  | 0 => return []
  | n + 1 => do
    let k ← moving (Code.kind code)
    let v ← eval k
    return v :: (← arguments n)

/-- The host is asked, in a machine with the memory as it is now. -/
def ask (f : Setting σ → Exec σ Value) : Work σ Value := do
  moving (f ⟨code, (← get).memory, host⟩)

def invokeFunction (expected : Option Kind) : Work σ Value := do
  let target ← target code eval
  let symbol ← moving (Code.word code)
  let count ← moving (Code.byte code)
  let args ← arguments code eval count.toNat
  if ← isDead then return (expected.map Value.zero).getD .nothing
  else
    let target ← moving (Setting.requireTarget target)
    ask code host fun s => s.callFunction target symbol args expected

def invokeSubscript (expected : Kind) : Work σ Value := do
  let target ← pointer eval
  let k ← moving (Code.kind code)
  let index ← eval k
  if ← isDead then return .zero expected
  else ask code host fun s => s.callSubscript target index expected

/-- An expression, given how to evaluate its parts. -/
def expression (k : Kind) : Work σ Value := do
  let position ← moving Exec.cursor
  match ← moving (Code.opcode code) with
  | .literal => moving (Code.literal code k)
  | .literalTrue => return .bool true
  | .literalFalse => return .bool false
  | .literalNull => return .pointer 0
  | .variable =>
    let address ← moving (Code.word code)
    let c ← moving Exec.cursor
    moving (Exec.checked c ((← get).memory.load address k))
  | .arith op =>
    let l ← eval k
    let r ← eval k
    combine (.arith op) k position l r
  | .concat =>
    let l ← eval .string
    let r ← eval .string
    combine .concat k position l r
  | .negate =>
    let v ← eval k
    moving (Exec.orMalformed position .negation v.negate)
  | .complement =>
    let v ← eval k
    moving (Exec.orMalformed position .complement v.complement)
  | .not => return .bool !(← bool eval)
  | .and =>
    if ← bool eval then return .bool (← bool eval)
    else
      skip eval .bool
      return .bool false
  | .or =>
    if ← bool eval then
      skip eval .bool
      return .bool true
    else return .bool (← bool eval)
  | .compare op =>
    let operand ← moving (Code.kind code)
    let l ← eval operand
    let r ← eval operand
    let order ← moving (Exec.orMalformed position (.incomparable operand) (l.compare? r))
    return .bool (op.holds order)
  | .ternary =>
    if ← bool eval then
      let v ← eval k
      skip eval k
      return v
    else
      skip eval k
      eval k
  | .coalesce =>
    match ← eval k with
    | .pointer p =>
      if p = 0 then eval k
      else
        skip eval k
        return .pointer p
    | _ => eval k
  | .typecast =>
    let source ← moving (Code.kind code)
    return (← eval source).cast k
  | .call => invokeFunction code host eval (some k)
  | .subscript => invokeSubscript code host eval k
  | op => moving (Exec.malformed position (.notExpression op))

end Parts

def evaluateWithin (code : Array UInt8) (host : Host σ) : Nat → Kind → Work σ Value
  | 0, _ => moving do Exec.malformed (← Exec.cursor) .endOfCode
  | n + 1, k => expression code host (evaluateWithin code host n) k

def evaluate (code : Array UInt8) (host : Host σ) (k : Kind) : Work σ Value := do
  evaluateWithin code host (code.size - (← moving Exec.cursor)) k

/-! ### Both machines -/

/-- The registers behind what an evaluation did, the cursor apart as they were. -/
def settled (memory : Memory) (dead : Bool) (done : (Except Fault α × Nat) × σ) : (Except Fault α × Registers) × σ :=
  ((done.1.1, ⟨done.1.2, memory, dead⟩), done.2)

/-- With this memory and this flag the work is that of the evaluation, and both are as they were afterwards. -/
def Does (memory : Memory) (dead : Bool) (w : Work σ α) (x : Exec σ α) : Prop :=
  ∀ p s, w ⟨p, memory, dead⟩ s = settled memory dead (x p s)

theorem bind_apply (w : Work σ α) (f : α → Work σ β) (r : Registers) (s : σ) :
    (w >>= f) r s = match w r s with
      | ((.ok a, r'), s') => f a r' s'
      | ((.error e, r'), s') => ((.error e, r'), s') := by
  show (ExceptT.bindCont f (w r s).1.1) (w r s).1.2 (w r s).2 = _
  rcases w r s with ⟨⟨e | a, r'⟩, s'⟩ <;> rfl

/-- Work that does what the evaluation does, to be found from its parts. -/
class Tracks (memory : Memory) (dead : Bool) (w : Work σ α) (x : Exec σ α) : Prop where
  does : Does memory dead w x

section Tracks

variable {dead : Bool} {w w' : Work σ α} {x x' : Exec σ α}

theorem Tracks.bind (h : Tracks memory dead w x) (hf : ∀ a, Tracks memory dead (f a) (g a)) :
    Tracks memory dead (w >>= f) (x >>= g) where
  does p s := by
    rw [bind_apply, h.does p s, Exec.bind_apply]
    rcases x p s with ⟨⟨e | a, q⟩, s'⟩
    · rfl
    · exact (hf a).does q s'

instance {f : α → Work σ β} {g : α → Exec σ β} [h : Tracks memory dead w x]
    [hf : ∀ a, Tracks memory dead (f a) (g a)] : Tracks memory dead (w >>= f) (x >>= g) := h.bind hf

instance tracks_moving (x : Exec σ α) : Tracks memory dead (moving x) x := ⟨fun _ _ => rfl⟩

instance (a : α) : Tracks memory dead (pure a : Work σ α) (pure a) := ⟨fun _ _ => rfl⟩

instance {b : Prop} [Decidable b] [Tracks memory dead w x] [Tracks memory dead w' x'] :
    Tracks memory dead (if b then w else w') (if b then x else x') := by
  split <;> infer_instance

/-- The flag is read where it is the one that was given. -/
theorem Tracks.isDead (h : Tracks memory dead (f dead) x) :
    Tracks memory dead (Work.isDead >>= f) x := ⟨h.does⟩

/-- So is the memory. -/
theorem Tracks.get (h : ∀ p, Tracks memory dead (f ⟨p, memory, dead⟩) x) :
    Tracks memory dead (MonadState.get >>= f) x := ⟨fun p s => (h p).does p s⟩

instance (op : Opcode) (k : Kind) (position : Nat) (l r : Value) :
    Tracks memory dead (combine op k position l r : Work σ Value) (Setting.combine op k dead position l r) :=
  .isDead (tracks_moving _)

instance (code : Array UInt8) (host : Host σ) (f : Setting σ → Exec σ Value) :
    Tracks memory dead (ask code host f) (f ⟨code, memory, host⟩) := .get fun _ => tracks_moving _

end Tracks

section Evaluate

variable {host : Host σ} {eval : Kind → Work σ Value} {eval' : Evaluator σ} {dead : Bool}

/-- Dead or not, the work is that of the evaluator. -/
def Mirrors (memory : Memory) (eval : Kind → Work σ Value) (eval' : Evaluator σ) : Prop :=
  ∀ dead k, Does memory dead (eval k) (eval' dead k)

/-- Skipping puts the flag back, also where the part that is skipped halts. -/
theorem Mirrors.skip (h : Mirrors memory eval eval') (dead : Bool) (k : Kind) :
    Does memory dead (skip eval k) (eval'.skip k) := by
  intro p s
  have hpart : attempt (eval k) ⟨p, memory, true⟩ s =
      ((.ok (eval' true k p s).1.1, ⟨(eval' true k p s).1.2, memory, true⟩), (eval' true k p s).2) := by
    unfold attempt
    rw [h true k p s]
    rfl
  show (attempt (eval k) >>= fun result => setDead dead >>= fun _ => match result with
    | .ok _ => return ()
    | .error fault => moving (Exec.halt fault)) ⟨p, memory, true⟩ s = settled memory dead ((eval'.skip k) p s)
  unfold Evaluator.skip
  rw [bind_apply, hpart, Exec.bind_apply]
  rcases eval' true k p s with ⟨⟨e | v, q⟩, s'⟩ <;> rfl

section Parts

variable [h : ∀ dead k, Tracks memory dead (eval k) (eval' dead k)]

instance : Tracks memory dead (bool eval) (eval'.bool dead) :=
  .bind inferInstance fun c => (h dead .bool).bind fun v => by cases v <;> infer_instance

instance : Tracks memory dead (pointer eval) (eval'.pointer dead) :=
  .bind inferInstance fun c => (h dead .pointer).bind fun v => by cases v <;> infer_instance

instance (k : Kind) : Tracks memory dead (skip eval k) (eval'.skip k) := ⟨Mirrors.skip (fun dead k => (h dead k).does) dead k⟩

instance : Tracks memory dead (target code eval) (Setting.target ⟨code, memory, host⟩ eval' dead) := by
  unfold target Setting.target
  infer_instance

instance (n : Nat) : Tracks memory dead (arguments code eval n) (Setting.arguments ⟨code, memory, host⟩ eval' dead n) := by
  induction n <;> unfold arguments Setting.arguments <;> infer_instance

instance (expected : Option Kind) : Tracks memory dead (invokeFunction code host eval expected)
    (Setting.invokeFunction ⟨code, memory, host⟩ eval' dead expected) := by
  exact .bind inferInstance fun target => .bind inferInstance fun symbol => .bind inferInstance fun count =>
    .bind inferInstance fun args => .isDead inferInstance

instance (expected : Kind) : Tracks memory dead (invokeSubscript code host eval expected)
    (Setting.invokeSubscript ⟨code, memory, host⟩ eval' dead expected) := by
  exact .bind inferInstance fun target => .bind inferInstance fun k => .bind inferInstance fun index =>
    .isDead inferInstance

theorem tracks_expression (dead : Bool) (k : Kind) :
    Tracks memory dead (expression code host eval k) (Setting.expression ⟨code, memory, host⟩ eval' dead k) := by
  refine .bind inferInstance fun position => .bind inferInstance fun op => ?_
  cases op with
  | «variable» =>
    exact .bind inferInstance fun address => .bind inferInstance fun c => .get fun _ => tracks_moving _
  | coalesce => exact (h dead k).bind fun v => by cases v <;> infer_instance
  | _ => infer_instance

end Parts

theorem tracks_within (n : Nat) (dead : Bool) (k : Kind) :
    Tracks memory dead (evaluateWithin code host n k) (Setting.evaluateWithin ⟨code, memory, host⟩ n dead k) := by
  induction n generalizing dead k with
  | zero => exact tracks_moving _
  | succ n ih => exact tracks_expression dead k

theorem mirrors_evaluate : Mirrors memory (evaluate code host) (Setting.evaluate ⟨code, memory, host⟩) :=
  fun dead k => ((tracks_moving _).bind fun c => tracks_within (code.size - c) dead k).does

end Evaluate

end Work

/-- Where an expression ends is settled by its code: two evaluations that get through end at the same
place behind the start and in the code, whatever the memories, the hosts and whether they are dead. A dead
one does not reach the host. A machine with its memory and the flag in its state does the same, and both are
as before when an expression was evaluated or skipped, with a value or with a fault. -/
theorem expression_ends_alike (code : Array UInt8) (k : Kind) {σ τ : Type} (host : Host σ) (host' : Host τ)
    (memory memory' : Memory) (dead dead' : Bool) (p : Nat) (s : σ) (t : τ) :
    (∀ v v' q q' s' t', Setting.evaluate ⟨code, memory, host⟩ dead k p s = ((.ok v, q), s') →
      Setting.evaluate ⟨code, memory', host'⟩ dead' k p t = ((.ok v', q'), t') → q = q' ∧ p < q ∧ q ≤ code.size) ∧
    ((Setting.evaluate ⟨code, memory, host⟩ true k p s).2 = s ∧
      (Setting.evaluate ⟨code, memory, host⟩ true k p s).1 = (Setting.evaluate ⟨code, memory, host'⟩ true k p t).1) ∧
    Work.evaluate code host k ⟨p, memory, dead⟩ s =
      Work.settled memory dead (Setting.evaluate ⟨code, memory, host⟩ dead k p s) ∧
    Work.skip (Work.evaluate code host) k ⟨p, memory, dead⟩ s =
      Work.settled memory dead ((Setting.evaluate ⟨code, memory, host⟩).skip k p s) := by
  refine ⟨fun v v' q q' s' t' h h' => ?_, ?_, Work.mirrors_evaluate dead k p s, Work.mirrors_evaluate.skip dead k p s⟩
  · obtain ⟨_, -, hscan⟩ := (Scan.matches_evaluate dead k p s).2 v q s' h
    obtain ⟨_, -, hscan'⟩ := (Scan.matches_evaluate dead' k p t).2 v' q' t' h'
    have hsame : q = q' := by
      rw [hscan] at hscan'
      exact congrArg Prod.snd (Option.some.inj hscan')
    exact ⟨hsame, Scan.evaluate_bounds h⟩
  · obtain ⟨r, hr, hr'⟩ : ∃ r, (∀ s, Setting.evaluate ⟨code, memory, host⟩ true k p s = (r, s)) ∧
        ∀ t, Setting.evaluate ⟨code, memory, host'⟩ true k p t = (r, t) := mute_evaluate k p
    rw [hr s, hr' t]
    exact ⟨rfl, rfl⟩

/-- A variable, and behind `&&` a call. -/
def guardedCall : Array UInt8 := #[20, 6, 0, 0, 32, 1, 1, 0, 0]

/-- A host that says yes and counts how often it was asked. -/
def Host.counting : Host Nat :=
  { invokeFunction := some fun _ _ _ => modifyGet fun n => (.bool true, n + 1)
    invokeSubscript := none, assignProperty := none, assignSubscript := none, metadata := none, debugLine := none
    debugUpdate := none, debugDelete := none, error := none }

/-- The call is skipped or made, depending on the variable, and both evaluations end behind it. -/
theorem expression_ends_alike_guardedCall :
    Setting.evaluate ⟨guardedCall, ⟨#[0], #[]⟩, Host.counting⟩ false .bool 0 3 = ((.ok (.bool false), 9), 3) ∧
      Setting.evaluate ⟨guardedCall, ⟨#[1], #[]⟩, Host.counting⟩ false .bool 0 3 = ((.ok (.bool true), 9), 4) ∧
      9 = 9 ∧ 0 < 9 ∧ 9 ≤ guardedCall.size := by
  have hskipped : Setting.evaluate ⟨guardedCall, ⟨#[0], #[]⟩, Host.counting⟩ false .bool 0 3 =
      ((.ok (.bool false), 9), 3) := by
    show @Eq ((Except Fault Value × Nat) × Nat) _ _
    decide +kernel
  have hmade : Setting.evaluate ⟨guardedCall, ⟨#[1], #[]⟩, Host.counting⟩ false .bool 0 3 =
      ((.ok (.bool true), 9), 4) := by
    show @Eq ((Except Fault Value × Nat) × Nat) _ _
    decide +kernel
  exact ⟨hskipped, hmade, (expression_ends_alike guardedCall .bool Host.counting Host.counting ⟨#[0], #[]⟩ ⟨#[1], #[]⟩
    false false 0 3 3).1 _ _ _ _ _ _ hskipped hmade⟩

end HostScript
