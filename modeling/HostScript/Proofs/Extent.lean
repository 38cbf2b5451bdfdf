import HostScript.Proofs.Reading

/-! Where statements end.

How far the machine reads does not depend on what it computes: the operands of a
statement say where it ends and where it may jump to. `Scan` reads code as the machine
does and leaves out everything else. It agrees with the machine on any code: when a
statement has run, the cursor is where the scan ends, or where it says that the
statement jumps. -/
namespace HostScript

open Exec

variable {memory : Memory} {m : Signal × Memory} {α β σ : Type}

/-- A reader of code that keeps track of where it is. -/
abbrev Scan := StateT Nat Option

namespace Scan

/-! ### Operands -/

variable (code : Array UInt8)

def byte : Scan UInt8 := fun p => (code[p]?).map (·, p + 1)

def bytes (n : Nat) : Scan (List UInt8) := fun p =>
  if p + n ≤ code.size then some ((code.extract p (p + n)).toList, p + n) else none

def word : Scan Nat := return Bytes.toNat (← bytes code 2)

def opcode : Scan Opcode := do
  let b ← byte code
  (Opcode.ofCode? b : Option Opcode)

def kind : Scan Kind := do
  let b ← byte code
  (Kind.ofCode? b : Option Kind)

/-- Moves past a text and its zero byte. -/
def text : Scan Unit := fun p =>
  match Code.zeroFrom code (code.size - p) p with
  | none => none
  | some stop =>
    match Utf8.decode (code.extract p stop).toList with
    | .error _ => none
    | .ok _ => some ((), stop + 1)

def literal (k : Kind) : Scan Unit := do
  if k = .string then text code
  else
    let _ ← bytes code k.size

/-! ### Expressions -/

/-- The owner of a member, or the byte that stands for none. -/
def target (expr : Kind → Scan Unit) : Scan Unit := fun p =>
  if code[p]? = some (Opcode.code .noOp) then some ((), p + 1) else expr .pointer p

def arguments (expr : Kind → Scan Unit) : Nat → Scan Unit
  | 0 => pure ()
  | n + 1 => do
    expr (← kind code)
    arguments expr n

def call (expr : Kind → Scan Unit) : Scan Unit := do
  target code expr
  let _ ← word code
  arguments code expr (← byte code).toNat

def subscript (expr : Kind → Scan Unit) : Scan Unit := do
  expr .pointer
  expr (← kind code)

/-- An expression of a kind, given how to move past its parts. -/
def expression (expr : Kind → Scan Unit) (k : Kind) : Scan Unit := do
  match ← opcode code with
  | .literal => literal code k
  | .literalTrue | .literalFalse | .literalNull => pure ()
  | .variable => let _ ← word code
  | .arith _ | .coalesce =>
    expr k
    expr k
  | .concat =>
    expr .string
    expr .string
  | .negate | .complement => expr k
  | .not => expr .bool
  | .and | .or =>
    expr .bool
    expr .bool
  | .compare _ =>
    let j ← kind code
    expr j
    expr j
  | .ternary =>
    expr .bool
    expr k
    expr k
  | .typecast => expr (← kind code)
  | .call => call code expr
  | .subscript => subscript code expr
  | _ => failure

/-- An expression of at most so many bytes. -/
def expressionWithin : Nat → Kind → Scan Unit
  | 0, _ => failure
  | n + 1, k => expression code (expressionWithin n) k

def anyExpression (k : Kind) : Scan Unit := fun p => expressionWithin code (code.size - p) k p

/-! ### Statements -/

def assign : Scan Unit := do
  let k ← kind code
  let _ ← word code
  anyExpression code k

def assignProperty : Scan Unit := do
  let k ← kind code
  target code (anyExpression code)
  let _ ← word code
  let _ ← opcode code
  anyExpression code k

def assignSubscript : Scan Unit := do
  let k ← kind code
  anyExpression code .pointer
  anyExpression code (← kind code)
  let _ ← opcode code
  anyExpression code k

/-- Moves past the operands of a statement, and gives where it may jump to. -/
def operands : Opcode → Scan (Option Nat)
  | .noOp | .exit => return none
  | .assign => do
    assign code
    return none
  | .assignProperty => do
    assignProperty code
    return none
  | .assignSubscript => do
    assignSubscript code
    return none
  | .callUnused => do
    call code (anyExpression code)
    return none
  | .conditional => do
    anyExpression code .bool
    let distance ← word code
    return some ((← get) + distance)
  | .forward => do
    let distance ← word code
    return some ((← get) + distance)
  | .back => do
    let distance ← word code
    let p ← get
    if headerSize + distance ≤ p then return some (p - distance) else failure
  | .metadata | .debugDelete => do
    text code
    return none
  | .debugLine => do
    let _ ← word code
    return none
  | .debugUpdate => do
    text code
    anyExpression code (← kind code)
    return none
  | _ => failure

/-- A statement in code. -/
structure Stretch where
  opcode : Opcode
  start : Nat
  stop : Nat
  /-- Where it may go on other than at its end. -/
  target? : Option Nat
  deriving DecidableEq, Repr

def statement (p : Nat) : Option Stretch := do
  let (op, q) ← opcode code p
  let (target?, stop) ← operands code op q
  return ⟨op, p, stop, target?⟩

/-! ### Agreement with the machine -/

theorem bind_apply (r : Scan α) (g : α → Scan β) (p : Nat) : (r >>= g) p = (r p).bind fun x => g x.1 x.2 := by
  show (r p).bind (fun x => match x with | (a, q) => g a q) = _
  cases r p <;> rfl

section Agrees

variable {γ δ : Type}

/-- Not back, and not out of the code. -/
def Onward (p q : Nat) : Prop := p ≤ q ∧ q ≤ max p code.size

theorem Onward.refl (p : Nat) : Onward code p p := ⟨Nat.le_refl p, Nat.le_max_left ..⟩

/-- The machine moves onward, also in a fault. Where it gets on, so does the scan, as far, and with a result that
fits. -/
def Agrees (x : Exec σ α) (r : Scan β) (fits : α → β → Prop) : Prop :=
  ∀ p s, Onward code p (x p s).1.2 ∧ ∀ a q s', x p s = ((.ok a, q), s') → ∃ b, fits a b ∧ r p = some (b, q)

/-- Something that the machine does without moving. -/
class Still (x : Exec σ α) : Prop where
  stays : ∀ p s, (x p s).1.2 = p

/-- What agrees, to be found from its parts. -/
class Along (x : Exec σ α) (r : Scan β) (fits : outParam (α → β → Prop)) : Prop where
  agrees : Agrees code x r fits

variable {code} {x x' : Exec σ α} {f : α → Exec σ γ} {r : Scan β} {g : β → Scan δ} {fits : α → β → Prop}
  {fits' : γ → δ → Prop}

theorem ok_of_bind (h : (x >>= f) p s = ((.ok c, q), s')) :
    ∃ a o t, x p s = ((.ok a, o), t) ∧ f a o t = ((.ok c, q), s') := by
  rw [Exec.bind_apply] at h
  rcases hx : x p s with ⟨⟨e | a, o⟩, t⟩ <;> rw [hx] at h
  · cases h
  · exact ⟨a, o, t, rfl, h⟩

/-- Where the machine is after two steps, or after the first one if that ends in a fault. -/
theorem end_of_bind {C : Nat → Prop} (hx : C (x p s).1.2)
    (hf : ∀ a o t, x p s = ((.ok a, o), t) → C o → C (f a o t).1.2) : C ((x >>= f) p s).1.2 := by
  rw [Exec.bind_apply]
  rcases hxa : x p s with ⟨⟨e | a, o⟩, t⟩ <;> rw [hxa] at hx
  · exact hx
  · exact hf a o t hxa hx

theorem Agrees.bind (hx : Agrees code x r fits) (hf : ∀ a b, fits a b → Agrees code (f a) (g b) fits') :
    Agrees code (x >>= f) (r >>= g) fits' := by
  refine fun p s => ⟨end_of_bind (hx p s).1 fun a o t hxa ho => ?_, fun c q s' h => ?_⟩
  · obtain ⟨b, hab, -⟩ := (hx p s).2 a o t hxa
    have hrest := (hf a b hab o t).1
    unfold Onward at ho hrest ⊢
    omega
  · obtain ⟨a, o, t, hxa, hfa⟩ := ok_of_bind h
    obtain ⟨b, hab, hr⟩ := (hx p s).2 a o t hxa
    obtain ⟨d, hcd, hg⟩ := (hf a b hab o t).2 c q s' hfa
    refine ⟨d, hcd, ?_⟩
    rw [bind_apply, hr]
    exact hg

instance along_bind [hx : Along code x r fun _ _ => True] [hf : ∀ a b, Along code (f a) (g b) fits'] :
    Along code (x >>= f) (r >>= g) fits' := ⟨hx.agrees.bind fun a b _ => (hf a b).agrees⟩

instance along_same {r : Scan α} {g : α → Scan δ} [hx : Along code x r Eq] [hf : ∀ a, Along code (f a) (g a) fits'] :
    Along code (x >>= f) (r >>= g) fits' := ⟨hx.agrees.bind fun a _ h => h ▸ (hf a).agrees⟩

theorem Still.agrees (hx : Still x) (b : β) : Agrees code x (pure b) fun _ _ => True := by
  intro p s
  have hstays := hx.stays p s
  rw [hstays]
  refine ⟨.refl code p, fun a q s' h => ?_⟩
  rw [h] at hstays
  subst hstays
  exact ⟨b, trivial, rfl⟩

instance {b : β} [hx : Still x] : Along code x (pure b) fun _ _ => True := ⟨hx.agrees b⟩

instance still_pure (a : α) : Still (σ := σ) (pure a) := ⟨fun _ _ => rfl⟩

instance still_halt (fault : Fault) : Still (σ := σ) (α := α) (halt fault) := ⟨fun _ _ => rfl⟩

instance (p : Nat) (reason : Malformed) : Still (σ := σ) (α := α) (malformed p reason) := still_halt _

instance : Still (σ := σ) cursor := ⟨fun _ _ => rfl⟩

instance (action : StateM σ α) : Still (ask action) := ⟨fun _ _ => rfl⟩

instance (position : Nat) (e : Except Malformed α) : Still (σ := σ) (checked position e) := by
  cases e <;> unfold checked <;> infer_instance

instance (position : Nat) (reason : Malformed) (o : Option α) : Still (σ := σ) (orMalformed position reason o) := by
  cases o <;> unfold orMalformed <;> infer_instance

instance still_ite {c : Prop} [Decidable c] [Still x] [Still x'] : Still (if c then x else x') := by
  split <;> infer_instance

instance Still.seq [hx : Still x] [hf : ∀ a, Still (f a)] : Still (x >>= f) :=
  ⟨fun p s => end_of_bind (hx.stays p s) fun a o t _ ho => ((hf a).stays o t).trans ho⟩

instance {p : Nat} {reason : Malformed} {r : Scan β} :
    Along code (σ := σ) (α := α) (malformed p reason) r fun _ _ => True :=
  ⟨fun p s => ⟨((still_halt _).agrees () p s).1, nofun⟩⟩

/-- What the machine does in place is not for the scan to see. -/
instance Still.bind {r : Scan δ} [hx : Still x] [hf : ∀ a, Along code (f a) r fits'] : Along code (x >>= f) r fits' :=
  ⟨(hx.agrees ()).bind fun a _ _ => (hf a).agrees⟩

/-- What the machine does in place at the end. -/
instance Along.still [hx : Along code x r fits] [hf : ∀ a, Still (f a)] : Along code (x >>= f) r fun _ _ => True := by
  have hdone : Agrees code (x >>= f) (r >>= pure) fun _ _ => True := hx.agrees.bind fun a b _ => (hf a).agrees b
  rw [bind_pure] at hdone
  exact ⟨hdone⟩

instance {c : Prop} [Decidable c] [Along code x r fits] [Along code x' r fits] :
    Along code (if c then x else x') r fits := by
  split <;> infer_instance

end Agrees

theorem agrees_byte : Agrees code (σ := σ) (Code.byte code) (byte code) Eq := by
  intro p s
  have hbyte : Code.byte code p s = (orMalformed p .endOfCode code[p]? >>= fun b => goTo (p + 1) >>= fun _ =>
      (pure b : Exec σ UInt8)) p s := rfl
  rw [hbyte]
  unfold byte
  rcases hfound : code[p]? with _ | c
  · exact ⟨.refl code p, nofun⟩
  · have hlt := (Array.getElem?_eq_some_iff.1 hfound).1
    refine ⟨⟨Nat.le_succ p, Nat.le_trans hlt (Nat.le_max_right ..)⟩, ?_⟩
    rintro b q s' ⟨⟩
    exact ⟨c, rfl, rfl⟩

theorem byte_eq_ok {code : Array UInt8} {f : UInt8 → Option α} {reason : UInt8 → Malformed}
    (h : (Code.byte code >>= fun b => orMalformed p (reason b) (f b)) p s = ((.ok a, q), s')) :
    code[p]?.bind f = some a ∧ q = p + 1 ∧ s' = s := by
  obtain ⟨b, o, t, hbyte, h⟩ := ok_of_bind h
  replace hbyte : (orMalformed p .endOfCode code[p]? >>= fun b => goTo (p + 1) >>= fun _ => pure b) p s = _ := hbyte
  generalize code[p]? = found at hbyte ⊢
  cases found <;> cases hbyte
  cases hf : f b <;> rw [hf] at h <;> cases h
  exact ⟨hf, rfl, rfl⟩

theorem agrees_bytes (n : Nat) : Agrees code (σ := σ) (Code.bytes code n) (bytes code n) Eq := by
  intro p s
  have hbytes : Code.bytes code n p s = (if p + n ≤ code.size then
      (goTo (p + n) >>= fun _ => (pure (code.extract p (p + n)).toList : Exec σ (List UInt8)))
      else malformed p .endOfCode) p s := rfl
  rw [hbytes]
  unfold bytes
  split
  · rename_i hn
    refine ⟨⟨Nat.le_add_right p n, Nat.le_trans hn (Nat.le_max_right ..)⟩, ?_⟩
    rintro bs q s' ⟨⟩
    exact ⟨_, rfl, rfl⟩
  · exact ⟨.refl code p, nofun⟩

instance {position : Nat} {reason : Malformed} (o : Option α) :
    Along code (σ := σ) (orMalformed position reason o) (o : Scan α) Eq := by
  refine ⟨fun p s => ⟨(Still.agrees inferInstance () p s).1, fun a q s' h => ?_⟩⟩
  cases o <;> cases h
  exact ⟨a, rfl, rfl⟩

instance : Along code (σ := σ) (Code.byte code) (byte code) Eq := ⟨agrees_byte code⟩

instance (n : Nat) : Along code (σ := σ) (Code.bytes code n) (bytes code n) Eq := ⟨agrees_bytes code n⟩

theorem agrees_word : Agrees code (σ := σ) (Code.word code) (word code) Eq := by
  refine (agrees_bytes code 2).bind ?_
  rintro bs - rfl p s
  refine ⟨((still_pure _).agrees () p s).1, ?_⟩
  rintro a q s' ⟨⟩
  exact ⟨_, rfl, rfl⟩

instance : Along code (σ := σ) (Code.word code) (word code) Eq := ⟨agrees_word code⟩

instance along_opcode : Along code (σ := σ) (Code.opcode code) (opcode code) Eq := by
  unfold Code.opcode opcode
  infer_instance

instance along_kind : Along code (σ := σ) (Code.kind code) (kind code) Eq := by
  unfold Code.kind kind
  infer_instance

theorem zeroFrom_bounds {code : Array UInt8} (h : Code.zeroFrom code n p = some stop) :
    p ≤ stop ∧ stop < code.size := by
  induction n generalizing p with
  | zero => cases h
  | succ n ih =>
    unfold Code.zeroFrom at h
    split at h
    · rename_i hzero
      cases h
      exact ⟨Nat.le_refl _, (Array.getElem?_eq_some_iff.1 hzero).1⟩
    · have hrest := ih h
      omega

theorem agrees_text : Agrees code (σ := σ) (Code.text code) (text code) fun _ _ => True := by
  intro p s
  have htext : Code.text code p s = (orMalformed p .unterminatedText (Code.zeroFrom code (code.size - p) p) >>=
      fun stop =>
      match Utf8.decode (code.extract p stop).toList with
      | .error fault => (malformed p (.invalidText fault) : Exec σ String)
      | .ok chars => do
        goTo (stop + 1)
        return String.ofList chars) p s := rfl
  rw [htext]
  unfold text
  rcases hfound : Code.zeroFrom code (code.size - p) p with _ | stop
  · exact ⟨.refl code p, nofun⟩
  have hstop := zeroFrom_bounds hfound
  unfold orMalformed
  rw [pure_bind]
  dsimp only
  cases Utf8.decode (code.extract p stop).toList with
  | error fault => exact ⟨.refl code p, nofun⟩
  | ok chars =>
    refine ⟨⟨Nat.le_succ_of_le hstop.1, Nat.le_trans hstop.2 (Nat.le_max_right ..)⟩, ?_⟩
    rintro t q s' ⟨⟩
    exact ⟨(), trivial, rfl⟩

instance : Along code (σ := σ) (Code.text code) (text code) fun _ _ => True := ⟨agrees_text code⟩

instance along_literal (k : Kind) : Along code (σ := σ) (Code.literal code k) (literal code k) fun _ _ => True := by
  unfold Code.literal literal
  split <;> infer_instance

section Expressions

variable {code} {host : Host σ} {eval : Evaluator σ} {expr : Kind → Scan Unit} {dead : Bool}

/-- Whatever is evaluated, and dead or not, the machine moves on as the scan does. -/
def Matches (code : Array UInt8) (eval : Evaluator σ) (expr : Kind → Scan Unit) : Prop :=
  ∀ dead k, Agrees code (eval dead k) (expr k) fun _ _ => True

instance (op : Opcode) (k : Kind) (dead : Bool) (position : Nat) (l r : Value) :
    Still (σ := σ) (Setting.combine op k dead position l r) := by
  cases op <;> unfold Setting.combine <;> infer_instance

instance (target : Option Pointer) : Still (σ := σ) (Setting.requireTarget target) := by
  cases target <;> unfold Setting.requireTarget <;> infer_instance

instance (expected : Option Kind) (v : Value) : Still (σ := σ) (Setting.checkReturn expected v) := by
  cases expected <;> unfold Setting.checkReturn <;> infer_instance

instance (s : Setting σ) (target : Pointer) (symbol : Symbol) (args : List Value)
    (expected : Option Kind) : Still (s.callFunction target symbol args expected) := by
  unfold Setting.callFunction
  split <;> infer_instance

instance (s : Setting σ) (target : Pointer) (index : Value) (expected : Kind) :
    Still (s.callSubscript target index expected) := by
  unfold Setting.callSubscript
  split
  · infer_instance
  · split <;> infer_instance

section Parts

variable [h : ∀ dead k, Along code (eval dead k) (expr k) fun _ _ => True]

instance along_bool : Along code (eval.bool dead) (expr .bool) fun _ _ => True := by
  have (c : Nat) (v : Value) : Still (σ := σ) (match v with
      | .bool b => pure b
      | v => malformed c (.notBool v)) := by cases v <;> infer_instance
  unfold Evaluator.bool
  infer_instance

instance : Along code (eval.pointer dead) (expr .pointer) fun _ _ => True := by
  have (c : Nat) (v : Value) : Still (σ := σ) (match v with
      | .pointer p => pure p
      | v => malformed c (.notPointer v)) := by cases v <;> infer_instance
  unfold Evaluator.pointer
  infer_instance

instance (k : Kind) : Along code (eval.skip k) (expr k) fun _ _ => True := by
  unfold Evaluator.skip
  infer_instance

instance : Along code (Setting.target ⟨code, memory, host⟩ eval dead) (target code expr) fun _ _ => True where
  agrees p s := by
    have htarget : Setting.target ⟨code, memory, host⟩ eval dead p s = (if code[p]? = some (Opcode.code .noOp) then
        (goTo (p + 1) >>= fun _ => (pure none : Exec σ (Option Pointer)))
        else eval.pointer dead >>= fun x => pure (some x)) p s := rfl
    rw [htarget]
    unfold target
    split
    · rename_i hnone
      have hlt := (Array.getElem?_eq_some_iff.1 hnone).1
      refine ⟨⟨Nat.le_succ p, Nat.le_trans hlt (Nat.le_max_right ..)⟩, ?_⟩
      rintro a q s' ⟨⟩
      exact ⟨(), trivial, rfl⟩
    · exact Along.still.agrees p s

instance (n : Nat) :
    Along code (Setting.arguments ⟨code, memory, host⟩ eval dead n) (arguments code expr n) fun _ _ => True := by
  induction n <;> unfold Setting.arguments arguments <;> infer_instance

instance (expected : Option Kind) :
    Along code (Setting.invokeFunction ⟨code, memory, host⟩ eval dead expected) (call code expr) fun _ _ => True := by
  unfold Setting.invokeFunction call
  infer_instance

instance (expected : Kind) :
    Along code (Setting.invokeSubscript ⟨code, memory, host⟩ eval dead expected) (subscript code expr)
      fun _ _ => True := by
  unfold Setting.invokeSubscript subscript
  infer_instance

/-- What an expression does behind its instruction. -/
theorem along_operands (dead : Bool) (k : Kind) : ∃ (rest : Nat → Opcode → Exec σ Value) (scan : Opcode → Scan Unit),
    Setting.expression ⟨code, memory, host⟩ eval dead k = (cursor >>= fun c => Code.opcode code >>= rest c) ∧
      expression code expr k = (opcode code >>= scan) ∧ ∀ c op, Along code (rest c op) (scan op) fun _ _ => True := by
  refine ⟨_, _, rfl, rfl, fun c op => ?_⟩
  cases op with
  | coalesce => exact @along_bind _ _ _ _ _ _ _ _ _ _ _ _ fun v _ => by cases v <;> infer_instance
  | _ => infer_instance

theorem along_expression (dead : Bool) (k : Kind) :
    Along code (Setting.expression ⟨code, memory, host⟩ eval dead k) (expression code expr k) fun _ _ => True := by
  obtain ⟨rest, scan, hrest, hscan, _⟩ := @along_operands memory σ code host eval expr h dead k
  rw [hrest, hscan]
  infer_instance

end Parts

theorem along_within (n : Nat) (dead : Bool) (k : Kind) :
    Along code (Setting.evaluateWithin ⟨code, memory, host⟩ n dead k) (expressionWithin code n k) fun _ _ => True := by
  induction n generalizing dead k with
  | zero => exact Still.bind
  | succ n ih => exact along_expression dead k

theorem matches_evaluate : Matches code (Setting.evaluate ⟨code, memory, host⟩) (anyExpression code) :=
  fun dead k p => (along_within (code.size - p) dead k).agrees p

instance (k : Kind) :
    Along code (Setting.evaluate ⟨code, memory, host⟩ dead k) (anyExpression code k) fun _ _ => True :=
  ⟨matches_evaluate dead k⟩

/-- An expression takes at least the byte of its instruction. -/
theorem evaluate_bounds (h : Setting.evaluate ⟨code, memory, host⟩ dead k p s = ((.ok v, q), s')) :
    p < q ∧ q ≤ code.size := by
  replace h : Setting.evaluateWithin ⟨code, memory, host⟩ (code.size - p) dead k p s = _ := h
  cases hn : code.size - p with
  | zero =>
    rw [hn] at h
    cases h
  | succ n =>
    obtain ⟨rest, scan, hrest, -, halong⟩ := @along_operands memory σ code host _ _ (along_within n) dead k
    rw [hn, Setting.evaluateWithin, hrest] at h
    obtain ⟨_, _, _, hcursor, h₁⟩ := ok_of_bind h
    cases hcursor
    obtain ⟨op, o, t, hop, h₂⟩ := ok_of_bind h₁
    obtain ⟨-, rfl, -⟩ := byte_eq_ok hop
    have hlast := ((halong p op).agrees (p + 1) t).1
    rw [h₂] at hlast
    obtain ⟨hback, hout⟩ : p + 1 ≤ q ∧ q ≤ max (p + 1) code.size := hlast
    omega

end Expressions

section Statements

variable {code} {γ : Type} {host : Host σ}

/-- From behind the header the machine stays behind it, also in a fault. Where it gets on, the scan gets to the same
place, or says that this is where to jump. -/
def Goes (x : Exec σ α) (r : Scan (Option Nat)) : Prop :=
  ∀ p s, (headerSize ≤ p → headerSize ≤ (x p s).1.2) ∧ ∀ a q s', x p s = ((.ok a, q), s') →
    ∃ target? stop, r p = some (target?, stop) ∧ (q = stop ∨ target? = some q)

variable {x : Exec σ α} {f : α → Exec σ γ} {r : Scan β} {g : β → Scan (Option Nat)} {fits : α → β → Prop}

theorem Agrees.goes (hx : Agrees code x r fits) (hf : ∀ a b, fits a b → Goes (f a) (g b)) :
    Goes (x >>= f) (r >>= g) := by
  refine fun p s => ⟨fun hp => ?_, fun c q s' h => ?_⟩
  · refine end_of_bind (Nat.le_trans hp (hx p s).1.1) fun a o t hxa ho => ?_
    obtain ⟨b, hab, -⟩ := (hx p s).2 a o t hxa
    exact (hf a b hab o t).1 ho
  · obtain ⟨a, o, t, hxa, hfa⟩ := ok_of_bind h
    obtain ⟨b, hab, hr⟩ := (hx p s).2 a o t hxa
    obtain ⟨target?, stop, hg, hq⟩ := (hf a b hab o t).2 c q s' hfa
    refine ⟨target?, stop, ?_, hq⟩
    rw [bind_apply, hr]
    exact hg

theorem Still.goes (hx : Still x) (target? : Option Nat) : Goes x (pure target?) := by
  intro p s
  have hstays := hx.stays p s
  refine ⟨fun hp => hstays.symm ▸ hp, fun a q s' h => ⟨target?, p, rfl, .inl ?_⟩⟩
  rwa [h] at hstays

variable (code) in
/-- A statement that goes on behind its operands. -/
theorem goes_done [hx : Along code x r fits] [hf : ∀ a, Still (f a)] : Goes (x >>= f) (r >>= fun _ => pure none) :=
  hx.agrees.goes fun a _ _ => (hf a).goes none

instance : Along code (Setting.assignOperator ⟨code, memory, host⟩) (opcode code) fun _ _ => True := by
  have (op : Opcode) : Still (σ := σ) (match op with
      | .noOp => pure none
      | op => pure (some op)) := by cases op <;> infer_instance
  unfold Setting.assignOperator
  infer_instance

instance (op : Option Opcode) (k : Kind) (position : Nat) {current : Exec σ Value} (given : Value)
    [Still current] : Still (Setting.updated op k position current given) := by
  cases op <;> unfold Setting.updated <;> infer_instance

instance : Along code (Setting.assign ⟨code, memory, host⟩) (assign code) fun _ _ => True := by
  unfold Setting.assign assign
  infer_instance

instance (position : Nat) :
    Along code (Setting.assignProperty ⟨code, memory, host⟩ position) (assignProperty code) fun _ _ => True := by
  have (t : Pointer) (symbol : Symbol) (v : Value) : Still (match host.assignProperty with
      | none => halt (.missing .assignProperty)
      | some f => ask (f t symbol v)) := by split <;> infer_instance
  unfold Setting.assignProperty assignProperty
  infer_instance

instance (position : Nat) :
    Along code (Setting.assignSubscript ⟨code, memory, host⟩ position) (assignSubscript code) fun _ _ => True := by
  have (t : Pointer) (index v : Value) : Still (match host.assignSubscript with
      | none => halt (.missing .assignSubscript)
      | some f => ask (f t index v)) := by split <;> infer_instance
  unfold Setting.assignSubscript assignSubscript
  infer_instance

theorem goes_conditional : Goes (σ := σ)
    (do
      let condition ← Evaluator.bool (Setting.evaluate ⟨code, memory, host⟩) false
      let distance ← Code.word code
      if !condition then goTo ((← cursor) + distance)
      return m) (operands code .conditional) := by
  refine (@along_bool σ code _ _ false _).agrees.goes fun condition _ _ =>
    (agrees_word code).goes fun distance _ h => ?_
  subst h
  intro p s
  cases condition with
  | true =>
    refine ⟨id, ?_⟩
    rintro a q s' ⟨⟩
    exact ⟨_, _, rfl, .inl rfl⟩
  | false =>
    refine ⟨fun hp => Nat.le_add_right_of_le hp, ?_⟩
    rintro a q s' ⟨⟩
    exact ⟨_, _, rfl, .inr rfl⟩

theorem goes_forward : Goes (σ := σ)
    (do
      let distance ← Code.word code
      goTo ((← cursor) + distance)
      return m) (operands code .forward) := by
  refine (agrees_word code).goes fun distance _ h => ?_
  subst h
  refine fun p s => ⟨fun hp => Nat.le_add_right_of_le hp, ?_⟩
  rintro a q s' ⟨⟩
  exact ⟨_, _, rfl, .inr rfl⟩

theorem goes_back : Goes (σ := σ)
    (do
      let distance ← Code.word code
      let c ← cursor
      if headerSize + distance ≤ c then
        goTo (c - distance)
        return m
      else malformed position .jumpBeforeStart) (operands code .back) := by
  refine (agrees_word code).goes fun distance _ h => ?_
  subst h
  intro p s
  show (_ → headerSize ≤ (Prod.fst (ite _ (goTo _ >>= _) _ p s)).2) ∧ ∀ a q s', ite _ (goTo _ >>= _) _ p s = _ → _
  split
  · rename_i hle
    refine ⟨fun _ => Nat.le_sub_of_add_le hle, ?_⟩
    rintro a q s' ⟨⟩
    refine ⟨some (p - distance), p, ?_, .inr rfl⟩
    show (if headerSize + distance ≤ p then (pure (some (p - distance)) : Scan (Option Nat)) else failure) p = _
    rw [if_pos hle]
    rfl
  · exact ⟨id, nofun⟩

/-- What a statement does behind its instruction. -/
theorem statement_goes : ∃ rest : Nat → Opcode → Exec σ (Signal × Memory),
    Setting.statement ⟨code, memory, host⟩ = (cursor >>= fun c => Code.opcode code >>= rest c) ∧
      ∀ c op, Goes (rest c op) (operands code op) := by
  refine ⟨_, rfl, fun c op => ?_⟩
  cases op with
  | noOp | exit => exact (still_pure _).goes none
  | assign | assignProperty | assignSubscript | callUnused | metadata | debugDelete | debugLine => exact goes_done code
  | conditional => exact goes_conditional
  | forward => exact goes_forward
  | back => exact goes_back
  | debugUpdate =>
    refine (agrees_text code).goes fun _ _ _ => (along_kind code).agrees.goes fun k _ hk => ?_
    subst hk
    exact goes_done code
  | _ => exact fun p s => ⟨id, nofun⟩

/-- From behind the header a statement does not lead back into it, also in a fault. -/
theorem statement_behind (hp : headerSize ≤ p) :
    headerSize ≤ (Setting.statement ⟨code, memory, host⟩ p s).1.2 := by
  obtain ⟨rest, hstatement, hrest⟩ := statement_goes
  rw [hstatement]
  have hgoes : Goes (Code.opcode code >>= rest p) (opcode code >>= operands code) :=
    (along_opcode code).agrees.goes fun op _ h => h ▸ hrest p op
  exact (hgoes p s).1 hp

/-- After a statement the machine is where the scan ends, or where it says that the statement jumps. -/
theorem statement_of_ok (h : Setting.statement ⟨code, memory, host⟩ p s = ((.ok a, q), s')) :
    ∃ st, statement code p = some st ∧ (q = st.stop ∨ st.target? = some q) := by
  obtain ⟨rest, hstatement, hrest⟩ := statement_goes
  rw [hstatement] at h
  obtain ⟨_, _, _, hcursor, h⟩ := ok_of_bind h
  cases hcursor
  obtain ⟨op, o, t, hop, h⟩ := ok_of_bind h
  obtain ⟨_, rfl, hscan⟩ := ((along_opcode code).agrees p s).2 op o t hop
  obtain ⟨target?, stop, hoperands, hq⟩ := (hrest p op o t).2 a q s' h
  exact ⟨⟨op, p, stop, target?⟩, by simp [statement, hscan, hoperands], hq⟩

end Statements

end Scan

end HostScript
