import HostScript.Proofs.Running

/-! One code before two hosts.

As long as two hosts give the same answers, the machine does the same before both, on any
code: it reads the same bytes, leaves the same memory and halts with the same fault at the
same place. What becomes of the hosts is up to a relation between their states, which every
handler has to keep (`Host.Match`). If an answer may differ, the two runs part, and all that is
left is what either of them keeps on its own (`Company`). -/
namespace HostScript

open Setting

section Lockstep

variable {σ τ α β : Type}

/-- How the states of two hosts are related while both get the same questions, and after that. -/
structure Company (σ τ : Type) where
  near : σ → τ → Prop
  apart : σ → τ → Prop

/-- Hosts that never part. -/
def Company.always (R : σ → τ → Prop) : Company σ τ := ⟨R, fun _ _ => False⟩

/-- Both computations do the same and leave the hosts near, or they part. Once the hosts are apart, neither of the
two brings them together again. -/
structure Company.Keeps (C : Company σ τ) (c : StateM σ α) (d : StateM τ α) : Prop where
  near : ∀ {s t}, C.near s t → (c s).1 = (d t).1 ∧ C.near (c s).2 (d t).2 ∨ C.apart (c s).2 (d t).2
  left : ∀ {s t}, C.apart s t → C.apart (c s).2 t
  right : ∀ {s t}, C.apart s t → C.apart s (d t).2

theorem keeps_always : (Company.always R).Keeps c d ↔ Abreast R Eq c d :=
  ⟨fun h _ _ hst => (h.near hst).resolve_right id, fun h => ⟨fun hst => .inl (h _ _ hst), nofun, nofun⟩⟩

variable {C : Company σ τ}

theorem keeps_pure (a : α) : C.Keeps (pure a) (pure a) := ⟨fun h => .inl ⟨rfl, h⟩, id, id⟩

theorem Company.Keeps.bind (h : C.Keeps c d) (hf : ∀ a, C.Keeps (f a) (g a)) : C.Keeps (c >>= f) (d >>= g) where
  near {s t} hst := by
    obtain ⟨hsame, hst'⟩ | hst' := h.near hst
    · have hnext := (hf (c s).1).near hst'
      rwa [show g (c s).1 (d t).2 = (d >>= g) t by rw [hsame]; rfl] at hnext
    · exact .inr ((hf _).left ((hf _).right hst'))
  left hst := (hf _).left (h.left hst)
  right hst := (hf _).right (h.right hst)

/-- The machine does the same before both hosts as long as they are near. -/
class Lockstep (C : Company σ τ) (x : Exec σ α) (y : Exec τ α) : Prop where
  keeps : ∀ p, C.Keeps (x p) (y p)

theorem Lockstep.bind (h : Lockstep C x y) (hf : ∀ a, Lockstep C (f a) (g a)) : Lockstep C (x >>= f) (y >>= g) := by
  refine ⟨fun p => ?_⟩
  show C.Keeps (x p >>= fun r => ExceptT.bindCont f r.1 r.2) (y p >>= fun r => ExceptT.bindCont g r.1 r.2)
  refine (h.keeps p).bind fun (r, q) => ?_
  cases r with
  | error fault => exact keeps_pure _
  | ok a => exact (hf a).keeps q

instance {x : Exec σ α} {y : Exec τ α} {f : α → Exec σ β} {g : α → Exec τ β} [h : Lockstep C x y]
    [hf : ∀ a, Lockstep C (f a) (g a)] : Lockstep C (x >>= f) (y >>= g) := h.bind hf

instance lockstep_pure (a : α) : Lockstep C (pure a : Exec σ α) (pure a : Exec τ α) := ⟨fun _ => keeps_pure _⟩

instance lockstep_halt (fault : Fault) : Lockstep C (Exec.halt fault : Exec σ α) (Exec.halt fault : Exec τ α) :=
  ⟨fun _ => keeps_pure _⟩

instance (p : Nat) (reason : Malformed) :
    Lockstep C (Exec.malformed p reason : Exec σ α) (Exec.malformed p reason : Exec τ α) := lockstep_halt _

instance lockstep_cursor : Lockstep C (Exec.cursor : Exec σ Nat) (Exec.cursor : Exec τ Nat) := ⟨fun _ => keeps_pure _⟩

instance (n : Nat) : Lockstep C (Exec.goTo n : Exec σ Unit) (Exec.goTo n : Exec τ Unit) :=
  ⟨fun _ => keeps_pure _⟩

instance {b : Prop} [Decidable b] {x x' : Exec σ α} {y y' : Exec τ α} [Lockstep C x y] [Lockstep C x' y'] :
    Lockstep C (if b then x else x') (if b then y else y') := by
  split <;> infer_instance

instance (p : Nat) (e : Except Malformed α) :
    Lockstep C (Exec.checked p e : Exec σ α) (Exec.checked p e : Exec τ α) := by
  cases e <;> unfold Exec.checked <;> infer_instance

instance (p : Nat) (reason : Malformed) (o : Option α) :
    Lockstep C (Exec.orMalformed p reason o : Exec σ α) (Exec.orMalformed p reason o : Exec τ α) := by
  cases o <;> unfold Exec.orMalformed <;> infer_instance

theorem lockstep_ask (h : C.Keeps c d) : Lockstep C (Exec.ask c) (Exec.ask d) := by
  refine ⟨fun p => ?_⟩
  show C.Keeps (c >>= fun a => pure (Except.ok a, p)) (d >>= fun a => pure (Except.ok a, p))
  exact h.bind fun _ => keeps_pure _

variable (code : Array UInt8)

instance : Lockstep C (Code.byte code : Exec σ UInt8) (Code.byte code : Exec τ UInt8) := by
  unfold Code.byte
  infer_instance

instance (n : Nat) : Lockstep C (Code.bytes code n : Exec σ (List UInt8)) (Code.bytes code n : Exec τ _) := by
  unfold Code.bytes
  infer_instance

instance : Lockstep C (Code.word code : Exec σ Nat) (Code.word code : Exec τ Nat) := by
  unfold Code.word
  infer_instance

instance lockstep_opcode : Lockstep C (Code.opcode code : Exec σ Opcode) (Code.opcode code : Exec τ Opcode) := by
  unfold Code.opcode
  infer_instance

instance : Lockstep C (Code.kind code : Exec σ Kind) (Code.kind code : Exec τ Kind) := by
  unfold Code.kind
  infer_instance

instance : Lockstep C (Code.text code : Exec σ String) (Code.text code : Exec τ String) := by
  refine .bind inferInstance fun c => .bind inferInstance fun stop => ?_
  split <;> infer_instance

instance (k : Kind) : Lockstep C (Code.literal code k : Exec σ Value) (Code.literal code k : Exec τ Value) := by
  unfold Code.literal
  infer_instance

end Lockstep

/-! ### Hosts -/

section Match

variable {σ τ : Type}

/-- Two hosts that give the same answers in related states and keep their states related. Both have a
service or none has; it does not matter whether both have somebody who watches. -/
structure Host.Match (C : Company σ τ) (host : Host σ) (host' : Host τ) : Prop where
  invokeFunction : Option.Rel (fun f g => ∀ target symbol args, C.Keeps (f target symbol args) (g target symbol args))
    host.invokeFunction host'.invokeFunction
  invokeSubscript : Option.Rel (fun f g => ∀ target index, C.Keeps (f target index) (g target index))
    host.invokeSubscript host'.invokeSubscript
  assignProperty : Option.Rel (fun f g => ∀ target symbol value, C.Keeps (f target symbol value) (g target symbol value))
    host.assignProperty host'.assignProperty
  assignSubscript : Option.Rel (fun f g => ∀ target index value, C.Keeps (f target index value) (g target index value))
    host.assignSubscript host'.assignSubscript
  metadata : ∀ text, C.Keeps (Host.notify (host.metadata.map fun f => f text))
    (Host.notify (host'.metadata.map fun f => f text))
  debugLine : ∀ n, C.Keeps (Host.notify (host.debugLine.map fun f => f n)) (Host.notify (host'.debugLine.map fun f => f n))
  debugUpdate : ∀ name value, C.Keeps (Host.notify (host.debugUpdate.map fun f => f name value))
    (Host.notify (host'.debugUpdate.map fun f => f name value))
  debugDelete : ∀ name, C.Keeps (Host.notify (host.debugDelete.map fun f => f name))
    (Host.notify (host'.debugDelete.map fun f => f name))
  error : ∀ fault, C.Keeps (Host.notify (host.error.map fun f => f fault))
    (Host.notify (host'.error.map fun f => f fault))

end Match

/-! ### Expressions -/

section Evaluate

variable {σ τ : Type} {C : Company σ τ} {code : Array UInt8} {memory : Memory} {host : Host σ} {host' : Host τ}
  {eval : Evaluator σ} {eval' : Evaluator τ} {awake : Prop} {dead : Bool}

/-- Both evaluators do the same, whatever is evaluated, dead or `awake`. -/
def Evaluator.Lockstep (C : Company σ τ) (awake : Prop) (eval : Evaluator σ) (eval' : Evaluator τ) : Prop :=
  ∀ {dead : Bool}, (dead = false → awake) → ∀ k, HostScript.Lockstep C (eval dead k) (eval' dead k)

theorem Evaluator.Lockstep.bool (h : eval.Lockstep C awake eval') (hd : dead = false → awake) :
    HostScript.Lockstep C (eval.bool dead) (eval'.bool dead) :=
  lockstep_cursor.bind fun c => (h hd .bool).bind fun v => by cases v <;> infer_instance

theorem Evaluator.Lockstep.pointer (h : eval.Lockstep C awake eval') (hd : dead = false → awake) :
    HostScript.Lockstep C (eval.pointer dead) (eval'.pointer dead) :=
  lockstep_cursor.bind fun c => (h hd .pointer).bind fun v => by cases v <;> infer_instance

theorem Evaluator.Lockstep.skip (h : eval.Lockstep C awake eval') (k : Kind) :
    HostScript.Lockstep C (eval.skip k) (eval'.skip k) :=
  (h (fun hawake => by cases hawake) k).bind fun _ => lockstep_pure ()

instance lockstep_combine (op : Opcode) (k : Kind) (dead : Bool) (position : Nat) (l r : Value) :
    Lockstep C (combine op k dead position l r) (combine op k dead position l r) := by
  unfold combine
  split <;> infer_instance

instance lockstep_checkReturn (expected : Option Kind) (v : Value) :
    Lockstep C (checkReturn expected v) (checkReturn expected v) := by
  unfold checkReturn
  split <;> infer_instance

instance lockstep_requireTarget (target : Option Pointer) :
    Lockstep C (requireTarget target) (requireTarget target) := by
  unfold requireTarget
  split <;> infer_instance

theorem lockstep_callFunction (hm : host.Match C host') (target : Pointer) (symbol : Symbol) (args : List Value)
    (expected : Option Kind) : Lockstep C (callFunction ⟨code, memory, host⟩ target symbol args expected)
      (callFunction ⟨code, memory, host'⟩ target symbol args expected) := by
  unfold callFunction
  exact hm.invokeFunction.rec (fun h => (lockstep_ask (h target symbol args)).bind fun v =>
    lockstep_checkReturn expected v) (lockstep_halt _)

theorem lockstep_callSubscript (hm : host.Match C host') (target : Pointer) (index : Value) (expected : Kind) :
    Lockstep C (callSubscript ⟨code, memory, host⟩ target index expected)
      (callSubscript ⟨code, memory, host'⟩ target index expected) := by
  unfold callSubscript
  split
  · exact lockstep_halt _
  · exact hm.invokeSubscript.rec (fun h => (lockstep_ask (h target index)).bind fun v =>
      lockstep_checkReturn (some expected) v) (lockstep_halt _)

section Parts

variable [hk : ∀ k, Lockstep C (eval dead k) (eval' dead k)] [hb : Lockstep C (eval.bool dead) (eval'.bool dead)]
  [hp : Lockstep C (eval.pointer dead) (eval'.pointer dead)] [hs : ∀ k, Lockstep C (eval.skip k) (eval'.skip k)]

omit hk hb hs in
instance : Lockstep C (target ⟨code, memory, host⟩ eval dead) (target ⟨code, memory, host'⟩ eval' dead) := by
  unfold target
  infer_instance

omit hp hb hs in
instance (n : Nat) : Lockstep C (arguments ⟨code, memory, host⟩ eval dead n)
      (arguments ⟨code, memory, host'⟩ eval' dead n) := by
  induction n <;> unfold arguments <;> infer_instance

section

variable (hd : dead = false → host.Match C host')
include hd

omit hb hs in
theorem lockstep_invokeFunction (expected : Option Kind) :
    Lockstep C (invokeFunction ⟨code, memory, host⟩ eval dead expected)
      (invokeFunction ⟨code, memory, host'⟩ eval' dead expected) := by
  refine .bind inferInstance fun t => .bind inferInstance fun symbol => .bind inferInstance fun count =>
    .bind inferInstance fun args => ?_
  cases dead with
  | true => exact lockstep_pure _
  | false => exact (lockstep_requireTarget t).bind fun p => lockstep_callFunction (hd rfl) p symbol args expected

omit hb hs in
theorem lockstep_invokeSubscript (expected : Kind) :
    Lockstep C (invokeSubscript ⟨code, memory, host⟩ eval dead expected)
      (invokeSubscript ⟨code, memory, host'⟩ eval' dead expected) := by
  refine .bind inferInstance fun t => .bind inferInstance fun k => .bind inferInstance fun index => ?_
  cases dead with
  | true => exact lockstep_pure _
  | false => exact lockstep_callSubscript (hd rfl) t index expected

theorem lockstep_expression (k : Kind) :
    Lockstep C (expression ⟨code, memory, host⟩ eval dead k) (expression ⟨code, memory, host'⟩ eval' dead k) := by
  refine .bind inferInstance fun position => .bind inferInstance fun op => ?_
  cases op with
  | coalesce => exact (hk k).bind fun v => by cases v <;> infer_instance
  | call => exact lockstep_invokeFunction hd (some k)
  | subscript => exact lockstep_invokeSubscript hd k
  | _ => infer_instance

end

end Parts

theorem lockstep_within (n : Nat) : Evaluator.Lockstep C (host.Match C host')
    (evaluateWithin ⟨code, memory, host⟩ n) (evaluateWithin ⟨code, memory, host'⟩ n) := by
  induction n with
  | zero => exact fun _ _ => lockstep_cursor.bind fun c => lockstep_halt _
  | succ n ih =>
    intro dead hd
    have := ih hd
    have := ih.bool hd
    have := ih.pointer hd
    have := ih.skip
    exact lockstep_expression hd

theorem lockstep_evaluate : Evaluator.Lockstep C (host.Match C host') (evaluate ⟨code, memory, host⟩)
    (evaluate ⟨code, memory, host'⟩) :=
  fun hd k => lockstep_cursor.bind fun c => lockstep_within (code.size - c) hd k

end Evaluate

/-! ### Statements -/

section Statements

variable {σ τ : Type} {C : Company σ τ} {code : Array UInt8} {memory : Memory} {host : Host σ} {host' : Host τ}

instance : Lockstep C (assignOperator ⟨code, memory, host⟩) (assignOperator ⟨code, memory, host'⟩) :=
  (lockstep_opcode code).bind fun op => by cases op <;> infer_instance

theorem lockstep_updated (op : Option Opcode) (k : Kind) (position : Nat) (given : Value) (h : Lockstep C x y) :
    Lockstep C (updated op k position x given) (updated op k position y given) := by
  cases op with
  | none => exact lockstep_pure _
  | some op => exact h.bind fun v => lockstep_combine op k false position v given

/-- One statement does the same before both hosts. -/
theorem lockstep_statement (hm : host.Match C host') :
    Lockstep C (statement ⟨code, memory, host⟩) (statement ⟨code, memory, host'⟩) := by
  have he : ∀ k, Lockstep C (evaluate ⟨code, memory, host⟩ false k) (evaluate ⟨code, memory, host'⟩ false k) :=
    lockstep_evaluate fun _ => hm
  have hbool : Lockstep C ((evaluate ⟨code, memory, host⟩).bool false) ((evaluate ⟨code, memory, host'⟩).bool false) :=
    lockstep_evaluate.bool fun _ => hm
  have hpointer : Lockstep C ((evaluate ⟨code, memory, host⟩).pointer false)
      ((evaluate ⟨code, memory, host'⟩).pointer false) := lockstep_evaluate.pointer fun _ => hm
  have hmetadata := fun text => lockstep_ask (hm.metadata text)
  have hline := fun n => lockstep_ask (hm.debugLine n)
  have hupdate := fun name value => lockstep_ask (hm.debugUpdate name value)
  have hdelete := fun name => lockstep_ask (hm.debugDelete name)
  refine .bind inferInstance fun position => .bind inferInstance fun op => ?_
  cases op with
  | assign =>
    unfold assign
    infer_instance
  | assignProperty =>
    refine .bind ?_ fun _ => lockstep_pure _
    refine .bind inferInstance fun k => .bind inferInstance fun t => .bind inferInstance fun symbol =>
      .bind inferInstance fun op => .bind inferInstance fun given => .bind inferInstance fun p => ?_
    exact (lockstep_updated op k position given (lockstep_callFunction hm p symbol [] (some k))).bind fun v =>
      hm.assignProperty.rec (fun h => lockstep_ask (h p symbol v)) (lockstep_halt _)
  | assignSubscript =>
    refine .bind ?_ fun _ => lockstep_pure _
    refine .bind inferInstance fun k => .bind inferInstance fun t => .bind inferInstance fun j =>
      .bind inferInstance fun index => .bind inferInstance fun op => .bind inferInstance fun given => ?_
    split
    · exact lockstep_halt _
    · exact (lockstep_updated op k position given (lockstep_callSubscript hm t index k)).bind fun v =>
        hm.assignSubscript.rec (fun h => lockstep_ask (h t index v)) (lockstep_halt _)
  | callUnused => exact (lockstep_invokeFunction (fun _ => hm) none).bind fun _ => lockstep_pure _
  | _ => infer_instance

end Statements

/-! ### Runs -/

section Runs

variable {σ τ : Type} {C : Company σ τ} {host : Host σ} {host' : Host τ}

theorem keeps_step (hm : host.Match C host') (m : Machine) : C.Keeps (m.step host) (m.step host') := by
  obtain ⟨next, hstep⟩ : ∃ next : Except Fault (Signal × Memory) × Nat → Except Fault Signal × Machine,
      ∀ {ρ : Type} (host : Host ρ), m.step host = statement ⟨m.code, m.memory, host⟩ m.cursor >>= fun r => pure (next r) := by
    refine ⟨fun r => (r.1.map Prod.fst, { m with cursor := r.2, memory := (r.1.toOption.map Prod.snd).getD m.memory }),
      fun host => ?_⟩
    funext s
    unfold Machine.step
    show _ = StateT.bind _ _ s
    unfold StateT.bind
    rcases statement ⟨m.code, m.memory, host⟩ m.cursor s with ⟨⟨_ | _, _⟩, _⟩ <;> rfl
  rw [hstep, hstep]
  exact ((lockstep_statement hm).keeps m.cursor).bind fun _ => keeps_pure _

/-- However many statements are run, both runs have come to the same machine, and have ended alike if
they have. -/
theorem keeps_run (hm : host.Match C host') (n : Nat) (m : Machine) : C.Keeps (m.run host n) (m.run host' n) := by
  induction n generalizing m with
  | zero => exact keeps_pure _
  | succ n ih =>
    unfold Machine.run
    split
    · exact keeps_pure _
    · refine (keeps_step hm m).bind fun r => ?_
      obtain ⟨fault | signal, m'⟩ := r
      · exact keeps_pure _
      · cases signal with
        | proceed => exact ih m'
        | exit => exact keeps_pure _

/-- A run from the start ends alike before both hosts, and both are told if it halts. -/
theorem keeps_execute (hm : host.Match C host') (limit : Nat) (code : Array UInt8) :
    C.Keeps (execute host limit code) (execute host' limit code) := by
  unfold execute
  rcases Machine.new code with fault | m
  on_goal 1 => refine (keeps_pure _).bind fun ending => ?_
  on_goal 2 => refine ((keeps_run hm limit m).bind fun r => keeps_pure r.1).bind fun ending => ?_
  all_goals
    cases ending with
    | halted fault => exact (hm.error fault).bind fun _ => keeps_pure _
    | _ => exact keeps_pure _

end Runs

end HostScript
