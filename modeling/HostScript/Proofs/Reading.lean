import HostScript.Proofs.Meaning

/-! The machine on code that is known.

Where the bytes of a tree stand in code, the machine does what the tree does, and
moves its cursor to the end of the bytes. `Follows` says this of a part of the
machine: started at a position it gives what the tree gives, leaves the host as the
tree leaves it and ends at a position that depends on the result only. Faults agree
but for the place that a malformed one names. -/
namespace HostScript

open List

variable {dead : Bool} {rest : List UInt8} {memory : Memory} {bound q : Nat} {R : Rules} {σ : Type}
  {k : Kind} {bs : List UInt8} {e p p' : Nat} {op : Opcode} {α : Type} {b : UInt8} {v : Value}

/-! ### Bytes at a position -/

namespace Code

/-- The bytes stand in the code at a position. -/
def HasAt (code : Array UInt8) (p : Nat) (bs : List UInt8) : Prop := bs <+: code.toList.drop p

variable {code : Array UInt8}

theorem hasAt_append : HasAt code p (as ++ bs) ↔ HasAt code p as ∧ HasAt code (p + as.length) bs := by
  unfold HasAt
  rw [← drop_drop]
  constructor
  · rintro ⟨rest, h⟩
    rw [← h, append_assoc]
    refine ⟨prefix_append _ _, ?_⟩
    rw [drop_left]
    exact prefix_append _ _
  · rintro ⟨⟨rest, h⟩, hb⟩
    rw [← h, drop_left] at hb
    obtain ⟨tail, rfl⟩ := hb
    exact ⟨tail, by rw [← h, append_assoc]⟩

theorem hasAt_cons : HasAt code p (b :: bs) ↔ code[p]? = some b ∧ HasAt code (p + 1) bs := by
  rw [show b :: bs = [b] ++ bs from rfl, hasAt_append]
  unfold HasAt
  rw [← Array.getElem?_toList, ← List.head?_drop]
  cases code.toList.drop p with
  | nil => simp
  | cons c rest => simp [cons_prefix_cons, eq_comm]

theorem HasAt.le_size (h : HasAt code p bs) (hne : bs ≠ []) : p + bs.length ≤ code.size := by
  have hlen := h.length_le
  have hsize : code.toList.length = code.size := Array.length_toList
  have hpos : 0 < bs.length := length_pos_iff.2 hne
  rw [length_drop] at hlen
  omega

theorem HasAt.extract (h : HasAt code p bs) : (code.extract p (p + bs.length)).toList = bs := by
  obtain ⟨rest, hr⟩ := h
  rw [Array.toList_extract, extract_eq_take_drop, ← hr, Nat.add_sub_cancel_left, take_left]

theorem zeroFrom_text (h0 : (0 : UInt8) ∉ bs) (h : HasAt code p (bs ++ [0])) :
    ∀ n, bs.length < n → zeroFrom code n p = some (p + bs.length) := by
  induction bs generalizing p with
  | nil =>
    intro n hn
    obtain ⟨n, rfl⟩ := Nat.exists_eq_add_of_lt hn
    rw [nil_append, hasAt_cons] at h
    simp [zeroFrom, h.1]
  | cons b rest ih =>
    intro n hn
    obtain ⟨m, rfl⟩ : ∃ m, n = m + 1 := ⟨n - 1, by simp at hn; omega⟩
    rw [cons_append, hasAt_cons] at h
    rw [mem_cons, not_or] at h0
    have hb : ¬ code[p]? = some 0 := by
      rw [h.1]
      intro heq
      exact h0.1 (Option.some.inj heq).symm
    rw [zeroFrom, if_neg hb, ih h0.2 h.2 m (by simp at hn; omega), length_cons]
    congr 1
    omega

end Code

/-! ### Following a tree -/

/-- The fault without the place. -/
def Fault.placeless : Fault → Fault
  | .malformed _ reason => .malformed 0 reason
  | f => f

section Follows

variable {β : Type}

/-- From position `p` on the machine does what the tree does, and ends where `q` says. -/
def Follows (x : Exec σ α) (p : Nat) (t : Effect σ α) (q : α → Nat) : Prop := ∀ s,
  (∀ a s', t s = (.ok a, s') → x p s = ((.ok a, q a), s')) ∧
    ∀ f s', t s = (.error f, s') →
      ∃ f' c, x p s = ((.error f', c), s') ∧ f'.placeless = f.placeless

theorem Exec.bind_apply (x : Exec σ α) (f : α → Exec σ β) (p : Nat) (s : σ) :
    (x >>= f) p s = match x p s with
      | ((.ok a, q), s') => f a q s'
      | ((.error e, q), s') => ((.error e, q), s') := by
  show (ExceptT.bindCont f (x p s).1.1) (x p s).1.2 (x p s).2 = _
  rcases x p s with ⟨⟨r | r, q⟩, s'⟩ <;> rfl

namespace Follows

theorem pure (a : α) (p : Nat) : Follows (σ := σ) (Pure.pure a) p (Pure.pure a) fun _ => p := by
  intro s
  constructor
  · rintro b s' h
    cases h
    rfl
  · rintro f s' h
    cases h

theorem bind {q : α → Nat} (hx : Follows x p t q) (hf : ∀ a, Follows (f a) (q a) (g a) r) :
    Follows (x >>= f) p (t >>= g) r := by
  intro s
  rw [Exec.bind_apply, Effect.bind_apply]
  obtain ⟨hok, herr⟩ := hx s
  rcases ht : t s with ⟨e | a, s'⟩
  · obtain ⟨e', c, hx, he⟩ := herr e s' ht
    rw [hx]
    constructor
    · rintro b s'' h
      cases h
    · rintro f s'' h
      cases h
      exact ⟨e', c, rfl, he⟩
  · rw [hok a s' ht]
    exact hf a s'

/-- The same with the end written in another way. -/
theorem ends (h : Follows x p t fun _ => q) (he : q = q') : Follows x p t fun _ => q' := he ▸ h

/-- Reading code is not part of the tree. -/
theorem read {x : Exec σ α} (hx : ∀ s, x p s = ((.ok a, p'), s)) (hf : Follows (f a) p' t r) :
    Follows (x >>= f) p t r := by
  intro s
  rw [Exec.bind_apply, hx]
  exact hf s

theorem reading {x : Exec σ α} (hx : ∀ s, x p s = ((.ok a, p'), s)) : Follows x p (Pure.pure a) fun _ => p' := by
  intro s
  constructor
  · rintro b s' h
    cases h
    exact hx s
  · rintro f s' h
    cases h

theorem halt (f : Fault) (p : Nat) (q : α → Nat) : Follows (σ := σ) (Exec.halt f) p (Effect.halt f) q := by
  intro s
  constructor
  · rintro a s' h
    cases h
  · rintro f s' h
    cases h
    exact ⟨f, p, rfl, rfl⟩

theorem malformed (reason : Malformed) (place p : Nat) (q : α → Nat) :
    Follows (σ := σ) (Exec.malformed place reason) p (Effect.malformed reason) q := by
  intro s
  constructor
  · rintro a s' h
    cases h
  · rintro f s' h
    cases h
    exact ⟨.malformed place reason, p, rfl, rfl⟩

theorem ask (action : StateM σ α) (p : Nat) : Follows (Exec.ask action) p (Effect.ask action) fun _ => p := by
  intro s
  constructor
  · rintro a s' h
    cases h
    rfl
  · rintro f s' h
    cases h

theorem orMalformed (reason : Malformed) (place p : Nat) (o : Option α) :
    Follows (σ := σ) (Exec.orMalformed place reason o) p (Effect.orMalformed reason o) fun _ => p := by
  cases o with
  | none => exact malformed reason place p _
  | some a => exact pure a p

theorem checked (place p : Nat) (e : Except Malformed α) :
    Follows (σ := σ) (Exec.checked place e) p (Effect.checked e) fun _ => p := by
  cases e with
  | error reason => exact malformed reason place p _
  | ok a => exact pure a p

end Follows

end Follows

/-! ### Operands -/

/-- A number or truth value reads back from its bytes. -/
theorem Value.ofBytes_bytes (hk : v.kind? = some k) (hs : k ≠ .string) : Value.ofBytes k v.bytes = v := by
  have hbits : ∀ n : Nat, 256 ^ n = 2 ^ (8 * n) := fun n => by rw [Nat.pow_mul]
  cases v with
  | nothing => cases hk
  | int j w =>
    cases hk
    simp only [Value.ofBytes, Value.bytes, Bytes.toNat_ofNat, hbits]
    rw [Nat.mod_eq_of_lt w.isLt, BitVec.ofNat_toNat, BitVec.setWidth_eq]
  | float j x =>
    cases hk
    simp only [Value.ofBytes, Value.bytes, Bytes.toNat_ofNat, hbits]
    rw [Nat.mod_eq_of_lt x.bits.isLt, BitVec.ofNat_toNat, BitVec.setWidth_eq]
  | bool b => cases hk; cases b <;> rfl
  | string s => cases hk; exact absurd rfl hs
  | pointer p =>
    cases hk
    simp only [Value.ofBytes, Value.bytes, Bytes.toNat_ofNat]
    rw [Nat.mod_eq_of_lt p.isLt, BitVec.ofNat_toNat, BitVec.setWidth_eq]

theorem Value.length_bytes (hk : v.kind? = some k) : v.bytes.length = k.size := by
  cases v with
  | nothing => cases hk
  | int _ _ | float _ _ | pointer _ => cases hk; simp [Value.bytes, Kind.size]
  | bool _ | string _ => cases hk; rfl

theorem Kind.size_pos (h : k ≠ .string) : 0 < k.size := by
  cases k with
  | int k | float k => cases k <;> decide
  | bool | pointer => decide
  | string => exact absurd rfl h

namespace Code

variable {code : Array UInt8}

theorem byte_apply (h : code[p]? = some b) (s : σ) : byte code p s = ((.ok b, p + 1), s) := by
  show (Exec.orMalformed p .endOfCode code[p]? >>= fun b => Exec.goTo (p + 1) >>= fun _ =>
    (Pure.pure b : Exec σ UInt8)) p s = _
  rw [h]
  rfl

theorem opcode_apply (h : code[p]? = some op.code) (s : σ) : opcode code p s = ((.ok op, p + 1), s) := by
  show (byte code >>= fun b => (Exec.orMalformed p (.unknownOpcode b) (Opcode.ofCode? b) : Exec σ Opcode))
    p s = _
  rw [Exec.bind_apply, byte_apply h]
  dsimp only
  rw [Opcode.ofCode?_code]
  rfl

theorem kind_apply (h : code[p]? = some k.code) (s : σ) : kind code p s = ((.ok k, p + 1), s) := by
  show (byte code >>= fun b => (Exec.orMalformed p (.unknownKind b) (Kind.ofCode? b) : Exec σ Kind))
    p s = _
  rw [Exec.bind_apply, byte_apply h]
  dsimp only
  rw [Kind.ofCode?_code]
  rfl

theorem bytes_apply (h : HasAt code p bs) (hne : bs ≠ []) (s : σ) :
    bytes code bs.length p s = ((.ok bs, p + bs.length), s) := by
  show (if p + bs.length ≤ code.size then (do
      Exec.goTo (p + bs.length)
      return (code.extract p (p + bs.length)).toList : Exec σ (List UInt8))
    else Exec.malformed p .endOfCode) p s = _
  rw [if_pos (h.le_size hne), h.extract]
  rfl

theorem word_apply (h : HasAt code p (Bytes.ofNat 2 n)) (s : σ) : word code p s = ((.ok (n % 256 ^ 2), p + 2), s) := by
  have hbytes := bytes_apply h (by simp [Bytes.ofNat]) s
  rw [Bytes.length_ofNat] at hbytes
  show (bytes code 2 >>= fun bs => (Pure.pure (Bytes.toNat bs) : Exec σ Nat)) p s = _
  rw [Exec.bind_apply, hbytes, ← Bytes.toNat_ofNat]
  rfl

theorem text_of_zeroFrom (h : zeroFrom code (code.size - p) p = some stop) (s : σ) :
    text code p s = (match Utf8.decode (code.extract p stop).toList with
      | .error fault => (Exec.malformed p (.invalidText fault) : Exec σ String)
      | .ok chars => do
        Exec.goTo (stop + 1)
        return String.ofList chars) p s := by
  show (Exec.orMalformed p .unterminatedText (zeroFrom code (code.size - p) p) >>= fun stop => _ : Exec σ String) p s = _
  rw [h]
  rfl

theorem text_apply (ht : Clean t) (h : HasAt code p (Utf8.encode t ++ [0])) (s : σ) :
    text code p s = ((.ok t, p + (Utf8.encode t ++ [0]).length), s) := by
  have hsize := h.le_size (by simp)
  rw [length_append, length_singleton] at hsize
  have hstop := zeroFrom_text ht.zero_notMem h (code.size - p) (by omega)
  have hbytes := (hasAt_append.1 h).1.extract
  rw [text_of_zeroFrom hstop, hbytes, Utf8.decode_encode, length_append, length_singleton]
  show ((Except.ok (String.ofList t.toList), p + (Utf8.encode t).length + 1), s) = _
  rw [String.ofList_toList, Nat.add_assoc]

theorem literal_apply (hv : v.Writable k) (h : HasAt code p v.encoded) (s : σ) :
    literal code k p s = ((.ok v, p + v.encoded.length), s) := by
  by_cases hk : k = .string
  · subst hk
    obtain ⟨t, rfl⟩ : ∃ t, v = .string t := by
      have := hv.kind
      cases v <;> simp [Value.kind?] at this
      exact ⟨_, rfl⟩
    show (text code >>= fun t => (Pure.pure (Value.string t) : Exec σ Value)) p s = _
    rw [Exec.bind_apply, text_apply hv.clean h]
    rfl
  · have henc : v.encoded = v.bytes := by
      have := hv.kind
      cases v <;> first | rfl | exact absurd (Option.some.inj this).symm hk
    have hlen := Value.length_bytes hv.kind
    have hbytes := bytes_apply (henc ▸ h) (by
      intro hnil
      have := Kind.size_pos hk
      rw [hnil] at hlen
      simp at hlen
      omega) s
    rw [hlen] at hbytes
    show ite (k = .string) (text code >>= fun t => (Pure.pure (Value.string t) : Exec σ Value))
      (bytes code k.size >>= fun bs => Pure.pure (Value.ofBytes k bs)) p s = _
    rw [if_neg hk, Exec.bind_apply, hbytes, henc, hlen]
    show ((Except.ok (Value.ofBytes k v.bytes), p + k.size), s) = _
    rw [Value.ofBytes_bytes hv.kind hk]

end Code

/-! ### Expressions -/

/-- The bytes of pieces once the numbers of host members are in place. -/
def Piece.final (numbers : String → Nat) (ps : List Piece) : List UInt8 :=
  bytesOf (ps.map (Piece.resolve numbers))

section Final

variable (numbers : String → Nat)

@[simp] theorem Piece.final_nil : final numbers [] = [] := rfl

@[simp] theorem Piece.final_append (ps qs : List Piece) :
    final numbers (ps ++ qs) = final numbers ps ++ final numbers qs := by
  simp [final]

@[simp] theorem Piece.final_cons (p : Piece) (ps : List Piece) :
    final numbers (p :: ps) = (p.resolve numbers).bytes ++ final numbers ps := rfl

attribute [local simp] Piece.resolve Piece.bytes Piece.op Piece.kind Piece.variable Piece.text Piece.distance Piece.jump

mutual
def Node.code : Node → List UInt8
  | .literal v => Opcode.code .literal :: v.encoded
  | .bool b => [Opcode.code (if b then .literalTrue else .literalFalse)]
  | .null => [Opcode.code .literalNull]
  | .variable _ a => Opcode.code .variable :: Bytes.ofNat 2 a
  | .arith op l r => Opcode.code (.arith op) :: (l.code ++ r.code)
  | .concat l r => Opcode.code .concat :: (l.code ++ r.code)
  | .negate n => Opcode.code .negate :: n.code
  | .complement n => Opcode.code .complement :: n.code
  | .not n => Opcode.code .not :: n.code
  | .and l r => Opcode.code .and :: (l.code ++ r.code)
  | .or l r => Opcode.code .or :: (l.code ++ r.code)
  | .compare op k l r => Opcode.code (.compare op) :: k.code :: (l.code ++ r.code)
  | .ternary c y n => Opcode.code .ternary :: (c.code ++ (y.code ++ n.code))
  | .coalesce l r => Opcode.code .coalesce :: (l.code ++ r.code)
  | .cast k n => Opcode.code .typecast :: k.code :: n.code
  | .call t d args =>
    Opcode.code .call :: (t.code ++ (Bytes.ofNat 2 (numbers d) ++ (UInt8.ofNat args.length :: args.code)))
  | .subscript t k i => Opcode.code .subscript :: (t.code ++ (k.code :: i.code))

def Target.code : Target → List UInt8
  | .global => [Opcode.code .noOp]
  | .of n => n.code

def Args.code : Args → List UInt8
  | .nil => []
  | .cons k n rest => k.code :: (n.code ++ rest.code)
end

mutual
theorem Node.final_pieces : (n : Node) → Piece.final numbers n.pieces = n.code numbers
  | .literal _ | .bool _ | .null | .variable _ _ => by simp [Node.pieces, Node.code]
  | .arith _ l r | .concat l r | .and l r | .or l r | .compare _ _ l r | .coalesce l r => by
    simp [Node.pieces, Node.code, l.final_pieces, r.final_pieces]
  | .negate n | .complement n | .not n | .cast _ n => by simp [Node.pieces, Node.code, n.final_pieces]
  | .ternary c y n => by
    simp [Node.pieces, Node.code, c.final_pieces, y.final_pieces, n.final_pieces]
  | .call t d args => by simp [Node.pieces, Node.code, t.final_pieces, args.final_pieces]
  | .subscript t k i => by simp [Node.pieces, Node.code, t.final_pieces, i.final_pieces]

theorem Target.final_pieces : (t : Target) → Piece.final numbers t.pieces = t.code numbers
  | .global => by simp [Target.pieces, Target.code]
  | .of n => n.final_pieces

theorem Args.final_pieces : (args : Args) → Piece.final numbers args.pieces = args.code numbers
  | .nil => rfl
  | .cons k n rest => by simp [Args.pieces, Args.code, n.final_pieces, rest.final_pieces]
end

/-- The bytes of a call behind its instruction. -/
def callCode (t : Target) (d : String) (args : Args) : List UInt8 :=
  t.code numbers ++ (Bytes.ofNat 2 (numbers d) ++ (UInt8.ofNat args.length :: args.code numbers))

def Instr.code (i : Instr) : List UInt8 := Piece.final numbers i.pieces

def Instr.opcode : Instr → Opcode
  | .assign .. => .assign
  | .assignProperty .. => .assignProperty
  | .assignSubscript .. => .assignSubscript
  | .callUnused .. => .callUnused
  | .conditional .. => .conditional
  | .forward _ => .forward
  | .back _ => .back
  | .exit => .exit
  | .metadata _ => .metadata
  | .debugLine _ | .clearedLine => .debugLine
  | .debugUpdate .. => .debugUpdate
  | .debugDelete _ => .debugDelete
  | .leap _ => .placeholder

/-- The bytes of a statement behind its instruction. -/
def Instr.operands : Instr → List UInt8
  | .assign k a v => k.code :: (Bytes.ofNat 2 a ++ v.code numbers)
  | .assignProperty k t d op v =>
    k.code :: (t.code numbers ++ (Bytes.ofNat 2 (numbers d) ++ (op.code :: v.code numbers)))
  | .assignSubscript k t j i op v =>
    k.code :: (t.code numbers ++ (j.code :: (i.code numbers ++ (op.code :: v.code numbers))))
  | .callUnused t d args => callCode numbers t d args
  | .conditional c d => c.code numbers ++ Bytes.ofNat 2 (min d 65535)
  | .forward d | .back d => Bytes.ofNat 2 (min d 65535)
  | .exit => []
  | .metadata s | .debugDelete s => Utf8.encode s ++ [0]
  | .debugLine n => Bytes.ofNat 2 n
  | .clearedLine | .leap _ => Bytes.ofNat 2 0
  | .debugUpdate name k v => Utf8.encode name ++ [0] ++ k.code :: v.code numbers

theorem Instr.code_eq (i : Instr) : i.code numbers = i.opcode.code :: i.operands numbers := by
  cases i <;> simp [code, pieces, opcode, operands, callCode, Node.final_pieces, Target.final_pieces, Args.final_pieces]
  all_goals decide

end Final

open Code Setting

section Expressions

variable {code : Array UInt8} {eval : Evaluator σ}

theorem Follows.bool {t : Effect σ Value} (h : Follows (eval dead .bool) p t fun _ => q) :
    Follows (eval.bool dead) p (t >>= World.toBool) fun _ => q := by
  refine Follows.read (fun _ => rfl) (h.bind fun v => ?_)
  cases v with
  | bool b => exact Follows.pure b q
  | _ => exact Follows.malformed _ p q _

theorem Follows.pointer {t : Effect σ Value} (h : Follows (eval dead .pointer) p t fun _ => q) :
    Follows (eval.pointer dead) p (t >>= World.toPointer) fun _ => q := by
  refine Follows.read (fun _ => rfl) (h.bind fun v => ?_)
  cases v with
  | pointer x => exact Follows.pure x q
  | _ => exact Follows.malformed _ p q _

/-- A truth value and what is done with it. -/
theorem Follows.boolBind (h : Follows (eval dead .bool) p t fun _ => q) (hf : ∀ b, Follows (f b) q (g b) r) :
    Follows (eval.bool dead >>= f) p (t >>= fun v => World.toBool v >>= g) r := by
  rw [← bind_assoc]
  exact h.bool.bind hf

theorem Follows.pointerBind (h : Follows (eval dead .pointer) p t fun _ => q) (hf : ∀ x, Follows (f x) q (g x) r) :
    Follows (eval.pointer dead >>= f) p (t >>= fun v => World.toPointer v >>= g) r := by
  rw [← bind_assoc]
  exact h.pointer.bind hf

/-- Moving past an expression and what comes then. -/
theorem Follows.skipBind (h : Follows (eval true k) p t fun _ => q) (hf : Follows (f ()) q g r) :
    Follows (eval.skip k >>= f) p (t >>= fun _ => g) r := by
  show Follows ((eval true k >>= fun _ => Pure.pure ()) >>= f) p _ r
  rw [bind_assoc]
  exact h.bind fun _ => hf

theorem Follows.combine (op : Opcode) (k : Kind) (place : Nat) (l r : Value) :
    Follows (σ := σ) (Setting.combine op k dead place l r) p (World.combine op k dead l r)
      fun _ => p := by
  cases op with
  | concat => exact Follows.pure _ p
  | arith op =>
    unfold Setting.combine World.combine
    dsimp only
    split
    · split
      · exact Follows.pure _ p
      · exact Follows.halt _ p _
    · exact Follows.orMalformed _ place p _
  | _ => exact Follows.malformed _ place p _

theorem Follows.checkReturn (expected : Option Kind) (v : Value) :
    Follows (σ := σ) (Setting.checkReturn expected v) p (World.checkReturn expected v) fun _ => p := by
  cases expected with
  | none => exact Follows.pure _ p
  | some k =>
    unfold Setting.checkReturn World.checkReturn
    dsimp only
    split
    · exact Follows.pure _ p
    · exact Follows.halt _ p _

variable {host : Host σ} {numbers : String → Nat}

theorem Follows.callFunction (target : Pointer) (symbol : Symbol) (args : List Value) (expected : Option Kind) :
    Follows (Setting.callFunction ⟨code, memory, host⟩ target symbol args expected) p
      (World.callFunction ⟨memory, host, numbers⟩ target symbol args expected) fun _ => p := by
  unfold Setting.callFunction World.callFunction
  cases host.invokeFunction with
  | none => exact Follows.halt _ p _
  | some f => exact (Follows.ask _ p).bind fun v => Follows.checkReturn expected v

theorem Follows.callSubscript (target : Pointer) (index : Value) (expected : Kind) :
    Follows (Setting.callSubscript ⟨code, memory, host⟩ target index expected) p
      (World.callSubscript ⟨memory, host, numbers⟩ target index expected) fun _ => p := by
  unfold Setting.callSubscript World.callSubscript
  split
  · exact Follows.halt _ p _
  · cases host.invokeSubscript with
    | none => exact Follows.halt _ p _
    | some f => exact (Follows.ask _ p).bind fun v => Follows.checkReturn (some expected) v

theorem Follows.requireTarget (target : Option Pointer) :
    Follows (σ := σ) (Setting.requireTarget target) p (World.requireTarget target) fun _ => p := by
  cases target with
  | none => exact Follows.pure _ p
  | some x =>
    unfold Setting.requireTarget World.requireTarget
    dsimp only
    split
    · exact Follows.halt _ p _
    · exact Follows.pure _ p

/-- The first byte of an expression is that of its instruction. -/
theorem Node.code_head (numbers : String → Nat) (n : Node) :
    ∃ op rest, n.code numbers = Opcode.code op :: rest ∧ op ≠ .noOp := by
  cases n with
  | bool b => exact ⟨if b then .literalTrue else .literalFalse, [], rfl, by cases b <;> decide⟩
  | _ => exact ⟨_, _, rfl, by simp⟩

/-- An expression is at least its instruction. -/
theorem Node.fuel_succ {n : Node} (h : (n.code numbers).length ≤ fuel) : ∃ m, fuel = m + 1 := by
  obtain ⟨op, rest, hcode, -⟩ := n.code_head numbers
  rw [hcode, length_cons] at h
  exact ⟨fuel - 1, by omega⟩

theorem Opcode.code_injective {a b : Opcode} (h : a.code = b.code) : a = b := by
  have := congrArg Opcode.ofCode? h
  rw [Opcode.ofCode?_code, Opcode.ofCode?_code] at this
  exact Option.some.inj this

/-- One byte is read, and then what is behind it. -/
theorem Follows.after {x : Exec σ α} {f : α → Exec σ β} {t : Effect σ β} (h : HasAt code p (b :: rest))
    (hx : code[p]? = some b → ∀ s, x p s = ((.ok a, p + 1), s))
    (hf : HasAt code (p + 1) rest → Follows (f a) (p + 1) t fun _ => p + 1 + rest.length) :
    Follows (x >>= f) p t fun _ => p + (b :: rest).length := by
  obtain ⟨hb, hrest⟩ := hasAt_cons.1 h
  exact (Follows.read (hx hb) (hf hrest)).ends (by rw [length_cons]; omega)

/-- What comes after the byte of an instruction, in what is left of a number of bytes. -/
theorem Follows.opened {f : Nat → Opcode → Exec σ α} {t : Effect σ α} (h : HasAt code p (op.code :: rest))
    (hb : (op.code :: rest).length ≤ bound + 1) (hf : HasAt code (p + 1) rest → rest.length ≤ bound →
      Follows (f p op) (p + 1) t fun _ => p + 1 + rest.length) :
    Follows (Exec.cursor >>= fun position => Code.opcode code >>= f position) p t
      fun _ => p + (op.code :: rest).length :=
  Follows.read (fun _ => rfl) (.after h opcode_apply fun h => hf h (Nat.le_of_succ_le_succ hb))

/-- An evaluator does what trees say, for code of at most so many bytes. -/
def Evaluates (R : Rules) (code : Array UInt8) (memory : Memory) (host : Host σ)
    (numbers : String → Nat) (eval : Evaluator σ) (bound : Nat) : Prop :=
  ∀ (n : Node) (k : Kind) (dead : Bool) (p : Nat), n.Typed R k → HasAt code p (n.code numbers) →
    (n.code numbers).length ≤ bound →
    Follows (eval dead k) p (n.eval ⟨memory, host, numbers⟩ dead k)
      fun _ => p + (n.code numbers).length

theorem noOp_ne_head {n : Node} (h : HasAt code p (n.code numbers)) : ¬ code[p]? = some (Opcode.code .noOp) := by
  obtain ⟨op, rest, hcode, hop⟩ := n.code_head numbers
  rw [(hasAt_cons.1 (hcode ▸ h)).1]
  intro heq
  exact hop (Opcode.code_injective (Option.some.inj heq))

theorem Target.follows (he : Evaluates R code memory host numbers eval bound) (t : Target)
    (ht : t.Typed R) (h : HasAt code p (t.code numbers)) (hb : (t.code numbers).length ≤ bound) :
    Follows (target ⟨code, memory, host⟩ eval dead) p (t.eval ⟨memory, host, numbers⟩ dead)
      fun _ => p + (t.code numbers).length := by
  cases t with
  | global =>
    refine Follows.read (fun _ => rfl) ?_
    rw [if_pos (hasAt_cons.1 h).1]
    exact Follows.reading fun _ => rfl
  | of n =>
    refine Follows.read (fun _ => rfl) ?_
    rw [if_neg (noOp_ne_head h)]
    exact (he n .pointer dead p ht h hb).pointerBind fun x => Follows.pure (some x) _

theorem Args.follows (he : Evaluates R code memory host numbers eval bound) : (args : Args) → (p : Nat) →
    args.Typed R → HasAt code p (args.code numbers) → (args.code numbers).length ≤ bound →
    Follows (arguments ⟨code, memory, host⟩ eval dead args.length) p
      (args.eval ⟨memory, host, numbers⟩ dead) fun _ => p + (args.code numbers).length
  | .nil, p, _, _, _ => Follows.pure [] p
  | .cons k n rest, p, ht, h, hb => by
    rw [Args.code] at hb ⊢
    simp only [length_cons, length_append] at hb ⊢
    obtain ⟨hk, h⟩ := hasAt_cons.1 h
    obtain ⟨hn, hrest⟩ := hasAt_append.1 h
    refine Follows.read (kind_apply hk) ?_
    refine (he n k dead _ ht.1 hn (by omega)).bind fun v => ?_
    refine (Args.follows he rest _ ht.2 hrest (by omega)).bind fun vs => ?_
    exact (Follows.pure (v :: vs) _).ends (by omega)

/-- A call: the target, the number of the member, the arguments, and then the host. -/
theorem Follows.invokeFunction (he : Evaluates R code memory host numbers eval bound) (t : Target)
    (d : String) (args : Args) (expected : Option Kind) (ht : t.Typed R) (hlen : args.length < 256)
    (hargs : args.Typed R) (h : HasAt code p (callCode numbers t d args))
    (hb : (callCode numbers t d args).length ≤ bound) :
    Follows (invokeFunction ⟨code, memory, host⟩ eval dead expected) p
      (do
        let target ← t.eval ⟨memory, host, numbers⟩ dead
        let vs ← args.eval ⟨memory, host, numbers⟩ dead
        if dead then return (expected.map Value.zero).getD .nothing
        else
          let x ← World.requireTarget target
          World.callFunction ⟨memory, host, numbers⟩ x (numbers d % 256 ^ 2) vs expected)
      fun _ => p + (callCode numbers t d args).length := by
  obtain ⟨htarget, h⟩ := hasAt_append.1 h
  obtain ⟨hsymbol, h⟩ := hasAt_append.1 h
  obtain ⟨hcount, h⟩ := hasAt_cons.1 h
  simp only [callCode, length_append, length_cons] at hb ⊢
  have hn : (UInt8.ofNat args.length).toNat = args.length := Utf8.toNat_ofNat_of_lt hlen
  refine (Target.follows he t ht htarget (by omega)).bind fun target => ?_
  refine Follows.read (word_apply hsymbol) (Follows.read (byte_apply hcount) ?_)
  rw [hn]
  refine (Args.follows he args _ hargs h (by omega)).bind fun vs => ?_
  cases dead with
  | true => exact (Follows.pure _ _).ends (by omega)
  | false =>
    refine (Follows.requireTarget target).bind fun x => ?_
    exact (Follows.callFunction x _ vs expected).ends (by omega)

/-- Two expressions in a row, each to be evaluated or skipped. -/
theorem Evaluates.two (he : Evaluates R code memory host numbers eval bound) {l r : Node} (hl : l.Typed R j)
    (hr : r.Typed R k) (h : HasAt code p (l.code numbers ++ r.code numbers))
    (hb : (l.code numbers ++ r.code numbers).length ≤ bound) :
    (∀ dead, Follows (eval dead j) p (l.eval ⟨memory, host, numbers⟩ dead j) fun _ => p + (l.code numbers).length) ∧
      ∀ dead, Follows (eval dead k) (p + (l.code numbers).length) (r.eval ⟨memory, host, numbers⟩ dead k)
        fun _ => p + (l.code numbers ++ r.code numbers).length := by
  obtain ⟨hleft, hright⟩ := hasAt_append.1 h
  rw [length_append] at hb ⊢
  exact ⟨fun dead => he l j dead _ hl hleft (by omega),
    fun dead => (he r k dead _ hr hright (by omega)).ends (by omega)⟩

section

variable (hR : ∀ k a, R.reads k a → a < 256 ^ 2)
include hR

/-- One level of an expression, given that its parts are evaluated as trees say. -/
theorem Node.follows_expression
    (he : Evaluates R code memory host numbers eval bound) (n : Node) (k : Kind) (ht : n.Typed R k)
    (h : HasAt code p (n.code numbers)) (hb : (n.code numbers).length ≤ bound + 1) :
    Follows (expression ⟨code, memory, host⟩ eval dead k) p
      (n.eval ⟨memory, host, numbers⟩ dead k) fun _ => p + (n.code numbers).length := by
  cases n with
  | literal v => exact .opened h hb fun h _ => .reading (literal_apply ht h)
  | bool b =>
    refine .opened h hb fun _ _ => ?_
    cases b with
    | true | false => exact .pure _ _
  | null => exact .opened h hb fun _ _ => .pure _ _
  | «variable» j a =>
    refine .opened h hb fun h _ => .read (word_apply h) (.read (fun _ => rfl) ?_)
    rw [Nat.mod_eq_of_lt (hR _ _ ht.2)]
    exact .checked _ _ _
  | arith _ _ _ | concat _ _ =>
    refine .opened h hb fun h hb => ?_
    obtain ⟨hl, hr⟩ := he.two ht.2.1 ht.2.2 h hb
    exact (hl dead).bind fun x => (hr dead).bind fun y => .combine _ k p x y
  | negate n => exact .opened h hb fun h hb => (he n k dead _ ht.2 h hb).bind fun x => .orMalformed _ p _ _
  | complement n => exact .opened h hb fun h hb => (he n k dead _ ht.2.2 h hb).bind fun x => .orMalformed _ p _ _
  | not n => exact .opened h hb fun h hb => (he n .bool dead _ ht.2 h hb).boolBind fun b => .pure _ _
  | and l r =>
    refine .opened h hb fun h hb => ?_
    obtain ⟨hl, hr⟩ := he.two ht.2.1 ht.2.2 h hb
    refine (hl dead).boolBind fun b => ?_
    cases b with
    | true => exact (hr dead).boolBind fun b => .pure _ _
    | false => exact (hr true).skipBind (.pure _ _)
  | or l r =>
    refine .opened h hb fun h hb => ?_
    obtain ⟨hl, hr⟩ := he.two ht.2.1 ht.2.2 h hb
    refine (hl dead).boolBind fun b => ?_
    cases b with
    | true => exact (hr true).skipBind (.pure _ _)
    | false => exact (hr dead).boolBind fun b => .pure _ _
  | compare op j l r =>
    refine .opened h hb fun h hb => .after h kind_apply fun h => ?_
    obtain ⟨hl, hr⟩ := he.two ht.2.1 ht.2.2 h (Nat.le_of_succ_le hb)
    refine (hl dead).bind fun x => (hr dead).bind fun y => ?_
    exact (Follows.orMalformed _ p _ _).bind fun o => .pure _ _
  | ternary c y n =>
    refine .opened h hb fun h hb => ?_
    obtain ⟨hc, h⟩ := hasAt_append.1 h
    rw [length_append] at hb ⊢
    obtain ⟨hy, hn⟩ := he.two ht.2.1 ht.2.2 h (by omega)
    refine (he c .bool dead _ ht.1 hc (by omega)).boolBind fun b => ?_
    rw [← Nat.add_assoc]
    cases b with
    | true => exact (hy dead).bind fun v => (hn true).skipBind (.pure _ _)
    | false => exact (hy true).skipBind (hn dead)
  | coalesce l r =>
    obtain ⟨rfl, htl, htr⟩ := ht
    refine .opened h hb fun h hb => ?_
    obtain ⟨hl, hr⟩ := he.two htl htr h hb
    refine (hl dead).bind fun v => ?_
    cases v with
    | pointer x =>
      dsimp only
      split
      · exact hr dead
      · exact (hr true).skipBind (.pure _ _)
    | _ => exact hr dead
  | cast j n =>
    refine .opened h hb fun h hb => .after h kind_apply fun h => ?_
    exact (he n j dead _ ht h (Nat.le_of_succ_le hb)).bind fun x => .pure _ _
  | call t d args =>
    exact .opened h hb fun h hb => .invokeFunction he t d args (some k) ht.1 ht.2.1 ht.2.2 h hb
  | subscript t j i =>
    refine .opened h hb fun h hb => ?_
    obtain ⟨htarget, h⟩ := hasAt_append.1 h
    rw [length_append, length_cons] at hb
    rw [length_append, ← Nat.add_assoc]
    refine (he t .pointer dead _ ht.1 htarget (by omega)).pointerBind fun x => .after h kind_apply fun h => ?_
    refine (he i j dead _ ht.2 h (by omega)).bind fun v => ?_
    cases dead with
    | true => exact .pure _ _
    | false => exact .callSubscript x v k

/-- The machine evaluates the code of an expression as the tree says. -/
theorem evaluates_within (fuel : Nat) :
    Evaluates R code memory host numbers (evaluateWithin ⟨code, memory, host⟩ fuel) fuel := by
  induction fuel with
  | zero =>
    intro n k dead p _ _ hb
    obtain ⟨m, hm⟩ := Node.fuel_succ hb
    omega
  | succ fuel ih =>
    intro n k dead p ht h hb
    exact n.follows_expression hR ih k ht h hb

theorem evaluates (bound : Nat) :
    Evaluates R code memory host numbers (evaluate ⟨code, memory, host⟩) bound := by
  intro n k dead p ht h _
  have hsize : (n.code numbers).length ≤ code.size - p := by
    obtain ⟨op, rest, hcode, -⟩ := n.code_head numbers
    have := h.le_size (by rw [hcode]; simp)
    omega
  exact Follows.read (fun _ => rfl) (evaluates_within hR (code.size - p) n k dead p ht h hsize)

end

end Expressions

/-! ### Statements -/

namespace Move

/-- Whether to go on. -/
def signal : Move → Signal
  | .exit => .exit
  | _ => .proceed

/-- Where the cursor is after a statement that ends at a position. -/
def position (e : Nat) : Move → Nat
  | .next | .exit => e
  | .skip d => e + d
  | .back d => e - d

end Move

section Statements

/-- From position `p` on the machine does what the tree of a statement does whose code ends
at `e`. -/
def Performs (x : Exec σ (Signal × Memory)) (p : Nat) (t : Effect σ (Move × Memory)) (e : Nat) : Prop :=
  ∀ s, (∀ m memory s', t s = (.ok (m, memory), s') →
      x p s = ((.ok (m.signal, memory), m.position e), s')) ∧
    ∀ f s', t s = (.error f, s') →
      ∃ f' c, x p s = ((.error f', c), s') ∧ f'.placeless = f.placeless

namespace Performs

theorem bind {f : α → Exec σ (Signal × Memory)} {g : α → Effect σ (Move × Memory)} {q : α → Nat} (hx : Follows x p t q)
    (hf : ∀ a, Performs (f a) (q a) (g a) e) : Performs (x >>= f) p (t >>= g) e := by
  intro s
  rw [Exec.bind_apply, Effect.bind_apply]
  obtain ⟨hok, herr⟩ := hx s
  rcases ht : t s with ⟨e' | a, s'⟩
  · obtain ⟨f', c, hx, he⟩ := herr e' s' ht
    rw [hx]
    constructor
    · rintro m memory s'' h
      cases h
    · rintro f s'' h
      cases h
      exact ⟨f', c, rfl, he⟩
  · rw [hok a s' ht]
    exact hf a s'

theorem read {x : Exec σ α} {f : α → Exec σ (Signal × Memory)} {t : Effect σ (Move × Memory)}
    (hx : ∀ s, x p s = ((.ok a, p'), s)) (hf : Performs (f a) p' t e) : Performs (x >>= f) p t e := by
  intro s
  rw [Exec.bind_apply, hx]
  exact hf s

/-- The machine is done with the statement. -/
theorem done (hx : ∀ s, x p s = ((.ok (m.signal, memory), m.position e), s)) : Performs x p (pure (m, memory)) e := by
  intro s
  constructor
  · rintro m' memory' s' h
    cases h
    exact hx s
  · rintro f s' h
    cases h

end Performs

/-- A distance that code can hold. -/
def Instr.Near : Instr → Prop
  | .conditional _ d | .forward d | .back d => d < 256 ^ 2
  | _ => True

variable {code : Array UInt8} {host : Host σ} {numbers : String → Nat}

/-- The operator of an update, as the machine reads it. -/
theorem Setting.assignOperator_apply (h : code[p]? = some op.code) (s : σ) : assignOperator ⟨code, memory, host⟩ p s =
      ((.ok (if op = .noOp then none else some op), p + 1), s) := by
  show (Code.opcode code >>= _) p s = _
  rw [Exec.bind_apply, opcode_apply h]
  cases op <;> rfl

theorem Follows.updated (op : Opcode) (k : Kind) (place : Nat) (h : Follows current p current' fun _ => p)
    (given : Value) : Follows (updated (if op = .noOp then none else some op) k place current given) p
      (World.updated op k current' given) fun _ => p := by
  cases op with
  | noOp => exact Follows.pure given p
  | _ => exact h.bind fun v => Follows.combine _ k place v given

/-- A statement ends where its bytes end. -/
theorem Performs.next : Performs (σ := σ) (pure (.proceed, memory)) e (pure (.next, memory)) e :=
  Performs.done fun _ => rfl

section Follow

variable {W : Kind → Nat → Prop}

section

variable (hR : ∀ k a, R.reads k a → a < 256 ^ 2)
include hR

theorem Follows.assign {a : Nat} {v : Node}
    (ha : a < 256 ^ 2) (ht : v.Typed R k) (h : HasAt code p ((Instr.assign k a v).operands numbers)) :
    Follows (assign ⟨code, memory, host⟩) p
      (do
        let value ← v.eval ⟨memory, host, numbers⟩ false k
        Effect.checked (memory.store a value))
      fun _ => p + ((Instr.assign k a v).operands numbers).length := by
  refine .after h kind_apply fun h => ?_
  obtain ⟨hplace, h⟩ := hasAt_append.1 h
  rw [length_append, ← Nat.add_assoc]
  refine .read (word_apply hplace) ?_
  rw [Nat.mod_eq_of_lt ha]
  refine (evaluates hR _ v k false _ ht h (Nat.le_refl _)).bind fun value => ?_
  exact .read (fun _ => rfl) (.checked _ _ _)

theorem Follows.assignProperty {t : Target}
    {d : String} {v : Node} (place : Nat) (ht : t.Typed R) (hv : v.Typed R k)
    (h : HasAt code p ((Instr.assignProperty k t d op v).operands numbers)) :
    Follows (assignProperty ⟨code, memory, host⟩ place) p
      (do
        let target ← t.eval ⟨memory, host, numbers⟩ false
        let given ← v.eval ⟨memory, host, numbers⟩ false k
        let target ← World.requireTarget target
        World.updateProperty ⟨memory, host, numbers⟩ k target (numbers d % 256 ^ 2) op given)
      fun _ => p + ((Instr.assignProperty k t d op v).operands numbers).length := by
  refine .after h kind_apply fun h => ?_
  obtain ⟨htarget, h⟩ := hasAt_append.1 h
  obtain ⟨hsymbol, h⟩ := hasAt_append.1 h
  rw [length_append, length_append, ← Nat.add_assoc, ← Nat.add_assoc]
  refine (Target.follows (evaluates hR _) t ht htarget (Nat.le_refl _)).bind fun target => ?_
  refine .read (word_apply hsymbol) (.after h assignOperator_apply fun h => ?_)
  refine (evaluates hR _ v k false _ hv h (Nat.le_refl _)).bind fun given => ?_
  refine (Follows.requireTarget target).bind fun x => ?_
  refine (Follows.updated op k place (.callFunction x _ [] (some k)) given).bind fun value => ?_
  cases host.assignProperty with
  | none => exact .halt _ _ _
  | some f => exact .ask _ _

theorem Follows.assignSubscript {t i : Node} {v : Node} (place : Nat)
    (ht : t.Typed R .pointer) (hi : i.Typed R j) (hv : v.Typed R k)
    (h : HasAt code p ((Instr.assignSubscript k t j i op v).operands numbers)) :
    Follows (assignSubscript ⟨code, memory, host⟩ place) p
      (do
        let target ← World.toPointer (← t.eval ⟨memory, host, numbers⟩ false .pointer)
        let index ← i.eval ⟨memory, host, numbers⟩ false j
        let given ← v.eval ⟨memory, host, numbers⟩ false k
        World.updateSubscript ⟨memory, host, numbers⟩ k target index op given)
      fun _ => p + ((Instr.assignSubscript k t j i op v).operands numbers).length := by
  refine .after h kind_apply fun h => ?_
  obtain ⟨htarget, h⟩ := hasAt_append.1 h
  rw [length_append, ← Nat.add_assoc]
  refine (evaluates hR _ t .pointer false _ ht htarget (Nat.le_refl _)).pointerBind fun x => ?_
  refine .after h kind_apply fun h => ?_
  obtain ⟨hindex, h⟩ := hasAt_append.1 h
  rw [length_append, ← Nat.add_assoc]
  refine (evaluates hR _ i j false _ hi hindex (Nat.le_refl _)).bind fun index => ?_
  refine .after h assignOperator_apply fun h => ?_
  refine (evaluates hR _ v k false _ hv h (Nat.le_refl _)).bind fun given => ?_
  unfold World.updateSubscript
  split
  · exact .halt _ _ _
  · refine (Follows.updated op k place (.callSubscript x index k) given).bind fun value => ?_
    cases host.assignSubscript with
    | none => exact .halt _ _ _
    | some f => exact .ask _ _

end

theorem Performs.boolBind {eval : Evaluator σ} {f : Bool → Exec σ (Signal × Memory)}
    {g : Bool → Effect σ (Move × Memory)} (h : Follows (eval dead .bool) p t fun _ => q)
    (hf : ∀ b, Performs (f b) q (g b) e) :
    Performs (eval.bool dead >>= f) p (t >>= fun v => World.toBool v >>= g) e := by
  rw [← bind_assoc]
  exact Performs.bind h.bool hf

/-- A statement that tells the host something and goes on. -/
theorem Performs.notify (action : StateM σ Unit) (e : Nat) :
    Performs (Exec.ask action >>= fun _ => pure (.proceed, memory)) e
      (Effect.ask action >>= fun _ => pure (.next, memory)) e :=
  Performs.bind (Follows.ask action e) fun _ => Performs.next

theorem min_eq_of_near (h : d < 256 ^ 2) : min d 65535 % 256 ^ 2 = d := by
  omega

/-- A statement that goes on with the memory it leaves. -/
theorem Performs.proceeds (m : α → Memory) (h : Follows x p t fun _ => e) (hu : (t >>= fun a => pure (.next, m a)) = u)
    : Performs (x >>= fun a => pure (.proceed, m a)) p u e :=
  hu ▸ Performs.bind h fun _ => Performs.next

/-- The machine performs the code of a statement as the tree says, unless it is a jump that
leaves the code or was never filled in. -/
theorem Instr.performs (hR : ∀ k a, R.reads k a → a < 256 ^ 2) (hW : ∀ k a, W k a → a < 256 ^ 2)
    (i : Instr) (ht : i.Typed R W) (hnear : i.Near) (hleap : ∀ l, i ≠ .leap l) (h : HasAt code p (i.code numbers))
    (hback : ∀ d, i = .back d → headerSize + d ≤ p + (i.code numbers).length) :
    Performs (statement ⟨code, memory, host⟩) p (i.exec ⟨memory, host, numbers⟩) (p + (i.code numbers).length) := by
  have he (bound : Nat) : Evaluates R code memory host numbers (evaluate ⟨code, memory, host⟩)
      bound := evaluates hR bound
  rw [Instr.code_eq] at h ⊢
  rw [length_cons, Nat.add_comm _ 1, ← Nat.add_assoc] at ⊢
  obtain ⟨hop, h⟩ := hasAt_cons.1 h
  refine Performs.read (fun _ => rfl) (Performs.read (opcode_apply hop) ?_)
  cases i with
  | assign k a v =>
    exact .proceeds id (.assign hR (hW _ _ ht.1) ht.2 h) (by simp only [bind_assoc]; rfl)
  | assignProperty k t d op v =>
    exact .proceeds (fun _ => memory) (.assignProperty hR p ht.1 ht.2.2 h) (by simp only [bind_assoc]; rfl)
  | assignSubscript k t j i op v =>
    exact .proceeds (fun _ => memory) (.assignSubscript hR p ht.1 ht.2.1 ht.2.2.2 h)
      (by simp only [bind_assoc]; rfl)
  | callUnused t d args =>
    exact .proceeds (fun _ => memory) (.invokeFunction (he _) t d args none ht.1 ht.2.1 ht.2.2 h (Nat.le_refl _))
      (by simp only [Bool.false_eq_true, if_false, bind_assoc]; rfl)
  | conditional c d =>
    obtain ⟨hc, hd⟩ := hasAt_append.1 h
    refine Performs.boolBind (he _ c .bool false _ ht hc (Nat.le_refl _)) fun b => ?_
    refine Performs.read (word_apply hd) ?_
    rw [min_eq_of_near hnear, Instr.operands, length_append]
    cases b with
    | true | false => exact Performs.done fun _ => rfl
  | forward d =>
    refine Performs.read (word_apply h) ?_
    rw [min_eq_of_near hnear]
    exact Performs.done fun _ => rfl
  | back d =>
    refine Performs.read (word_apply h) (Performs.read (fun _ => rfl) ?_)
    rw [min_eq_of_near hnear]
    exact (if_pos (hback d rfl)).symm ▸ Performs.done fun _ => rfl
  | exit => exact Performs.done fun _ => rfl
  | metadata _ | debugDelete _ => exact Performs.read (text_apply ht h) (Performs.notify _ _)
  | debugLine n =>
    refine Performs.read (word_apply h) ?_
    have hline : n % 256 ^ 2 = n := Nat.mod_eq_of_lt ht
    rw [hline]
    exact Performs.notify _ _
  | clearedLine => exact Performs.read (word_apply h) (Performs.notify _ _)
  | debugUpdate name k v =>
    obtain ⟨hname, h⟩ := hasAt_append.1 h
    obtain ⟨hk, h⟩ := hasAt_cons.1 h
    refine Performs.read (text_apply ht.1 hname) (Performs.read (kind_apply hk) ?_)
    have hend : p + 1 + (Utf8.encode name ++ [0]).length + 1 + (v.code numbers).length =
        p + 1 + ((Instr.debugUpdate name k v).operands numbers).length := by
      simp [Instr.operands]
      omega
    exact Performs.bind ((he _ v k false _ ht.2 h (Nat.le_refl _)).ends hend) fun value => Performs.notify _ _
  | leap l => exact absurd rfl (hleap l)

end Follow

end Statements

end HostScript
