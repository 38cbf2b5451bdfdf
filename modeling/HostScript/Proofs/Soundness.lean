import HostScript.Proofs.Meaning

/-! Trees that make sense do not get stuck.

A tree that is `Typed` gives a value of the kind that was asked for, and halts only
with the faults that a run can show. On the way it hands pointers to the host and gets
some back; `Trust` says which pointers are trusted in a state of the host, and a typed
tree hands out trusted ones only, as long as the variables it reads hold such. -/
namespace HostScript

open List Option

variable {args : List Value} {memory : Memory} {σ : Type} {index : Value}
  {k : Kind} {op : Opcode} {target : Pointer} {symbol : Symbol} {given v : Value}

/-! ### Faults -/

/-- Bits of a floating-point number were asked for. -/
def Malformed.OfFloatBits (reason : Malformed) : Prop :=
  reason = .complement ∨ ∃ op k, reason = .inapplicable (.arith op) (.float k) ∧ op.isBitwise = true

/-- A malformed fault is about the bits of a floating-point number, where these may be asked
for at all. -/
def Fault.Allowed (floatBits : Prop) : Fault → Prop
  | .malformed _ reason => floatBits ∧ reason.OfFloatBits
  | _ => True

/-! ### Trusted pointers -/

/-- Which pointers are trusted as the state of a host changes. -/
structure Trust (σ : Type) where
  /-- Everything between two states was done with trusted pointers. -/
  later : σ → σ → Prop
  trusted : σ → Pointer → Prop
  refl : ∀ s, later s s
  trans : ∀ {s t u}, later s t → later t u → later s u
  mono : ∀ {s t p}, later s t → trusted s p → trusted t p
  null : ∀ s, trusted s 0

namespace Trust

/-- A value is not an untrusted pointer. -/
def Vouches (T : Trust σ) (s : σ) (v : Value) : Prop := ∀ p, v = .pointer p → T.trusted s p

/-- An action of a host that is asked with trusted pointers. -/
def Step (T : Trust σ) (s : σ) {α : Type} (action : StateM σ α) : Prop := T.later s (action s).2

/-- The host keeps trust: it may be asked with trusted pointers, and then the pointers that it
returns are trusted. -/
structure KeptBy (T : Trust σ) (host : Host σ) : Prop where
  invokeFunction : ∀ f, host.invokeFunction = some f → ∀ s target symbol args, T.trusted s target →
    (∀ v ∈ args, T.Vouches s v) → T.Step s (f target symbol args) ∧
      T.Vouches (f target symbol args s).2 (f target symbol args s).1
  invokeSubscript : ∀ f, host.invokeSubscript = some f → ∀ s target index, T.trusted s target →
    T.Vouches s index → T.Step s (f target index) ∧ T.Vouches (f target index s).2 (f target index s).1
  assignProperty : ∀ f, host.assignProperty = some f → ∀ s target symbol value, T.trusted s target →
    T.Vouches s value → T.Step s (f target symbol value)
  assignSubscript : ∀ f, host.assignSubscript = some f → ∀ s target index value, T.trusted s target →
    T.Vouches s index → T.Vouches s value → T.Step s (f target index value)
  metadata : ∀ f, host.metadata = some f → ∀ s text, T.Step s (f text)
  debugLine : ∀ f, host.debugLine = some f → ∀ s n, T.Step s (f n)
  debugUpdate : ∀ f, host.debugUpdate = some f → ∀ s name value, T.Vouches s value →
    T.Step s (f name value)
  debugDelete : ∀ f, host.debugDelete = some f → ∀ s name, T.Step s (f name)

theorem Vouches.mono {T : Trust σ} (h : T.Vouches s v) (hl : T.later s t) :
    T.Vouches t v := fun p hp => T.mono hl (h p hp)

theorem vouches_of_kind {T : Trust σ} (hk : v.kind? = some k) (hne : k ≠ .pointer) : T.Vouches s v := by
  rintro p rfl
  exact absurd (Option.some.inj hk).symm hne

theorem vouches_zero (T : Trust σ) (s : σ) (k : Kind) : T.Vouches s (.zero k) := by
  intro p hp
  cases k <;> cases hp
  exact T.null s

/-- Any pointer is trusted. -/
def any (σ : Type) : Trust σ where
  later _ _ := True
  trusted _ _ := True
  refl _ := trivial
  trans _ _ := trivial
  mono _ _ := trivial
  null _ := trivial

theorem keptBy_any (host : Host σ) : (any σ).KeptBy host where
  invokeFunction _ _ _ _ _ _ _ _ := ⟨trivial, fun _ _ => trivial⟩
  invokeSubscript _ _ _ _ _ _ _ := ⟨trivial, fun _ _ => trivial⟩
  assignProperty _ _ _ _ _ _ _ _ := trivial
  assignSubscript _ _ _ _ _ _ _ _ _ := trivial
  metadata _ _ _ _ := trivial
  debugLine _ _ _ _ := trivial
  debugUpdate _ _ _ _ _ _ := trivial
  debugDelete _ _ _ _ := trivial

end Trust

/-! ### Effects from a state -/

namespace Effect

variable {α : Type}

/-- From state `s` on the effect does nothing untrusted; its result is as `P` says, or it halts
with a fault as `F` says. -/
def Sat (T : Trust σ) (s : σ) (t : Effect σ α) (P : α → σ → Prop) (F : Fault → Prop) : Prop :=
  T.later s (t s).2 ∧
    match (t s).1 with
    | .ok a => P a (t s).2
    | .error f => F f

variable {T : Trust σ} {s : σ} {F : Fault → Prop}

theorem Sat.pure (h : P a s) : Sat T s (pure a) P F := ⟨T.refl s, h⟩

theorem Sat.halt (h : F f) : Sat T s (halt f) P F := ⟨T.refl s, h⟩

/-- One step after another, at a later state of the host. -/
theorem Sat.bind (ht : Sat T s t P F) (hg : ∀ a s', T.later s s' → P a s' → Sat T s' (g a) Q F) :
    Sat T s (t >>= g) Q F := by
  obtain ⟨hl, hr⟩ := ht
  unfold Sat
  rw [bind_apply]
  rcases h : t s with ⟨f | a, s'⟩
  · rw [h] at hl hr
    exact ⟨hl, hr⟩
  · rw [h] at hl hr
    obtain ⟨hl', hr'⟩ := hg a s' hl hr
    exact ⟨T.trans hl hl', hr'⟩

theorem Sat.imp (ht : Sat T s t P F) (h : ∀ a s', T.later s s' → P a s' → Q a s') : Sat T s t Q F := by
  obtain ⟨hl, hr⟩ := ht
  refine ⟨hl, ?_⟩
  revert hr
  cases (t s).1 with
  | error f => exact id
  | ok a => exact h a _ hl

theorem Sat.ask (hl : T.Step s action) (hp : P (action s).1 (action s).2) : Sat T s (ask action) P F := ⟨hl, hp⟩

theorem Sat.orMalformed (hs : ∀ a, o = some a → P a s) (hn : o = none → F (.malformed 0 reason)) :
    Sat T s (orMalformed reason o) P F := by
  cases o with
  | none => exact halt (hn rfl)
  | some a => exact pure (hs a rfl)

end Effect

/-! ### Values of a kind -/

namespace Value

variable {l r : Value}

theorem kind_int (h : v.kind? = some (.int j)) : ∃ w, v = .int j w := by
  cases v <;> cases h
  exact ⟨_, rfl⟩

theorem kind_float (h : v.kind? = some (.float j)) : ∃ x, v = .float j x := by
  cases v <;> cases h
  exact ⟨_, rfl⟩

theorem kind_bool (h : v.kind? = some .bool) : ∃ b, v = .bool b := by
  cases v <;> cases h
  exact ⟨_, rfl⟩

theorem kind_string (h : v.kind? = some .string) : ∃ s, v = .string s := by
  cases v <;> cases h
  exact ⟨_, rfl⟩

theorem kind_pointer (h : v.kind? = some .pointer) : ∃ p, v = .pointer p := by
  cases v <;> cases h
  exact ⟨_, rfl⟩

theorem kind_zero (k : Kind) : (zero k).kind? = some k := by
  cases k <;> rfl

theorem kind_cast (v : Value) (k : Kind) : (v.cast k).kind? = some k := by
  unfold cast
  split
  · assumption
  · cases k with
    | bool => cases v <;> rfl
    | _ => rfl

/-- Operators combine numbers of one kind, but for bits of floating-point numbers. -/
theorem arith_kind (op : ArithOp) (hk : k.IsNumeric) (hl : l.kind? = some k) (hr : r.kind? = some k) :
    (∃ v, l.arith op r = some v ∧ v.kind? = some k) ∨
      (l.arith op r = none ∧ op.isBitwise = true ∧ ∃ j, k = .float j) := by
  cases k with
  | int j =>
    obtain ⟨a, rfl⟩ := kind_int hl
    obtain ⟨b, rfl⟩ := kind_int hr
    exact .inl ⟨.int j (op.onWords a b), by simp [arith], rfl⟩
  | float j =>
    obtain ⟨x, rfl⟩ := kind_float hl
    obtain ⟨y, rfl⟩ := kind_float hr
    cases op with
    | add | sub | mul | div | mod => exact .inl ⟨_, by simp [arith, ArithOp.onFloats]; rfl, rfl⟩
    | _ => exact .inr ⟨by simp [arith, ArithOp.onFloats], rfl, j, rfl⟩
  | bool | string | pointer => cases hk

theorem negate_kind (hk : k.IsNumeric) (hv : v.kind? = some k) : ∃ u, v.negate = some u ∧ u.kind? = some k := by
  cases k with
  | int j =>
    obtain ⟨w, rfl⟩ := kind_int hv
    exact ⟨_, rfl, rfl⟩
  | float j =>
    obtain ⟨x, rfl⟩ := kind_float hv
    exact ⟨_, rfl, rfl⟩
  | bool | string | pointer => cases hk

theorem complement_kind (hk : k.IsNumeric) (hv : v.kind? = some k) :
    (∃ u, v.complement = some u ∧ u.kind? = some k) ∨ (v.complement = none ∧ k.IsFloat) := by
  cases k with
  | int j =>
    obtain ⟨w, rfl⟩ := kind_int hv
    exact .inl ⟨_, rfl, rfl⟩
  | float j =>
    obtain ⟨x, rfl⟩ := kind_float hv
    exact .inr ⟨rfl, rfl⟩
  | bool | string | pointer => cases hk

theorem compare_kind (hl : l.kind? = some k) (hr : r.kind? = some k) : ∃ o, l.compare? r = some o := by
  cases k with
  | int j =>
    obtain ⟨a, rfl⟩ := kind_int hl
    obtain ⟨b, rfl⟩ := kind_int hr
    exact ⟨_, by simp [compare?]; rfl⟩
  | float j =>
    obtain ⟨x, rfl⟩ := kind_float hl
    obtain ⟨y, rfl⟩ := kind_float hr
    exact ⟨_, by simp [compare?]; rfl⟩
  | bool =>
    obtain ⟨a, rfl⟩ := kind_bool hl
    obtain ⟨b, rfl⟩ := kind_bool hr
    exact ⟨_, rfl⟩
  | string =>
    obtain ⟨a, rfl⟩ := kind_string hl
    obtain ⟨b, rfl⟩ := kind_string hr
    exact ⟨_, rfl⟩
  | pointer =>
    obtain ⟨a, rfl⟩ := kind_pointer hl
    obtain ⟨b, rfl⟩ := kind_pointer hr
    exact ⟨_, rfl⟩

end Value

theorem Memory.load_kind {m : Memory} (h : m.load a k = .ok v) : v.kind? = some k := by
  unfold Memory.load at h
  split at h
  · rename_i hk
    subst hk
    split at h <;> cases h
    rfl
  · split at h
    · cases h
      cases k <;> rfl
    · cases h

/-! ### Expressions -/

open Effect World Sat

/-- What may be read is there, and pointers among it are trusted. -/
structure Trust.Covers {σ : Type} (T : Trust σ) (R : Rules) (s : σ) (memory : Memory) :
    Prop where
  load : ∀ k a, R.reads k a → ∃ v, memory.load a k = .ok v
  pointer : ∀ a v, R.reads .pointer a → memory.load a .pointer = .ok v → T.Vouches s v

theorem Trust.Covers.mono {T : Trust σ} (h : T.Covers R s memory) (hl : T.later s t) : T.Covers R t memory :=
  ⟨h.load, fun a v hr hv => (h.pointer a v hr hv).mono hl⟩

/-- A value of a kind that is not an untrusted pointer. -/
def Trust.Of {σ : Type} (T : Trust σ) (k : Kind) (v : Value) (s : σ) : Prop :=
  v.kind? = some k ∧ T.Vouches s v

section Sat

variable {T : Trust σ} {host : Host σ} {R : Rules} {numbers : String → Nat} {s : σ}

theorem Trust.of_kind (h : v.kind? = some k) (hne : k ≠ .pointer) : T.Of k v s := ⟨h, T.vouches_of_kind h hne⟩

theorem Trust.of_zero (k : Kind) : T.Of k (.zero k) s := ⟨Value.kind_zero k, T.vouches_zero s k⟩

theorem sat_toBool (h : v.kind? = some .bool) : Sat T s (toBool v) (fun _ _ => True) F := by
  obtain ⟨b, rfl⟩ := Value.kind_bool h
  exact pure trivial

theorem sat_toPointer (h : T.Of .pointer v s) : Sat T s (toPointer v) (fun p s' => T.trusted s' p) F := by
  obtain ⟨p, rfl⟩ := Value.kind_pointer h.1
  exact pure (h.2 p rfl)

theorem sat_combine {op : ArithOp} {x y : Value} (hf : op.Fits R k) (hx : x.kind? = some k) (hy : y.kind? = some k) :
    Sat T s (combine (.arith op) k dead x y) (T.Of k) (Fault.Allowed R.floatBits) := by
  unfold combine
  dsimp only
  split
  · split
    · exact pure (T.of_zero k)
    · exact halt trivial
  · refine orMalformed (fun v hv => ?_) fun hnone => ?_
    · have hne : k ≠ .pointer := by
        rintro rfl
        cases hf.numeric
      obtain ⟨u, hu, hk⟩ | ⟨hnone, -⟩ := Value.arith_kind op hf.numeric hx hy
      · rw [hv] at hu
        cases hu
        exact T.of_kind hk hne
      · rw [hv] at hnone
        cases hnone
    · obtain ⟨u, hu, -⟩ | ⟨-, hbits, j, rfl⟩ := Value.arith_kind op hf.numeric hx hy
      · rw [hnone] at hu
        cases hu
      · exact ⟨hf.bits hbits rfl, .inr ⟨op, j, rfl, hbits⟩⟩

theorem sat_checkReturn (F : Prop) (h : T.Vouches s v) :
    Sat T s (checkReturn (some k) v) (T.Of k) (Fault.Allowed F) := by
  unfold checkReturn
  dsimp only
  split
  · rename_i hk
    exact pure ⟨hk, h⟩
  · exact halt trivial

section

variable (hT : T.KeptBy host) (F : Prop) (ht : T.trusted s target)
include hT F ht

theorem sat_callFunction (hargs : ∀ v ∈ args, T.Vouches s v) :
    Sat T s (callFunction ⟨memory, host, numbers⟩ target symbol args (some k)) (T.Of k) (Fault.Allowed F) := by
  unfold callFunction
  dsimp only
  split
  · exact halt trivial
  · rename_i f hf
    obtain ⟨hstep, hv⟩ := hT.invokeFunction f hf s target symbol args ht hargs
    refine (ask (P := fun v s' => T.Vouches s' v) hstep hv).bind fun v s' _ hv => ?_
    exact sat_checkReturn F hv

theorem sat_callUnused (hargs : ∀ v ∈ args, T.Vouches s v) :
    Sat T s (callFunction ⟨memory, host, numbers⟩ target symbol args none) (fun _ _ => True) (Fault.Allowed F) := by
  unfold callFunction
  dsimp only
  split
  · exact halt trivial
  · rename_i f hf
    obtain ⟨hstep, -⟩ := hT.invokeFunction f hf s target symbol args ht hargs
    exact (ask (P := fun _ _ => True) hstep trivial).bind fun v s' _ _ => pure trivial

theorem sat_callSubscript (hi : T.Vouches s index) :
    Sat T s (callSubscript ⟨memory, host, numbers⟩ target index k) (T.Of k) (Fault.Allowed F) := by
  unfold callSubscript
  dsimp only
  split
  · exact halt trivial
  · split
    · exact halt trivial
    · rename_i f hf
      obtain ⟨hstep, hv⟩ := hT.invokeSubscript f hf s target index ht hi
      refine (ask (P := fun v s' => T.Vouches s' v) hstep hv).bind fun v s' _ hv => ?_
      exact sat_checkReturn F hv

end

theorem sat_requireTarget {target : Option Pointer} (F : Prop) (h : ∀ p, target = some p → T.trusted s p) :
    Sat T s (requireTarget target) (fun p s' => T.trusted s' p) (Fault.Allowed F) := by
  cases target with
  | none => exact pure (T.null s)
  | some p =>
    unfold requireTarget
    dsimp only
    split
    · exact halt trivial
    · exact pure (h p rfl)

mutual
/-- An expression that makes sense gives a value of its kind and halts only as runs may. -/
theorem Node.sat (hT : T.KeptBy host) : (n : Node) → ∀ (k : Kind) (dead : Bool) (s : σ), n.Typed R k →
    T.Covers R s memory →
    Sat T s (n.eval ⟨memory, host, numbers⟩ dead k) (T.Of k) (Fault.Allowed R.floatBits)
  | .literal v, k, dead, s, ht, hm => pure (T.of_kind ht.kind ht.notPointer)
  | .bool b, k, dead, s, ht, hm => by
    obtain rfl : k = .bool := ht
    rw [Node.eval]
    exact pure (T.of_kind rfl (by simp))
  | .null, k, dead, s, ht, hm => by
    obtain rfl : k = .pointer := ht
    rw [Node.eval]
    exact pure (T.of_zero .pointer)
  | .variable j a, k, dead, s, ht, hm => by
    obtain ⟨rfl, hr⟩ := ht
    rw [Node.eval]
    obtain ⟨v, hv⟩ := hm.load j a hr
    rw [hv]
    refine pure ⟨Memory.load_kind hv, ?_⟩
    by_cases hp : j = .pointer
    · subst hp
      exact hm.pointer a v hr hv
    · exact T.vouches_of_kind (Memory.load_kind hv) hp
  | .arith op l r, k, dead, s, ht, hm => by
    rw [Node.eval]
    refine (l.sat hT k dead s ht.2.1 hm).bind fun x s hl hx => ?_
    refine (r.sat hT k dead s ht.2.2 (hm.mono hl)).bind fun y s _ hy => ?_
    exact sat_combine ht.1 hx.1 hy.1
  | .concat l r, k, dead, s, ht, hm => by
    rw [Node.eval]
    refine (l.sat hT .string dead s ht.2.1 hm).bind fun x s hl _ => ?_
    refine (r.sat hT .string dead s ht.2.2 (hm.mono hl)).bind fun y s _ _ => ?_
    rw [ht.1]
    exact pure (T.of_kind rfl (by simp))
  | .negate n, k, dead, s, ht, hm => by
    rw [Node.eval]
    refine (n.sat hT k dead s ht.2 hm).bind fun x s _ hx => ?_
    obtain ⟨u, hu, hk⟩ := Value.negate_kind ht.1 hx.1
    rw [hu]
    refine pure (T.of_kind hk ?_)
    rintro rfl
    cases ht.1
  | .complement n, k, dead, s, ht, hm => by
    rw [Node.eval]
    refine (n.sat hT k dead s ht.2.2 hm).bind fun x s _ hx => ?_
    obtain ⟨u, hu, hk⟩ | ⟨hnone, hfloat⟩ := Value.complement_kind ht.1 hx.1
    · rw [hu]
      refine pure (T.of_kind hk ?_)
      rintro rfl
      cases ht.1
    · rw [hnone]
      exact halt ⟨ht.2.1 hfloat, .inl rfl⟩
  | .not n, k, dead, s, ht, hm => by
    rw [Node.eval]
    refine (n.sat hT .bool dead s ht.2 hm).bind fun x s _ hx => ?_
    refine (sat_toBool hx.1).bind fun b s _ _ => ?_
    rw [ht.1]
    exact pure (T.of_kind rfl (by simp))
  | .and l r, k, dead, s, ht, hm => by
    rw [Node.eval, ht.1]
    refine (l.sat hT .bool dead s ht.2.1 hm).bind fun x s hl hx => ?_
    refine (sat_toBool hx.1).bind fun b s hb _ => ?_
    have hm := (hm.mono hl).mono hb
    split
    · refine (r.sat hT .bool dead s ht.2.2 hm).bind fun y s _ hy => ?_
      refine (sat_toBool hy.1).bind fun b s _ _ => ?_
      exact pure (T.of_kind rfl (by simp))
    · refine (r.sat hT .bool true s ht.2.2 hm).bind fun y s _ _ => ?_
      exact pure (T.of_kind rfl (by simp))
  | .or l r, k, dead, s, ht, hm => by
    rw [Node.eval, ht.1]
    refine (l.sat hT .bool dead s ht.2.1 hm).bind fun x s hl hx => ?_
    refine (sat_toBool hx.1).bind fun b s hb _ => ?_
    have hm := (hm.mono hl).mono hb
    split
    · refine (r.sat hT .bool true s ht.2.2 hm).bind fun y s _ _ => ?_
      exact pure (T.of_kind rfl (by simp))
    · refine (r.sat hT .bool dead s ht.2.2 hm).bind fun y s _ hy => ?_
      refine (sat_toBool hy.1).bind fun b s _ _ => ?_
      exact pure (T.of_kind rfl (by simp))
  | .compare op j l r, k, dead, s, ht, hm => by
    rw [Node.eval, ht.1]
    refine (l.sat hT j dead s ht.2.1 hm).bind fun x s hl hx => ?_
    refine (r.sat hT j dead s ht.2.2 (hm.mono hl)).bind fun y s _ hy => ?_
    obtain ⟨o, ho⟩ := Value.compare_kind hx.1 hy.1
    rw [ho]
    exact pure (T.of_kind rfl (by simp))
  | .ternary c y n, k, dead, s, ht, hm => by
    rw [Node.eval]
    refine (c.sat hT .bool dead s ht.1 hm).bind fun x s hl hx => ?_
    refine (sat_toBool hx.1).bind fun b s hb _ => ?_
    have hm := (hm.mono hl).mono hb
    split
    · refine (y.sat hT k dead s ht.2.1 hm).bind fun v s hl hv => ?_
      refine (n.sat hT k true s ht.2.2 (hm.mono hl)).bind fun _ s hl _ => ?_
      exact pure ⟨hv.1, hv.2.mono hl⟩
    · refine (y.sat hT k true s ht.2.1 hm).bind fun _ s hl _ => ?_
      exact n.sat hT k dead s ht.2.2 (hm.mono hl)
  | .coalesce l r, k, dead, s, ht, hm => by
    obtain ⟨rfl, htl, htr⟩ := ht
    rw [Node.eval]
    refine (l.sat hT .pointer dead s htl hm).bind fun v s hl hv => ?_
    obtain ⟨p, rfl⟩ := Value.kind_pointer hv.1
    have hm := hm.mono hl
    dsimp only
    split
    · exact r.sat hT .pointer dead s htr hm
    · refine (r.sat hT .pointer true s htr hm).bind fun _ s hl _ => ?_
      exact pure ⟨hv.1, hv.2.mono hl⟩
  | .cast j n, k, dead, s, ht, hm => by
    rw [Node.eval]
    refine (n.sat hT j dead s ht hm).bind fun v s _ hv => ?_
    refine pure ⟨Value.kind_cast v k, ?_⟩
    by_cases hk : v.kind? = some k
    · unfold Value.cast
      rw [if_pos hk]
      exact hv.2
    · by_cases hp : k = .pointer
      · subst hp
        unfold Value.cast
        rw [if_neg hk]
        exact T.vouches_zero s .pointer
      · exact T.vouches_of_kind (Value.kind_cast v k) hp
  | .call t d args, k, dead, s, ht, hm => by
    rw [Node.eval]
    refine (t.sat hT dead s ht.1 hm).bind fun target s hl htarget => ?_
    refine (args.sat hT dead s ht.2.2 (hm.mono hl)).bind fun vs s hl hvs => ?_
    split
    · exact pure (T.of_zero k)
    · refine (sat_requireTarget R.floatBits fun p hp => T.mono hl (htarget p hp)).bind
        fun p s hl hp => ?_
      exact sat_callFunction hT R.floatBits hp fun v hv => (hvs v hv).mono hl
  | .subscript t j i, k, dead, s, ht, hm => by
    rw [Node.eval]
    refine (t.sat hT .pointer dead s ht.1 hm).bind fun x s hl hx => ?_
    refine (sat_toPointer hx).bind fun p s hl' hp => ?_
    refine (i.sat hT j dead s ht.2 ((hm.mono hl).mono hl')).bind fun v s hl hv => ?_
    split
    · exact pure (T.of_zero k)
    · exact sat_callSubscript hT R.floatBits (T.mono hl hp) hv.2

/-- What a typed target gives, if anything, is a pointer to trust. -/
theorem Target.sat (hT : T.KeptBy host) : (t : Target) → ∀ (dead : Bool) (s : σ), t.Typed R →
    T.Covers R s memory →
    Sat T s (t.eval ⟨memory, host, numbers⟩ dead) (fun o s' => ∀ p, o = some p → T.trusted s' p)
      (Fault.Allowed R.floatBits)
  | .global, dead, s, _, _ => pure (by simp)
  | .of n, dead, s, ht, hm => by
    rw [Target.eval]
    refine (n.sat hT .pointer dead s ht hm).bind fun x s hl hx => ?_
    refine (sat_toPointer hx).bind fun p s _ hp => ?_
    exact pure fun q hq => Option.some.inj hq ▸ hp

theorem Args.sat (hT : T.KeptBy host) : (args : Args) → ∀ (dead : Bool) (s : σ), args.Typed R →
    T.Covers R s memory →
    Sat T s (args.eval ⟨memory, host, numbers⟩ dead) (fun vs s' => ∀ v ∈ vs, T.Vouches s' v)
      (Fault.Allowed R.floatBits)
  | .nil, dead, s, _, _ => pure (by simp)
  | .cons k n rest, dead, s, ht, hm => by
    rw [Args.eval]
    refine (n.sat hT k dead s ht.1 hm).bind fun v s hl hv => ?_
    refine (rest.sat hT dead s ht.2 (hm.mono hl)).bind fun vs s hl hvs => ?_
    refine pure fun u hu => ?_
    obtain rfl | hu := mem_cons.1 hu
    · exact hv.2.mono hl
    · exact hvs u hu
end

/-! ### Statements -/

/-- Where a statement can go. -/
def Instr.Moves (m : Move) : Instr → Prop
  | .conditional _ d => m = .next ∨ m = .skip d
  | .forward d => m = .skip d
  | .back d => m = .back d
  | .exit => m = .exit
  | .leap _ => False
  | _ => m = .next

/-- What a statement makes of the memory. -/
def Instr.Writes (T : Trust σ) (memory memory' : Memory) (s : σ) : Instr → Prop
  | .assign k a _ => ∃ v, T.Of k v s ∧ memory.store a v = .ok memory'
  | _ => memory' = memory

theorem sat_updated (F : Prop) (hop : op.Updates k) (hc : Sat T s current (T.Of k) (Fault.Allowed F))
    (hg : T.Of k given s) : Sat T s (updated op k current given) (T.Of k) (Fault.Allowed F) := by
  obtain rfl | ⟨rfl, rfl⟩ | ⟨op, rfl, hnum, hbits⟩ := hop
  · exact pure hg
  · exact hc.bind fun v s _ _ => pure (T.of_kind rfl (by simp))
  · refine hc.bind fun v s _ hv => ?_
    exact sat_combine (R := ⟨fun _ _ => True, F⟩) ⟨hnum, fun hb hf => absurd hf (hbits hb)⟩ hv.1 hg.1

theorem sat_updateProperty (hT : T.KeptBy host) (F : Prop) (hop : op.Updates k) (ht : T.trusted s target)
    (hg : T.Of k given s) : Sat T s (updateProperty ⟨memory, host, numbers⟩ k target symbol op given) (fun _ _ => True)
      (Fault.Allowed F) := by
  have hcall : Sat T s (callFunction ⟨memory, host, numbers⟩ target symbol [] (some k)) (T.Of k)
      (Fault.Allowed F) := sat_callFunction hT F ht (by simp)
  refine (sat_updated F hop hcall hg).bind fun v s' hl hv => ?_
  split
  · exact halt trivial
  · rename_i f hf
    exact ask (hT.assignProperty f hf _ _ _ _ (T.mono hl ht) hv.2) trivial

theorem sat_updateSubscript (hT : T.KeptBy host) (F : Prop) (hop : op.Updates k) (ht : T.trusted s target)
    (hi : T.Vouches s index) (hg : T.Of k given s) :
    Sat T s (updateSubscript ⟨memory, host, numbers⟩ k target index op given) (fun _ _ => True) (Fault.Allowed F) := by
  have hcall : Sat T s (callSubscript ⟨memory, host, numbers⟩ target index k) (T.Of k)
      (Fault.Allowed F) := sat_callSubscript hT F ht hi
  unfold updateSubscript
  split
  · exact halt trivial
  · refine (sat_updated F hop hcall hg).bind fun v s' hl hv => ?_
    split
    · exact halt trivial
    · rename_i f hf
      exact ask (hT.assignSubscript f hf _ _ _ _ (T.mono hl ht) (hi.mono hl) hv.2) trivial

theorem sat_notify {handler : Option α} {f : α → StateM σ Unit} (h : ∀ g, handler = some g → T.Step s (f g)) :
    Sat T s (ask (Host.notify (handler.map f))) (fun _ _ => True) F := by
  cases handler with
  | none => exact ask (T.refl s) trivial
  | some g => exact ask (h g rfl) trivial

/-- A statement that makes sense goes where its instruction says, writes a value of the right
kind at most, and halts only as runs may. -/
theorem Instr.sat (hT : T.KeptBy host) {W : Kind → Nat → Prop} (i : Instr) (ht : i.Typed R W)
    (hleap : ∀ l, i ≠ .leap l) (hm : T.Covers R s memory)
    (hw : ∀ k a v, W k a → v.kind? = some k → ∃ m, memory.store a v = .ok m) :
    Sat T s (i.exec ⟨memory, host, numbers⟩) (fun r s' => i.Moves r.1 ∧ i.Writes T memory r.2 s')
      (Fault.Allowed R.floatBits) := by
  cases i with
  | assign k a v =>
    refine (v.sat hT k false s ht.2 hm).bind fun x s _ hx => ?_
    obtain ⟨m, hstore⟩ := hw k a x ht.1 hx.1
    rw [hstore]
    exact pure ⟨rfl, x, hx, hstore⟩
  | assignProperty k t d op v =>
    refine (t.sat hT false s ht.1 hm).bind fun target s hl htarget => ?_
    refine (v.sat hT k false s ht.2.2 (hm.mono hl)).bind fun x s hl hx => ?_
    refine (sat_requireTarget R.floatBits fun p hp => T.mono hl (htarget p hp)).bind fun p s hl hp => ?_
    refine (sat_updateProperty hT R.floatBits ht.2.1 hp ⟨hx.1, hx.2.mono hl⟩).bind fun _ s _ _ => ?_
    exact pure ⟨rfl, rfl⟩
  | assignSubscript k t j i op v =>
    refine (t.sat hT .pointer false s ht.1 hm).bind fun x s hl hx => ?_
    refine (sat_toPointer hx).bind fun p s hl' hp => ?_
    have hm := (hm.mono hl).mono hl'
    refine (i.sat hT j false s ht.2.1 hm).bind fun index s hl hi => ?_
    refine (v.sat hT k false s ht.2.2.2 (hm.mono hl)).bind fun given s hl' hg => ?_
    refine (sat_updateSubscript hT R.floatBits ht.2.2.1 (T.mono hl' (T.mono hl hp)) (hi.2.mono hl')
      hg).bind fun _ s _ _ => ?_
    exact pure ⟨rfl, rfl⟩
  | callUnused t d args =>
    refine (t.sat hT false s ht.1 hm).bind fun target s hl htarget => ?_
    refine (args.sat hT false s ht.2.2 (hm.mono hl)).bind fun vs s hl hvs => ?_
    refine (sat_requireTarget R.floatBits fun p hp => T.mono hl (htarget p hp)).bind fun p s hl hp => ?_
    refine (sat_callUnused hT R.floatBits hp fun v hv => (hvs v hv).mono hl).bind fun _ s _ _ => ?_
    exact pure ⟨rfl, rfl⟩
  | conditional c d =>
    refine (c.sat hT .bool false s ht hm).bind fun x s _ hx => ?_
    refine (sat_toBool hx.1).bind fun b s _ _ => ?_
    refine pure ⟨?_, rfl⟩
    cases b with
    | true => exact .inl rfl
    | false => exact .inr rfl
  | forward _ | back _ | exit => exact pure ⟨rfl, rfl⟩
  | metadata text =>
    exact (sat_notify fun g hg => hT.metadata g hg s text).bind fun _ s _ _ => pure ⟨rfl, rfl⟩
  | debugLine n =>
    exact (sat_notify fun g hg => hT.debugLine g hg s n).bind fun _ s _ _ => pure ⟨rfl, rfl⟩
  | clearedLine =>
    exact (sat_notify fun g hg => hT.debugLine g hg s 0).bind fun _ s _ _ => pure ⟨rfl, rfl⟩
  | debugUpdate name k v =>
    refine (v.sat hT k false s ht.2 hm).bind fun x s _ hx => ?_
    exact (sat_notify fun g hg => hT.debugUpdate g hg s name x hx.2).bind fun _ s _ _ => pure ⟨rfl, rfl⟩
  | debugDelete name =>
    exact (sat_notify fun g hg => hT.debugDelete g hg s name).bind fun _ s _ _ => pure ⟨rfl, rfl⟩
  | leap l => exact absurd rfl (hleap l)

end Sat

end HostScript
