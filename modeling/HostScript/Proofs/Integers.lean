import HostScript.Proofs.Known
import Mathlib.Data.Int.Bitwise

/-! Whole numbers without a kind.

Numbers that have no kind yet are computed as integers (`ArithOp.exact`). Operators on bits go by
way of words of 128 bits, in which every number of 64 bits has room, so nothing is lost there. A
shift to the left moves bits out of such a word without notice: it is exact as long as its result
fits into 128 bits, and otherwise what is left of it may look like a small number. -/
namespace HostScript

variable {op : ArithOp} {b : Int} {k : IntKind} {lit r : Literal} {p : Primitive} {a n : Int} {l : Literal} {m : Nat}

-- powers are those of core
attribute [local instance (high)] instPowNat

/-- What an operator gives on the integers. A negative number has infinitely many leading ones; a
shift multiplies by a power of two, or divides by one and rounds down. -/
def ArithOp.exact (op : ArithOp) (a b : Int) : Int :=
  match op with
  | .add => a + b
  | .sub => a - b
  | .mul => a * b
  | .div => a.tdiv b
  | .mod => a.tmod b
  | .and => a.land b
  | .or => a.lor b
  | .xor => a.xor b
  | .shl => a * 2 ^ b.toNat
  | .shr => a / 2 ^ b.toNat

/-- The number is one of a signed word of 128 bits. -/
def FitsWide (n : Int) : Prop := -(2 ^ 127) ≤ n ∧ n < 2 ^ 127

instance (n : Int) : Decidable (FitsWide n) := inferInstanceAs (Decidable (_ ∧ _))

/-- The literal is a number without a kind, signed just if it is negative. -/
def Literal.Stands (lit : Literal) (n : Int) : Prop :=
  lit.integer? = some n ∧ lit.primitive = if n < 0 then .untypedSigned else .untypedInteger

/-! ### Words of 128 bits -/

namespace ArithOp.onIntegers?

theorem fitsWide_natCast : FitsWide m ↔ m < 2 ^ 127 := by
  unfold FitsWide
  omega

theorem fitsWide_negSucc : FitsWide (.negSucc m) ↔ m < 2 ^ 127 := by
  unfold FitsWide
  omega

theorem toInt_wide (h : FitsWide a) : (wide a).toInt = a := by
  obtain ⟨hle, hlt⟩ := h
  rw [wide, BitVec.toInt_ofInt]
  exact Int.bmod_eq_of_le hle hlt

/-- A negative number is the complement of what is one less than its amount. -/
theorem getLsbD_wide (a : Int) (i : Nat) : (wide a).getLsbD i = (decide (i < 128) && a.testBit i) := by
  cases a with
  | ofNat m => exact BitVec.getLsbD_ofNat 128 m i
  | negSucc m =>
    rw [wide, BitVec.ofInt_negSucc_eq_not_ofNat, BitVec.getLsbD_not, BitVec.getLsbD_ofNat]
    cases decide (i < 128) <;> rfl

theorem fitsWide_natBitwise (f : Bool → Bool → Bool) {n : Nat} (hm : m < 2 ^ 127) (hn : n < 2 ^ 127) :
    FitsWide (Int.natBitwise f m n) := by
  unfold Int.natBitwise
  cases f false false with
  | true => exact fitsWide_negSucc.2 (Nat.bitwise_lt_two_pow hm hn)
  | false => exact fitsWide_natCast.2 (Nat.bitwise_lt_two_pow hm hn)

theorem fitsWide_bitwise (f : Bool → Bool → Bool) (ha : FitsWide a) (hb : FitsWide b) :
    FitsWide (Int.bitwise f a b) := by
  unfold Int.bitwise
  cases a with
  | ofNat m =>
    cases b with
    | ofNat n => exact fitsWide_natBitwise _ (fitsWide_natCast.1 ha) (fitsWide_natCast.1 hb)
    | negSucc n => exact fitsWide_natBitwise _ (fitsWide_natCast.1 ha) (fitsWide_negSucc.1 hb)
  | negSucc m =>
    cases b with
    | ofNat n => exact fitsWide_natBitwise _ (fitsWide_negSucc.1 ha) (fitsWide_natCast.1 hb)
    | negSucc n => exact fitsWide_natBitwise _ (fitsWide_negSucc.1 ha) (fitsWide_negSucc.1 hb)

/-- A word made bit by bit is the number made bit by bit. -/
theorem toInt_of_bits {f : Bool → Bool → Bool} {w : BitVec 128} (ha : FitsWide a) (hb : FitsWide b)
    (h : ∀ i, w.getLsbD i = f ((wide a).getLsbD i) ((wide b).getLsbD i)) : w.toInt = Int.bitwise f a b := by
  have hw : w = wide (Int.bitwise f a b) := by
    refine BitVec.eq_of_getLsbD_eq fun i hi => ?_
    rw [h, getLsbD_wide, getLsbD_wide, getLsbD_wide, Int.testBit_bitwise, decide_eq_true hi]
    rfl
  rw [hw, toInt_wide (fitsWide_bitwise f ha hb)]

theorem toInt_shiftLeft (a : Int) (n : Nat) : (wide a <<< n).toInt = (a * 2 ^ n).bmod (2 ^ 128) := by
  have htwo : BitVec.twoPow 128 n = wide (2 ^ n) := by
    refine BitVec.eq_of_toNat_eq ?_
    rw [BitVec.toNat_twoPow, wide, show (2 : Int) = (2 : Nat) from rfl, ← Int.natCast_pow, BitVec.ofInt_natCast,
      BitVec.toNat_ofNat]
  rw [BitVec.shiftLeft_eq_mul_twoPow, htwo, wide, wide, ← BitVec.ofInt_mul, BitVec.toInt_ofInt]

theorem toInt_shiftRight (ha : FitsWide a) (n : Nat) : ((wide a).sshiftRight n).toInt = a / 2 ^ n := by
  rw [BitVec.toInt_sshiftRight, toInt_wide ha, Int.shiftRight_eq_div_pow]
  rfl

end ArithOp.onIntegers?

/-- An operator that is computed is exact, but for a shift to the left, which keeps 128 bits. -/
theorem ArithOp.onIntegers?_eq (ha : FitsWide a) (hb : FitsWide b) (h : op.onIntegers? a b = some n) :
    n = if op = .shl then (op.exact a b).bmod (2 ^ 128) else op.exact a b := by
  cases op with
  | add | sub | mul | div | mod => exact (Option.some.inj h).symm
  | and =>
    rw [← Option.some.inj h]
    exact (onIntegers?.toInt_of_bits ha hb fun i => BitVec.getLsbD_and).trans (congrFun (congrFun Int.bitwise_and a) b)
  | or =>
    rw [← Option.some.inj h]
    exact (onIntegers?.toInt_of_bits ha hb fun i => BitVec.getLsbD_or).trans (congrFun (congrFun Int.bitwise_or a) b)
  | xor =>
    rw [← Option.some.inj h]
    exact (onIntegers?.toInt_of_bits ha hb fun i => BitVec.getLsbD_xor).trans (congrFun (congrFun Int.bitwise_xor a) b)
  | shl =>
    obtain ⟨-, h⟩ := Option.ite_none_right_eq_some.1 h
    rw [← Option.some.inj h]
    exact onIntegers?.toInt_shiftLeft a b.toNat
  | shr =>
    obtain ⟨-, h⟩ := Option.ite_none_right_eq_some.1 h
    rw [← Option.some.inj h]
    exact onIntegers?.toInt_shiftRight ha b.toNat

/-! ### Literals -/

namespace IntKind

theorem range_toInt (word : BitVec k.bits) : k.least ≤ k.toInt word ∧ k.toInt word ≤ k.greatest := by
  unfold least greatest toInt
  split
  · exact ⟨BitVec.le_toInt word, Int.le_sub_one_of_lt BitVec.toInt_lt⟩
  · have hlt : (word.toNat : Int) < 2 ^ k.bits := (Int.ofNat_lt.2 word.isLt).trans_eq (Int.natCast_pow 2 k.bits)
    exact ⟨Int.natCast_nonneg _, Int.le_sub_one_of_lt hlt⟩

theorem toInt_ofInt (hleast : k.least ≤ n) (hgreatest : n ≤ k.greatest) : k.toInt (k.ofInt n) = n := by
  have hcast : ((2 ^ k.bits : Nat) : Int) = 2 ^ k.bits := Int.natCast_pow 2 k.bits
  unfold least at hleast
  unfold greatest at hgreatest
  unfold toInt ofInt
  split at hleast
  · rename_i hk
    rw [if_pos hk] at hgreatest ⊢
    have htwice : (2 : Int) ^ k.bits = 2 * 2 ^ (k.bits - 1) := by cases k <;> rfl
    rw [BitVec.toInt_ofInt]
    refine Int.bmod_eq_of_le ?_ ?_ <;> rw [hcast] <;> omega
  · rename_i hk
    rw [if_neg hk] at hgreatest ⊢
    rw [BitVec.toNat_ofInt, hcast, Int.emod_eq_of_lt hleast (Int.lt_of_le_sub_one hgreatest)]
    exact Int.toNat_of_nonneg hleast

end IntKind

namespace Literal

theorem fitsWide_between {l m : Int} (h : l ≤ m ∧ m ≤ n) (hl : FitsWide l) (hn : FitsWide n) : FitsWide m :=
  ⟨Int.le_trans hl.1 h.1, Int.lt_of_le_of_lt h.2 hn.2⟩

theorem fitsWide_integer? (h : l.integer? = some a) : FitsWide a := by
  cases l with
  | untypedSigned word | untypedInteger word =>
    cases h
    exact fitsWide_between (IntKind.range_toInt word) (by decide) (by decide)
  | int k word | float k x | bool b | string s | null | untypedFloat x => cases h

theorem stands_ofInteger? (h : ofInteger? n = some lit) : lit.Stands n := by
  unfold ofInteger? at h
  split at h
  · rename_i hneg
    obtain ⟨hle, h⟩ := Option.ite_none_right_eq_some.1 h
    cases h
    refine ⟨congrArg some (IntKind.toInt_ofInt hle ?_), (if_pos hneg).symm⟩
    exact Int.le_trans (Int.le_of_lt hneg) (by decide)
  · rename_i hpos
    obtain ⟨hle, h⟩ := Option.ite_none_right_eq_some.1 h
    cases h
    exact ⟨congrArg some (IntKind.toInt_ofInt (Int.not_lt.1 hpos) hle), (if_neg hpos).symm⟩

theorem Stands.unique {m : Int} (hm : lit.Stands m) (hn : lit.Stands n) : m = n :=
  Option.some.inj (hm.1.symm.trans hn.1)

theorem toInt_toWord {n : Number} {word : Word k} (h : toWord k n = .ok word) : k.toInt word = n.whole := by
  unfold toWord at h
  split at h
  · rename_i hrange
    cases h
    exact IntKind.toInt_ofInt hrange.1 hrange.2
  · cases h

/-- A number that is without a kind before and after a conversion is the same number. -/
theorem integer?_cast {m : Literal} (ha : l.integer? = some a) (hp : p = .untypedSigned ∨ p = .untypedInteger)
    (h : l.cast p = .ok m) : m.integer? = some a := by
  have hword : ∀ {k : IntKind} {f : Word k → Literal}, (∀ w, (f w).integer? = some (k.toInt w)) →
      (toWord k (.int a)).map f = .ok m → m.integer? = some a := by
    intro k f hf hm
    cases hw : toWord k (.int a) with
    | error e => rw [hw] at hm; cases hm
    | ok w => rw [hw] at hm; cases hm; rw [hf, toInt_toWord hw]; rfl
  cases l with
  | untypedSigned word =>
    cases ha
    obtain rfl | rfl := hp
    · cases h; rfl
    · exact hword (fun _ => rfl) h
  | untypedInteger word =>
    cases ha
    obtain rfl | rfl := hp
    · exact hword (fun _ => rfl) h
    · cases h; rfl
  | int k word | float k x | bool b | string s | null | untypedFloat x => cases ha

end Literal

theorem Check.run_bind {α β : Type} (c : Check α) (f : α → Check β) (reports : Reports) :
    (c >>= f) reports = f (c reports).1 (c reports).2 := rfl

namespace Fold

variable {span : Span} {l' r' : Literal} {reports : Reports}

section

variable (ha : l.integer? = some a)
include ha

theorem reconcile_integers (hb : r.integer? = some b)
    (h : l.primitive.reconcile r.primitive = some p) : p = .untypedSigned ∨ p = .untypedInteger := by
  cases l <;> cases ha <;> cases r <;> cases hb <;> cases h <;> simp [Literal.primitive]

theorem integers_operands (hb : r.integer? = some b)
    (h : (operands span l r reports).1 = some (l', r')) : l'.integer? = some a ∧ r'.integer? = some b := by
  unfold operands at h
  cases hp : l.primitive.reconcile r.primitive with
  | none => rw [hp] at h; cases h
  | some p =>
    have hint := reconcile_integers ha hb hp
    cases hl : l.cast p with
    | error e => rw [hp] at h; dsimp only at h; rw [hl] at h; cases h
    | ok x =>
      cases hr : r.cast p with
      | error e => rw [hp] at h; dsimp only at h; rw [hl, hr] at h; cases h
      | ok y =>
        rw [hp] at h
        dsimp only at h
        rw [hl, hr] at h
        cases h
        exact ⟨Literal.integer?_cast ha hint hl, Literal.integer?_cast hb hint hr⟩

theorem integers_arithmetic (hb : r.integer? = some b)
    (h : (arithmetic span op l r reports).1 = some lit) : (op.onIntegers? a b).bind Literal.ofInteger? = some lit := by
  unfold arithmetic at h
  split at h
  · cases h
  · rw [ha, hb] at h
    cases hn : (op.onIntegers? a b).bind Literal.ofInteger? with
    | none =>
      simp only [hn] at h
      cases h
    | some n =>
      simp only [hn] at h
      exact h

/-- Only texts are added in another way. -/
theorem binary_integers :
    binary span (.arith op) l r = (do
      let some (l, r) ← operands span l r | return none
      arithmetic span op l r) := by
  cases l <;> cases ha <;> cases op <;> rfl

theorem integers_binary (hb : r.integer? = some b)
    (h : (binary span (.arith op) l r reports).1 = some lit) : ∃ n, op.onIntegers? a b = some n ∧ lit.Stands n := by
  rw [binary_integers ha, Check.run_bind] at h
  cases hlr : (operands span l r reports).1 with
  | none => rw [hlr] at h; cases h
  | some lr =>
    rw [hlr] at h
    obtain ⟨ha', hb'⟩ := integers_operands ha hb hlr
    obtain ⟨n, hn, hlit⟩ := Option.bind_eq_some_iff.1 (integers_arithmetic ha' hb' h)
    exact ⟨n, hn, Literal.stands_ofInteger? hlit⟩

end

end Fold

/-- Folding looks at reports nowhere, so an operator is computed from the literals its operands are. -/
theorem known?_arith (span : Span) (op : ArithOp) {left right : Expr} (hl : left.known? = some l)
    (hr : right.known? = some r) :
    ∃ reports, (Expr.binary span (.arith op) left right).known? = (Fold.binary span (.arith op) l r reports).1 := by
  refine ⟨(fold right (fold left #[]).2).2, ?_⟩
  have hr' : (fold right (fold left #[]).2).1 = some r := ((plain_fold right).steady _).trans hr
  have hl' : (fold left #[]).1 = some l := hl
  rw [Expr.known?, fold, Check.run_bind, hl']
  · dsimp only
    rw [Check.run_bind, hr']
  · exact BinaryOp.noConfusion
  · exact BinaryOp.noConfusion

theorem bmod_eq_self_iff : n.bmod (2 ^ 128) = n ↔ FitsWide n := by
  constructor
  · intro h
    rw [← h]
    exact ⟨Int.le_bmod (by decide), Int.bmod_lt (by decide)⟩
  · rintro ⟨hle, hlt⟩
    exact Int.bmod_eq_of_le hle hlt

/-- An operator on two whole numbers without a kind is known to be what it is on the integers, with
a literal that is signed just if it is negative, unless it shifts bits out of 128 to the left. -/
theorem known_integers_exact {span : Span} {op : ArithOp} {left right : Expr} {l r lit : Literal} {a b : Int}
    (hl : left.known? = some l) (hr : right.known? = some r) (ha : l.integer? = some a)
    (hb : r.integer? = some b) (h : (Expr.binary span (.arith op) left right).known? = some lit) :
    lit.Stands (op.exact a b) ↔ (op = .shl → FitsWide (a * 2 ^ b.toNat)) := by
  obtain ⟨reports, hbinary⟩ := known?_arith span op hl hr
  obtain ⟨n, hn, hlit⟩ := Fold.integers_binary ha hb (hbinary.symm.trans h)
  have hn := ArithOp.onIntegers?_eq (Literal.fitsWide_integer? ha) (Literal.fitsWide_integer? hb) hn
  by_cases hop : op = .shl
  · subst hop
    rw [if_pos rfl] at hn
    have hexact : lit.Stands (ArithOp.exact .shl a b) ↔ n = ArithOp.exact .shl a b :=
      ⟨hlit.unique, fun heq => heq ▸ hlit⟩
    rw [hexact, hn, bmod_eq_self_iff, ArithOp.exact]
    exact ⟨fun hfits _ => hfits, fun hfits => hfits rfl⟩
  · rw [if_neg hop] at hn
    exact iff_of_true (hn ▸ hlit) fun hshl => absurd hshl hop

namespace Integers

def place : Span := ⟨0, 0, 0⟩

/-- A whole number as a script writes it. -/
def written (n : Nat) : Expr := .literal place (.untypedInteger (IntKind.ofInt .uint64 n))

/-- Half of minus nine, rounded down. -/
theorem known_integers_exact_halved :
    (Expr.binary place (.arith .shr) (.unary place .negate (written 9)) (written 1)).known? =
        some (.untypedSigned (-5)) ∧
      (Literal.untypedSigned (-5)).Stands (ArithOp.exact .shr (-9) 1) := by
  have hleft : (Expr.unary place .negate (written 9)).known? = some (.untypedSigned (-9)) := by decide
  have hknown : (Expr.binary place (.arith .shr) (.unary place .negate (written 9)) (written 1)).known? =
      some (.untypedSigned (-5)) := by decide
  exact ⟨hknown, (known_integers_exact hleft rfl rfl rfl hknown).2 nofun⟩

/-- Of sixteen shifted by 124 nothing is left. -/
theorem known_shift_lost :
    (Expr.binary place (.arith .shl) (written 16) (written 124)).known? = some (.untypedInteger 0) ∧
      ¬ (Literal.untypedInteger 0).Stands (ArithOp.exact .shl 16 124) := by
  refine ⟨by decide, ?_⟩
  rintro ⟨hzero, -⟩
  exact absurd hzero (by decide)

end Integers

end HostScript
