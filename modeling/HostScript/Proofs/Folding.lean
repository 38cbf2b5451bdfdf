import HostScript.Proofs.Emission
import HostScript.Proofs.Reading
import HostScript.Proofs.Soundness
import Mathlib.Algebra.Group.Int.Defs

/-! What is known before a run and what the run makes of it.

The tree of an expression with nothing folded is evaluated, and compared with the
literal that folding finds. For expressions over integers, truth values and texts both
come to the same (`Emits.gives`). Whatever the expression is made of, evaluating what
folding knows asks the host for nothing, as long as folding looks at operands in the
order of a run and the ones that decide come out as folded (`Emits.still`). -/
namespace HostScript

open Check World Primitive Emits Node Value

variable {i : IntKind} {m : Literal} {n : Number} {σ : Type}
  {op : ArithOp} {b : Bool} {left operand right : Expr} {j : IntKind} {k : Kind} {l : Literal} {o : Option Literal}
  {p : Primitive} {span : Span} {r : Ty}

/-! ### Effects without the host -/

namespace Effect

variable {α β : Type} {t : Effect σ α} {g : α → Effect σ β}

/-- The effect has this result, whatever the host, which sees nothing of it. -/
def Gives (t : Effect σ α) (a : α) : Prop := ∀ s, t s = (.ok a, s)

theorem Gives.pure (a : α) : Gives (σ := σ) (pure a) a := fun _ => rfl

theorem Gives.bind {a : α} {b : β} (ht : t.Gives a) (hg : (g a).Gives b) : (t >>= g).Gives b := by
  intro s
  rw [bind_apply, ht s]
  exact hg s

/-- The host is left as it was, whatever comes out. -/
class Still (t : Effect σ α) : Prop where
  unchanged : ∀ s, (t s).2 = s

theorem Gives.still (h : t.Gives a) : t.Still := ⟨fun s => by rw [h s]⟩

instance [ht : Fixed t] : t.Still := by
  obtain ⟨r, hr⟩ := ht
  exact ⟨fun s => by rw [hr s]⟩

/-- What follows only has to be still for results that there are. -/
theorem Still.bind_ok (ht : t.Still) (hg : ∀ s a, (t s).1 = .ok a → (g a s).2 = s) : (t >>= g).Still := by
  constructor
  intro s
  have hs := ht.unchanged s
  rw [bind_apply]
  rcases h : t s with ⟨f | a, s'⟩
  · rw [h] at hs
    exact hs
  · rw [h] at hs
    rw [show s' = s from hs]
    exact hg s a (by rw [h])

instance still_bind [ht : t.Still] [hg : ∀ a, (g a).Still] : (t >>= g).Still :=
  ht.bind_ok fun s a _ => (hg a).unchanged s

instance still_ite {p : Prop} [Decidable p] {t' : Effect σ α} [t.Still] [t'.Still] : Still (if p then t else t') := by
  split <;> infer_instance

end Effect

open Effect

theorem gives_toBool (b : Bool) : (toBool (σ := σ) (.bool b)).Gives b := fun _ => rfl

mutual
/-- What is evaluated only to move past it asks the host for nothing. -/
theorem Node.still_dead (w : World σ) : (n : Node) → ∀ k, (n.eval w true k).Still
  | .literal _, _ | .bool _, _ | .null, _ | .variable _ _, _ => by unfold eval; infer_instance
  | .negate n, _ | .complement n, _ | .not n, _ | .cast _ n, _ => by
    have := n.still_dead w
    unfold eval
    infer_instance
  | .arith _ l r, _ | .concat l r, _ | .and l r, _ | .or l r, _ | .compare _ _ l r, _ => by
    have := l.still_dead w
    have := r.still_dead w
    unfold eval
    infer_instance
  | .ternary c y n, _ => by
    have := c.still_dead w
    have := y.still_dead w
    have := n.still_dead w
    unfold eval
    infer_instance
  | .coalesce l r, _ => by
    have := l.still_dead w
    have := r.still_dead w
    refine @still_bind _ _ _ _ _ inferInstance fun v => ?_
    split <;> infer_instance
  | .call t _ args, _ => by
    have := t.still_dead w
    have := args.still_dead w
    unfold eval
    simp only [reduceIte]
    infer_instance
  | .subscript t _ i, _ => by
    have := t.still_dead w
    have := i.still_dead w
    unfold eval
    simp only [reduceIte]
    infer_instance

theorem Target.still_dead (w : World σ) : (t : Target) → (t.eval w true).Still
  | .global => by unfold Target.eval; infer_instance
  | .of n => by
    have := n.still_dead w
    unfold Target.eval
    infer_instance

theorem Args.still_dead (w : World σ) : (args : Args) → (args.eval w true).Still
  | .nil => by unfold Args.eval; infer_instance
  | .cons _ n rest => by
    have := n.still_dead w
    have := rest.still_dead w
    unfold Args.eval
    infer_instance
end

/-! ### Plain values -/

/-- Integers, truth values and texts. -/
def Primitive.isPlain : Primitive → Bool
  | .kind (.int _) | .kind .bool | .kind .string => true
  | _ => false

namespace Primitive

theorem isPlain_cases (h : (kind k).isPlain = true) : (∃ j, k = .int j) ∨ k = .bool ∨ k = .string := by
  cases k with
  | int j => exact .inl ⟨j, rfl⟩
  | bool => exact .inr (.inl rfl)
  | string => exact .inr (.inr rfl)
  | float _ | pointer => cases h

theorem kind_of_isPlain (h : p.isPlain = true) : ∃ k, p = .kind k := by
  cases p with
  | kind k => exact ⟨k, rfl⟩
  | _ => cases h

/-- Plain things combine only with what is the same. -/
theorem reconcile_plain {l r : Primitive} (hl : l.isPlain = true) (hr : r.isPlain = true) (h : l.reconcile r = some p) :
    p = l := by
  by_cases heq : l = r
  · rw [reconcile, if_pos heq] at h
    exact (Option.some.inj h).symm
  · obtain ⟨j, rfl⟩ := kind_of_isPlain hl
    obtain ⟨k, rfl⟩ := kind_of_isPlain hr
    rw [reconcile, if_neg heq] at h
    split at h <;> cases h

theorem reconcile_self (p : Primitive) : p.reconcile p = some p := if_pos rfl

end Primitive

namespace Literal

theorem int_of_primitive (h : l.primitive = .kind (.int j)) : ∃ w, l = .int j w := by
  cases l <;> cases h
  exact ⟨_, rfl⟩

theorem bool_of_primitive (h : l.primitive = .kind .bool) : ∃ b, l = .bool b := by
  cases l <;> cases h
  exact ⟨_, rfl⟩

theorem string_of_primitive (h : l.primitive = .kind .string) : ∃ s, l = .string s := by
  cases l <;> cases h
  exact ⟨_, rfl⟩

theorem kind_value (h : l.primitive = .kind k) : l.value.kind? = some k := by
  cases l <;> cases h <;> rfl

theorem cast_self (h : l.primitive = p) : l.cast p = .ok l := if_pos h

end Literal

/-- Where a number is within narrow bounds, the wide ones give the same. -/
theorem Binary.truncate_within {k : FloatKind} {x : Binary k} {low high low' high' : Int} (hl : low ≤ low')
    (hh : high' ≤ high) (hx : low' ≤ x.truncate low high) (hx' : x.truncate low high ≤ high') :
    x.truncate low' high' = x.truncate low high := by
  unfold truncate at hx hx' ⊢
  cases hd : x.datum with
  | nan => rfl
  | infinite sign =>
    rw [hd] at hx hx'
    cases sign with
    | true => simp only [if_true] at hx hx' ⊢; omega
    | false => simp only [Bool.false_eq_true, if_false] at hx hx' ⊢; omega
  | finite sign m e =>
    rw [hd] at hx hx'
    dsimp only at hx hx' ⊢
    omega

namespace IntKind

theorem least_wide (k : IntKind) : -(2 ^ 127) ≤ k.least := by cases k <;> decide

theorem greatest_wide (k : IntKind) : k.greatest ≤ 2 ^ 127 - 1 := by cases k <;> decide

end IntKind

/-- A number that the compiler takes as one of a kind is taken as the same by a run. -/
theorem Number.toWord_eq {k : IntKind} {word : Word k} (h : Literal.toWord k n = .ok word) : n.toWord k = word := by
  unfold Literal.toWord at h
  split at h
  · rename_i hrange
    cases h
    cases n with
    | int i => rfl
    | float x =>
      show k.ofInt (x.truncate k.least k.greatest) = k.ofInt (x.truncate (-(2 ^ 127)) (2 ^ 127 - 1))
      rw [Binary.truncate_within k.least_wide k.greatest_wide hrange.1 hrange.2]
  · cases h

/-- A literal becomes an integer by the number it holds. -/
theorem Literal.cast_int_eq (hne : l.primitive ≠ .kind (.int i)) :
    l.cast (.kind (.int i)) = match l.number? with
      | none => Except.error (CastError.incompatible l.primitive (.kind (.int i)))
      | some n => (Literal.toWord i n).map (Literal.int i) := by
  refine (if_neg hne).trans ?_
  cases l <;> rfl

theorem Literal.cast_int (hn : l.number? = some n) (hne : l.primitive ≠ .kind (.int i))
    (h : l.cast (.kind (.int i)) = .ok m) : m.value = .int i (n.toWord i) := by
  rw [Literal.cast_int_eq hne, hn] at h
  dsimp only at h
  cases hw : Literal.toWord i n with
  | error e => rw [hw] at h; cases h
  | ok word =>
    rw [hw] at h
    cases h
    rw [Number.toWord_eq hw]
    rfl

/-- Both conversions agree among plain values. -/
theorem Literal.value_cast {j : Kind} (hl : l.primitive = .kind j) (hj : (kind j).isPlain = true)
    (hk : (kind k).isPlain = true) (h : l.cast (.kind k) = .ok m) : l.value.cast k = m.value := by
  by_cases heq : j = k
  · subst heq
    cases (cast_self hl).symm.trans h
    exact if_pos (kind_value hl)
  · have hne : ¬ l.value.kind? = some k := by
      rw [kind_value hl]
      exact fun h => heq (Option.some.inj h)
    have hne' : ¬ l.primitive = .kind k := by
      rw [hl]
      exact fun h => heq (kind.inj h)
    unfold Value.cast
    rw [if_neg hne]
    obtain ⟨i, rfl⟩ | rfl | rfl := isPlain_cases hk
    · obtain ⟨i', rfl⟩ | rfl | rfl := isPlain_cases hj
      · obtain ⟨w, rfl⟩ := int_of_primitive hl
        exact (cast_int rfl hne' h).symm
      · obtain ⟨b, rfl⟩ := bool_of_primitive hl
        exact (cast_int rfl hne' h).symm
      · obtain ⟨s, rfl⟩ := string_of_primitive hl
        exact (cast_int rfl hne' h).symm
    · unfold Literal.cast at h
      obtain ⟨i, rfl⟩ | rfl | rfl := isPlain_cases hj
      · obtain ⟨w, rfl⟩ := int_of_primitive hl
        cases h
        rfl
      · exact absurd rfl heq
      · obtain ⟨s, rfl⟩ := string_of_primitive hl
        cases h
        rfl
    · unfold Literal.cast at h
      rw [if_neg hne'] at h
      cases h
      rfl

/-! ### Concrete expressions -/

/-- Made of integers with a kind, truth values and texts. -/
def Expr.Concrete : Expr → Prop
  | .literal _ value => value.primitive.isPlain = true
  | .object _ _ => False
  | .parens _ inner => inner.Concrete
  | .cast _ type operand => type.type.primitive.isPlain = true ∧ operand.Concrete
  | .unary _ _ operand => operand.Concrete
  | .binary _ _ left right => left.Concrete ∧ right.Concrete
  | .ternary _ condition yes no => condition.Concrete ∧ yes.Concrete ∧ no.Concrete

theorem Expr.Concrete.closed : {e : Expr} → e.Concrete → e.Closed
  | .literal _ _, _ => trivial
  | .parens _ inner, h => Expr.Concrete.closed (e := inner) h
  | .cast _ _ operand, h => Expr.Concrete.closed (e := operand) h.2
  | .unary _ _ operand, h => Expr.Concrete.closed (e := operand) h
  | .binary _ _ _ _, h => ⟨Expr.Concrete.closed h.1, Expr.Concrete.closed h.2⟩
  | .ternary _ _ _ _, h =>
    ⟨Expr.Concrete.closed h.1, Expr.Concrete.closed h.2.1,
      Expr.Concrete.closed h.2.2⟩

theorem combinedType_plain {l u : Ty} (hl : l.primitive.isPlain = true) (hr : r.primitive.isPlain = true)
    (h : Passes (combinedType span l r) (some u)) : u.primitive.isPlain = true := by
  obtain ⟨p, rfl, hp⟩ := passes_combinedType h
  rw [show (Ty.prim p).primitive = l.primitive from reconcile_plain hl hr hp]
  exact hl

theorem branchType_plain {l u : Ty} (hl : l.primitive.isPlain = true) (hr : r.primitive.isPlain = true)
    (h : Passes (branchType api span l r) (some u)) : u.primitive.isPlain = true := by
  unfold branchType at h
  split at h
  · cases passes_pure.1 h
    exact hl
  · split at h
    · cases hl
    · cases hl
    · cases hl
    · exact combinedType_plain hl hr h

/-- A concrete expression has a plain type. -/
theorem typeOf_plain : (e : Expr) → e.Concrete → ∀ {u : Ty}, Passes (typeOf s e) (some u) →
    u.primitive.isPlain = true
  | .literal _ value, hc, u, h => by
    cases passes_pure.1 h
    exact hc
  | .parens _ inner, hc, u, h => typeOf_plain inner hc h
  | .cast _ type operand, hc, u, h => by
    unfold typeOf Scope.namedType at h
    split at h
    · cases passes_pure.1 h
      exact hc.1
    · exact absurd h (not_passes_refuse _ _ _)
  | .unary span op operand, hc, u, h => by
    obtain ⟨w, hw, h⟩ := passes_typeOf_unary h
    have hplain := typeOf_plain operand hc hw
    unfold unaryType at h
    dsimp only at h
    split at h
    · cases passes_pure.1 h
      rfl
    · split at h
      · exact absurd h (not_passes_refuse _ _ _)
      · split at h
        · rename_i hu
          rw [hu] at hplain
          cases hplain
        · split at h
          · cases passes_pure.1 h
            exact hplain
          · exact absurd h (not_passes_refuse _ _ _)
    · split at h
      · cases passes_pure.1 h
        exact hplain
      · exact absurd h (not_passes_refuse _ _ _)
  | .binary span op left right, hc, u, h => by
    by_cases hop : op = .and ∨ op = .or
    · unfold typeOf at h
      rw [if_pos hop] at h
      cases passes_pure.1 h
      rfl
    · obtain ⟨l, r, hl, hr, h⟩ := passes_typeOf_binary h hop
      have hpl := typeOf_plain left hc.1 hl
      have hpr := typeOf_plain right hc.2 hr
      cases op with
      | compare op =>
        obtain ⟨rfl, -⟩ := h
        rfl
      | arith op =>
        dsimp only at h
        unfold arithmeticType at h
        split at h
        · split at h
          · exact combinedType_plain hpl hpr h
          · exact absurd h (not_passes_refuse _ _ _)
        · split at h
          · cases passes_pure.1 h
            rfl
          · split at h
            · exact combinedType_plain hpl hpr h
            · exact absurd h (not_passes_refuse _ _ _)
      | and => exact absurd (.inl rfl) hop
      | or => exact absurd (.inr rfl) hop
      | coalesce =>
        rw [h.1] at hpl
        cases hpl
  | .ternary span condition yes no, hc, u, h => by
    obtain ⟨l, r, hl, hr, h⟩ := passes_typeOf_ternary h
    exact branchType_plain (typeOf_plain yes hc.2.1 hl) (typeOf_plain no hc.2.2 hr) h

namespace Fold

/-- Integers of a kind are folded with the words of the kind, and not divided by zero. -/
theorem binary_arith_int (span : Span) (op : ArithOp) (a b : Word j) :
    binary span (.arith op) (.int j a) (.int j b) = operands span (.int j a) (.int j b) >>= fun p =>
      match p with
      | some (l, r) => arithmetic span op l r
      | _ => pure none := by
  cases op <;> rfl

theorem passes_binary_int {a b : Word j} (h : Passes (binary span (.arith op) (.int j a) (.int j b)) o) :
    (op.divides && (int j b).isIntegerZero) = false ∧ o = some (.int j (op.onWords a b)) := by
  rw [binary_arith_int] at h
  obtain ⟨p, hp, h⟩ := h.parts
  obtain ⟨hnone, -⟩ | ⟨q, x, y, hq, hx, hy, rfl⟩ := passes_operands hp
  · rw [Literal.primitive, Literal.primitive, reconcile_self] at hnone
    cases hnone
  · cases (reconcile_self _).symm.trans hq
    cases (Literal.cast_self rfl).symm.trans hx
    cases (Literal.cast_self rfl).symm.trans hy
    dsimp only at h
    unfold arithmetic at h
    split at h
    · exact absurd h (not_passes_refuse _ _ _)
    · rename_i hz
      refine ⟨?_, ?_⟩
      · cases hd : op.divides && (int j b).isIntegerZero with
        | false => rfl
        | true =>
          obtain ⟨hop, hzero⟩ := (Bool.and_eq_true _ _).mp hd
          obtain rfl : b = 0 := by simpa [isIntegerZero] using hzero
          simp [hop, Literal.primitive, isInteger, Literal.value, number?, Number.isNonzero, IntKind.toInt] at hz
      · rw [← passes_pure.1 h]
        simp [Literal.arith]

/-- Literals of one primitive are compared as they are. -/
theorem passes_binary_compare {op : CompareOp} {r : Literal} (heq : l.primitive = r.primitive)
    (hnumeric : op.isOrdering = true → l.primitive.isNumeric = true) (h : Passes (binary span (.compare op) l r) o) :
    o = some (.bool (op.holds (l.order r))) := by
  obtain ⟨p, hp, h⟩ := h.parts
  rcases passes_operands hp with ⟨hnone, -⟩ | ⟨q, x, y, hq, hx, hy, rfl⟩
  · rw [heq, reconcile_self] at hnone
    cases hnone
  · rw [heq, reconcile_self] at hq
    cases hq
    cases (Literal.cast_self heq).symm.trans hx
    cases (Literal.cast_self rfl).symm.trans hy
    rw [← passes_pure.1 h]
    refine if_neg ?_
    intro hand
    obtain ⟨ho, hn⟩ := (Bool.and_eq_true _ _).mp hand
    rw [hnumeric ho] at hn
    cases hn

end Fold

section Concrete

variable {s : Scope} {e : Expr} {t : Ty} {n : Node}

/-- Whatever code is made for fits. -/
theorem Emits.fits (h : Emits F s e t n) : s.Fits e t := by
  cases h with
  | literal _ hfits _ => exact hfits
  | _ => exact Folding.Leaves.fits (by assumption)

/-- The type of a concrete expression is the one that is expected. -/
theorem Scope.Fits.plain (h : s.Fits e t) (hc : e.Concrete) (hk : t.primitive = .kind k) :
    ∃ u, Passes (typeOf s e) (some u) ∧ u.primitive = .kind k ∧ (kind k).isPlain = true := by
  obtain ⟨u, hu, hassign⟩ := h
  have hplain := typeOf_plain e hc hu
  obtain ⟨j, hj⟩ := kind_of_isPlain hplain
  obtain rfl := Api.assignable_same hassign (kind?_eq_some.2 hk) hj
  exact ⟨u, hu, hj, hj ▸ hplain⟩

theorem eval_ofLiteral (w : World σ) (dead : Bool) (k : Kind) (l : Literal) :
    ((ofLiteral l).eval w dead k).Gives l.value := by
  cases l <;> exact fun _ => rfl

theorem Scope.Fits.not_kind (h : s.Fits (.unary span .not operand) t) (hk : t.primitive = .kind k) : Kind.bool = k := by
  obtain ⟨u, htype, hassign⟩ := h
  obtain ⟨w, -, hw⟩ := passes_typeOf_unary htype
  cases passes_pure.1 hw
  exact Api.assignable_same hassign (kind?_eq_some.2 hk) rfl

/-- Only integers are negated and complemented, and only those with a sign are negated. -/
theorem Scope.Fits.unary_kind {op : UnaryOp} (h : s.Fits (.unary span op operand) t) (hoperand : s.Fits operand t)
    (hc : operand.Concrete) (hk : t.primitive = .kind k) (hop : op ≠ .not) :
    ∃ j, k = .int j ∧ (op = .negate → j.signed = true) := by
  obtain ⟨u, htype, hassign⟩ := h
  obtain ⟨w, hw, htype⟩ := passes_typeOf_unary htype
  obtain ⟨w', hw', hwk, hplain⟩ := hoperand.plain hc hk
  cases hw.fst.symm.trans hw'.fst
  unfold unaryType at htype
  cases op with
  | not => exact absurd rfl hop
  | negate =>
    dsimp only at htype
    rw [hwk] at htype
    obtain ⟨j, rfl⟩ | rfl | rfl := isPlain_cases hplain
    · split at htype
      · exact absurd htype (not_passes_refuse _ _ _)
      · rename_i hsigned
        exact ⟨j, rfl, fun _ => by simpa [isUnsignedInteger] using hsigned⟩
    all_goals exact absurd htype (not_passes_refuse _ _ _)
  | complement =>
    rw [hwk] at htype
    obtain ⟨j, rfl⟩ | rfl | rfl := isPlain_cases hplain
    · exact ⟨j, rfl, fun h => by cases h⟩
    all_goals exact absurd htype (not_passes_refuse _ _ _)

/-- Texts are added and integers are computed with. -/
theorem Scope.Fits.arith_kind (h : s.Fits (.binary span (.arith op) left right) t) (hc : left.Concrete ∧ right.Concrete)
    (hk : t.primitive = .kind k) : (op = .add ∧ k = .string) ∨ ∃ j, k = .int j := by
  obtain ⟨u, htype, huk, hplain⟩ := h.plain hc hk
  obtain ⟨_, _, -, -, htype⟩ := passes_typeOf_binary htype (by simp)
  obtain ⟨rfl, rfl⟩ | ⟨hnumeric, -⟩ := passes_arithmeticType htype
  · cases huk
    exact .inl ⟨rfl, rfl⟩
  · rw [huk] at hnumeric
    obtain hint | rfl | rfl := isPlain_cases hplain
    · exact .inr hint
    · cases hnumeric
    · cases hnumeric

/-- Nothing concrete is a pointer that another could stand in for. -/
theorem not_fits_coalesce (hc : left.Concrete ∧ right.Concrete) : ¬ s.Fits (.binary span .coalesce left right) t := by
  rintro ⟨u, htype, -⟩
  obtain ⟨l, _, hl, -, hptr, -⟩ := passes_typeOf_binary htype (by simp)
  have hplain := typeOf_plain left hc.1 hl
  rw [hptr] at hplain
  cases hplain

/-- Only numbers are put in order. -/
theorem Scope.Fits.ordering_kind {op : CompareOp} {l : Ty} (h : s.Fits (.binary span (.compare op) left right) t)
    (hl : Passes (typeOf s left) (some l)) (hr : Passes (typeOf s right) (some r))
    (hk : (comparisonOperandTypes span op l r).1.primitive = .kind k) (hplain : (kind k).isPlain = true)
    (ho : op.isOrdering = true) : (kind k).isNumeric = true := by
  obtain ⟨u, htype, -⟩ := h
  obtain ⟨l', r', hl', hr', -, v, hv⟩ := passes_typeOf_binary htype (by simp)
  cases hl.fst.symm.trans hl'.fst
  cases hr.fst.symm.trans hr'.fst
  unfold comparisonOperandTypes at hk
  rw [hv.fst] at hk
  dsimp only at hk
  obtain ⟨hlp, -, rfl⟩ | ⟨-, hord⟩ := passes_comparisonType hv
  · have hk : l.primitive = .kind k := hk
    cases hlp.symm.trans hk
    cases hplain
  · split at hk
    · rename_i hptr
      have hnumeric := hord ho
      rw [hptr] at hnumeric
      cases hnumeric
    · rw [← hk]
      exact hord ho

/-! ### Moving past concrete expressions -/

theorem gives_combine_int (w : Bool) {a b : Word j} (h : (op.divides && (Value.int j b).isIntegerZero) = false) :
    (combine (σ := σ) (.arith op) (.int j) w (.int j a) (.int j b)).Gives (.int j (op.onWords a b)) := by
  unfold combine
  dsimp only
  rw [if_neg (by simp [h])]
  intro s
  simp [Value.arith]
  rfl

section Operators

variable {w : World σ} {dead : Bool} {l m n : Node}

/-- `||` or `&&`, by the left operand that decides it. -/
def Node.logical : (decisive : Bool) → Node → Node → Node
  | true => .or
  | false => .and

theorem gives_logical (hl : (l.eval w dead .bool).Gives (.bool a)) (hr : a ≠ d → (m.eval w dead .bool).Gives (.bool b))
    (hd : a = d → ∃ v, (m.eval w true .bool).Gives v) :
    ((logical d l m).eval w dead k).Gives (.bool (bif a == d then d else b)) := by
  cases d
  all_goals
    refine hl.bind ((gives_toBool a).bind ?_)
    cases a
  case false.true | true.false => exact (hr nofun).bind ((gives_toBool b).bind (Gives.pure _))
  case false.false | true.true => exact (hd rfl).elim fun _ hv => hv.bind (Gives.pure _)

theorem gives_dead_logical (d : Bool) (hl : ∃ v, (l.eval w true .bool).Gives v ∧ v.kind? = some .bool)
    (hm : ∃ v, (m.eval w true .bool).Gives v ∧ v.kind? = some .bool) :
    ∃ v, ((logical d l m).eval w true k).Gives v ∧ v.kind? = some .bool := by
  obtain ⟨x, hx, hxk⟩ := hl
  obtain ⟨y, hy, hyk⟩ := hm
  obtain ⟨a, rfl⟩ := kind_bool hxk
  obtain ⟨b, rfl⟩ := kind_bool hyk
  exact ⟨_, gives_logical hx (fun _ => hy) fun _ => ⟨_, hy⟩, rfl⟩

theorem gives_ternary (hl : (l.eval w dead .bool).Gives (.bool b)) (hv : ((if b then m else n).eval w dead k).Gives v)
    (hd : ∃ v, ((if b then n else m).eval w true k).Gives v) : ((ternary l m n).eval w dead k).Gives v := by
  obtain ⟨u, hu⟩ := hd
  refine hl.bind ((gives_toBool b).bind ?_)
  cases b with
  | true => exact hv.bind (hu.bind (Gives.pure _))
  | false => exact hu.bind hv

theorem gives_compare {op : CompareOp} {j : Kind} {x y : Value} {o : Option Ordering}
    (hl : (l.eval w dead j).Gives x) (hm : (m.eval w dead j).Gives y) (ho : x.compare? y = some o) :
    ((compare op j l m).eval w dead k).Gives (.bool (op.holds o)) := by
  refine hl.bind (hm.bind ?_)
  rw [ho]
  exact fun _ => rfl

end Operators

/-- What is concrete always has a value where it does not matter. -/
theorem Emits.gives_dead (w : World σ) : (e : Expr) → e.Concrete → ∀ {t : Ty} {k : Kind} {n : Node},
    Emits .off s e t n → t.primitive = .kind k → ∃ v, (n.eval w true k).Gives v ∧ v.kind? = some k
  | .literal span value, hc, t, k, n, h, hk => by
    cases h with
    | @literal _ m _ _ _ hfits hcast =>
      exact ⟨m.value, eval_ofLiteral w true k m, Literal.kind_value ((Literal.cast_primitive hcast).trans hk)⟩
  | .parens span inner, hc, t, k, n, h, hk => by
    cases h with
    | literal hl _ _ => cases passes_pure.1 hl
    | parens _ hinner => exact gives_dead w inner hc hinner hk
  | .cast span type operand, hc, t, k, n, h, hk => by
    cases h with
    | literal hl _ _ => cases passes_pure.1 hl
    | castSame hleaves hkind _ hsame hoperand =>
      obtain rfl := hleaves.fits.cast_kind hkind hk
      exact gives_dead w operand hc.2 hoperand (castOperandType_kind hkind hsame)
    | cast _ _ _ hj _ hoperand =>
      obtain ⟨v, hv, -⟩ := gives_dead w operand hc.2 hoperand hj
      refine ⟨v.cast k, ?_, kind_cast v k⟩
      exact hv.bind (Gives.pure _)
  | .unary span op operand, hc, t, k, n, h, hk => by
    cases h with
    | literal hl _ _ => cases passes_pure.1 hl
    | not hleaves hoperand =>
      obtain rfl := hleaves.fits.not_kind hk
      obtain ⟨v, hv, hvk⟩ := gives_dead w operand hc hoperand rfl
      obtain ⟨b, rfl⟩ := kind_bool hvk
      refine ⟨.bool !b, ?_, rfl⟩
      exact hv.bind ((gives_toBool b).bind (Gives.pure _))
    | negate hleaves hoperand =>
      obtain ⟨j, rfl, -⟩ := hleaves.fits.unary_kind hoperand.fits hc hk (by simp)
      obtain ⟨v, hv, hvk⟩ := gives_dead w operand hc hoperand hk
      obtain ⟨word, rfl⟩ := kind_int hvk
      refine ⟨.int j (-word), ?_, rfl⟩
      exact hv.bind fun _ => rfl
    | complement hleaves hoperand =>
      obtain ⟨j, rfl, -⟩ := hleaves.fits.unary_kind hoperand.fits hc hk (by simp)
      obtain ⟨v, hv, hvk⟩ := gives_dead w operand hc hoperand hk
      obtain ⟨word, rfl⟩ := kind_int hvk
      refine ⟨.int j (~~~word), ?_, rfl⟩
      exact hv.bind fun _ => rfl
  | .binary span op left right, hc, t, k, n, h, hk => by
    cases h with
    | literal hl _ _ => cases passes_pure.1 hl
    | @arith _ op _ _ _ m n hleaves hleft hright =>
      obtain ⟨x, hx, hxk⟩ := gives_dead w left hc.1 hleft hk
      obtain ⟨y, hy, hyk⟩ := gives_dead w right hc.2 hright hk
      obtain ⟨rfl, rfl⟩ | ⟨j, rfl⟩ := hleaves.fits.arith_kind hc hk
      · rw [ofArith, if_pos ⟨rfl, hk⟩]
        exact ⟨.string (x.text ++ y.text), hx.bind (hy.bind (Gives.pure _)), rfl⟩
      · obtain ⟨a, rfl⟩ := kind_int hxk
        obtain ⟨b, rfl⟩ := kind_int hyk
        rw [ofArith, if_neg fun h => by cases hk.symm.trans h.2]
        cases hz : op.divides && (int j b).isIntegerZero with
        | true =>
          refine ⟨.zero (.int j), hx.bind (hy.bind fun _ => ?_), rfl⟩
          unfold combine
          dsimp only
          rw [if_pos hz]
          rfl
        | false => exact ⟨.int j (op.onWords a b), hx.bind (hy.bind (gives_combine_int true hz)), rfl⟩
    | compare hleaves _ _ hkl hkr hleft hright =>
      obtain rfl := hleaves.fits.truth_kind (.inl ⟨_, rfl⟩) hk
      obtain ⟨x, hx, hxk⟩ := gives_dead w left hc.1 hleft hkl
      obtain ⟨y, hy, hyk⟩ := gives_dead w right hc.2 hright hkr
      obtain ⟨o, ho⟩ := compare_kind hxk hyk
      exact ⟨_, gives_compare hx hy ho, rfl⟩
    | and hleaves hleft hright =>
      obtain rfl := hleaves.fits.truth_kind (.inr (.inl rfl)) hk
      exact gives_dead_logical false (gives_dead w left hc.1 hleft rfl) (gives_dead w right hc.2 hright rfl)
    | or hleaves hleft hright =>
      obtain rfl := hleaves.fits.truth_kind (.inr (.inr rfl)) hk
      exact gives_dead_logical true (gives_dead w left hc.1 hleft rfl) (gives_dead w right hc.2 hright rfl)
    | coalesce hleaves hleft _ => exact absurd hleaves.fits (not_fits_coalesce hc)
  | .ternary span condition yes no, hc, t, k, n, h, hk => by
    cases h with
    | literal hl _ _ => cases passes_pure.1 hl
    | chosen _ hchoice _ => cases passes_pure.1 hchoice
    | ternary _ _ hcondition hyes hno =>
      obtain ⟨x, hx, hxk⟩ := gives_dead w condition hc.1 hcondition rfl
      obtain ⟨y, hy, hyk⟩ := gives_dead w yes hc.2.1 hyes hk
      obtain ⟨z, hz, hzk⟩ := gives_dead w no hc.2.2 hno hk
      obtain ⟨b, rfl⟩ := kind_bool hxk
      cases b with
      | true => exact ⟨y, gives_ternary hx hy ⟨z, hz⟩, hyk⟩
      | false => exact ⟨z, gives_ternary hx hz ⟨y, hy⟩, hzk⟩

/-! ### Folding agrees with the run -/

/-- A literal that evaluating a node gives. -/
def Node.Comes (σ : Type) (n : Node) (k : Kind) (o : Option Literal) : Prop :=
  ∃ l, o = some l ∧ l.primitive = .kind k ∧ ∀ (w : World σ) dead, (n.eval w dead k).Gives l.value

theorem gives_folded_logical {l m : Node} (hl : ∀ {o}, Passes (fold left) o → l.Comes σ .bool o)
    (hm : ∀ {o}, Passes (fold right) o → m.Comes σ .bool o)
    (hd : ∀ w : World σ, ∃ v, (m.eval w true .bool).Gives v ∧ v.kind? = some .bool)
    (h : Passes (Fold.logical d (fold left) (fold right)) o) : (logical d l m).Comes σ .bool o := by
  obtain ⟨_, ha, h⟩ := Fold.passes_logical h
  obtain ⟨x, rfl, hx, hgx⟩ := hl ha
  obtain ⟨a, rfl⟩ := Literal.bool_of_primitive hx
  obtain ⟨ha, rfl⟩ | ⟨ha, _, hb, h⟩ := h
  · cases ha
    refine ⟨.bool d, rfl, rfl, fun w dead => ?_⟩
    have hgives := gives_logical (b := true) (k := .bool) (hgx w dead) (absurd rfl) fun _ => (hd w).imp fun _ h => h.1
    rwa [beq_self_eq_true] at hgives
  · obtain ⟨y, rfl, hy, hgy⟩ := hm hb
    obtain ⟨b, rfl⟩ := Literal.bool_of_primitive hy
    have hne : a ≠ d := fun h => ha (congrArg some h)
    refine ⟨.bool b, ?_, rfl, fun w dead => ?_⟩
    · obtain ⟨hb, rfl⟩ | ⟨hb, rfl⟩ := h
      · exact congrArg (·.map Literal.bool) hb.symm
      · have hb : b = !d := Bool.eq_not.2 fun h => hb (congrArg some h)
        rw [hb]
        rfl
    · have hgives := gives_logical (k := .bool) (hgx w dead) (fun _ => hgy w dead) fun h => absurd h hne
      rwa [beq_false_of_ne hne] at hgives

/-- Folding finds the literal of a concrete expression, and evaluating it gives the same. -/
theorem Emits.gives : (e : Expr) → e.Concrete → ∀ {t : Ty} {k : Kind} {n : Node} {o : Option Literal},
    Emits .off s e t n → t.primitive = .kind k → Passes (fold e) o →
      ∃ l, o = some l ∧ l.primitive = .kind k ∧ ∀ (w : World σ) dead, (n.eval w dead k).Gives l.value
  | .literal span value, hc, t, k, n, o, h, hk, hfold => by
    cases passes_pure.1 hfold
    cases h with
    | literal hl hfits hcast =>
      cases passes_pure.1 hl
      obtain ⟨u, hu, huk, -⟩ := hfits.plain hc hk
      cases passes_pure.1 hu
      have hvalue : value.primitive = .kind k := huk
      cases (Literal.cast_self (hvalue.trans hk.symm)).symm.trans hcast
      exact ⟨value, rfl, hvalue, fun w dead => eval_ofLiteral w dead k value⟩
  | .parens span inner, hc, t, k, n, o, h, hk, hfold => by
    cases h with
    | literal hl _ _ => cases passes_pure.1 hl
    | parens _ hinner => exact gives inner hc hinner hk hfold
  | .cast span type operand, hc, t, k, n, o, h, hk, hfold => by
    obtain ⟨v, hv, hfold⟩ := passes_fold_cast hfold
    have hpointer : type.type.primitive ≠ .kind .pointer := by
      intro hp
      have := hc.1
      rw [hp] at this
      cases this
    cases h with
    | literal hl _ _ => cases passes_pure.1 hl
    | castSame hleaves hkind _ hsame hoperand =>
      obtain rfl := hleaves.fits.cast_kind hkind hk
      obtain ⟨l, rfl, hl, hgives⟩ := gives operand hc.2 hoperand (castOperandType_kind hkind hsame) hv
      obtain ⟨hnone, -⟩ | ⟨_, heq, ⟨hp, -⟩ | ⟨m, hm, rfl⟩⟩ := hfold
      · cases hnone
      · cases heq
        obtain hp | hp := hp
        · exact absurd (hkind.trans (hl.symm.trans hp)) hpointer
        · exact absurd hp hpointer
      · cases heq
        cases (Literal.cast_self (hl.trans hkind.symm)).symm.trans hm
        exact ⟨l, rfl, hl, hgives⟩
    | @cast _ _ _ i j n _ source hleaves hkind _ hj _ hoperand =>
      obtain rfl := hleaves.fits.cast_kind hkind hk
      obtain ⟨l, rfl, hl, hgives⟩ := gives operand hc.2 hoperand hj hv
      obtain ⟨_, -, -, hplain⟩ := hoperand.fits.plain hc.2 hj
      obtain ⟨hnone, -⟩ | ⟨_, heq, ⟨hp, -⟩ | ⟨m, hm, rfl⟩⟩ := hfold
      · cases hnone
      · cases heq
        obtain hp | hp := hp
        · cases hl.symm.trans hp
          cases hplain
        · exact absurd hp hpointer
      · cases heq
        rw [hkind] at hm
        refine ⟨m, rfl, Literal.cast_primitive hm, fun w dead => ?_⟩
        rw [← Literal.value_cast hl hplain (hkind ▸ hc.1) hm]
        exact (hgives w dead).bind (Gives.pure _)
  | .unary span op operand, hc, t, k, n, o, h, hk, hfold => by
    obtain ⟨v, hv, rfl⟩ := passes_fold_unary hfold
    cases h with
    | literal hl _ _ => cases passes_pure.1 hl
    | not hleaves hoperand =>
      obtain rfl := hleaves.fits.not_kind hk
      obtain ⟨l, rfl, hl, hgives⟩ := gives operand hc hoperand rfl hv
      obtain ⟨b, rfl⟩ := Literal.bool_of_primitive hl
      refine ⟨.bool !b, rfl, rfl, fun w dead => ?_⟩
      exact (hgives w dead).bind ((gives_toBool b).bind (Gives.pure _))
    | negate hleaves hoperand =>
      obtain ⟨j, rfl, hsigned⟩ := hleaves.fits.unary_kind hoperand.fits hc hk (by simp)
      obtain ⟨l, rfl, hl, hgives⟩ := gives operand hc hoperand hk hv
      obtain ⟨word, rfl⟩ := Literal.int_of_primitive hl
      refine ⟨.int j (-word), by simp [Literal.unary?, hsigned rfl], rfl, fun w dead => ?_⟩
      exact (hgives w dead).bind fun _ => rfl
    | complement hleaves hoperand =>
      obtain ⟨j, rfl, -⟩ := hleaves.fits.unary_kind hoperand.fits hc hk (by simp)
      obtain ⟨l, rfl, hl, hgives⟩ := gives operand hc hoperand hk hv
      obtain ⟨word, rfl⟩ := Literal.int_of_primitive hl
      refine ⟨.int j (~~~word), rfl, rfl, fun w dead => ?_⟩
      exact (hgives w dead).bind fun _ => rfl
  | .binary span op left right, hc, t, k, n, o, h, hk, hfold => by
    cases h with
    | literal hl _ _ => cases passes_pure.1 hl
    | @arith _ op _ _ _ m n hleaves hleft hright =>
      obtain ⟨a, ha, hfold⟩ := passes_fold_binary hfold (by simp)
      obtain ⟨x, rfl, hx, hgx⟩ := gives left hc.1 hleft hk ha
      obtain ⟨hnone, -⟩ | ⟨_, heq, b, hb, hfold⟩ := hfold
      · cases hnone
      cases heq
      obtain ⟨y, rfl, hy, hgy⟩ := gives right hc.2 hright hk hb
      obtain ⟨hnone, -⟩ | ⟨_, heq, hfold⟩ := hfold
      · cases hnone
      cases heq
      obtain ⟨rfl, rfl⟩ | ⟨j, rfl⟩ := hleaves.fits.arith_kind hc hk
      · obtain ⟨x, rfl⟩ := Literal.string_of_primitive hx
        obtain ⟨y, rfl⟩ := Literal.string_of_primitive hy
        cases passes_pure.1 hfold
        refine ⟨_, rfl, rfl, fun w dead => ?_⟩
        rw [ofArith, if_pos ⟨rfl, hk⟩]
        exact (hgx w dead).bind ((hgy w dead).bind (Gives.pure _))
      · obtain ⟨x, rfl⟩ := Literal.int_of_primitive hx
        obtain ⟨y, rfl⟩ := Literal.int_of_primitive hy
        obtain ⟨hz, rfl⟩ := Fold.passes_binary_int hfold
        refine ⟨_, rfl, rfl, fun w dead => ?_⟩
        rw [ofArith, if_neg fun h => by cases hk.symm.trans h.2]
        exact (hgx w dead).bind ((hgy w dead).bind (gives_combine_int dead hz))
    | @compare _ op _ _ _ _ _ j _ _ hleaves hl hr hkl hkr hleft hright =>
      obtain ⟨a, ha, hfold⟩ := passes_fold_binary hfold (by simp)
      obtain ⟨x, rfl, hx, hgx⟩ := gives left hc.1 hleft hkl ha
      obtain ⟨hnone, -⟩ | ⟨_, heq, b, hb, hfold⟩ := hfold
      · cases hnone
      cases heq
      obtain ⟨y, rfl, hy, hgy⟩ := gives right hc.2 hright hkr hb
      obtain ⟨hnone, -⟩ | ⟨_, heq, hfold⟩ := hfold
      · cases hnone
      cases heq
      obtain rfl := hleaves.fits.truth_kind (.inl ⟨op, rfl⟩) hk
      obtain ⟨_, -, -, hplain⟩ := hleft.fits.plain hc.1 hkl
      obtain ⟨order, ho⟩ := compare_kind (Literal.kind_value hx) (Literal.kind_value hy)
      have hnumeric : op.isOrdering = true → x.primitive.isNumeric = true := fun hop => by
        rw [hx]
        exact hleaves.fits.ordering_kind hl hr hkl hplain hop
      rw [Fold.passes_binary_compare (hx.trans hy.symm) hnumeric hfold]
      refine ⟨_, rfl, rfl, fun w dead => ?_⟩
      have heq : x.order y = order := by rw [Literal.order, ho]; rfl
      rw [heq]
      exact gives_compare (hgx w dead) (hgy w dead) ho
    | and hleaves hleft hright =>
      obtain rfl := hleaves.fits.truth_kind (.inr (.inl rfl)) hk
      exact gives_folded_logical (gives left hc.1 hleft rfl) (gives right hc.2 hright rfl)
        (fun w => gives_dead w right hc.2 hright rfl) hfold
    | or hleaves hleft hright =>
      obtain rfl := hleaves.fits.truth_kind (.inr (.inr rfl)) hk
      exact gives_folded_logical (gives left hc.1 hleft rfl) (gives right hc.2 hright rfl)
        (fun w => gives_dead w right hc.2 hright rfl) hfold
    | coalesce hleaves _ _ => exact absurd hleaves.fits (not_fits_coalesce hc)
  | .ternary span condition yes no, hc, t, k, n, o, h, hk, hfold => by
    cases h with
    | literal hl _ _ => cases passes_pure.1 hl
    | chosen _ hchoice _ => cases passes_pure.1 hchoice
    | ternary _ _ hcondition hyes hno =>
      obtain ⟨c, hcondition', hfold⟩ := passes_fold_ternary hfold
      obtain ⟨x, rfl, hx, hgx⟩ := gives condition hc.1 hcondition rfl hcondition'
      obtain ⟨b, rfl⟩ := Literal.bool_of_primitive hx
      cases b with
      | true =>
        obtain ⟨y, rfl, hy, hgy⟩ := gives yes hc.2.1 hyes hk hfold
        exact ⟨y, rfl, hy, fun w dead => gives_ternary (hgx w dead) (hgy w dead)
          ((gives_dead w no hc.2.2 hno hk).imp fun _ h => h.1)⟩
      | false =>
        obtain ⟨y, rfl, hy, hgy⟩ := gives no hc.2.2 hno hk hfold
        exact ⟨y, rfl, hy, fun w dead => gives_ternary (hgx w dead) (hgy w dead)
          ((gives_dead w yes hc.2.1 hyes hk).imp fun _ h => h.1)⟩

end Concrete

/-! ### Folding asks the host for nothing -/

/-- Whenever a run has a value of the expression as a truth value, it is this one. -/
def Expr.ComesTo (s : Scope) (c : Expr) (b : Bool) : Prop :=
  ∀ n, Emits .off s c .bool n → ∀ (σ : Type) (w : World σ) (st : σ) (v : Value),
    (n.eval w false .bool st).1 = .ok v → v = .bool b

/-- Folding decides as a run does: never by the right operand of `&&` or `||` while the left one is
unknown, and only by operands that come to what they are folded to. -/
def Expr.Steady (s : Scope) : Expr → Prop
  | .literal _ _ => True
  | .object _ _ => True
  | .parens _ inner => inner.Steady s
  | .cast _ _ operand => operand.Steady s
  | .unary _ _ operand => operand.Steady s
  | .binary _ op left right => left.Steady s ∧
    match op with
    | .and => ∃ b, left.knownBool? = some b ∧ if b then right.Steady s else left.ComesTo s false
    | .or => ∃ b, left.knownBool? = some b ∧ if b then left.ComesTo s true else right.Steady s
    | _ => right.Steady s
  | .ternary _ condition yes no => condition.Steady s ∧
    ∃ b, condition.knownBool? = some b ∧ condition.ComesTo s b ∧ if b then yes.Steady s else no.Steady s

section Still

variable {s : Scope}

theorem Expr.Concrete.comesTo {c : Expr} (hc : c.Concrete) (hb : Passes (fold c) (some (.bool b))) : c.ComesTo s b := by
  intro n hn σ w st v hv
  obtain ⟨l, heq, -, hgives⟩ := gives c hc hn rfl hb
  cases heq
  rw [hgives w false st] at hv
  cases hv
  rfl

/-- A truth value decides which way to go. -/
theorem still_decided {t : Effect σ Value} {g : Bool → Effect σ α} (ht : t.Still)
    (hb : ∀ s v, (t s).1 = .ok v → v = .bool b) (hg : (g b).Still) : (t >>= fun v => toBool v >>= g).Still :=
  ht.bind_ok fun s v hv => by
    cases hb s v hv
    exact hg.unchanged s

/-- What folding knows is evaluated without the host. -/
theorem Emits.silent (w : World σ) : (e : Expr) → e.Steady s → ∀ {t : Ty} {n : Node} {l : Literal},
    Emits .off s e t n → Passes (fold e) (some l) → ∀ k, (n.eval w false k).Still
  | .literal span value, _, t, n, l, h, _, k => by
    cases h with
    | literal _ _ _ => exact (eval_ofLiteral w false k _).still
  | .object _ _, _, t, n, l, _, hfold, k => by
    cases passes_pure.1 hfold
  | .parens span inner, hs, t, n, l, h, hfold, k => by
    cases h with
    | literal hl _ _ => cases passes_pure.1 hl
    | parens _ hinner => exact silent w inner hs hinner hfold k
  | .cast span type operand, hs, t, n, l, h, hfold, k => by
    obtain ⟨v, hv, ⟨-, hl⟩ | ⟨v, rfl, -⟩⟩ := passes_fold_cast hfold
    · cases hl
    cases h with
    | literal hl _ _ => cases passes_pure.1 hl
    | castSame _ _ _ _ hoperand => exact silent w operand hs hoperand hv k
    | cast _ _ _ _ _ hoperand =>
      have := silent w operand hs hoperand hv
      unfold eval
      infer_instance
  | .unary span op operand, hs, t, n, l, h, hfold, k => by
    obtain ⟨v, hv, hl⟩ := passes_fold_unary hfold
    obtain ⟨v, rfl, -⟩ := Option.bind_eq_some_iff.1 hl.symm
    cases h with
    | literal hl _ _ => cases passes_pure.1 hl
    | not _ hoperand | negate _ hoperand | complement _ hoperand =>
      have := silent w operand hs hoperand hv
      unfold eval
      infer_instance
  | .binary span op left right, hs, t, n, l, h, hfold, k => by
    cases h with
    | literal hl _ _ => cases passes_pure.1 hl
    | @arith _ op _ _ _ _ _ _ hleft hright =>
      obtain ⟨⟨a, ha⟩, b, hb⟩ := passes_fold_operands hfold (by simp)
      have := silent w left hs.1 hleft ha
      have := silent w right hs.2 hright hb
      unfold ofArith
      split <;> (unfold eval; infer_instance)
    | compare _ _ _ _ _ hleft hright =>
      obtain ⟨⟨a, ha⟩, b, hb⟩ := passes_fold_operands hfold (by simp)
      have := silent w left hs.1 hleft ha
      have := silent w right hs.2 hright hb
      unfold eval
      infer_instance
    | @coalesce _ _ _ _ m n _ hleft hright =>
      obtain ⟨⟨a, ha⟩, b, hb⟩ := passes_fold_operands hfold (by simp)
      have := silent w left hs.1 hleft ha
      have := silent w right hs.2 hright hb
      have := n.still_dead w
      refine @still_bind _ _ _ _ _ inferInstance fun v => ?_
      split <;> infer_instance
    | @and _ _ _ _ m n _ hleft hright | @or _ _ _ _ m n _ hleft hright =>
      obtain ⟨hleft', known, hknown, hrest⟩ := hs
      obtain ⟨a, ha, -⟩ := Fold.passes_logical hfold
      rw [knownBool_eq ha] at hknown
      obtain ⟨x, rfl, -⟩ := Option.bind_eq_some_iff.1 hknown
      have := silent w left hleft' hleft ha
      have := n.still_dead w
      unfold eval
      cases known
      -- Decided on the left, the right operand is only moved past.
      all_goals first
        | exact still_decided inferInstance (hrest m hleft σ w) (by simp only [reduceIte, Bool.false_eq_true]; infer_instance)
        | obtain ⟨y, hy⟩ := Fold.right_known hfold ha hknown
          have := silent w right hrest hright hy
          infer_instance
  | .ternary span condition yes no, hs, t, n, l, h, hfold, k => by
    obtain ⟨hcondition, b, hb, hcomes, hbranch⟩ := hs
    obtain ⟨c, hc, hfold⟩ := passes_fold_ternary hfold
    have hb' := hb
    rw [knownBool_eq hc] at hb'
    obtain ⟨x, rfl, hx⟩ := Option.bind_eq_some_iff.1 hb'
    rw [hb'] at hfold
    cases h with
    | literal hl _ _ => cases passes_pure.1 hl
    | chosen _ hchoice _ => cases passes_pure.1 hchoice
    | @ternary _ _ _ _ _ q y z _ _ hq hyes hno =>
      have := y.still_dead w
      have := z.still_dead w
      refine still_decided (silent w condition hcondition hq hc _) (hcomes q hq σ w) ?_
      cases b with
      | true =>
        have := silent w yes hbranch hyes hfold
        simp only [reduceIte]
        infer_instance
      | false =>
        have := silent w no hbranch hno hfold
        simp only [reduceIte, Bool.false_eq_true]
        infer_instance

theorem Emits.still (w : World σ) (e : Expr) (hs : e.Steady s) {n : Node} (h : Emits .off s e t n)
    (hfold : Passes (fold e) (some l)) (k : Kind) (st : σ) : (n.eval w false k st).2 = st :=
  (h.silent w e hs hfold k).unchanged st

end Still

end HostScript
