import HostScript.Proofs.Check
import HostScript.Proofs.Survey
import HostScript.Proofs.Text

/-! Expressions that are known before the script runs.

Folding takes no report back, a literal that was converted has the primitive it was
converted to, and what is computed from texts without `NUL` characters has none
either. -/
namespace HostScript

open Check Option

variable {op : BinaryOp} {decisive : Bool} {left right : Check (Option Literal)} {l m r : Literal} {o : Option Literal}
  {span : Span}

/-! ### Reports stay -/

namespace Fold

instance (span : Span) (l r : Literal) : Plain (operands span l r) := by
  unfold operands
  split <;> infer_instance

instance (span : Span) (op : ArithOp) (l r : Literal) : Plain (arithmetic span op l r) := by
  unfold arithmetic
  repeat' first | infer_instance | split

instance (span : Span) (op : BinaryOp) (l r : Literal) : Plain (binary span op l r) := by
  unfold binary
  repeat' first | infer_instance | split

instance (decisive : Bool) {left right : Check (Option Literal)} [Plain left] [Plain right] :
    Plain (logical decisive left right) := by
  unfold logical
  infer_instance

end Fold

instance plain_fold : (e : Expr) → Plain (fold e)
  | .literal _ _ | .object _ _ => plain_pure _
  | .parens _ inner => plain_fold inner
  | .cast _ _ operand | .unary _ _ operand => by
    have := plain_fold operand
    unfold fold
    infer_instance
  | .binary _ _ left right => by
    have := plain_fold left
    have := plain_fold right
    unfold fold
    split <;> infer_instance
  | .ternary _ condition yes no => by
    have := plain_fold condition
    have := plain_fold yes
    have := plain_fold no
    exact .bind inferInstance fun _ => by split <;> infer_instance

/-! ### Folding taken apart -/

namespace Fold

/-- Two literals that combine are both converted. -/
theorem passes_operands {o : Option (Literal × Literal)} (h : Passes (operands span l r) o) :
    (l.primitive.reconcile r.primitive = none ∧ o = none) ∨
      ∃ p a b, l.primitive.reconcile r.primitive = some p ∧ l.cast p = .ok a ∧ r.cast p = .ok b ∧ o = some (a, b) := by
  unfold operands at h
  split at h
  · rename_i hnone
    exact .inl ⟨hnone, (passes_pure.1 h).symm⟩
  · rename_i p hp
    obtain ⟨a, ha, h⟩ := h.found
    obtain ⟨b, hb, h⟩ := h.found
    obtain ⟨a', hca, heq⟩ := passes_converted ha
    cases heq
    obtain ⟨b', hcb, heq⟩ := passes_converted hb
    cases heq
    exact .inr ⟨p, a, b, hp, hca, hcb, (passes_pure.1 h).symm⟩

theorem passes_logical [Plain right] (h : Passes (logical decisive left right) o) :
    ∃ a, Passes left a ∧ ((a.bind Literal.bool? = some decisive ∧ o = some (.bool decisive)) ∨
      a.bind Literal.bool? ≠ some decisive ∧ ∃ b, Passes right b ∧
        ((b.bind Literal.bool? = some decisive ∧ o = some (.bool decisive)) ∨ b.bind Literal.bool? ≠ some decisive ∧
            o = if (a.bind Literal.bool?).isSome && (b.bind Literal.bool?).isSome then some (.bool !decisive)
              else none)) := by
  unfold logical at h
  obtain ⟨a, ha, h⟩ := h.parts
  refine ⟨a, ha, ?_⟩
  dsimp only at h
  split at h
  · rename_i hd
    exact .inl ⟨hd, (passes_pure.1 h).symm⟩
  · rename_i hd
    obtain ⟨b, hb, h⟩ := h.parts
    refine .inr ⟨hd, b, hb, ?_⟩
    split at h
    · rename_i hd'
      exact .inl ⟨hd', (passes_pure.1 h).symm⟩
    · rename_i hd'
      exact .inr ⟨hd', (passes_pure.1 h).symm⟩

/-- Where the left operand leaves it open, the right one is known if the whole is. -/
theorem right_known [Plain right] (h : Passes (logical decisive left right) (some l)) (ha : Passes left a)
    (hopen : a.bind Literal.bool? = some !decisive) : ∃ y, Passes right (some y) := by
  obtain ⟨a', ha', ⟨hd, -⟩ | ⟨-, b, hb, h⟩⟩ := passes_logical h
  · cases ha.fst.symm.trans ha'.fst
    rw [hopen] at hd
    cases decisive <;> cases hd
  · cases b with
    | some y => exact ⟨y, hb⟩
    | none =>
      obtain ⟨hnone, -⟩ | ⟨-, hl⟩ := h
      · cases hnone
      · rw [bind_none, isSome_none, Bool.and_false] at hl
        cases hl

end Fold

theorem passes_fold_cast (h : Passes (fold (.cast span type operand)) o) :
    ∃ v, Passes (fold operand) v ∧ ((v = none ∧ o = none) ∨ ∃ l, v = some l ∧
      ((l.primitive = .kind .pointer ∨ type.type.primitive = .kind .pointer) ∧ o = none ∨
        ∃ m, l.cast type.type.primitive = .ok m ∧ o = some m)) := by
  unfold fold at h
  obtain ⟨v, hv, h⟩ := h.parts
  refine ⟨v, hv, ?_⟩
  cases v with
  | none => exact .inl ⟨rfl, (passes_pure.1 h).symm⟩
  | some l =>
    refine .inr ⟨l, rfl, ?_⟩
    dsimp only at h
    split at h
    · rename_i hptr
      exact .inl ⟨hptr, (passes_pure.1 h).symm⟩
    · exact .inr (passes_converted h)

theorem passes_fold_unary {op : UnaryOp} (h : Passes (fold (.unary span op operand)) o) :
    ∃ v, Passes (fold operand) v ∧ o = v.bind (Literal.unary? op) := by
  unfold fold at h
  obtain ⟨v, hv, h⟩ := h.parts
  refine ⟨v, hv, ?_⟩
  cases v <;> exact (passes_pure.1 h).symm

theorem passes_fold_binary {left right : Expr}
    (h : Passes (fold (.binary span op left right)) o) (hop : ¬ (op = .and ∨ op = .or)) :
    ∃ a, Passes (fold left) a ∧ ((a = none ∧ o = none) ∨ ∃ l, a = some l ∧
      ∃ b, Passes (fold right) b ∧ ((b = none ∧ o = none) ∨ ∃ r, b = some r ∧ Passes (Fold.binary span op l r) o)) := by
  unfold fold at h
  split at h
  · exact absurd (.inl rfl) hop
  · exact absurd (.inr rfl) hop
  · obtain ⟨a, ha, h⟩ := h.parts
    refine ⟨a, ha, ?_⟩
    cases a with
    | none => exact .inl ⟨rfl, (passes_pure.1 h).symm⟩
    | some l =>
      obtain ⟨b, hb, h⟩ := h.parts
      refine .inr ⟨l, rfl, b, hb, ?_⟩
      cases b with
      | none => exact .inl ⟨rfl, (passes_pure.1 h).symm⟩
      | some r => exact .inr ⟨r, rfl, h⟩

/-- An operator that is known has known operands, `&&` and `||` apart. -/
theorem passes_fold_operands {left right : Expr} (h : Passes (fold (.binary span op left right)) (some l))
    (hop : ¬ (op = .and ∨ op = .or)) : (∃ a, Passes (fold left) (some a)) ∧ ∃ b, Passes (fold right) (some b) := by
  obtain ⟨a, ha, ⟨-, hl⟩ | ⟨a, rfl, b, hb, ⟨-, hl⟩ | ⟨b, rfl, -⟩⟩⟩ := passes_fold_binary h hop
  · cases hl
  · cases hl
  · exact ⟨⟨a, ha⟩, b, hb⟩

theorem passes_fold_ternary (h : Passes (fold (.ternary span condition yes no)) o) :
    ∃ c, Passes (fold condition) c ∧
      match c.bind Literal.bool? with
      | some b => Passes (fold (if b then yes else no)) o
      | none => o = none := by
  unfold fold at h
  obtain ⟨c, hc, h⟩ := h.partsOf ⟨fun _ => by split <;> infer_instance⟩
  refine ⟨c, hc, ?_⟩
  split at h
  · rename_i hb
    rw [hb]
    exact h
  · rename_i hb
    rw [hb]
    exact h
  · rename_i hb
    rw [hb]
    exact (passes_pure.1 h).symm

/-- A literal that was converted has the primitive it was converted to. -/
theorem Literal.cast_primitive (h : l.cast p = .ok m) : m.primitive = p := by
  have hword : ∀ {k : IntKind} {n : Number} {f : Word k → Literal} {q : Primitive},
      (∀ w, (f w).primitive = q) → (Literal.toWord k n).map f = .ok m → m.primitive = q := by
    intro k n f q hf hm
    cases hw : Literal.toWord k n with
    | error e => rw [hw] at hm; cases hm
    | ok w => rw [hw] at hm; cases hm; exact hf w
  unfold Literal.cast at h
  dsimp only at h
  split at h
  · rename_i heq
    cases h
    exact heq
  · split at h
    · cases h; rfl
    · cases h; rfl
    · split at h
      · cases h
      · split at h
        · cases h; rfl
        · exact hword (fun _ => rfl) h
        · cases h; rfl
        · cases h; rfl
        · exact hword (fun _ => rfl) h
        · exact hword (fun _ => rfl) h
        · cases h; rfl
        · cases h

/-! ### Texts -/

namespace Literal

theorem clean_cast (hl : l.Clean) (h : l.cast p = .ok m) : m.Clean := by
  by_cases hp : p = .kind .string
  · subst hp
    unfold Literal.cast at h
    dsimp only at h
    split at h
    · cases h
      exact hl
    · cases h
      exact clean_text hl
  · exact clean_of_primitive (cast_primitive h ▸ hp)

theorem clean_unary {op : UnaryOp} (h : l.unary? op = some m) : m.Clean := by
  have hsigned : ∀ n, unary?.signed? n = some m → m.Clean := by
    intro n hn
    unfold unary?.signed? at hn
    split at hn
    · cases hn
      trivial
    · cases hn
  unfold unary? at h
  split at h
  · cases h; trivial
  · split at h
    · cases h; trivial
    · cases h
  · cases h; trivial
  · cases h; trivial
  · exact hsigned _ h
  · exact hsigned _ h
  · cases h; trivial
  · cases h; trivial
  · cases h

theorem clean_ofInteger (h : ofInteger? n = some m) : m.Clean := by
  unfold ofInteger? at h
  split at h
  · split at h
    · cases h; trivial
    · cases h
  · split at h
    · cases h; trivial
    · cases h

theorem clean_arith {op : ArithOp} (h : l.arith op r = some m) : m.Clean := by
  unfold arith at h
  split at h
  · split at h
    · cases h; trivial
    · cases h
  · split at h
    · obtain ⟨x, -, rfl⟩ := map_eq_some_iff.1 h
      trivial
    · cases h
  · obtain ⟨x, -, rfl⟩ := map_eq_some_iff.1 h
    trivial
  · cases h

end Literal

namespace Fold

theorem clean_arithmetic {op : ArithOp} (h : Passes (arithmetic span op l r) (some m)) : m.Clean := by
  unfold arithmetic at h
  split at h
  · exact absurd h (not_passes_refuse _ _ _)
  · split at h
    · split at h
      · rename_i n hn
        cases passes_pure.1 h
        obtain ⟨i, -, hi⟩ := bind_eq_some_iff.1 hn
        exact Literal.clean_ofInteger hi
      · exact absurd h (not_passes_refuse _ _ _)
    · exact Literal.clean_arith (passes_pure.1 h)

theorem clean_binary (hl : l.Clean) (hr : r.Clean) (h : Passes (binary span op l r) (some m)) : m.Clean := by
  unfold binary at h
  split at h
  · cases passes_pure.1 h
    exact Clean.append hl hr
  · obtain ⟨o, -, h⟩ := h.parts
    cases o with
    | none => cases passes_pure.1 h
    | some o => exact clean_arithmetic h
  · obtain ⟨o, -, h⟩ := h.parts
    cases o with
    | none => cases passes_pure.1 h
    | some o =>
      have hm := passes_pure.1 h
      unfold comparison at hm
      split at hm
      · cases hm
      · cases hm
        trivial
  · have hm := passes_pure.1 h
    split at hm
    · cases hm
      exact hr
    · cases hm
  · cases passes_pure.1 h

theorem clean_logical [Plain right] (h : Passes (logical decisive left right) (some m)) : m.Clean := by
  obtain ⟨a, -, ⟨-, hm⟩ | ⟨-, b, -, ⟨-, hm⟩ | ⟨-, hm⟩⟩⟩ := passes_logical h
  · cases hm
    trivial
  · cases hm
    trivial
  · split at hm
    · cases hm
      trivial
    · cases hm

end Fold

/-- What an expression without `NUL` characters is known to be has none either. -/
theorem clean_fold : (e : Expr) → (∀ x ∈ e.texts, Clean x) → ∀ {l : Literal}, Passes (fold e) (some l) →
    l.Clean
  | .literal _ value, ht, l, h => by
    unfold fold at h
    cases passes_pure.1 h
    cases value with
    | string s => exact ht s (by simp [Expr.texts])
    | _ => trivial
  | .object _ _, _, l, h => by
    unfold fold at h
    cases passes_pure.1 h
  | .parens _ inner, ht, l, h => by
    unfold fold at h
    exact clean_fold inner (by simpa [Expr.texts] using ht) h
  | .cast span type operand, ht, l, h => by
    obtain ⟨v, hv, ⟨-, hl⟩ | ⟨v, rfl, ⟨-, hl⟩ | ⟨m, hm, hl⟩⟩⟩ := passes_fold_cast h
    · cases hl
    · cases hl
    · cases hl
      exact Literal.clean_cast (clean_fold operand (by simpa [Expr.texts] using ht) hv) hm
  | .unary _ op operand, ht, l, h => by
    obtain ⟨v, -, hl⟩ := passes_fold_unary h
    obtain ⟨_, -, hl⟩ := bind_eq_some_iff.1 hl.symm
    exact Literal.clean_unary hl
  | .binary span op left right, ht, l, h => by
    have hleft : ∀ x ∈ left.texts, Clean x := fun x hx => ht x (by simp [Expr.texts, hx])
    have hright : ∀ x ∈ right.texts, Clean x := fun x hx => ht x (by simp [Expr.texts, hx])
    by_cases hop : op = .and ∨ op = .or
    · unfold fold at h
      obtain rfl | rfl := hop
      · exact Fold.clean_logical h
      · exact Fold.clean_logical h
    · obtain ⟨a, ha, ⟨-, hl⟩ | ⟨a, rfl, b, hb, ⟨-, hl⟩ | ⟨b, rfl, h⟩⟩⟩ := passes_fold_binary h hop
      · cases hl
      · cases hl
      · exact Fold.clean_binary (clean_fold left hleft ha) (clean_fold right hright hb) h
  | .ternary _ condition yes no, ht, l, h => by
    obtain ⟨c, -, h⟩ := passes_fold_ternary h
    split at h
    · rename_i b _
      cases b with
      | true => exact clean_fold yes (fun x hx => ht x (by simp [Expr.texts, hx])) h
      | false => exact clean_fold no (fun x hx => ht x (by simp [Expr.texts, hx])) h
    · cases h

end HostScript
