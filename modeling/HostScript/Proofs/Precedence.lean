import HostScript.Proofs.Parsed

/-! Operators by how tightly they bind.

A row of operands and operators becomes one tree. In order, the tree reads as the row, and each
operation in it is grouped as the table of `levels` says (`operators_grouped`). While the tree is
built, the left sides that are still open are grouped already, and those further up bind more
tightly: closing some of them and opening another keeps this. -/
namespace HostScript

open List

/-! ### Trees of operators -/

/-- The operators that bind least come first. Those on one level group to the left. -/
def BinaryOp.levels : List (List BinaryOp) :=
  [[.coalesce], [.or], [.and], [.arith .or], [.arith .xor], [.arith .and], [.compare .eq, .compare .ne],
    [.compare .lt, .compare .le, .compare .gt, .compare .ge], [.arith .shl, .arith .shr],
    [.arith .add, .arith .sub], [.arith .mul, .arith .div, .arith .mod]]

def BinaryOp.level (op : BinaryOp) : Nat := levels.findIdx (op ∈ ·)

theorem BinaryOp.precedence_eq (op : BinaryOp) : op.precedence = op.level + 1 := by
  cases op with
  | arith op | compare op => cases op <;> rfl
  | _ => rfl

namespace Expr

def operator? : Expr → Option BinaryOp
  | .binary _ op _ _ => some op
  | _ => none

/-- The operands and operators of a tree from left to right. -/
def inOrder : Expr → Expr × List (BinaryOp × Expr)
  | .binary _ op left right => (left.inOrder.1, left.inOrder.2 ++ (op, right.inOrder.1) :: right.inOrder.2)
  | e => (e, [])

/-- An operation on no lower level than this, or none at all. -/
def Within (level : Nat) (e : Expr) : Prop := ∀ op, e.operator? = some op → level ≤ op.level

/-- The left side of an operation is none on a lower level, and the right side none on a lower level or
on the same one. -/
def Grouped : Expr → Prop
  | .binary _ op left right => left.Grouped ∧ right.Grouped ∧ left.Within op.level ∧ right.Within (op.level + 1)
  | _ => True

/-- The operators and casts in front of an operand from the outside in, and the operand. -/
def peel : Expr → List (UnaryOp ⊕ TypeRef) × Expr
  | .unary _ op operand => (.inl op :: operand.peel.1, operand.peel.2)
  | .cast _ type operand => (.inr type :: operand.peel.1, operand.peel.2)
  | e => ([], e)

/-- A literal, an object or an expression in parentheses. -/
def IsPrimary : Expr → Prop
  | .literal _ _ | .object _ _ | .parens _ _ => True
  | _ => False

variable {e : Expr}

/-- What is no operation is a tree of its own. -/
theorem leaf_of_none (h : e.operator? = none) : e.Grouped ∧ (∀ level, e.Within level) ∧ e.inOrder = (e, []) := by
  refine ⟨?_, fun _ _ hop => (nomatch h.symm.trans hop), ?_⟩
  all_goals
    cases e with
    | binary => cases h
    | _ => trivial

end Expr

/-! ### Building a tree -/

namespace Chain

/-- An operand as it is written: a primary behind operators and casts. -/
structure Operand where
  fronts : List Front
  primary : Expr

def Operand.tree (o : Operand) : Expr := front o.fronts o.primary

/-- An operator or a cast, wherever it stands. -/
def Front.bare : Front → UnaryOp ⊕ TypeRef
  | .op _ o => .inl o
  | .cast _ type => .inr type

/-- What is in front of an operand is found there in the same order. -/
theorem peel_front (fronts : List Front) (h : e.IsPrimary) : (front fronts e).peel = (fronts.map Front.bare, e) := by
  induction fronts with
  | nil => cases e <;> first | rfl | exact h.elim
  | cons f rest ih =>
    have hpeel : (front (f :: rest) e).peel = (f.bare :: (front rest e).peel.1, (front rest e).peel.2) := by
      cases f <;> rfl
    rw [hpeel, ih, map_cons]

theorem operator?_front (fronts : List Front) (h : e.IsPrimary) : (front fronts e).operator? = none := by
  match fronts with
  | [] =>
    cases e with
    | binary => exact h.elim
    | _ => rfl
  | .op _ _ :: _ | .cast _ _ :: _ => rfl

/-- Left sides that are still open. Each fits to the left of its operator, and binds more tightly than
those below. -/
structure Open (stack : List (Expr × BinaryOp)) : Prop where
  fits : ∀ x ∈ stack, x.1.Grouped ∧ x.1.Within x.2.level
  tighter : stack.Pairwise fun x y => y.2.level < x.2.level

/-- Open left sides and what stands behind them, in order. -/
def before : List (Expr × BinaryOp) → Expr × List (BinaryOp × Expr) → Expr × List (BinaryOp × Expr)
  | [], row => row
  | (left, op) :: rest, row => before rest (left.inOrder.1, left.inOrder.2 ++ (op, row.1) :: row.2)

theorem before_append (stack : List (Expr × BinaryOp)) (first : Expr) (row more : List (BinaryOp × Expr)) :
    before stack (first, row ++ more) = ((before stack (first, row)).1, (before stack (first, row)).2 ++ more) := by
  induction stack generalizing first row with
  | nil => rfl
  | cons x rest ih =>
    unfold before
    rw [← ih, append_assoc, cons_append]

/-- What closing the left sides from a level on comes to. -/
structure Closes (n : Nat) (stack : List (Expr × BinaryOp)) (right : Expr) (closed : List (Expr × BinaryOp) × Expr) :
    Prop where
  opened : Open closed.1
  grouped : closed.2.Grouped
  within : closed.2.Within (n - 1)
  lower : ∀ x ∈ closed.1, x.2.precedence < n
  order : before closed.1 closed.2.inOrder = before stack right.inOrder

theorem closes_close (hs : Open stack) (hr : right.Grouped) (hw : right.Within (n - 1))
    (hright : ∀ x ∈ stack, right.Within (x.2.level + 1)) : Closes n stack right (close n stack right) := by
  induction stack generalizing right with
  | nil => exact ⟨hs, hr, hw, nofun, rfl⟩
  | cons x rest ih =>
    obtain ⟨left, op⟩ := x
    obtain ⟨hfits, hrest⟩ := forall_mem_cons.1 hs.fits
    obtain ⟨hlower, htighter⟩ := pairwise_cons.1 hs.tighter
    have hlevel := op.precedence_eq
    unfold close
    split
    · next hle =>
      have hjoin : Closes n rest (join op left right) (close n rest (join op left right)) :=
        ih ⟨hrest, htighter⟩ ⟨hfits.1, hr, hfits.2, hright _ (mem_cons_self ..)⟩
          (fun _ h => Option.some.inj h ▸ (by omega))
          (fun y hy _ h => Option.some.inj h ▸ hlower y hy)
      exact { hjoin with order := hjoin.order }
    · next hlt =>
      refine ⟨hs, hr, hw, fun y hy => ?_, rfl⟩
      obtain rfl | hy := mem_cons.1 hy
      · exact Nat.lt_of_not_le hlt
      · refine Nat.lt_trans ?_ (Nat.lt_of_not_le hlt)
        rw [y.2.precedence_eq, op.precedence_eq]
        exact Nat.succ_lt_succ (hlower y hy)

theorem build_grouped (hs : Open stack) (hl : last.operator? = none) (hr : ∀ x ∈ rest, x.2.operator? = none) :
    (build stack last rest).Grouped ∧ (build stack last rest).inOrder = before stack (last, rest) := by
  induction rest generalizing stack last with
  | nil =>
    obtain ⟨hgrouped, hwithin, hlast⟩ := Expr.leaf_of_none hl
    have h := closes_close (n := 0) hs hgrouped (hwithin _) fun _ _ => hwithin _
    have hnil : (close 0 stack last).1 = [] := eq_nil_iff_forall_not_mem.2 fun x hx => Nat.not_lt_zero _ (h.lower x hx)
    have horder := h.order
    rw [hnil, hlast] at horder
    exact ⟨h.grouped, horder⟩
  | cons x rest ih =>
    obtain ⟨op, next⟩ := x
    obtain ⟨hgrouped, hwithin, hlast⟩ := Expr.leaf_of_none hl
    obtain ⟨hnext, hr⟩ := forall_mem_cons.1 hr
    have h := closes_close (n := op.precedence) hs hgrouped (hwithin _) fun _ _ => hwithin _
    have hopen : Open (((close op.precedence stack last).2, op) :: (close op.precedence stack last).1) := by
      have hlevel : op.precedence - 1 = op.level := by rw [op.precedence_eq, Nat.add_sub_cancel]
      refine ⟨forall_mem_cons.2 ⟨⟨h.grouped, hlevel ▸ h.within⟩, h.opened.fits⟩,
        pairwise_cons.2 ⟨fun x hx => ?_, h.opened.tighter⟩⟩
      have hlower := h.lower x hx
      rw [x.2.precedence_eq, op.precedence_eq] at hlower
      exact Nat.lt_of_succ_lt_succ hlower
    refine ⟨(ih hopen hnext hr).1, (ih hopen hnext hr).2.trans ?_⟩
    -- What is behind the new left side is behind the old ones, as they are the same in order.
    have hmore := before_append stack last [] ((op, next) :: rest)
    have horder := h.order
    rw [hlast] at horder
    rw [before, before_append, horder]
    exact hmore.symm

end Chain

/-! ### Rows as they are read -/

theorem Cursor.renumber_id (c : Cursor) : c.renumber id = c := by
  obtain ⟨file, offset, rest, blemish⟩ := c
  cases blemish <;> rfl

namespace Reader

variable {α β : Type} {P : α → Prop} {p : Reader α} {q : Reader β}

/-- Everything that is read satisfies `P`. -/
def Yields (P : α → Prop) (p : Reader α) : Prop := ∀ c reach a c' reach', p c reach = .ok a c' reach' → P a

namespace Yields

theorem pure (h : P a) : Yields P (Pure.pure a) := by
  rintro c reach _ _ _ ⟨⟩
  exact h

theorem bind (hk : ∀ b, Yields P (k b)) : Yields P (q >>= k) := by
  intro c reach a c' reach' h
  change andThen q k c reach = _ at h
  unfold andThen at h
  split at h
  · exact hk _ _ _ _ _ _ h
  · cases h

theorem rule (hp : Yields P p) : Yields P (Reader.rule p) := by
  intro c reach a c' reach' h
  unfold Reader.rule at h
  split at h
  · cases h
    exact hp _ _ _ _ _ ‹_›
  · cases h

theorem choice (hs : ∀ p ∈ ps, Yields P p) : Yields P (Reader.choice ps) := by
  induction ps with
  | nil => exact fun _ _ _ _ _ h => nomatch h
  | cons p rest ih =>
    obtain ⟨hp, hrest⟩ := forall_mem_cons.1 hs
    intro c reach a c' reach' h
    unfold Reader.choice orElse at h
    split at h
    · cases h
      exact hp _ _ _ _ _ ‹_›
    · exact ih hrest _ _ _ _ _ h

/-- A reader beside itself. -/
theorem lawful [Part α] [hp : Regular p] (h : Yields P p) : Lawful id id P p p := by
  intro c reach
  rw [Cursor.renumber_id]
  cases hr : p c reach with
  | ok a c' reach' =>
    have hok : Answer.Matches id id P c (.ok a c' reach') (.ok a (c'.renumber id) reach') :=
      .ok ((hp.lawful id).reads hr).1 (h _ _ _ _ _ hr)
    rwa [Cursor.renumber_id] at hok
  | fail reach' => exact .fail

end Yields

end Reader

namespace Grammar

open Reader Lexeme Chain

variable (fuel : Nat)

theorem yields_primary (expression : Reader Expr) : Yields Expr.IsPrimary (primary fuel expression) := by
  refine .choice ?_
  simp only [forall_mem_cons, not_mem_nil, false_implies, implies_true, and_true]
  refine ⟨.rule (.bind fun _ => .pure trivial), .rule (.bind fun _ => ?_), .bind fun _ => .pure trivial,
    .bind fun _ => .pure trivial, .bind fun _ => .pure trivial, .bind fun _ => .pure trivial,
    .rule (.bind fun _ => .pure trivial), .bind fun _ => .pure trivial⟩
  dsimp only
  split
  · exact .bind fun _ => .pure trivial
  · exact .pure trivial

def written : Reader Operand := do
  let fronts ← many fuel front
  skip
  let primary ← primary fuel (expression fuel)
  return ⟨fronts, primary⟩

/-- Operands and operators in a row, as they are written. -/
def row : Reader (Operand × List (BinaryOp × Operand)) := rule do
  let first ← written fuel
  skip
  let rest ← many fuel do
    let op ← binaryOp
    skip
    let o ← written fuel
    return (op, o)
  return (first, rest)

/-- A row is read where a tree is. -/
theorem lawful_row : Lawful id
    (fun x : Operand × List (BinaryOp × Operand) => Chain.tree x.1.tree (x.2.map fun y => (y.1, y.2.tree)))
    (fun x => x.1.primary.IsPrimary ∧ ∀ y ∈ x.2, y.2.primary.IsPrimary) (row fuel) (binary fuel (expression fuel)) := by
  have hfronts : Yields (fun _ => True) (many fuel front) := fun _ _ _ _ _ _ => trivial
  have hwritten : Lawful id Operand.tree (fun o => o.primary.IsPrimary) (written fuel) (operand fuel (expression fuel)) :=
    hfronts.lawful.bind fun _ _ => .after _ fun _ => (yields_primary fuel _).lawful.bind fun _ h => lawful_pure rfl h
  have hnext : Lawful id (fun y : BinaryOp × Operand => (y.1, y.2.tree)) (fun y => y.2.primary.IsPrimary) (do
      let op ← binaryOp
      skip
      let o ← written fuel
      return (op, o)) (do
      let op ← binaryOp
      skip
      let e ← operand fuel (expression fuel)
      return (op, e)) :=
    .after _ fun _ => .after _ fun _ => hwritten.bind fun _ h => lawful_pure rfl h
  exact .rule (hwritten.bind fun _ hfirst => .after _ fun _ => (hnext.many fuel).bind fun _ hrest =>
    lawful_pure rfl ⟨hfirst, hrest⟩)

/-- What is read as a row of operands becomes a tree that reads in order as the row, and whose operations are
grouped by level. What stands in front of a primary applies to it in the same order, and to nothing else. -/
theorem operators_grouped (c : Cursor) (reach : Nat) :
    match row fuel c reach with
    | .fail reach' => binary fuel (expression fuel) c reach = .fail reach'
    | .ok (first, rest) c' reach' => ∃ e, binary fuel (expression fuel) c reach = .ok e c' reach' ∧
      e.inOrder = (first.tree, rest.map fun x => (x.1, x.2.tree)) ∧ e.Grouped ∧
      ∀ o ∈ first :: rest.map (·.2), o.primary.IsPrimary ∧ o.tree.peel = (o.fronts.map Front.bare, o.primary) := by
  have hrow := lawful_row fuel c reach
  rw [Cursor.renumber_id] at hrow
  match row fuel c reach, binary fuel (expression fuel) c reach, hrow with
  | .fail _, _, .fail => rfl
  | .ok (first, rest) c' reach', _, .ok _ hprimary =>
    have hrest : ∀ x ∈ rest.map fun x => (x.1, x.2.tree), x.2.operator? = none :=
      List.forall_mem_map.2 fun x hx => operator?_front _ (hprimary.2 x hx)
    have hopen : Open [] := ⟨fun _ h => absurd h not_mem_nil, .nil⟩
    have hfirst : first.tree.operator? = none := operator?_front _ hprimary.1
    have hgrouped := build_grouped hopen hfirst hrest
    have hall : ∀ o ∈ first :: rest.map (·.2), o.primary.IsPrimary :=
      forall_mem_cons.2 ⟨hprimary.1, List.forall_mem_map.2 hprimary.2⟩
    exact ⟨_, by rw [Cursor.renumber_id]; rfl, hgrouped.2, hgrouped.1, fun o ho => ⟨hall o ho, peel_front _ (hall o ho)⟩⟩

example (a b c : Expr) : Chain.tree a [(.arith .sub, b), (.arith .add, c), (.arith .mul, a)] =
    join (.arith .add) (join (.arith .sub) a b) (join (.arith .mul) c a) := rfl

/-- Each operator as it is written. -/
def operators : List (String × BinaryOp) :=
  [("??", .coalesce), ("||", .or), ("&&", .and), ("|", .arith .or), ("^", .arith .xor), ("&", .arith .and),
    ("==", .compare .eq), ("!=", .compare .ne), ("<", .compare .lt), ("<=", .compare .le), (">", .compare .gt),
    (">=", .compare .ge), ("<<", .arith .shl), (">>", .arith .shr), ("+", .arith .add), ("-", .arith .sub),
    ("*", .arith .mul), ("/", .arith .div), ("%", .arith .mod)]

/-- In front of a blank, the text of an operator is read as that operator. -/
theorem binaryOp_written (file offset reach : Nat) (rest : List Char) : ∀ x ∈ operators, ∃ c reach',
    binaryOp ⟨file, offset, x.1.toList ++ ' ' :: rest, none⟩ reach = .ok x.2 c reach' ∧ c.rest = ' ' :: rest := by
  simp only [operators, forall_mem_cons, not_mem_nil, false_implies, implies_true, and_true]
  and_intros
  all_goals exact ⟨_, _, rfl, rfl⟩

end Grammar

end HostScript
