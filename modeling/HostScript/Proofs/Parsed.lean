import HostScript.Proofs.Formed
import HostScript.Proofs.Renumbering
import HostScript.Script.Statement
import Mathlib.Data.List.TakeWhile

/-! Scripts that were read.

A reader hands the number of its file on to spans and does not look at it, and it never
goes back. What it reads is *sound*: names are words, and types are such that values can
have them. All of this is shown in one pass through the grammar (`Lawful`). So a script
that was read is formed (`Script.formed_of_parse`), and a text that is read under another
number gives the same script under that number, or the same error
(`Script.parse_renumber`). -/
namespace HostScript

open List

variable {c c' : Cursor} {stack : List (Expr × BinaryOp)} {α : Type}

def Cursor.renumber (f : Nat → Nat) (c : Cursor) : Cursor :=
  ⟨f c.file, c.offset, c.rest, c.blemish.map fun b => (b.1.renumber f, b.2)⟩

/-- A place is not behind another one of the same file. -/
structure Cursor.Before (c c' : Cursor) : Prop where
  file : c'.file = c.file
  offset : c.offset ≤ c'.offset

namespace Cursor.Before

variable {c'' : Cursor}

theorem refl (c : Cursor) : Before c c := ⟨rfl, Nat.le_refl _⟩

theorem trans (h : Before c c') (h' : Before c' c'') : Before c c'' :=
  ⟨h'.file.trans h.file, Nat.le_trans h.offset h'.offset⟩

end Cursor.Before

/-- The second answer is the first one under another number. What is read behind `c` satisfies
`P` and does not go back. -/
inductive Answer.Matches {α α' : Type} (f : Nat → Nat) (g : α → α') (P : α → Prop) (c : Cursor) : Answer α → Answer α' → Prop
  | ok {c' : Cursor} {reach : Nat} (before : c.Before c') (sound : P a) :
    Matches f g P c (.ok a c' reach) (.ok (g a) (c'.renumber f) reach)
  | fail : Matches f g P c (.fail reach) (.fail reach)

/-- Answers that match behind a place match behind every earlier one. -/
theorem Answer.Matches.later (h : Matches f g P c' x y) (hbefore : c.Before c') : Matches f g P c x y := by
  cases h with
  | ok hbefore' ha => exact .ok (hbefore.trans hbefore') ha
  | fail => exact .fail

/-! ### Readers -/

namespace Reader

open Answer

variable {α α' β β' : Type} {f : Nat → Nat} {g : α → α'} {h : β → β'} {P : α → Prop} {Q : β → Prop} {p q : Reader α}
  {p' q' : Reader α'} {k : α → Reader β} {l : α' → Reader β'}

/-- From the same place under another number, the second reader reads what the first one does
under that number. The first one goes forward, and everything that it reads satisfies `P`. -/
def Lawful (f : Nat → Nat) (g : α → α') (P : α → Prop) (p : Reader α) (p' : Reader α') : Prop :=
  ∀ c reach, Matches f g P c (p c reach) (p' (c.renumber f) reach)

/-- Nothing is read: the two values only have to be the same under renumbering. -/
theorem lawful_pure (hb : b = g a) (ha : P a) :
    Lawful f g P (pure a) (pure b) := fun c _ => hb ▸ .ok (.refl c) ha

theorem lawful_fail : Lawful f g P fail fail := fun _ _ => .fail

namespace Lawful

/-- A reader that follows the law only goes on, and what it gives satisfies `P`. -/
theorem reads (hp : Lawful f g P p p') (h : p c r = .ok a c' r') : c.Before c' ∧ P a := by
  match p c r, p' (c.renumber f) r, hp c r, h with
  | _, _, .ok hbefore ha, rfl => exact ⟨hbefore, ha⟩

/-- One reader after another: the second one is given what the first one has read. -/
theorem bind (hp : Lawful f g P p p') (hk : ∀ a, P a → Lawful f h Q (k a) (l (g a))) :
    Lawful f h Q (p >>= k) (p' >>= l) := by
  intro c reach
  show Matches f h Q c (andThen p k c reach) (andThen p' l (c.renumber f) reach)
  unfold andThen
  match p c reach, p' (c.renumber f) reach, hp c reach with
  | _, _, .fail => exact .fail
  | .ok a c₁ _, _, .ok hbefore ha => exact (hk a ha c₁ _).later hbefore

theorem imp (hp : Lawful f g P p p') (hi : ∀ a, P a → P' a) : Lawful f g P' p p' := by
  intro c reach
  match p c reach, p' (c.renumber f) reach, hp c reach with
  | _, _, .fail => exact .fail
  | _, _, .ok hbefore ha => exact .ok hbefore (hi _ ha)

/-- The second reader starts where the first one did. -/
theorem orElse (hp : Lawful f g P p p') (hq : Lawful f g P q q') :
    Lawful f g P (Reader.orElse p q) (Reader.orElse p' q') := by
  intro c reach
  unfold Reader.orElse
  match p c reach, p' (c.renumber f) reach, hp c reach with
  | _, _, .fail => exact hq c _
  | _, _, .ok hbefore ha => exact .ok hbefore ha

/-- Where the reader fails, it has not read anything. -/
theorem optional (hp : Lawful f g P p p') :
    Lawful f (Option.map g) (fun o => ∀ a, o = some a → P a) (Reader.optional p) (Reader.optional p') := by
  intro c reach
  unfold Reader.optional
  match p c reach, p' (c.renumber f) reach, hp c reach with
  | _, _, .fail => exact .ok (.refl c) nofun
  | .ok a _ _, _, .ok hbefore ha => exact .ok hbefore fun b hb => Option.some.inj hb ▸ ha

/-- How far a failed rule has come is an offset, which stays under renumbering. -/
theorem rule (hp : Lawful f g P p p') : Lawful f g P (Reader.rule p) (Reader.rule p') := by
  intro c reach
  unfold Reader.rule
  match p c reach, p' (c.renumber f) reach, hp c reach with
  | _, _, .fail => exact .fail
  | _, _, .ok hbefore ha => exact .ok hbefore ha

/-- The span of what was read is renumbered with it. -/
theorem withSpan (hp : Lawful f g P p p') :
    Lawful f (fun x => (x.1.renumber f, g x.2)) (fun x => P x.2) (Reader.spanned p) (Reader.spanned p') := by
  intro c reach
  unfold Reader.spanned
  match p c reach, p' (c.renumber f) reach, hp c reach with
  | _, _, .fail => exact .fail
  | .ok a c' _, _, .ok hbefore ha => exact .ok hbefore ha

/-- Behind a value with its span. -/
theorem spanned {k : Span × α → Reader β} {l : Span × α' → Reader β'} (hp : Lawful f g P p p')
    (hk : ∀ span a, P a → Lawful f h Q (k (span, a)) (l (span.renumber f, g a))) :
    Lawful f h Q (Reader.spanned p >>= k) (Reader.spanned p' >>= l) :=
  hp.withSpan.bind fun x => hk x.1 x.2

end Lawful

/-- What is read names no place. -/
class Quiet (p : Reader α) : Prop where
  lawful : ∀ f, Lawful f id (fun _ => True) p p

/-- Behind something that does not matter. -/
theorem Lawful.after (p : Reader α) [hp : Quiet p] {l : α → Reader β'} (hk : ∀ a, Lawful f h Q (k a) (l a)) :
    Lawful f h Q (p >>= k) (p >>= l) :=
  (hp.lawful f).bind fun a _ => hk a

instance (a : α) : Quiet (pure a : Reader α) := ⟨fun _ => lawful_pure rfl trivial⟩

instance quiet_fail : Quiet (fail : Reader α) := ⟨fun _ => lawful_fail⟩

instance Quiet.bind [Quiet p] [hk : ∀ a, Quiet (k a)] : Quiet (p >>= k) := ⟨fun f => .after p fun a => (hk a).lawful f⟩

instance Quiet.orElse [hp : Quiet p] [hq : Quiet q] : Quiet (Reader.orElse p q) :=
  ⟨fun f => (hp.lawful f).orElse (hq.lawful f)⟩

theorem quiet_choice (hs : ∀ p ∈ ps, Quiet p) : Quiet (choice ps) := by
  induction ps with
  | nil => exact quiet_fail
  | cons p rest ih =>
    obtain ⟨hp, hrest⟩ := forall_mem_cons.1 hs
    exact @Quiet.orElse _ p _ hp (ih hrest)

instance Quiet.optional [hp : Quiet p] : Quiet (Reader.optional p) where
  lawful f := by
    have hoptional := (hp.lawful f).optional
    rw [Option.map_id] at hoptional
    exact hoptional.imp fun _ _ => trivial

instance Quiet.rule [hp : Quiet p] : Quiet (Reader.rule p) := ⟨fun f => (hp.lawful f).rule⟩

instance {b : Prop} [Decidable b] [Quiet p] [Quiet q] : Quiet (if b then p else q) := by
  split <;> infer_instance

instance quiet_lit (word : String) : Quiet (lit word) where
  lawful f c reach := by
    unfold lit chars
    dsimp only [Cursor.renumber]
    cases after? word.toList c.rest with
    | none => exact .fail
    | some rest => exact .ok ⟨rfl, Nat.le_add_right _ _⟩ trivial

instance (word : String) : Quiet (notBefore word) where
  lawful f c reach := by
    unfold notBefore
    dsimp only [Cursor.renumber]
    cases after? word.toList c.rest with
    | none => exact .ok (.refl c) trivial
    | some rest => exact .fail

/-- An unfinished comment is left where it starts. -/
theorem le_pass (mode : Passing) (text : List Char) (offset : Nat) : (match mode with
    | .block _ start => start ≤ offset → start ≤ (pass mode text offset).2
    | _ => offset ≤ (pass mode text offset).2) := by
  fun_induction pass mode text offset <;> grind

instance : Quiet skip := ⟨fun _ c _ => .ok ⟨rfl, le_pass .blanks c.rest c.offset⟩ trivial⟩

instance (word : String) : Quiet (sym word) := by
  unfold sym
  infer_instance

theorem lawful_run (test : Char → Bool) : Lawful f id (fun word => ∀ c ∈ word, test c = true) (run test) (run test) :=
  fun _ _ => .ok ⟨rfl, Nat.le_add_right _ _⟩ fun _ => mem_takeWhile_imp

instance (test : Char → Bool) : Quiet (run test) := ⟨fun _ => (lawful_run test).imp fun _ _ => trivial⟩

/-- A blemish is noted at the renumbered place. -/
theorem lawful_blemish (span : Span) (b : Blemish) :
    Lawful f id (fun _ => True) (blemish span b) (blemish (span.renumber f) b) := by
  rintro ⟨file, offset, rest, earlier⟩ reach
  cases earlier <;> exact .ok ⟨rfl, Nat.le_refl _⟩ trivial

section Many

variable (hp : Lawful f g P p p') (fuel : Nat)
include hp

/-- What was read before stands in front. -/
theorem lawful_more (done : List α) (hd : ∀ a ∈ done, P a) :
    Lawful f (List.map g) (fun as => ∀ a ∈ as, P a) (more p fuel done) (more p' fuel (done.map g)) := by
  have hitem : Lawful f g P (andThen skip fun _ => p) (andThen skip fun _ => p') := Lawful.after skip fun _ => hp
  have hdone : ∀ done : List α, (∀ a ∈ done, P a) →
      Lawful f (List.map g) (fun as => ∀ a ∈ as, P a) (pure done.reverse) (pure (done.map g).reverse) :=
    fun _ hd => lawful_pure map_reverse.symm (by simpa using hd)
  induction fuel generalizing done with
  | zero => exact hdone done hd
  | succ fuel ih =>
    intro c reach
    unfold Reader.more
    match andThen skip (fun _ => p) c reach, andThen skip (fun _ => p') (c.renumber f) reach, hitem c reach with
    | _, _, .fail => exact hdone done hd c _
    | .ok a c₁ _, _, .ok hbefore ha => exact (ih _ (forall_mem_cons.2 ⟨ha, hd⟩) c₁ _).later hbefore

/-- As many as there are: each of them satisfies `P`. -/
theorem Lawful.many : Lawful f (List.map g) (fun as => ∀ a ∈ as, P a) (Reader.many fuel p) (Reader.many fuel p') := by
  intro c reach
  unfold Reader.many
  match p c reach, p' (c.renumber f) reach, hp c reach with
  | _, _, .fail => exact .ok (.refl c) nofun
  | .ok a c₁ _, _, .ok hbefore ha => exact (lawful_more hp fuel [a] (by simpa using ha) c₁ _).later hbefore

end Many

end Reader

open Reader

/-! ### What scripts declare -/

/-- Types that a script can name. -/
def Ty.Spelled : Ty → Prop
  | .prim p => ∃ word, Primitive.ofKeyword? word = some p
  | .object name => name ∉ Lexeme.keywords

def MemberDecl.Spelled : MemberDecl → Prop
  | .function f => ∀ t ∈ f.types, t.Spelled
  | _ => True

def Statement.Spelled : Statement → Prop
  | .global _ members => ∀ m ∈ members, m.Spelled
  | .type t => ∀ m ∈ t.members, m.Spelled
  | _ => True

def Statement.types : Statement → List TypeDecl
  | .type decl => [decl]
  | _ => []

/-- The members that a statement declares, global ones or those of a type. -/
def Statement.members : Statement → List MemberDecl
  | .global _ members => members
  | .type decl => decl.members
  | _ => []

/-! ### Sound parts -/

/-- What scripts are made of: it may name places, and it may be sound or not. -/
class Part (α : Type) where
  renumber : (Nat → Nat) → α → α
  Sound : α → Prop

instance : Part Bool := ⟨fun _ => id, fun _ => True⟩

instance {α β : Type} [Part α] [Part β] : Part (α × β) :=
  ⟨fun f x => (Part.renumber f x.1, Part.renumber f x.2), fun x => Part.Sound x.1 ∧ Part.Sound x.2⟩

instance {α : Type} [Part α] :
    Part (Option α) := ⟨fun f => Option.map (Part.renumber f), fun o => ∀ a, o = some a → Part.Sound a⟩

instance {α : Type} [Part α] : Part (List α) := ⟨fun f => List.map (Part.renumber f), fun as => ∀ a ∈ as, Part.Sound a⟩

instance : Part Ident := ⟨Ident.renumber, fun i => Clean i.name ∧ i.name ∉ Lexeme.keywords⟩

instance : Part TypeRef := ⟨TypeRef.renumber, fun t => t.type.HasKind ∧ t.type.Spelled⟩

instance : Part Param := ⟨Param.renumber, fun p => Part.Sound p.type⟩

instance : Part MemberDecl := ⟨MemberDecl.renumber, fun m => m.Formed ∧ m.Spelled⟩

instance : Part Expr := ⟨Expr.renumber, Expr.Formed⟩

instance : Part Object := ⟨Object.renumber, Object.Formed⟩

instance : Part Access := ⟨Access.renumber, Access.Formed⟩

instance : Part ActionKind := ⟨ActionKind.renumber, ActionKind.Formed⟩

instance : Part Action := ⟨Action.renumber, Action.Formed⟩

instance : Part Statement := ⟨Statement.renumber, fun s => s.Formed ∧ s.Spelled⟩

instance : Part Block := ⟨Block.renumber, Block.Formed⟩

instance : Part Branch := ⟨Branch.renumber, Branch.Formed⟩

instance : Part Otherwise := ⟨Otherwise.renumber, Otherwise.Formed⟩

namespace Reader

variable {β : Type} [Part α] {f : Nat → Nat} {h : β → β} {Q : β → Prop} {p q : Reader α} {k l : α → Reader β}

/-- The reader is lawful, and what it reads is sound. -/
class Regular (p : Reader α) : Prop where
  lawful : ∀ f, Lawful f (Part.renumber f) Part.Sound p p

/-- Behind a sound part. -/
theorem Lawful.part (p : Reader α) [hp : Regular p]
    (hk : ∀ a, Part.Sound a → Lawful f h Q (k a) (l (Part.renumber f a))) : Lawful f h Q (p >>= k) (p >>= l) :=
  (hp.lawful f).bind hk

theorem Lawful.spannedPart {k l : Span × α → Reader β} (hp : Lawful f (Part.renumber f) Part.Sound p q)
    (hk : ∀ span a, Part.Sound a → Lawful f h Q (k (span, a)) (l (span.renumber f, Part.renumber f a))) :
    Lawful f h Q (Reader.spanned p >>= k) (Reader.spanned q >>= l) := hp.spanned hk

instance regular_fail : Regular (fail : Reader α) := ⟨fun _ => lawful_fail⟩

instance Regular.after {p : Reader β} [Quiet p] {k : β → Reader α} [hk : ∀ b, Regular (k b)] : Regular (p >>= k) :=
  ⟨fun f => .after p fun b => (hk b).lawful f⟩

instance Regular.orElse [hp : Regular p] [hq : Regular q] : Regular (Reader.orElse p q) :=
  ⟨fun f => (hp.lawful f).orElse (hq.lawful f)⟩

instance : Regular (choice ([] : List (Reader α))) := regular_fail

instance {ps : List (Reader α)} [Regular p] [Regular (choice ps)] : Regular (choice (p :: ps)) :=
  Regular.orElse

/-- The first of several readers that succeeds. -/
theorem regular_choice {ps : List (Reader α)} (hs : ∀ p ∈ ps, Regular p) : Regular (choice ps) := by
  induction ps with
  | nil => infer_instance
  | cons p rest ih =>
    obtain ⟨hp, hrest⟩ := forall_mem_cons.1 hs
    have := ih hrest
    infer_instance

instance Regular.optional [hp : Regular p] : Regular (Reader.optional p) := ⟨fun f => (hp.lawful f).optional⟩

instance Regular.rule [hp : Regular p] : Regular (Reader.rule p) := ⟨fun f => (hp.lawful f).rule⟩

instance Regular.many (fuel : Nat) [hp : Regular p] : Regular (Reader.many fuel p) := ⟨fun f => (hp.lawful f).many fuel⟩

end Reader

/-! ### Words -/

namespace Lexeme

instance : Regular identifier where
  lawful f := by
    refine .rule ((lawful_run isWordChar).spanned fun span word hword => ?_)
    dsimp only [id]
    split
    · exact lawful_fail
    · split
      · exact lawful_fail
      · rename_i hkey
        refine lawful_pure rfl ⟨fun hnul => ?_, fun hmem => hkey (by rw [contains_iff_mem.2 hmem, Bool.or_true])⟩
        have := hword _ (by simpa using hnul)
        cases this

instance quiet_keyword (word : String) : Quiet (keyword word) := by
  unfold keyword
  infer_instance

instance regular_primitiveType : Regular primitiveType where
  lawful f := by
    refine .rule ((lawful_run isWordChar).spanned fun span word _ => ?_)
    dsimp only [id]
    split
    · rename_i k hk
      exact lawful_pure rfl ⟨⟨k, rfl⟩, _, hk⟩
    · exact lawful_fail

instance regular_typeName : Regular typeName where
  lawful f := .rule ((regular_primitiveType.lawful f).orElse (.part _ fun _ hname => lawful_pure rfl ⟨⟨.pointer, rfl⟩, hname.2⟩))

/-- A function returns a value of some kind, or nothing. -/
theorem lawful_resultType (f : Nat → Nat) : Lawful f (TypeRef.renumber f)
    (fun t => t.type.HasKind ∨ t.type = .prim .void) resultType resultType :=
  .rule (.orElse (((quiet_keyword _).lawful f).spanned fun _ _ _ => lawful_pure rfl (.inr rfl))
    ((regular_typeName.lawful f).imp fun _ h => .inl h.1))

/-! ### Literals -/

instance quiet_someDigits : Quiet someDigits := by
  unfold someDigits
  infer_instance

instance : Regular floatLiteral where
  lawful _ := .rule (.spanned (P := fun _ => True) (.after _ fun _ => .after _ fun _ => .after _ fun _ =>
    lawful_pure rfl trivial) fun _ _ _ => lawful_pure rfl trivial)

instance : Regular intLiteral where
  lawful f := by
    refine .rule ((quiet_someDigits.lawful f).spanned fun span digits _ => ?_)
    dsimp only [id]
    split
    · exact (lawful_blemish span _).bind fun _ _ => lawful_pure rfl trivial
    · exact lawful_pure rfl trivial

instance quiet_stringText : Quiet stringText where
  lawful f := by
    have hcontent : Lawful f id (fun _ => True) stringContent stringContent :=
      fun _ _ => .ok ⟨rfl, Nat.le_add_right _ _⟩ trivial
    refine .rule (.after _ fun _ => hcontent.spanned fun span content _ => .after _ fun _ => ?_)
    dsimp only [id]
    split
    · exact lawful_pure rfl trivial
    · exact (lawful_blemish span _).bind fun _ _ => lawful_pure rfl trivial

instance : Regular stringLiteral where
  lawful f := (quiet_stringText.lawful f).spanned fun _ _ _ => lawful_pure rfl trivial

instance (word : String) (value : Literal) : Regular (constant word value) where
  lawful f := ((quiet_keyword word).lawful f).spanned fun _ _ _ => lawful_pure rfl trivial

instance : Quiet metadataText where
  lawful _ _ _ := .ok ⟨rfl, Nat.le_add_right _ _⟩ trivial

end Lexeme

/-! ### Operators in a row -/

namespace Chain

variable {f : Nat → Nat}

/-- An operand with the operator behind it. -/
def renumberLeft (f : Nat → Nat) (x : Expr × BinaryOp) : Expr × BinaryOp := (x.1.renumber f, x.2)

/-- An operand with the operator before it. -/
def renumberRight (f : Nat → Nat) (x : BinaryOp × Expr) : BinaryOp × Expr := (x.1, x.2.renumber f)

def Front.renumber (f : Nat → Nat) : Front → Front
  | .op span sign => .op (span.renumber f) sign
  | .cast span type => .cast (span.renumber f) (type.renumber f)

/-- A cast in front of an operand names a type that values can have. -/
def Front.Formed : Front → Prop
  | .op _ _ => True
  | .cast _ type => type.type.HasKind

instance : Part Front := ⟨Front.renumber, Front.Formed⟩

theorem join_renumber (op : BinaryOp) (left right : Expr) :
    join op (left.renumber f) (right.renumber f) = (join op left right).renumber f := by
  unfold join
  rw [Expr.renumber, Expr.span_renumber, Expr.span_renumber, Span.join_renumber]

/-- Closing operators looks at their levels, never at places. -/
theorem close_renumber (level : Nat) (stack : List (Expr × BinaryOp)) (right : Expr) :
    close level (stack.map (renumberLeft f)) (right.renumber f) =
      ((close level stack right).1.map (renumberLeft f), (close level stack right).2.renumber f) := by
  induction stack generalizing right with
  | nil => rfl
  | cons x rest ih =>
    rw [map_cons, renumberLeft, close, close]
    split
    · rw [join_renumber, ih]
    · rfl

/-- The tree of operators in a row has the same shape. -/
theorem build_renumber (stack : List (Expr × BinaryOp)) (last : Expr) (rest : List (BinaryOp × Expr)) :
    build (stack.map (renumberLeft f)) (last.renumber f) (rest.map (renumberRight f)) = (build stack last rest).renumber f := by
  induction rest generalizing stack last with
  | nil =>
    rw [map_nil, build, build, close_renumber]
  | cons x rest ih =>
    obtain ⟨op, next⟩ := x
    rw [map_cons, build, close_renumber]
    exact ih (((close op.precedence stack last).2, op) :: (close op.precedence stack last).1) next

theorem front_renumber (fronts : List Front) (operand : Expr) :
    front (fronts.map (Front.renumber f)) (operand.renumber f) = (front fronts operand).renumber f := by
  unfold front
  induction fronts with
  | nil => rfl
  | cons x rest ih =>
    rw [map_cons, foldr_cons, ih, foldr_cons]
    cases x <;> simp only [Front.renumber, Expr.renumber, Expr.span_renumber, Span.join_renumber]

theorem formed_front (hf : ∀ f ∈ fronts, f.Formed) (he : e.Formed) : (front fronts e).Formed := by
  induction fronts with
  | nil => exact he
  | cons f rest ih =>
    obtain ⟨hfront, hrest⟩ := forall_mem_cons.1 hf
    cases f with
    | op span op => exact ih hrest
    | cast span type => exact ⟨hfront, ih hrest⟩

/-- Operators put around formed operands leave them formed. -/
theorem formed_close (level : Nat) (hs : ∀ x ∈ stack, x.1.Formed) (hr : right.Formed) :
    (∀ x ∈ (close level stack right).1, x.1.Formed) ∧ (close level stack right).2.Formed := by
  induction stack generalizing right with
  | nil => exact ⟨hs, hr⟩
  | cons x rest ih =>
    obtain ⟨hx, hrest⟩ := forall_mem_cons.1 hs
    unfold close
    split
    · exact ih hrest ⟨hx, hr⟩
    · exact ⟨hs, hr⟩

/-- The tree of operators in a row is formed if all operands are. -/
theorem formed_build (hs : ∀ x ∈ stack, x.1.Formed) (hl : last.Formed) (hr : ∀ x ∈ rest, x.2.Formed) :
    (build stack last rest).Formed := by
  induction rest generalizing stack last with
  | nil => exact (formed_close 0 hs hl).2
  | cons x rest ih =>
    obtain ⟨hx, hrest⟩ := forall_mem_cons.1 hr
    obtain ⟨hstack, hleft⟩ := formed_close x.1.precedence hs hl
    exact ih (forall_mem_cons.2 ⟨hleft, hstack⟩) hx hrest

end Chain

namespace Grammar

open Lexeme

/-! ### Declarations -/

instance : Regular param where
  lawful _ := .rule (.part _ fun _ ht => .after _ fun _ => .part _ fun _ _ => lawful_pure rfl ht)

instance : Quiet ellipsis := by
  unfold ellipsis
  infer_instance

instance (fuel : Nat) : Regular (params fuel) where
  lawful _ := .rule (.orElse
    (.part _ fun _ hfirst => .after _ fun _ => .part _ fun _ hrest => .after _ fun _ => .after _ fun _ =>
      lawful_pure rfl ⟨forall_mem_cons.2 ⟨hfirst, hrest⟩, trivial⟩)
    (.after _ fun _ => lawful_pure rfl ⟨nofun, trivial⟩))

instance (fuel : Nat) : Regular (function fuel) where
  lawful f := by
    refine .rule (.spanned (g := Part.renumber f) (P := fun x : TypeRef × Ident × Option (List Param × Bool) =>
      (x.1.type.HasKind ∨ x.1.type = .prim .void) ∧ Part.Sound x.2.2) ?_ fun span x hx => ?_)
    · exact (lawful_resultType f).bind fun _ hresult => .after _ fun _ => .part _ fun _ _ => .after _ fun _ => .after _ fun _ =>
        .part _ fun _ hparams => .after _ fun _ => .after _ fun _ => .after _ fun _ => lawful_pure rfl ⟨hresult, hparams⟩
    · obtain ⟨result, name, params⟩ := x
      have hsound : ∀ t ∈ ((params.getD ([], false)).1.map (·.type.type)), t.HasKind ∧ t.Spelled := by
        intro t ht
        obtain ⟨p, hp, rfl⟩ := mem_map.1 ht
        cases params with
        | none => cases hp
        | some ps => exact (hx.2 ps rfl).1 p hp
      refine lawful_pure ?_ ⟨⟨fun t ht => (hsound t ht).1, hx.1⟩, fun t ht => (hsound t ht).2⟩
      cases params <;> rfl

instance : Regular property where
  lawful _ := .rule (.spannedPart (.after _ fun _ => .after _ fun _ => .part _ fun _ ht => .after _ fun _ =>
    .part _ fun _ hname => .after _ fun _ => .after _ fun _ => lawful_pure rfl ⟨trivial, ht, hname⟩)
    fun _ _ h => lawful_pure rfl ⟨h.2.1.1, trivial⟩)

instance : Regular subscript where
  lawful _ := .rule (.spannedPart (.after _ fun _ => .after _ fun _ => .part _ fun _ ht => .after _ fun _ => .after _ fun _ =>
    .part _ fun _ hi => .after _ fun _ => .part _ fun _ hname => .after _ fun _ => .after _ fun _ => .after _ fun _ =>
      lawful_pure rfl ⟨trivial, ht, hi, hname⟩)
    fun _ _ h => lawful_pure rfl ⟨⟨h.2.1.1, h.2.2.1.1⟩, trivial⟩)

/-- The members of a block are all that it declares. -/
theorem lawful_global (fuel : Nat) (f : Nat → Nat) : Lawful f (Statement.renumber f)
    (fun s => (s.Formed ∧ s.Spelled) ∧ s.types = []) (global fuel) (global fuel) :=
  .rule (.spannedPart (.after _ fun _ => .after _ fun _ => .part _ fun _ hms => .after _ fun _ => .after _ fun _ =>
    lawful_pure rfl hms) fun _ _ hms => lawful_pure rfl ⟨⟨fun m hm => (hms m hm).1, fun m hm => (hms m hm).2⟩, rfl⟩)

instance (fuel : Nat) : Regular (ancestors fuel) where
  lawful _ := .rule (.after _ fun _ => .part _ fun _ hfirst => .after _ fun _ => .part _ fun _ hrest =>
    lawful_pure rfl (forall_mem_cons.2 ⟨hfirst, hrest⟩))

instance (fuel : Nat) : Regular (typeDecl fuel) where
  lawful f := by
    refine .rule (.spannedPart ?_ fun _ _ h => lawful_pure rfl ⟨fun m hm => (h.2.2 m hm).1, fun m hm => (h.2.2 m hm).2⟩)
    refine .after _ fun _ => .part _ fun _ hname => .after _ fun _ => .part _ fun ancestors hancestors => .after _ fun _ =>
      .after _ fun _ => .part _ fun _ hms => .after _ fun _ => .after _ fun _ => ?_
    cases ancestors with
    | none => exact lawful_pure rfl ⟨hname, nofun, hms⟩
    | some is => exact lawful_pure rfl ⟨hname, hancestors is rfl, hms⟩

/-! ### Expressions -/

theorem formedAll_iff : Expr.FormedAll es ↔ ∀ e ∈ es, e.Formed := by
  induction es with
  | nil => simp [Expr.FormedAll]
  | cons e rest ih => simp [Expr.FormedAll, ih]

instance : Regular typecast where
  lawful _ := .rule (.spannedPart (.orElse
      (.after _ fun _ => .part _ fun _ ht => .after _ fun _ => .after _ fun _ => lawful_pure rfl ht)
      (.after _ fun _ => .part _ fun _ hname => .after _ fun _ => .after _ fun _ => .after _ fun _ =>
        lawful_pure rfl ⟨⟨.pointer, rfl⟩, hname.2⟩))
    fun _ _ ht => lawful_pure rfl ht.1)

instance (op : UnaryOp) : Regular (unaryOp op) where
  lawful f := .rule (((quiet_lit _).lawful f).spanned fun _ _ _ => lawful_pure rfl trivial)

instance : Regular front := by
  unfold front
  infer_instance

instance : Quiet binaryOp := by
  refine quiet_choice fun p hp => ?_
  obtain ⟨op, -, rfl⟩ := mem_map.1 hp
  infer_instance

def Suffix.renumber (f : Nat → Nat) : Suffix → Suffix
  | .member a => .member (a.renumber f)
  | .index e => .index (e.renumber f)

def Suffix.Formed : Suffix → Prop
  | .member a => a.Formed
  | .index e => e.Formed

/-- What follows an object, with its span. -/
instance : Part (Span × Suffix) := ⟨fun f x => (x.1.renumber f, x.2.renumber f), fun x => x.2.Formed⟩

/-- Every suffix makes a longer chain out of a formed one. -/
theorem extend_all {f : Nat → Nat} {suffixes : List (Span × Suffix)} (hs : Part.Sound suffixes) {o : Object}
    (ho : o.Formed) : (Part.renumber f suffixes).foldl extend (o.renumber f) = (suffixes.foldl extend o).renumber f ∧
      (suffixes.foldl extend o).Formed := by
  induction suffixes generalizing o with
  | nil => exact ⟨rfl, ho⟩
  | cons x rest ih =>
    obtain ⟨hx, hrest⟩ := forall_mem_cons.1 hs
    have hextend : extend (o.renumber f) (Part.renumber f x) = (extend o x).renumber f := by
      obtain ⟨span, member | index⟩ := x <;>
        simp only [extend, Part.renumber, Suffix.renumber, Object.renumber, Object.span_renumber, Span.join_renumber]
    have hformed : (extend o x).Formed := by
      obtain ⟨span, member | index⟩ := x
      · exact ⟨ho, hx⟩
      · exact ⟨ho, hx⟩
    exact ⟨(congrArg (List.foldl extend · _) hextend).trans (ih hrest hformed).1, (ih hrest hformed).2⟩

section Nested

variable (fuel : Nat) {expr : Reader Expr} [he : Regular expr]

instance : Regular (arguments fuel expr) where
  lawful _ := .rule (.part _ fun _ hfirst => .after _ fun _ => .part _ fun _ hrest =>
    lawful_pure rfl (forall_mem_cons.2 ⟨hfirst, hrest⟩))

instance : Regular (access fuel expr) where
  lawful f := by
    refine .orElse (.rule (.spannedPart ?_ fun _ _ h =>
      lawful_pure (congrArg (Access.call _ _) (Expr.renumberAll_eq _).symm) (formedAll_iff.2 h.2)))
      (.rule (.part _ fun _ _ => lawful_pure rfl trivial))
    refine .part _ fun _ hname => .after _ fun _ => .after _ fun _ => .part _ fun args hargs => .after _ fun _ =>
      .after _ fun _ => ?_
    cases args with
    | none => exact lawful_pure rfl ⟨hname, nofun⟩
    | some args => exact lawful_pure rfl ⟨hname, hargs args rfl⟩

instance : Regular (suffix fuel expr) where
  lawful _ := .orElse
    (.rule (Lawful.withSpan (P := Suffix.Formed)
      (.after _ fun _ => .part _ fun _ ha => lawful_pure rfl ha)))
    (.rule (Lawful.withSpan (P := Suffix.Formed)
      (.after _ fun _ => .part _ fun _ he => .after _ fun _ => .after _ fun _ => lawful_pure rfl he)))

instance regular_object : Regular (object fuel expr) where
  lawful _ := .rule (.part _ fun root hroot => .after _ fun _ => .part _ fun _ hs =>
    have hextend := extend_all hs (o := .root root) hroot
    lawful_pure hextend.1 hextend.2)

instance : Regular (primary fuel expr) := by
  have hparens : Regular (parens expr) := ⟨fun f => .rule (.spannedPart (.after _ fun _ => .part _ fun _ he => .after _ fun _ =>
    .after _ fun _ => lawful_pure rfl he) fun _ _ he => lawful_pure rfl he)⟩
  have hobject : Regular (objectExpr fuel expr) :=
    ⟨fun f => ((regular_object fuel).lawful f).spannedPart fun _ _ ho => lawful_pure rfl ho⟩
  unfold primary
  infer_instance

instance : Regular (operand fuel expr) where
  lawful _ := .part _ fun _ hfronts => .after _ fun _ => .part _ fun _ he =>
    lawful_pure (Chain.front_renumber _ _) (Chain.formed_front hfronts he)

instance : Regular (binary fuel expr) where
  lawful f := by
    have hnext : Lawful f (Chain.renumberRight f) (fun x => x.2.Formed) (do
        let op ← binaryOp
        skip
        let e ← operand fuel expr
        return (op, e)) (do
        let op ← binaryOp
        skip
        let e ← operand fuel expr
        return (op, e)) :=
      .after _ fun _ => .after _ fun _ => .part _ fun _ he => lawful_pure rfl he
    exact .rule (.part _ fun _ hfirst => .after _ fun _ => (hnext.many fuel).bind fun _ hrest =>
      lawful_pure (Chain.build_renumber [] _ _) (Chain.formed_build nofun hfirst hrest))

instance regular_ternary : Regular (ternary fuel expr) where
  lawful f := by
    have hchoices : Regular (do
        sym "?"
        let yes ← expr
        skip
        sym ":"
        let no ← expr
        return (yes, no)) :=
      ⟨fun f => .after _ fun _ => .part _ fun _ hyes => .after _ fun _ => .after _ fun _ => .part _ fun _ hno =>
        lawful_pure rfl ⟨hyes, hno⟩⟩
    refine .rule (.spannedPart (.part _ fun _ hc => .after _ fun _ => .part _ fun _ hchoices => lawful_pure rfl ⟨hc, hchoices⟩)
      fun span x hx => ?_)
    obtain ⟨condition, choices⟩ := x
    cases choices with
    | none => exact lawful_pure rfl hx.1
    | some y => exact lawful_pure rfl ⟨hx.1, hx.2 y rfl⟩

end Nested

instance (fuel : Nat) : Regular (expression fuel) := by
  induction fuel with
  | zero => exact regular_fail
  | succ fuel ih => exact regular_ternary fuel

/-! ### Statements -/

section Actions

variable (fuel : Nat)

instance : Regular (declare fuel) where
  lawful _ := .rule (.part _ fun _ _ => .after _ fun _ => .part _ fun _ hname => .after _ fun _ => .part _ fun _ hvalue =>
    lawful_pure rfl ⟨hname.1, hvalue⟩)

instance : Quiet assignOp := by
  have hops : Quiet (choice (assignOps.map fun op => do lit (op.symbol ++ "="); return some op)) := by
    refine quiet_choice fun p hp => ?_
    obtain ⟨op, -, rfl⟩ := mem_map.1 hp
    infer_instance
  unfold assignOp
  infer_instance

instance : Regular (assign fuel) where
  lawful _ := .rule (.part _ fun _ ht => .after _ fun _ => .after _ fun _ => .after _ fun _ => .part _ fun _ he =>
    lawful_pure rfl ⟨ht, he⟩)

instance : Quiet stepOp := by
  unfold stepOp
  infer_instance

instance : Regular (step fuel) where
  lawful _ := .rule (.part _ fun _ ht => .after _ fun _ => .after _ fun _ => lawful_pure rfl ht)

instance : Regular (action fuel) where
  lawful f := by
    have hbreak : Regular (pure .breakLoop : Reader ActionKind) := ⟨fun _ => lawful_pure rfl trivial⟩
    have hcontinue : Regular (pure .continueLoop : Reader ActionKind) := ⟨fun _ => lawful_pure rfl trivial⟩
    have hexit : Regular (pure .exit : Reader ActionKind) := ⟨fun _ => lawful_pure rfl trivial⟩
    have hcall : Regular (do let target ← object fuel (expression fuel); return ActionKind.call target) :=
      ⟨fun f => .part _ fun _ ht => lawful_pure rfl ht⟩
    exact .rule ((Regular.lawful f).spannedPart fun _ _ hk => lawful_pure rfl hk)

instance : Regular (condition fuel) where
  lawful _ := .after _ fun _ => .part _ fun _ he => .after _ fun _ => .after _ fun _ => lawful_pure rfl he

end Actions

theorem formedStatements_iff : Statement.FormedAll ss ↔ ∀ s ∈ ss, s.Formed := by
  induction ss with
  | nil => simp [Statement.FormedAll]
  | cons s rest ih => simp [Statement.FormedAll, ih]

/-- Statements other than declarations. -/
def Silent (s : Statement) : Prop := s.types = [] ∧ s.members = []

/-- What declares nothing spells no type. -/
theorem Silent.spelled (h : Silent s) : s.Spelled := by
  cases s with
  | global span members =>
    intro m hm
    rw [show members = [] from h.2] at hm
    cases hm
  | type decl => cases h.1
  | _ => trivial

/-- The reader reads statements other than declarations. -/
def ReadsSilent (p : Reader Statement) : Prop := ∀ f, Lawful f (Statement.renumber f) (fun s => s.Formed ∧ Silent s) p p

section Control

variable (fuel : Nat) {stmt : Reader Statement} [Regular stmt]

instance : Regular (block fuel stmt) where
  lawful _ := .rule (.spannedPart (.after _ fun _ => .part _ fun _ hss => .after _ fun _ => .after _ fun _ => lawful_pure rfl hss)
    fun _ _ hss => lawful_pure (congrArg (Block.mk _) (Statement.renumberAll_eq _).symm)
      (formedStatements_iff.2 fun s hs => (hss s hs).1))

theorem silent_whileLoop : ReadsSilent (whileLoop fuel stmt) := fun _ =>
  .rule (.after _ fun _ => .part _ fun _ he => .after _ fun _ => .part _ fun _ hbody =>
    lawful_pure rfl ⟨⟨he, hbody⟩, rfl, rfl⟩)

theorem silent_forLoop : ReadsSilent (forLoop fuel stmt) := fun _ =>
  .rule (.after _ fun _ => .after _ fun _ => .part _ fun _ hstart => .after _ fun _ => .after _ fun _ => .part _ fun _ he =>
    .after _ fun _ => .after _ fun _ => .part _ fun _ hnext => .after _ fun _ => .after _ fun _ => .part _ fun _ hbody =>
      lawful_pure rfl ⟨⟨hstart, he, hnext, hbody⟩, rfl, rfl⟩)

theorem silent_doWhile : ReadsSilent (doWhile fuel stmt) := fun _ =>
  .rule (.after _ fun _ => .part _ fun _ hbody => .after _ fun _ => .after _ fun _ => .part _ fun _ he => .after _ fun _ =>
    .after _ fun _ => lawful_pure rfl ⟨⟨hbody, he⟩, rfl, rfl⟩)

instance (more : Nat) : Regular (branch fuel stmt more) := by
  induction more with
  | zero => exact regular_fail
  | succ more ih =>
    have hotherwise : Regular (Reader.rule do
        sym "else"
        Reader.orElse (do let b ← branch fuel stmt more; return Otherwise.branch b)
          (do let b ← block fuel stmt; return Otherwise.block b)) :=
      ⟨fun f => .rule (.after _ fun _ => .orElse (.part _ fun _ hb => lawful_pure rfl hb)
        (.part _ fun _ hb => lawful_pure rfl hb))⟩
    refine ⟨fun f => .rule (.after _ fun _ => .part _ fun _ he => .after _ fun _ => .part _ fun _ hbody => .after _ fun _ =>
      .part _ fun otherwise hother => lawful_pure ?_ ⟨he, hbody, ?_⟩)⟩
    · cases otherwise <;> rfl
    · cases otherwise with
      | none => exact trivial
      | some o => exact hother o rfl

/-- What a statement may be. -/
theorem statementWith_choice (stmt : Reader Statement) [Regular stmt] : ∃ ps, statementWith fuel stmt = choice ps ∧
    ∀ p ∈ ps, p = global fuel ∨ p = typeDecl fuel ∨ ReadsSilent p := by
  refine ⟨_, rfl, ?_⟩
  simp only [forall_mem_cons, not_mem_nil, false_implies, implies_true, and_true]
  refine ⟨.inr (.inr fun f => ?_), .inl trivial, .inr (.inl trivial), .inr (.inr fun f => ?_), .inr (.inr fun f => ?_),
    .inr (.inr (silent_whileLoop fuel)), .inr (.inr (silent_forLoop fuel)), .inr (.inr (silent_doWhile fuel)),
    .inr (.inr fun f => ?_), .inr (.inr fun f => ?_)⟩
  · exact .rule (.spanned (.after _ fun _ => quiet_stringText.lawful f) fun _ _ _ => lawful_pure rfl ⟨trivial, rfl, rfl⟩)
  · exact .rule (.spanned (.after _ fun _ => .after _ fun _ => .after _ fun _ =>
      lawful_pure rfl trivial) fun _ _ _ => lawful_pure rfl ⟨trivial, rfl, rfl⟩)
  · exact .part _ fun _ hb => lawful_pure rfl ⟨hb, rfl, rfl⟩
  · exact .part _ fun _ hb => lawful_pure rfl ⟨hb, rfl, rfl⟩
  · exact .part _ fun _ ha => .after _ fun _ => .after _ fun _ => lawful_pure rfl ⟨ha, rfl, rfl⟩

end Control

instance (fuel : Nat) : Regular (statement fuel) := by
  induction fuel with
  | zero => exact regular_fail
  | succ fuel ih =>
    obtain ⟨ps, hps, hall⟩ := statementWith_choice (fuel + 1) (statement fuel)
    unfold statement
    rw [hps]
    refine regular_choice fun p hp => ?_
    obtain rfl | rfl | h := hall p hp
    · exact ⟨fun f => (lawful_global _ f).imp fun _ hs => hs.1⟩
    · infer_instance
    · exact ⟨fun f => (h f).imp fun _ hs => ⟨hs.1, hs.2.spelled⟩⟩

instance : Quiet endOfText where
  lawful f := .rule fun c reach => by
    show Answer.Matches f id _ c (if c.rest.isEmpty then _ else _) (if c.rest.isEmpty then _ else _)
    by_cases h : c.rest.isEmpty = true
    · rw [if_pos h, if_pos h]
      exact .ok (.refl c) trivial
    · rw [if_neg h, if_neg h]
      exact .fail

instance regular_script (fuel : Nat) : Regular (script fuel) where
  lawful _ := .rule (.after _ fun _ => .part _ fun _ hss => .after _ fun _ => .after _ fun _ => lawful_pure rfl hss)

end Grammar

namespace Script

variable {n : Nat} {text : List Char} {script : Script}

section

variable (h : Script.parse n text = .ok script)
include h

/-- A script that parses was read from the start of the text. -/
theorem read_of_parse :
    ∃ c reach, Grammar.script (text.length + 1) ⟨n, 0, text, none⟩ 0 = .ok script c reach := by
  unfold Script.parse at h
  split at h
  · cases h
  · split at h
    · cases h
    · cases h
      exact ⟨_, _, ‹_›⟩

/-- Every statement of a script that parses is formed, and spells its types. -/
theorem sound_of_parse : ∀ s ∈ script, s.Formed ∧ s.Spelled := by
  obtain ⟨c, reach, hread⟩ := read_of_parse h
  exact (((Grammar.regular_script _).lawful id).reads hread).2

/-- A script that was read is formed. -/
theorem formed_of_parse : script.Formed :=
  Grammar.formedStatements_iff.2 fun s hs => (sound_of_parse h s hs).1

end

end Script

/-- The declarations of formed scripts. -/
theorem Api.formed_ofScripts (h : ∀ s ∈ scripts, s.Formed) : (Api.ofScripts scripts).Formed := by
  constructor
  · intro t ht
    obtain ⟨s, hs, ht⟩ := mem_flatMap.1 ht
    obtain ⟨statement, hmem, heq⟩ := mem_filterMap.1 ht
    have hformed := Grammar.formedStatements_iff.1 (h s hs) statement hmem
    split at heq
    · cases heq
      exact hformed
    · cases heq
  · intro m hm
    obtain ⟨s, hs, hm⟩ := mem_flatMap.1 hm
    obtain ⟨statement, hmem, hm⟩ := mem_flatMap.1 hm
    have hformed := Grammar.formedStatements_iff.1 (h s hs) statement hmem
    split at hm
    · exact hformed m hm
    · cases hm

def ParseError.renumber (f : Nat → Nat) : ParseError → ParseError
  | .unexpected offset => .unexpected offset
  | .blemished span blemish => .blemished (span.renumber f) blemish

/-- A text read under another number. -/
theorem Script.parse_renumber (f : Nat → Nat) (file : Nat) (text : List Char) :
    Script.parse (f file) text = match Script.parse file text with
      | .ok script => .ok (script.renumber f)
      | .error e => .error (e.renumber f) := by
  unfold parse
  rw [show (⟨f file, 0, text, none⟩ : Cursor) = Cursor.renumber f ⟨file, 0, text, none⟩ from rfl]
  generalize (⟨file, 0, text, none⟩ : Cursor) = c
  match Grammar.script (text.length + 1) c 0, Grammar.script (text.length + 1) (c.renumber f) 0,
    (Grammar.regular_script (text.length + 1)).lawful f c 0 with
  | _, _, .fail => rfl
  | .ok script ⟨_, _, _, blemish⟩ _, _, .ok _ _ =>
    cases blemish with
    | none => exact congrArg Except.ok (Statement.renumberAll_eq script).symm
    | some b => rfl

end HostScript
