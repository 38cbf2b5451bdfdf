import HostScript.Proofs.Statements

/-! Variables that code refers to.

`mentions` lists the variables that a part of a script refers to, each under the name by
which it is found there, in the order in which the code names them. A known expression
becomes a literal, so it mentions nothing, and neither does a part that is left out. The
places in the code of a part are those of the variables it mentions and no others
(`emit_mentions`, `passes_usages`). -/
namespace HostScript

open Check List Option

variable {debug : Bool} {f : Fragment} {es : List (String × Variable)} {target : Object} {d : String × Variable} {t : Ty}
  {u : Update} {e : Expr} {s : Scope}

/-! ### Slots -/

/-- Where a variable is kept: a slot of the string table, or bytes of primitive memory from an
address on. -/
structure Slot where
  isString : Bool
  index : Nat
  deriving DecidableEq, Repr

/-- The slot above some storage. -/
def Slot.up (base : Storage) (s : Slot) : Slot :=
  { s with index := s.index + if s.isString then base.slots else base.bytes }

def Variable.slot (v : Variable) : Slot := ⟨v.isString, v.address⟩

def Piece.slot? : Piece → Option Slot
  | .place isString address => some ⟨isString, address⟩
  | _ => none

/-- The fragment names slots, in this order. -/
def Fragment.Names (f : Fragment) (slots : List Slot) : Prop :=
  ∃ ps, f = .ofPieces ps ∧ ps.filterMap Piece.slot? = slots

/-- The fragment names the slots of variables. -/
def Fragment.Mentions (f : Fragment) (es : List (String × Variable)) : Prop := f.Names (es.map fun e => e.2.slot)

namespace Fragment

variable {g : Fragment} {slots : List Slot} {es' : List (String × Variable)}

theorem names_empty : Names ∅ [] := ⟨[], rfl, rfl⟩

theorem Names.append (hf : f.Names slots) (hg : g.Names slots') : (f ++ g).Names (slots ++ slots') := by
  obtain ⟨ps, rfl, rfl⟩ := hf
  obtain ⟨qs, rfl, rfl⟩ := hg
  exact ⟨ps ++ qs, (ofPieces_append ps qs).symm, filterMap_append⟩

theorem Names.relocate (base : Storage) (h : f.Names slots) : (f.relocate base).Names (slots.map (Slot.up base)) := by
  obtain ⟨ps, rfl, rfl⟩ := h
  refine ⟨ps.map (Piece.relocate base), relocate_ofPieces base ps, ?_⟩
  rw [filterMap_map, map_filterMap]
  congr 1
  funext p
  cases p <;> rfl

theorem Names.zeroLines (h : f.Names slots) : f.zeroLines.Names slots := by
  obtain ⟨ps, rfl, rfl⟩ := h
  refine ⟨ps.map Piece.zeroLine, zeroLines_ofPieces ps, ?_⟩
  rw [filterMap_map]
  congr 1
  funext p
  cases p <;> rfl

theorem slot?_fill (l : Leap) (target : Target) (size o : Nat) (p : Piece) :
    (Piece.fill l target size o p).slot? = p.slot? := by
  cases p with
  | leap m =>
    unfold Piece.fill
    dsimp only
    split <;> rfl
  | _ => rfl

theorem filterMap_mapFrom {g : Nat → Piece → Piece} (hg : ∀ o p, (g o p).slot? = p.slot?) (o : Nat) (ps : List Piece) :
    (mapFrom g o ps).filterMap Piece.slot? = ps.filterMap Piece.slot? := by
  induction ps generalizing o with
  | nil => rfl
  | cons p rest ih => simp only [mapFrom, filterMap_cons, hg, ih]

theorem Names.resolveJumps (l : Leap) (target : Target) (h : f.Names slots) :
    (f.resolveJumps l.mark target).Names slots := by
  obtain ⟨ps, rfl, rfl⟩ := h
  exact ⟨_, resolveJumps_ofPieces l target ps, filterMap_mapFrom (slot?_fill l target _) 0 ps⟩

/-! Only variables have slots. -/

theorem mentions_empty : Mentions ∅ [] := names_empty

theorem Mentions.append (hf : f.Mentions es) (hg : g.Mentions es') : (f ++ g).Mentions (es ++ es') := by
  unfold Mentions at *
  rw [map_append]
  exact hf.append hg

/-- Code without variables. -/
class Blank (f : Fragment) : Prop where
  mentions : f.Mentions []

instance blank_bytes (bytes : List UInt8) : Blank (ofBytes bytes) := ⟨[.raw bytes], (ofPieces_raw bytes).symm, rfl⟩

instance blank_opcode (op : Opcode) : Blank (opcode op) := blank_bytes _

instance blank_kind (k : Kind) : Blank (kind k) := blank_bytes _

instance blank_byte (n : Nat) : Blank (byte n) := blank_bytes _

instance blank_word (n : Nat) : Blank (word n) := blank_bytes _

instance blank_distance (n : Nat) : Blank (distance n) := blank_bytes _

instance blank_text (s : String) : Blank (text s) := blank_bytes _

instance blank_symbol (d : String) : Blank (symbol d) := ⟨[.symbol d], (ofPieces_symbol d).symm, rfl⟩

instance blank_append [hf : Blank f] [hg : Blank g] : Blank (f ++ g) := ⟨hf.mentions.append hg.mentions⟩

theorem mentions_literal (l : Literal) : (literal l).Mentions [] := by
  refine ⟨_, pieces_ofLiteral l, ?_⟩
  cases l <;> rfl

theorem mentions_line (n : Nat) : (mark .line ++ word n).Mentions [] := ⟨[.line n], (ofPieces_line n).symm, rfl⟩

theorem mentions_leap (l : Leap) : (mark l.mark ++ opcode .placeholder ++ word 0).Mentions [] :=
  ⟨[.leap l], (ofPieces_leap l).symm, rfl⟩

theorem mentions_place (e : String × Variable) : (place e.2).Mentions [e] :=
  ⟨[.place e.2.isString e.2.address], (ofPieces_place e.2).symm, rfl⟩

theorem Mentions.behind (hg : g.Mentions es) [hf : Blank f] : (f ++ g).Mentions es := hf.mentions.append hg

theorem Mentions.before (hf : f.Mentions es) [hg : Blank g] : (f ++ g).Mentions es := by
  have h := hf.append hg.mentions
  rwa [append_nil] at h

theorem Mentions.resolveJumps (l : Leap) (target : Target) (h : f.Mentions es) :
    (f.resolveJumps l.mark target).Mentions es := Names.resolveJumps l target h

theorem mentions_read (e : String × Variable) : (read e.2).Mentions [e] :=
  (mentions_place e).behind

theorem mentions_debugUpdate (e : String × Variable) (hk : e.2.type.HasKind) : (debugUpdate e.1 e.2).Mentions [e] := by
  obtain ⟨k, hk⟩ := hk
  unfold debugUpdate
  rw [hk]
  exact (mentions_read e).behind

end Fragment

open Fragment

/-! ### Expressions -/

/-- What an expression mentions unless it is known. -/
def Expr.unlessKnown {α : Type} (e : Expr) (parts : List α) : List α := if e.known?.isSome then [] else parts

mutual
/-- The variables that an expression mentions where a type is expected of it. There is no code for
a cast of nothing or a comparison of nothing with nothing. -/
def Expr.mentions (s : Scope) : Expr → Ty → List (String × Variable)
  | .literal _ _, _ => []
  | .object span object, _ => Expr.unlessKnown (.object span object) (object.mentions s)
  | .parens span inner, t => Expr.unlessKnown (.parens span inner) (inner.mentions s t)
  | .cast span type operand, _ =>
    Expr.unlessKnown (.cast span type operand) <|
      match operand.type? s with
      | some source =>
        if source = .prim .void then [] else operand.mentions s (castOperandType source type.type)
      | none => []
  | .unary span op operand, t =>
    Expr.unlessKnown (.unary span op operand) (operand.mentions s (if op = .not then .bool else t))
  | .binary span op left right, t =>
    Expr.unlessKnown (.binary span op left right) <|
      match op with
      | .compare op =>
        match left.type? s, right.type? s with
        | some l, some r =>
          if l = .prim .void then []
          else
            left.mentions s (comparisonOperandTypes span op l r).1 ++
              right.mentions s (comparisonOperandTypes span op l r).2
        | _, _ => []
      | op =>
        let operand := if op = .and ∨ op = .or then .bool else t
        left.mentions s operand ++ right.mentions s operand
  | .ternary span condition yes no, t =>
    Expr.unlessKnown (.ternary span condition yes no) <|
      match condition.knownBool? with
      | some true => yes.mentions s t
      | some false => no.mentions s t
      | none => condition.mentions s .bool ++ yes.mentions s t ++ no.mentions s t

def Object.mentions (s : Scope) : Object → List (String × Variable)
  | .root access => Option.toList ( Object.var? s.vars (.root access)) ++ access.mentions s none
  | .member _ owner access =>
    match owner.type? s with
    | some (.object name) => owner.mentions s ++ access.mentions s (some name)
    | _ => []
  | .index span owner index =>
    match owner.type? s, index.type? s with
    | some (.object name), some t =>
      match (s.indexer name t span #[]).1 with
      | some i => owner.mentions s ++ index.mentions s i.decl.index.type
      | none => []
    | _, _ => []

def Access.mentions (s : Scope) (owner : Option String) : Access → List (String × Variable)
  | .name _ => []
  | .call _ ident args =>
    match (typesOf s args #[]).1.mapM id with
    | some types =>
      match (s.callee owner ident types #[]).1 with
      | some f => Expr.argumentMentions s args types f.decl.types
      | none => []
    | none => []

def Expr.argumentMentions (s : Scope) : List Expr → List Ty → List Ty → List (String × Variable)
  | e :: rest, actual :: types, declared =>
    e.mentions s (declared.head?.getD actual) ++ Expr.argumentMentions s rest types declared.tail
  | _, _, _ => []
end

/-! ### Code for expressions -/

theorem BecomesLiteral.mentions (h : BecomesLiteral s e t f) (parts : List (String × Variable)) :
    f.Mentions (e.unlessKnown parts) := by
  obtain ⟨l, m, hl, -, -, rfl⟩ := h
  have hknown : e.known?.isSome = true := by
    unfold Expr.known?
    rw [hl.fst]
    rfl
  rw [Expr.unlessKnown, if_pos hknown]
  exact mentions_literal m

theorem Folding.Leaves.mentions (h : Folding.full.Leaves s e t) (parts : List (String × Variable)) :
    e.unlessKnown parts = parts := by
  have hknown : e.known? = none := h.unknown.fst
  rw [Expr.unlessKnown, hknown]
  rfl

mutual
/-- The code of an expression names the variables that it mentions, in that order. -/
theorem emit_mentions (hs : s.Formed) : (e : Expr) → e.Formed → ∀ {t : Ty} {f : Fragment},
    Passes (emit s e t) f → f.Mentions (e.mentions s t)
  | .literal span value, _, t, f, h => by
    obtain ⟨l, m, -, -, -, rfl⟩ | ⟨-, -, hleaves, -⟩ := passes_emitAs h inferInstance
    · exact mentions_literal m
    · cases hleaves.unknown.fst
  | .object span object, he, t, f, h => by
    unfold Expr.mentions
    obtain h | ⟨-, -, hleaves, h⟩ := passes_emitAs h inferInstance
    · exact h.mentions _
    · rw [hleaves.mentions]
      exact emitObject_mentions hs object he h
  | .parens span inner, he, t, f, h => by
    unfold Expr.mentions
    obtain h | ⟨-, -, hleaves, h⟩ := passes_emitAs h inferInstance
    · exact h.mentions _
    · rw [hleaves.mentions]
      exact emit_mentions hs inner he h
  | .cast span type operand, he, t, f, h => by
    unfold Expr.mentions
    obtain h | ⟨source, hleaves, hsource, h⟩ := passes_emit_cast h
    · exact h.mentions _
    rw [hleaves.mentions, show operand.type? s = some source from hsource.fst]
    dsimp only
    obtain ⟨i, hi⟩ := he.1
    obtain ⟨hsame, h⟩ | ⟨j, g, hj, hne, hg, rfl⟩ | ⟨rfl, -, rfl⟩ :=
      passes_emitCast (proper_typeOf hs operand he.2 hsource) h
    · have hvoid : source ≠ .prim .void := by
        rintro rfl
        obtain hsame | hsame := hsame
        · cases hsame.trans hi
        · cases hsame
      rw [if_neg hvoid]
      exact emit_mentions hs operand he.2 h
    · have htypes : castOperandType source type.type = source := by
        simp [castOperandType, hj, Primitive.isUntyped]
      have hvoid : source ≠ .prim .void := by
        rintro rfl
        cases hj
      rw [if_neg hvoid, htypes]
      exact (emit_mentions hs operand he.2 hg).behind
    · exact mentions_empty
  | .unary span op operand, he, t, f, h => by
    unfold Expr.mentions
    obtain h | ⟨g, hleaves, hg, rfl⟩ := passes_emit_unary h
    · exact h.mentions _
    · rw [hleaves.mentions]
      exact (emit_mentions hs operand he hg).behind
  | .binary span op left right, he, t, f, h => by
    unfold Expr.mentions
    by_cases hop : ∃ c, op = .compare c
    · obtain ⟨op, rfl⟩ := hop
      obtain h | ⟨l, r, hleaves, hl, hr, h⟩ := passes_emit_compare h
      · exact h.mentions _
      rw [hleaves.mentions, show left.type? s = some l from hl.fst, show right.type? s = some r from hr.fst]
      dsimp only
      obtain ⟨j, x, y, hne, -, -, hx, hy, rfl⟩ | ⟨-, rfl, -, rfl⟩ := passes_emitComparison
        (proper_typeOf hs left he.1 hl) (proper_typeOf hs right he.2 hr) h
      · rw [if_neg hne]
        exact (emit_mentions hs left he.1 hx).behind.append (emit_mentions hs right he.2 hy)
      · exact mentions_empty
    · have hother : ∀ c, op ≠ .compare c := fun c hc => hop ⟨c, hc⟩
      obtain h | ⟨a, b, hleaves, ha, hb, rfl⟩ := passes_emit_binary hother h
      · exact h.mentions _
      rw [hleaves.mentions]
      have hsides := ((emit_mentions hs left he.1 ha).behind (f := .opcode (resultOpcode op t))).append
        (emit_mentions hs right he.2 hb)
      cases op with
      | compare c => exact absurd rfl (hother c)
      | _ => exact hsides
  | .ternary span condition yes no, he, t, f, h => by
    unfold Expr.mentions
    obtain h | ⟨hleaves, -, h⟩ := passes_emit_ternary h
    · exact h.mentions _
    rw [hleaves.mentions]
    obtain ⟨b, hb, h⟩ | ⟨x, y, z, hnone, hx, hy, hz, rfl⟩ := h
    · rw [hb]
      cases b with
      | true => exact emit_mentions hs yes he.2.1 h
      | false => exact emit_mentions hs no he.2.2 h
    · rw [hnone]
      exact ((emit_mentions hs condition he.1 hx).behind.append (emit_mentions hs yes he.2.1 hy)).append
        (emit_mentions hs no he.2.2 hz)

theorem emitObject_mentions (hs : s.Formed) : (o : Object) → o.Formed → ∀ {used : Bool} {f : Fragment},
    Passes (emitObject s o used) f → f.Mentions (o.mentions s)
  | .root access, ho, used, f, h => by
    unfold emitObject at h
    unfold Object.mentions
    split at h
    · rename_i v hv
      cases passes_pure.1 h
      cases access with
      | name ident =>
        have hentry : Object.var? s.vars (.root (.name ident)) = some (ident.name, v) :=
          map_eq_some_iff.2 ⟨v, hv, rfl⟩
        rw [hentry]
        unfold Access.mentions
        exact mentions_read (ident.name, v)
      | call span ident args => cases hv
    · rename_i hv
      have hentry : Object.var? s.vars (.root access) = none := by
        cases access with
        | name ident => exact map_eq_none_iff.2 hv
        | call span ident args => rfl
      rw [hentry]
      have hglobal : ∀ g, Passes (pure (Fragment.opcode .noOp)) g → g.Mentions [] := fun g hg =>
        passes_pure.1 hg ▸ Blank.mentions
      exact emitAccess_mentions hs none hglobal access ho h
  | .member _ owner access, ho, used, f, h => by
    obtain ⟨name, hname, h⟩ := passes_emitObject_member h
    unfold Object.mentions
    rw [show owner.type? s = _ from hname.fst]
    exact emitAccess_mentions hs (some name)
      (fun g hg => emitObject_mentions hs owner ho.1 hg) access ho.2 h
  | .index span owner index, ho, used, f, h => by
    obtain ⟨name, t, i, j, a, b, hname, ht, hi, hj, ha, hb, rfl⟩ := passes_emitObject_index hs h
    unfold Object.mentions
    rw [show owner.type? s = _ from hname.fst, show index.type? s = _ from ht.fst]
    dsimp only
    rw [hi.fst]
    exact (emitObject_mentions hs owner ho.1 ha).behind.before.append (emit_mentions hs index ho.2 hb)

theorem emitAccess_mentions (hs : s.Formed) (owner : Option String) {target : Check Fragment}
    {es : List (String × Variable)} [Plain target] (htarget : ∀ g, Passes target g → g.Mentions es) :
      (a : Access) → a.Formed → ∀ {used : Bool} {f : Fragment},
        Passes (emitAccess s owner target a used) f → f.Mentions (es ++ a.mentions s owner)
  | .name ident, _, used, f, h => by
    obtain ⟨p, g, hp, hg, rfl⟩ := passes_emitAccess_name h
    unfold Access.mentions
    rw [append_nil]
    exact (htarget g hg).behind.before.before
  | .call span ident args, ha, used, f, h => by
    obtain ⟨types, m, g, htypes, hm, hlen, hg, h⟩ := passes_emitAccess_call h
    unfold Access.mentions
    rw [htypes.fst, mapM_id_map_some]
    dsimp only
    rw [hm.fst]
    exact emitArguments_mentions hs args ha htypes (hs.callee hm).1 (htarget g hg).behind.before.before h

theorem emitArguments_mentions (hs : s.Formed) : (args : List Expr) → Expr.FormedAll args →
    ∀ {types declared : List Ty} {code f : Fragment} {es : List (String × Variable)},
      Passes (typesOf s args) (types.map some) → (∀ t ∈ declared, t.HasKind) → code.Mentions es →
        Passes (emitArguments s args types declared code) f →
          f.Mentions (es ++ Expr.argumentMentions s args types declared)
  | [], _, types, declared, code, f, es, _, _, hcode, h => by
    cases passes_pure.1 h
    rw [show Expr.argumentMentions s [] types declared = [] by simp [Expr.argumentMentions], List.append_nil]
    exact hcode
  | e :: rest, he, types, declared, code, f, es, ht, hd, hcode, h => by
    obtain ⟨actual, types, k, g, rfl, htypes, hk, hg, h⟩ := passes_emitArguments_cons hs he.1 ht hd h
    unfold Expr.argumentMentions
    rw [← List.append_assoc]
    exact emitArguments_mentions hs rest he.2 htypes (fun t ht => hd t (List.mem_of_mem_tail ht))
      (hcode.before.append (emit_mentions hs e he.1 hg)) h
end

/-! ### What is mentioned is in sight -/

theorem mem_unlessKnown (h : a ∈ e.unlessKnown parts) : a ∈ parts := by
  unfold Expr.unlessKnown at h
  split at h
  · cases h
  · exact h

mutual
/-- Whatever is mentioned is in scope. -/
theorem Expr.has_of_mentions : (e : Expr) → (t : Ty) → d ∈ e.mentions s t → s.vars.Has d
  | .literal _ _, _, h => by
    cases h
  | .object _ object, _, h => Object.has_of_mentions object (mem_unlessKnown h)
  | .parens _ inner, t, h => Expr.has_of_mentions inner t (mem_unlessKnown h)
  | .cast _ type operand, _, h => by
    have hoperand := operand.has_of_mentions
    grind [mem_unlessKnown h]
  | .unary _ op operand, t, h => Expr.has_of_mentions operand _ (mem_unlessKnown h)
  | .binary span op left right, t, h => by
    have hleft := left.has_of_mentions
    have hright := right.has_of_mentions
    grind [mem_unlessKnown h]
  | .ternary _ condition yes no, t, h => by
    have hcondition := condition.has_of_mentions
    have hyes := yes.has_of_mentions
    have hno := no.has_of_mentions
    grind [mem_unlessKnown h]

theorem Object.has_of_mentions : (o : Object) → d ∈ o.mentions s → s.vars.Has d
  | .root access, h => by
    obtain h | h := mem_append.1 h
    · exact Variables.mem_of_find (Object.find_of_variable (mem_toList.1 h))
    · exact access.has_of_mentions none h
  | .member _ owner access, h => by
    have howner := owner.has_of_mentions
    have haccess := access.has_of_mentions
    unfold Object.mentions at h
    grind
  | .index span owner index, h => by
    have howner := owner.has_of_mentions
    have hindex := index.has_of_mentions
    unfold Object.mentions at h
    grind

theorem Access.has_of_mentions : (a : Access) → (owner : Option String) → d ∈ a.mentions s owner → s.vars.Has d
  | .name _, _, h => by
    cases h
  | .call _ ident args, _, h => by
    have hargs := Expr.has_of_argumentMentions args
    unfold Access.mentions at h
    grind

theorem Expr.has_of_argumentMentions : (es : List Expr) → (types declared : List Ty) →
    d ∈ Expr.argumentMentions s es types declared → s.vars.Has d
  | e :: rest, actual :: types, declared, h => by
    obtain h | h := mem_append.1 h
    · exact Expr.has_of_mentions e _ h
    · exact Expr.has_of_argumentMentions rest types declared.tail h
  | [], _, _, h | _ :: _, [], _, h => by simp [Expr.argumentMentions] at h
end

/-! ### Updates -/

namespace Update

/-- The variables that the given value mentions; a step has none. -/
def valueMentions (s : Scope) (t : Ty) : Update → List (String × Variable)
  | .assign _ value => value.mentions s t
  | .step _ => []

/-- The variables that an update of a target mentions. A variable is mentioned as the target, with an
operator once more for its old value, and to a debugger for the new one. -/
def mentions (s : Scope) (debug : Bool) (target : Object) (u : Update) : List (String × Variable) :=
  match target.var? s.vars with
  | some e =>
    e :: ((if u.op?.isSome then [e] else []) ++ u.valueMentions s e.2.type) ++ if debug then [e] else []
  | none =>
    target.mentions s ++
      match target.type? s with
      | some t => u.valueMentions s t
      | none => []

theorem emitValue_mentions (hs : s.Formed) (hu : ∀ e, u.value? = some e → e.Formed) (h : Passes (u.emitValue s t) f) :
    f.Mentions (u.valueMentions s t) := by
  cases u with
  | assign op value => exact emit_mentions hs value (hu value rfl) h
  | step down =>
    unfold emitValue at h
    dsimp only at h
    split at h
    · exact passes_pure.1 h ▸ mentions_literal _
    · exact passes_pure.1 h ▸ mentions_empty

theorem has_of_valueMentions (h : d ∈ u.valueMentions s t) : s.vars.Has d := by
  cases u with
  | assign op value => exact value.has_of_mentions t h
  | step down => cases h

theorem has_of_mentions (h : d ∈ u.mentions s debug target) : s.vars.Has d := by
  have hself : ∀ e, target.var? s.vars = some e → s.vars.Has e := fun e he =>
    Variables.mem_of_find (Object.find_of_variable he)
  have htarget := target.has_of_mentions (s := s) (d := d)
  have hvalue := fun t => has_of_valueMentions (d := d) (u := u) (s := s) (t := t)
  unfold mentions at h
  grind

end Update

theorem mentions_assign {e : String × Variable} {k : Kind} {value : Fragment} (h : value.Mentions es) :
    (Fragment.assign e.2 k u value).Mentions (e :: ((if u.op?.isSome then [e] else []) ++ es)) := by
  have hplace := (mentions_place e).behind (f := .opcode .assign ++ .kind k)
  unfold Fragment.assign
  cases u.op?.isSome with
  | false => exact hplace.append h
  | true => exact (hplace.before.append (mentions_read e)).append h

theorem emitUpdate_mentions (hs : s.Formed) {span : Span} (ho : target.Formed) (hu : ∀ e, u.value? = some e → e.Formed)
    (h : Passes (emitUpdate s debug target u span) f) : f.Mentions (u.mentions s debug target) := by
  cases passes_emitUpdate hs h with
  | @stored _ name v hv hcode =>
    have hkind := (hs.vars.find (Object.find_of_variable hv)).2
    obtain ⟨k, hk⟩ := hkind
    obtain ⟨g, -, hg, rfl⟩ := (passes_emitVariableUpdate hk).1 hcode
    have hassign := mentions_assign (e := (name, v)) (k := k) (u := u) (Update.emitValue_mentions hs hu hg)
    unfold Update.mentions
    rw [hv]
    cases debug with
    | false =>
      simp only [Bool.false_eq_true, if_false, append_nil]
      exact hassign
    | true => exact hassign.append (mentions_debugUpdate (name, v) ⟨k, hk⟩)
  | @subscript indexSpan owner index t k ht hk hcode =>
    obtain ⟨name, w, i, j, a, b, c, hname, hw, hi, hj, -, ha, hb, hc, rfl⟩ := passes_emitSubscriptUpdate hs hcode
    have howner := emitObject_mentions hs owner ho.1 ha
    have hindex := emit_mentions hs index ho.2 hb
    have hvalue := Update.emitValue_mentions hs hu hc
    unfold Update.mentions
    rw [show Object.var? s.vars (.index indexSpan owner index) = none from rfl,
      show Object.type? s (.index indexSpan owner index) = some t from ht.fst]
    unfold Object.mentions
    rw [show owner.type? s = _ from hname.fst, show index.type? s = _ from hw.fst]
    dsimp only
    rw [hi.fst]
    exact (howner.behind.before.append hindex).before.append hvalue
  | @property name t k hv ht hk hcode =>
    obtain ⟨p, a, b, -, ha, hb, rfl⟩ := passes_emitPropertyUpdate hcode
    cases passes_pure.1 ha
    unfold Update.mentions
    rw [show Object.var? s.vars (.root (.name name)) = none from map_eq_none_iff.2 hv,
      show Object.type? s (.root (.name name)) = some t from ht.fst]
    unfold Object.mentions Access.mentions
    rw [show Object.var? s.vars (.root (.name name)) = none from map_eq_none_iff.2 hv]
    exact (Update.emitValue_mentions hs hu hb).behind
  | @member memberSpan owner name t k ownerName ht hk hname hcode =>
    obtain ⟨p, a, b, -, ha, hb, rfl⟩ := passes_emitPropertyUpdate hcode
    unfold Update.mentions
    rw [show Object.var? s.vars (.member memberSpan owner (.name name)) = none from rfl,
      show Object.type? s (.member memberSpan owner (.name name)) = some t from ht.fst]
    unfold Object.mentions Access.mentions
    rw [show owner.type? s = _ from hname.fst]
    rw [append_nil]
    exact (emitObject_mentions hs owner ho.1 ha).behind.before.before.append (Update.emitValue_mentions hs hu hb)

end HostScript
