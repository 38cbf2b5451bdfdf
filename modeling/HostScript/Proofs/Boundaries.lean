import HostScript.Proofs.Extent
import HostScript.Proofs.OneFile

/-! Built code is a row of whole statements.

The scan reads an image line by line: it finds each statement where its line starts
and stops where the next one does, and it finds the jumps that the lines make. -/
namespace HostScript

open Line Code List

variable {code : Array UInt8} {lines : List Line} {op : Opcode} {r : Scan Unit} {k : Kind} {o : Nat} {α : Type}

namespace Scan

variable {p q : Nat}

/-! ### Operands -/

theorem bind_some {β : Type} {r : Scan α} {g : α → Scan β} {a : α} {x : Option (β × Nat)} (hr : r p = some (a, q))
    (hg : g a q = x) : (r >>= g) p = x := by
  rw [bind_apply, hr]
  exact hg

theorem Agrees.some_eq {x : Exec Unit α} {r : Scan α} {a : α} (h : Agrees code x r Eq) (hx : x p () = ((.ok a, q), ())) :
    r p = some (a, q) := by
  obtain ⟨_, rfl, hr⟩ := (h p ()).2 a q () hx
  exact hr

theorem Agrees.some_unit (h : Agrees code x r fun _ _ => True) (hx : x p () = ((.ok a, q), ())) : r p = some ((), q) := by
  obtain ⟨_, -, hr⟩ := (h p ()).2 a q () hx
  exact hr

theorem opcode_eq (h : code[p]? = some op.code) : opcode code p = some (op, p + 1) :=
  (along_opcode code).agrees.some_eq (opcode_apply h ())

theorem kind_eq (h : code[p]? = some k.code) : kind code p = some (k, p + 1) :=
  (along_kind code).agrees.some_eq (kind_apply h ())

theorem word_eq {n : Nat} (h : HasAt code p (Bytes.ofNat 2 n)) : word code p = some (n % 256 ^ 2, p + 2) :=
  (agrees_word code).some_eq (word_apply h ())

theorem text_eq {t : String} (ht : Clean t) (h : HasAt code p (Utf8.encode t ++ [0])) :
    text code p = some ((), p + (Utf8.encode t ++ [0]).length) :=
  (agrees_text code).some_unit (text_apply ht h ())

theorem literal_eq {v : Value} (hv : v.Writable k) (h : HasAt code p v.encoded) :
    literal code k p = some ((), p + v.encoded.length) :=
  (along_literal code k).agrees.some_unit (literal_apply hv h ())

/-! ### Expressions -/

variable {R : Rules} {numbers : String → Nat} {expr : Kind → Scan Unit} {bound : Nat}

/-- Trees of at most so many bytes are read as a whole. -/
def Reads (R : Rules) (code : Array UInt8) (numbers : String → Nat) (expr : Kind → Scan Unit) (bound : Nat) : Prop :=
  ∀ n k p, Node.Typed R k n → HasAt code p (n.code numbers) → (n.code numbers).length ≤ bound →
    expr k p = some ((), p + (n.code numbers).length)

/-- The same end, counted in another way. -/
theorem ends {r : Scan α} {a : α} {q' : Nat} (h : r p = some (a, q)) (hq : q = q') : r p = some (a, q') := by
  rw [h, hq]

/-- One byte is read, and then what is behind it. -/
theorem after {β : Type} {r : Scan α} {g : α → Scan β} {a : α} {x : β} {b : UInt8} {rest : List UInt8}
    (h : HasAt code p (b :: rest)) (hr : code[p]? = some b → r p = some (a, p + 1))
    (hg : HasAt code (p + 1) rest → g a (p + 1) = some (x, p + 1 + rest.length)) :
    (r >>= g) p = some (x, p + (b :: rest).length) := by
  obtain ⟨hb, hrest⟩ := hasAt_cons.1 h
  exact bind_some (hr hb) (ends (hg hrest) (by rw [length_cons]; omega))

theorem Reads.target (he : Reads R code numbers expr bound) (t : Target) (ht : t.Typed R)
    (h : HasAt code p (t.code numbers)) (hb : (t.code numbers).length ≤ bound) :
    target code expr p = some ((), p + (t.code numbers).length) := by
  unfold Scan.target
  cases t with
  | global =>
    rw [if_pos (hasAt_cons.1 h).1]
    rfl
  | of n =>
    rw [if_neg (noOp_ne_head h)]
    exact he n .pointer p ht h hb

theorem Reads.arguments (he : Reads R code numbers expr bound) : (args : Args) → (p : Nat) → args.Typed R →
    HasAt code p (args.code numbers) → (args.code numbers).length ≤ bound →
    arguments code expr args.length p = some ((), p + (args.code numbers).length)
  | .nil, p, _, _, _ => rfl
  | .cons k n rest, p, ht, h, hb => by
    rw [Args.code] at hb ⊢
    simp only [length_cons, length_append] at hb ⊢
    obtain ⟨hk, h⟩ := hasAt_cons.1 h
    obtain ⟨hn, hrest⟩ := hasAt_append.1 h
    refine bind_some (kind_eq hk) (bind_some (he n k _ ht.1 hn (by omega)) ?_)
    exact ends (he.arguments rest _ ht.2 hrest (by omega)) (by omega)

theorem Reads.call (he : Reads R code numbers expr bound) (t : Target) (d : String) (args : Args) (ht : t.Typed R)
    (hlen : args.length < 256) (hargs : args.Typed R) (h : HasAt code p (callCode numbers t d args))
    (hb : (callCode numbers t d args).length ≤ bound) :
    call code expr p = some ((), p + (callCode numbers t d args).length) := by
  obtain ⟨htarget, h⟩ := hasAt_append.1 h
  obtain ⟨hsymbol, h⟩ := hasAt_append.1 h
  obtain ⟨hcount, h⟩ := hasAt_cons.1 h
  simp only [callCode, length_append, length_cons] at hb ⊢
  have hn : (UInt8.ofNat args.length).toNat = args.length := Utf8.toNat_ofNat_of_lt hlen
  refine bind_some (he.target t ht htarget (by omega)) (bind_some (word_eq hsymbol) ?_)
  refine bind_some ((agrees_byte code).some_eq (byte_apply hcount ())) ?_
  rw [hn]
  exact ends (he.arguments args _ hargs h (by omega)) (by omega)

/-- Two expressions in a row. -/
theorem Reads.two (he : Reads R code numbers expr bound) {l r : Node} {j : Kind} (hl : l.Typed R j) (hr : r.Typed R k)
    (h : HasAt code p (l.code numbers ++ r.code numbers)) (hb : (l.code numbers ++ r.code numbers).length ≤ bound) :
    (expr j >>= fun _ => expr k) p = some ((), p + (l.code numbers ++ r.code numbers).length) := by
  rw [length_append] at hb ⊢
  obtain ⟨hleft, hright⟩ := hasAt_append.1 h
  exact bind_some (he l j _ hl hleft (by omega)) (ends (he r k _ hr hright (by omega)) (by omega))

/-- One level of an expression, given that its parts are read as a whole. -/
theorem Reads.expression (he : Reads R code numbers expr bound) (n : Node) (k : Kind) (ht : n.Typed R k)
    (h : HasAt code p (n.code numbers)) (hb : (n.code numbers).length ≤ bound + 1) :
    expression code expr k p = some ((), p + (n.code numbers).length) := by
  cases n with
  | literal v => exact after h opcode_eq fun h => literal_eq ht h
  | bool b =>
    refine after h opcode_eq fun _ => ?_
    cases b <;> rfl
  | null => exact after h opcode_eq fun _ => rfl
  | «variable» j a => exact after h opcode_eq fun h => bind_some (word_eq h) rfl
  | arith _ _ _ | concat _ _ | and _ _ | or _ _ =>
    exact after h opcode_eq fun h => he.two ht.2.1 ht.2.2 h (Nat.le_of_succ_le_succ hb)
  | negate n => exact after h opcode_eq fun h => he _ k _ ht.2 h (Nat.le_of_succ_le_succ hb)
  | complement n => exact after h opcode_eq fun h => he _ k _ ht.2.2 h (Nat.le_of_succ_le_succ hb)
  | not n => exact after h opcode_eq fun h => he _ .bool _ ht.2 h (Nat.le_of_succ_le_succ hb)
  | compare op j l r =>
    rw [Node.code, length_cons, length_cons] at hb
    exact after h opcode_eq fun h => after h kind_eq fun h => he.two ht.2.1 ht.2.2 h (by omega)
  | ternary c y n =>
    rw [Node.code, length_cons, length_append] at hb
    refine after h opcode_eq fun h => ?_
    obtain ⟨hc, h⟩ := hasAt_append.1 h
    rw [length_append, ← Nat.add_assoc]
    exact bind_some (he c .bool _ ht.1 hc (by omega)) (he.two ht.2.1 ht.2.2 h (by omega))
  | coalesce l r =>
    obtain ⟨rfl, hl, hr⟩ := ht
    exact after h opcode_eq fun h => he.two hl hr h (Nat.le_of_succ_le_succ hb)
  | cast j n =>
    rw [Node.code, length_cons, length_cons] at hb
    exact after h opcode_eq fun h => after h kind_eq fun h => he n j _ ht h (by omega)
  | call t d args =>
    exact after h opcode_eq fun h => he.call t d args ht.1 ht.2.1 ht.2.2 h (Nat.le_of_succ_le_succ hb)
  | subscript t j i =>
    rw [Node.code, length_cons, length_append, length_cons] at hb
    refine after h opcode_eq fun h => ?_
    obtain ⟨htarget, h⟩ := hasAt_append.1 h
    rw [length_append, ← Nat.add_assoc]
    refine bind_some (he t .pointer _ ht.1 htarget (by omega)) ?_
    exact after h kind_eq fun h => he i j _ ht.2 h (by omega)

theorem reads_within (fuel : Nat) : Reads R code numbers (expressionWithin code fuel) fuel := by
  induction fuel with
  | zero =>
    intro n k p _ _ hb
    obtain ⟨m, hm⟩ := n.fuel_succ hb
    omega
  | succ fuel ih => exact fun n k p ht h hb => ih.expression n k ht h hb

theorem reads_any (bound : Nat) : Reads R code numbers (anyExpression code) bound := by
  intro n k p ht h _
  have hsize : (n.code numbers).length ≤ code.size - p := by
    obtain ⟨op, rest, hcode, -⟩ := n.code_head numbers
    have := h.le_size (by rw [hcode]; simp)
    omega
  exact reads_within (code.size - p) n k p ht h hsize

end Scan

/-! ### Statements -/

/-- Where a statement that ends at a position may jump to. -/
def Instr.target? (e : Nat) : Instr → Option Nat
  | .conditional _ d | .forward d => some (e + d)
  | .back d => some (e - d)
  | _ => none

namespace Scan

variable {p : Nat} {R : Rules} {W : Kind → Nat → Prop} {numbers : String → Nat}

theorem statement_of_operands {target? : Option Nat} {stop : Nat} (hop : code[p]? = some op.code)
    (h : operands code op (p + 1) = some (target?, stop)) : statement code p = some ⟨op, p, stop, target?⟩ := by
  simp [statement, opcode_eq hop, h]

/-- A statement that goes on behind its operands. -/
theorem proceeds {q : Nat} (h : r p = some ((), q)) :
    (r >>= fun _ => (pure none : Scan (Option Nat))) p = some (none, q) := bind_some h rfl

/-- The statement of a line is found where the line starts. -/
theorem statement_eq (i : Instr) (ht : i.Typed R W) (hnear : i.Near) (hleap : ∀ l, i ≠ .leap l)
    (h : HasAt code p (i.code numbers)) (hback : ∀ d, i = .back d → headerSize + d ≤ p + (i.code numbers).length) :
    statement code p = some ⟨i.opcode, p, p + (i.code numbers).length, i.target? (p + (i.code numbers).length)⟩ := by
  have he (bound : Nat) : Reads R code numbers (anyExpression code) bound := reads_any bound
  rw [Instr.code_eq] at h ⊢
  rw [length_cons, Nat.add_comm _ 1, ← Nat.add_assoc]
  obtain ⟨hop, h⟩ := hasAt_cons.1 h
  refine statement_of_operands hop ?_
  cases i with
  | assign k a v =>
    refine proceeds (after h kind_eq fun h => ?_)
    obtain ⟨ha, hv⟩ := hasAt_append.1 h
    rw [length_append, ← Nat.add_assoc]
    exact bind_some (word_eq ha) (he _ v k _ ht.2 hv (Nat.le_refl _))
  | assignProperty k t d op v =>
    refine proceeds (after h kind_eq fun h => ?_)
    obtain ⟨htarget, h⟩ := hasAt_append.1 h
    obtain ⟨hsymbol, h⟩ := hasAt_append.1 h
    rw [length_append, length_append, ← Nat.add_assoc, ← Nat.add_assoc]
    refine bind_some ((he _).target t ht.1 htarget (Nat.le_refl _)) (bind_some (word_eq hsymbol) ?_)
    exact after h opcode_eq fun h => he _ v k _ ht.2.2 h (Nat.le_refl _)
  | assignSubscript k t j i op v =>
    refine proceeds (after h kind_eq fun h => ?_)
    obtain ⟨htarget, h⟩ := hasAt_append.1 h
    rw [length_append, ← Nat.add_assoc]
    refine bind_some (he _ t .pointer _ ht.1 htarget (Nat.le_refl _)) (after h kind_eq fun h => ?_)
    obtain ⟨hi, h⟩ := hasAt_append.1 h
    rw [length_append, ← Nat.add_assoc]
    refine bind_some (he _ i j _ ht.2.1 hi (Nat.le_refl _)) ?_
    exact after h opcode_eq fun h => he _ v k _ ht.2.2.2 h (Nat.le_refl _)
  | callUnused t d args => exact proceeds ((he _).call t d args ht.1 ht.2.1 ht.2.2 h (Nat.le_refl _))
  | conditional c d =>
    obtain ⟨hc, hd⟩ := hasAt_append.1 h
    refine bind_some (he _ c .bool _ ht hc (Nat.le_refl _)) (bind_some (word_eq hd) ?_)
    rw [min_eq_of_near hnear, Instr.operands, length_append]
    rfl
  | forward d =>
    refine bind_some (word_eq h) ?_
    rw [min_eq_of_near hnear]
    rfl
  | back d =>
    refine bind_some (word_eq h) (bind_some rfl ?_)
    rw [min_eq_of_near hnear]
    exact (if_pos (hback d rfl)).symm ▸ rfl
  | exit => rfl
  | metadata _ | debugDelete _ => exact proceeds (text_eq ht h)
  | debugLine _ | clearedLine => exact bind_some (word_eq h) rfl
  | debugUpdate name k v =>
    obtain ⟨hname, h⟩ := hasAt_append.1 h
    obtain ⟨hk, h⟩ := hasAt_cons.1 h
    refine bind_some (text_eq ht.1 hname) (bind_some (kind_eq hk) ?_)
    refine proceeds (ends (he _ v k _ ht.2 h (Nat.le_refl _)) ?_)
    simp [Instr.operands]
    omega
  | leap l => exact absurd rfl (hleap l)

/-- From a position on code is a row of statements that ends where the code ends. -/
inductive Splits (code : Array UInt8) : Nat → List Stretch → Prop
  | done : Splits code code.size []
  | cons {p : Nat} {st : Stretch} {rest : List Stretch} (h : statement code p = some st)
      (hrest : Splits code st.stop rest) : Splits code p (st :: rest)

end Scan

namespace Line

/-- The statements of lines, from an offset on. -/
def stretches : Nat → List Line → List Scan.Stretch
  | _, [] => []
  | o, l :: rest =>
    ⟨l.instr.opcode, headerSize + o, headerSize + (o + l.size), l.instr.target? (headerSize + (o + l.size))⟩ ::
      stretches (o + l.size) rest

theorem mem_stretches (h : st ∈ stretches o lines) :
    ∃ o' l, At lines o' l ∧ st = ⟨l.instr.opcode, headerSize + (o + o'), headerSize + (o + o' + l.size),
      l.instr.target? (headerSize + (o + o' + l.size))⟩ := by
  induction lines generalizing o with
  | nil => cases h
  | cons l rest ih =>
    obtain rfl | h := mem_cons.1 h
    · exact ⟨0, l, ⟨[], rest, rfl, rfl⟩, rfl⟩
    · obtain ⟨o', x, ⟨pre, post, rfl, rfl⟩, rfl⟩ := ih h
      exact ⟨l.size + extent pre, x, ⟨l :: pre, post, rfl, by simp⟩, by simp only [Nat.add_assoc]⟩

theorem start_mem_stretches (pre post : List Line) (l : Line) (o : Nat) :
    ∃ st ∈ stretches o (pre ++ l :: post), st.start = headerSize + (o + extent pre) := by
  induction pre generalizing o with
  | nil => exact ⟨_, mem_cons_self .., rfl⟩
  | cons x pre ih =>
    obtain ⟨st, hst, hstart⟩ := ih (o + x.size)
    refine ⟨st, mem_cons_of_mem _ hst, ?_⟩
    rw [hstart, extent_cons, Nat.add_assoc]

end Line

namespace Image

variable {g : Regime} {numbers : String → Nat}

section

variable (h : Image g numbers lines code)
include h

theorem statement {l : Line} (hl : At lines o l) :
    Scan.statement code (headerSize + o) = some ⟨l.instr.opcode, headerSize + o, headerSize + (o + l.size),
      l.instr.target? (headerSize + (o + l.size))⟩ := by
  have hscan := Scan.statement_eq l.instr (h.leads.sound l hl.mem).typed (h.near hl) (fun m => h.free m l hl.mem)
    (h.hasAt hl) fun d hd => by
      have hback := (h.leads.lands o l hl (.back d) (by rw [hd]; exact rfl)).1
      rw [Instr.length_code, Nat.add_assoc]
      exact Nat.add_le_add_left hback _
  rwa [Instr.length_code, Nat.add_assoc] at hscan

theorem splits : Scan.Splits code headerSize (stretches 0 lines) := by
  suffices hfrom : ∀ post pre, lines = pre ++ post →
      Scan.Splits code (headerSize + extent pre) (stretches (extent pre) post) from hfrom lines [] rfl
  intro post
  induction post with
  | nil =>
    intro pre hlines
    rw [append_nil] at hlines
    rw [← hlines, ← h.size]
    exact .done
  | cons l rest ih =>
    intro pre hlines
    refine .cons (h.statement ⟨pre, rest, hlines, rfl⟩) ?_
    have hrest := ih (pre ++ [l]) (by rw [hlines, append_assoc]; rfl)
    rw [extent_append] at hrest
    exact hrest

/-- A way on from a statement leads to a statement or to the end. -/
theorem boundary (hr : Reached g (fun _ => False) lines o K) :
    headerSize + o = code.size ∨ ∃ st ∈ stretches 0 lines, st.start = headerSize + o := by
  obtain ⟨pre, post, rfl, rfl, -⟩ := hr
  cases post with
  | nil => exact .inl (by rw [h.size, append_nil])
  | cons l post =>
    obtain ⟨st, hst, hstart⟩ := start_mem_stretches pre post l 0
    exact .inr ⟨st, hst, by rw [hstart, Nat.zero_add]⟩

theorem target {t : Nat} {l : Line} (hl : At lines o l)
    (ht : l.instr.target? (headerSize + (o + l.size)) = some t) : t = code.size ∨ ∃ st ∈ stretches 0 lines, st.start = t := by
  have hlands := h.leads.lands o l hl
  cases hi : l.instr with
  | conditional c d =>
    rw [hi] at ht
    cases ht
    rw [Nat.add_assoc]
    exact h.boundary (hlands (.skip d) (by rw [hi]; exact .inr rfl))
  | forward d =>
    rw [hi] at ht
    cases ht
    rw [Nat.add_assoc]
    exact h.boundary (hlands (.skip d) (by rw [hi]; exact rfl))
  | back d =>
    rw [hi] at ht
    cases ht
    obtain ⟨hle, hreached⟩ := hlands (.back d) (by rw [hi]; exact rfl)
    rw [Nat.add_sub_assoc hle]
    exact h.boundary hreached
  | _ =>
    rw [hi] at ht
    cases ht

end

end Image

namespace Build

variable {disk : Disk} {debug : Bool} {paths : List String} {path : Path} {code : Array UInt8}

/-- Behind its header, built code is a row of whole statements up to its end, and this is how the
machine reads it. No statement is left open, and every jump leads to the first byte of a statement or
to the end of the code. -/
theorem whole_statements (hfile : (path, code) ∈ (run disk debug paths).files)
    (htexts : ∀ x ∈ (session disk debug paths).texts, Clean x)
    (hvoid : ∀ a ∈ (session disk debug paths).asks, a.hasVoidOperand = false) :
    ∃ stretches, Scan.Splits code headerSize stretches ∧
      ∀ st ∈ stretches, headerSize ≤ st.start ∧ st.opcode ≠ .placeholder ∧
        (∀ target, st.target? = some target → target = code.size ∨ ∃ other ∈ stretches, other.start = target) ∧
        ∀ (σ : Type) (host : Host σ) (memory : Memory) (s s' : σ) (a : Signal × Memory) (cursor : Nat),
          Setting.statement ⟨code, memory, host⟩ st.start s = ((.ok a, cursor), s') →
            cursor = st.stop ∨ st.target? = some cursor := by
  obtain ⟨room, lines, himage⟩ := image hfile (Session.proper_of htexts hvoid False.elim)
  refine ⟨stretches 0 lines, himage.splits, fun st hst => ?_⟩
  obtain ⟨o, l, hl, rfl⟩ := mem_stretches hst
  simp only [Nat.zero_add]
  refine ⟨Nat.le_add_right _ _, ?_, fun target => himage.target hl, fun σ host memory s s' a cursor hok => ?_⟩
  · have hfree := fun m => himage.free m l hl.mem
    cases hi : l.instr with
    | leap m => exact absurd hi (hfree m)
    | _ => simp [Instr.opcode]
  · obtain ⟨st, hst, hcursor⟩ := Scan.statement_of_ok hok
    rw [himage.statement hl] at hst
    cases hst
    exact hcursor

/-- The loop is left to the end of the code, and goes back to its condition. -/
theorem whole_statements_countdown :
    ∃ stretches, Scan.Splits countdownCode headerSize stretches ∧
      ∀ st ∈ stretches, headerSize ≤ st.start ∧ st.opcode ≠ .placeholder ∧
        (∀ target, st.target? = some target →
          target = countdownCode.size ∨ ∃ other ∈ stretches, other.start = target) ∧
        ∀ (σ : Type) (host : Host σ) (memory : Memory) (s s' : σ) (a : Signal × Memory) (cursor : Nat),
          Setting.statement ⟨countdownCode, memory, host⟩ st.start s = ((.ok a, cursor), s') →
            cursor = st.stop ∨ st.target? = some cursor :=
  whole_statements mem_countdown clean_countdown solid_countdown

end Build

end HostScript
