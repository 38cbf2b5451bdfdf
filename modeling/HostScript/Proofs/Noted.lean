import HostScript.Proofs.Pieced

/-! The compiler with a record of distances.

The distance of a jump is written as a word wherever the code between is known, long before the
size of the whole is, and one that does not fit is cut off. The compiler is written here once more
so that it notes down each distance along with the word that stands in the code for it. But for the
record it does the same (`Notes`), and what it notes never goes beyond the code that it makes: no
part of the code for a statement is dropped. -/
namespace HostScript

open List Option

variable {bytes : Array UInt8} {body f : Fragment} {location n : Nat} {w : Written}

/-- A distance, and the word that was written for it. -/
structure Written where
  distance : Nat
  word : Nat
  deriving DecidableEq, Repr

/-- Nothing was cut off. -/
def Written.Exact (w : Written) : Prop := w.word = w.distance

/-- A distance within code of a size, cut off at the largest word. -/
structure Written.Fits (w : Written) (size : Nat) : Prop where
  distance : w.distance ≤ size
  word : w.word = min w.distance 65535

theorem Written.Fits.mono (h : w.Fits m) (hle : m ≤ n) : w.Fits n :=
  ⟨Nat.le_trans h.distance hle, h.word⟩

theorem Written.Fits.exact (h : w.Fits n) (hn : n ≤ 65535) : w.Exact := by
  have hdistance := h.distance
  have hword := h.word
  unfold Written.Exact
  omega

/-! ### The compiler -/

/-- Compiling along with a record. -/
abbrev Noting := StateT (List Written) Compiling

namespace Noting

def note (w : Written) : Noting Unit := modify (· ++ [w])

def distance (n : Nat) : Noting Fragment := do
  note ⟨n, Fragment.wordAt (Fragment.distance n).bytes 0⟩
  return .distance n

def fillJump (target : Fragment.Target) (size : Nat) (bytes : Array UInt8) (location : Nat) :
    Noting (Array UInt8) := do
  let bytes := Fragment.fillJump target size bytes location
  note ⟨(Fragment.jumpTo target size location).2, Fragment.wordAt bytes (location + 1)⟩
  return bytes

/-- Fills in every jump of a kind, the last mark first. -/
def resolveJumps (kind : MarkKind) (target : Fragment.Target) (f : Fragment) : Noting Fragment := do
  let bytes ← f.marks.toList.foldrM (fun m bytes =>
    if m.kind = kind then fillJump target f.size bytes m.location else return bytes) f.bytes
  return ⟨bytes, f.marks.filter (·.kind ≠ kind)⟩

def backToStart (code : Fragment) : Noting Fragment := do
  let code := code ++ .opcode .back
  return code ++ (← distance (code.size + 2))

def looped (ctx : Context) (condition : Option Expr) (body : Fragment) : Noting Fragment := do
  match condition with
  | none => backToStart body
  | some e =>
    let code ← Compiling.check ctx fun s => emit s e .bool
    let skipped ← distance (body.size + 3)
    backToStart (.opcode .conditional ++ code ++ skipped ++ body)

def whileCode (ctx : Context) (condition : Expr) (body : Noting Fragment) : Noting Fragment := do
  let constant ← Compiling.known ctx condition
  if constant = some false then return ∅
  let body ← body
  let code ← looped ctx (if constant = some true then none else some condition) body
  let code ← resolveJumps .breakJump .finish code
  resolveJumps .continueJump .start code

def forLoop (ctx : Context) (place : Place) (constant : Option Bool) (condition : Option Expr)
    (step : Option Action) (body : Noting Fragment) : Noting Fragment :=
  if constant = some false then return ∅
  else do
    let body ← body
    let body ← resolveJumps .continueJump .finish body
    let last ← Compiling.optionalAction ctx place step
    let code ← looped ctx (if constant = some true then none else condition) (body ++ last)
    resolveJumps .breakJump .finish code

def inScope (ctx : Context) (c : Noting Fragment) : Noting Fragment := do
  Compiling.enter
  let code ← c
  return code ++ (← Compiling.leave ctx)

def forCode (ctx : Context) (place : Place) (start : Option Action) (condition : Option Expr)
    (step : Option Action) (body : Noting Fragment) : Noting Fragment :=
  inScope ctx do
    let head ← Compiling.optionalAction ctx place start
    let constant ← Compiling.forKnown ctx condition
    let code ← forLoop ctx place constant condition step body
    return head ++ code

def doWhileTail (ctx : Context) (condition : Expr) (body : Fragment) : Noting Fragment := do
  match ← Compiling.known ctx condition with
  | some false => resolveJumps .breakJump .finish body
  | some true =>
    let code ← backToStart body
    resolveJumps .breakJump .finish code
  | none =>
    let code ← Compiling.check ctx fun s => emit s condition .bool
    let code ← backToStart (body ++ .opcode .conditional ++ code ++ .word 3)
    resolveJumps .breakJump .finish code

def doWhileCode (ctx : Context) (body : Noting Fragment) (condition : Expr) : Noting Fragment := do
  let body ← body
  let body ← resolveJumps .continueJump .finish body
  doWhileTail ctx condition body

/-- What stands before the other branch, if there is one. -/
def passOver (body otherwise : Fragment) : Noting Fragment :=
  if otherwise.size = 0 then return body
  else return body ++ .opcode .forward ++ (← distance otherwise.size)

def branchCode (ctx : Context) (condition : Expr) (body otherwise : Noting Fragment) : Noting Fragment := do
  match ← Compiling.known ctx condition with
  | some true => body
  | some false => otherwise
  | none =>
    let condition ← Compiling.check ctx fun s => emit s condition .bool
    let body ← body
    let otherwise ← otherwise
    let body ← passOver body otherwise
    return .opcode .conditional ++ condition ++ (← distance body.size) ++ body ++ otherwise

mutual
def statement (ctx : Context) (place : Place) : Statement → Noting Fragment
  | .importing span path => Compiling.statement ctx place (.importing span path)
  | .global span members => Compiling.statement ctx place (.global span members)
  | .type decl => Compiling.statement ctx place (.type decl)
  | .metadata span text => Compiling.statement ctx place (.metadata span text)
  | .block body => block ctx place body
  | .whileLoop condition body => whileCode ctx condition (block ctx { place with inLoop := true } body)
  | .forLoop start condition step body =>
    forCode ctx place start condition step (block ctx { place with inLoop := true } body)
  | .doWhile body condition => doWhileCode ctx (block ctx { place with inLoop := true } body) condition
  | .branch b => branch ctx place b
  | .action a => Compiling.statement ctx place (.action a)

def block (ctx : Context) (place : Place) : Block → Noting Fragment
  | .mk _ body => inScope ctx (statements ctx { place with nested := true } body ∅)

def branch (ctx : Context) (place : Place) : Branch → Noting Fragment
  | .mk condition body other => branchCode ctx condition (block ctx place body) (otherwise ctx place other)

def otherwise (ctx : Context) (place : Place) : Otherwise → Noting Fragment
  | .nothing => return ∅
  | .branch b => branch ctx place b
  | .block body => block ctx place body

def statements (ctx : Context) (place : Place) : List Statement → Fragment → Noting Fragment
  | [], code => return code
  | s :: rest, code => do
    let more ← statement ctx place s
    statements ctx place rest (code ++ more)
end

end Noting

/-- Compiles a file and gives the distances that are written on the way as well. -/
def Script.noted (ctx : Context) (script : Script) (code : Fragment) (vars : Variables) :
    (Fragment × List Written) × Progress :=
  Noting.statements ctx ⟨false, false⟩ script code [] ⟨vars, #[]⟩

/-- The end of a loop that runs its body before it looks at its condition. -/
def Compiling.doWhileTail (ctx : Context) (condition : Expr) (body : Fragment) : Compiling Fragment := do
  let code ← match ← known ctx condition with
    | some false => pure body
    | some true => pure (backToStart body)
    | none => do
      let code ← check ctx fun s => emit s condition .bool
      pure (backToStart (body ++ .opcode .conditional ++ code ++ .word 3))
  return code.resolveJumps .breakJump .finish

/-! ### Sizes -/

namespace Fragment

theorem size_opcode (op : Opcode) : (opcode op).size = 1 := rfl

theorem size_distance (n : Nat) : (distance n).size = 2 := by simp [size, distance, word, ofBytes]

theorem size_patchWord (bytes : Array UInt8) (location n : Nat) : (patchWord bytes location n).size = bytes.size := by
  simp [patchWord, patchByte]

theorem size_relocateMark (base : Storage) (bytes : Array UInt8) (m : Mark) :
    (relocateMark base bytes m).size = bytes.size := by
  unfold relocateMark
  split
  · rfl
  · exact size_patchWord ..

theorem size_fillJump (target : Target) (size : Nat) (bytes : Array UInt8) (location : Nat) :
    (fillJump target size bytes location).size = bytes.size := by
  unfold fillJump
  rw [size_patchWord]
  simp [patchByte]

theorem size_foldr_fillJump (kind : MarkKind) (target : Target) (f : Fragment) (marks : List Mark) :
    (marks.foldr (fun m bytes =>
      if m.kind = kind then fillJump target f.size bytes m.location else bytes) f.bytes).size = f.size := by
  induction marks with
  | nil => rfl
  | cons m rest ih =>
    rw [foldr_cons]
    split
    · rw [size_fillJump, ih]
    · exact ih

theorem size_resolveJumps (kind : MarkKind) (target : Target) (f : Fragment) :
    (f.resolveJumps kind target).size = f.size := by
  show (f.marks.foldr _ f.bytes).size = _
  rw [← Array.foldr_toList]
  exact size_foldr_fillJump kind target f _

/-- A word that was patched in reads back, as far as it fits into two bytes. -/
theorem wordAt_patchWord_mod (h : location + 2 ≤ bytes.size) (n : Nat) :
    wordAt (patchWord bytes location n) location = n % 65536 := by
  have hlow : (patchWord bytes location n)[location]? = some (UInt8.ofNat n) := by
    unfold patchWord patchByte
    rw [Array.getElem?_setIfInBounds_ne (by omega), Array.getElem?_setIfInBounds_self_of_lt (by omega)]
  have hhigh : (patchWord bytes location n)[location + 1]? = some (UInt8.ofNat (n / 256)) := by
    unfold patchWord patchByte
    rw [Array.getElem?_setIfInBounds_self_of_lt (by rw [Array.size_setIfInBounds]; omega)]
  unfold wordAt
  rw [hlow, hhigh]
  exact Bytes.toNat_ofNat 2 n

theorem wordAt_patchWord (h : location + 2 ≤ bytes.size) (hn : n ≤ 65535) :
    wordAt (patchWord bytes location n) location = n :=
  (wordAt_patchWord_mod h n).trans (Nat.mod_eq_of_lt (by omega))

theorem wordAt_distance (n : Nat) : wordAt (distance n).bytes 0 = min n 65535 :=
  (Bytes.toNat_ofNat 2 (min n 65535)).trans (Nat.mod_eq_of_lt (by omega))

/-- A mark for a jump has the jump behind it. -/
theorem le_of_mem_marksFrom {l : Leap} {m : Mark} (h : m ∈ Piece.marksFrom o ps) (hkind : m.kind = l.mark) :
    m.location + 3 ≤ o + (Piece.bytesOf ps).length := by
  induction ps generalizing o with
  | nil => cases h
  | cons p rest ih =>
    rw [Piece.bytesOf_cons, length_append]
    obtain h | h := mem_append.1 h
    · obtain ⟨kind, hp, rfl⟩ := map_eq_some_iff.1 (mem_toList.1 h)
      have hleap : p.bytes.length = 3 := by
        cases p with
        | leap _ => rfl
        | raw _ => cases hp
        | place isString _ =>
          cases hp
          cases isString <;> cases l <;> cases hkind
        | symbol _ | line _ =>
          cases hp
          cases l <;> cases hkind
      show o + 3 ≤ _
      omega
    · have hrest := ih h
      unfold Piece.size at hrest
      omega

theorem Pieced.le_size (hf : f.Pieced) {l : Leap} {m : Mark} (h : m ∈ f.marks.toList) (hkind : m.kind = l.mark) :
    m.location + 3 ≤ f.size := by
  obtain ⟨ps, rfl⟩ := hf
  have hle : m.location + 3 ≤ 0 + (Piece.bytesOf ps).length := le_of_mem_marksFrom (by simpa [ofPieces] using h) hkind
  rw [size_ofPieces]
  omega

end Fragment

open Fragment

/-! ### Both compilers -/

section Notes

variable {α β : Type} {size : α → Nat} {size' : β → Nat} {P : α → Prop}

/-- But for the record both do the same, and what is recorded on the way is within the size of the result. -/
def Notes (size : α → Nat) (x : Noting α) (c : Compiling α) : Prop :=
  ∀ log p, ∃ more, x log p = (((c p).1, log ++ more), (c p).2) ∧ ∀ w ∈ more, w.Fits (size (c p).1)

theorem notes_lift (c : Compiling α) : Notes size (liftM c) c := fun log p =>
  ⟨[], by rw [append_nil]; rfl, by simp⟩

theorem notes_pure (a : α) : Notes size (pure a) (pure a) := notes_lift (pure a)

/-- One part behind another, where what comes of both is at least as large as what comes of the first. -/
theorem Notes.bind {f : α → Noting β} {g : α → Compiling β} (h : Notes size x c) (hc : Always c P)
    (hf : ∀ a, P a → Notes size' (f a) (g a)) (hle : ∀ a, P a → Always (g a) (size a ≤ size' ·)) :
    Notes size' (x >>= f) (c >>= g) := by
  intro log p
  obtain ⟨more, hx, hmore⟩ := h log p
  obtain ⟨rest, hfa, hrest⟩ := hf _ (hc p) (log ++ more) (c p).2
  refine ⟨more ++ rest, ?_, fun w hw => ?_⟩
  · rw [← List.append_assoc]
    show f (x log p).1.1 (x log p).1.2 (x log p).2 = _
    rw [hx]
    exact hfa
  · obtain hw | hw := List.mem_append.1 hw
    · exact (hmore w hw).mono (hle _ (hc p) _)
    · exact hrest w hw

/-- What the compiler itself does before. -/
theorem Notes.behind {f : α → Noting β} {g : α → Compiling β} (hc : Always c P)
    (hf : ∀ a, P a → Notes size' (f a) (g a)) : Notes size' (liftM c >>= f) (c >>= g) :=
  have hlift : Notes (fun _ => 0) (liftM c) c := notes_lift c
  hlift.bind hc hf fun _ _ _ => Nat.zero_le _

theorem Notes.after (c : Compiling α) {f : α → Noting β} {g : α → Compiling β} (hf : ∀ a, Notes size' (f a) (g a)) :
    Notes size' (liftM c >>= f) (c >>= g) :=
  .behind (P := fun _ => True) (fun _ => trivial) fun a _ => hf a

/-- What is noted down on the way to a result that does not depend on it. -/
theorem Notes.step {f : α → Noting β} (h : Notes size x (pure a)) (hf : Notes size' (f a) g)
    (hle : Always g (size a ≤ size' ·)) : Notes size' (x >>= f) g :=
  h.bind (P := (· = a)) (g := fun _ => g) (fun _ => rfl) (fun _ hb => hb ▸ hf) fun _ hb => hb ▸ hle

end Notes

namespace Noting

variable {ctx : Context}

theorem notes_note (h : w.Fits n) : Notes (fun _ => n) (note w) (pure ()) := fun log p =>
  ⟨[w], rfl, by simpa using h⟩

/-- A distance within what it is written for. -/
theorem notes_distance (h : n ≤ m) : Notes (fun _ => m) (distance n) (pure (.distance n)) :=
  (notes_note ⟨h, wordAt_distance n⟩).step (notes_pure _) fun _ => Nat.le_refl _

theorem notes_fillJump {target : Fragment.Target} {size : Nat} (hsize : bytes.size = size) (h : location + 3 ≤ size) :
    Notes (fun _ => size) (fillJump target size bytes location) (pure (Fragment.fillJump target size bytes location)) := by
  refine (notes_note ⟨?_, ?_⟩).step (notes_pure _) fun _ => Nat.le_refl _
  · cases target with
    | start => exact h
    | finish => exact Nat.sub_le _ _
  · exact wordAt_patchWord (by simp [patchByte, hsize]; omega) (Nat.min_le_right _ _)

theorem notes_resolveJumps (hf : f.Pieced) (l : Leap) (target : Fragment.Target) :
    Notes Fragment.size (resolveJumps l.mark target f) (pure (f.resolveJumps l.mark target)) := by
  have hall : ∀ marks : List Mark, (∀ m ∈ marks, m.kind = l.mark → m.location + 3 ≤ f.size) →
      Notes (fun _ => f.size) (marks.foldrM (fun m bytes =>
          if m.kind = l.mark then fillJump target f.size bytes m.location else return bytes) f.bytes)
        (pure (marks.foldr (fun m bytes =>
          if m.kind = l.mark then Fragment.fillJump target f.size bytes m.location else bytes) f.bytes)) := by
    intro marks hmarks
    induction marks with
    | nil => exact notes_pure _
    | cons m rest ih =>
      rw [List.foldrM_cons, List.foldr_cons]
      refine (ih fun m hm => hmarks m (List.mem_cons_of_mem _ hm)).step ?_ fun _ => Nat.le_refl _
      split
      · rename_i hkind
        exact notes_fillJump (size_foldr_fillJump _ _ _ _) (hmarks m (List.mem_cons_self ..) hkind)
      · exact notes_pure _
  refine (hall f.marks.toList fun m hm => hf.le_size hm).step ?_ fun _ => ?_
  · rw [Array.foldr_toList]
    exact notes_pure _
  · exact Nat.le_of_eq (size_resolveJumps l.mark target f).symm

/-! #### Loops and branches -/

theorem always_le_looped (condition : Option Expr) (body : Fragment) :
    Always (Compiling.looped ctx condition body) (body.size ≤ ·.size) := by
  unfold Compiling.looped
  split
  · refine always_pure ?_
    simp only [Compiling.backToStart, size_append]
    omega
  · refine .after _ fun code => always_pure ?_
    simp only [Compiling.backToStart, size_append]
    omega

theorem notes_backToStart (f : Fragment) : Notes Fragment.size (backToStart f) (pure (Compiling.backToStart f)) := by
  refine (notes_distance (Nat.le_refl _)).step (notes_pure _) (always_pure ?_)
  simp only [Compiling.backToStart, size_append, size_distance, Nat.le_refl]

theorem notes_looped (condition : Option Expr) (body : Fragment) :
    Notes Fragment.size (looped ctx condition body) (Compiling.looped ctx condition body) := by
  cases condition with
  | none => exact notes_backToStart body
  | some e =>
    refine Notes.after _ fun code =>
      (notes_distance (Nat.le_refl _)).step (notes_backToStart _) (always_pure ?_)
    simp only [Compiling.backToStart, size_append, size_opcode, size_distance]
    omega

/-- The last jumps of a loop are filled in once it is complete. -/
theorem notes_finishLoop (condition : Option Expr) (hbody : body.Naming fun _ => True) (l : Leap)
    (target : Fragment.Target) : Notes Fragment.size (looped ctx condition body >>= resolveJumps l.mark target)
      (Compiling.looped ctx condition body >>= fun code => pure (code.resolveJumps l.mark target)) :=
  (notes_looped condition body).bind (always_naming _)
    (fun _ hcode => notes_resolveJumps hcode.pieced l target)
    fun code _ => always_pure (Nat.le_of_eq (size_resolveJumps l.mark target code).symm)

theorem always_le_finishLoop (condition : Option Expr) (body : Fragment) (l : Leap) (target : Fragment.Target) :
    Always (Compiling.looped ctx condition body >>= fun code => pure (code.resolveJumps l.mark target))
      (body.size ≤ ·.size) :=
  (always_le_looped condition body).bind fun code hle => always_pure (by rwa [size_resolveJumps])

section Control

variable {x y : Noting Fragment} {c d : Compiling Fragment}

theorem notes_whileCode (condition : Expr) (h : Notes Fragment.size x c) (hc : Always c (Naming fun _ => True)) :
    Notes Fragment.size (whileCode ctx condition x) (Compiling.whileCode ctx condition c) := by
  refine Notes.after _ fun constant => ?_
  split
  · exact notes_pure _
  · refine h.bind hc (fun body hbody => ?_) fun body _ => ?_
    · refine (notes_looped _ body).bind (always_naming _) (fun code hcode => ?_) fun code _ => ?_
      · exact (notes_resolveJumps hcode.pieced .breaks _).step
          (notes_resolveJumps (hcode.resolveJumps .breaks _).pieced .continues _)
          (always_pure (Nat.le_of_eq (size_resolveJumps ..).symm))
      · exact always_pure (by simp only [size_resolveJumps, Nat.le_refl])
    · exact (always_le_looped _ body).bind fun code hle => always_pure (by simpa only [size_resolveJumps] using hle)

theorem notes_forLoop (place : Place) (constant : Option Bool) (condition : Option Expr) (step : Option Action)
    (h : Notes Fragment.size x c) (hc : Always c (Naming fun _ => True)) :
    Notes Fragment.size (forLoop ctx place constant condition step x)
      (Compiling.forLoop ctx place constant condition step c) := by
  unfold forLoop Compiling.forLoop
  split
  · exact notes_pure _
  · have hrest : ∀ body : Fragment, Always (Compiling.optionalAction ctx place step >>= fun last => do
        let code ← Compiling.looped ctx (if constant = some true then none else condition) (body ++ last)
        return code.resolveJumps .breakJump .finish) (body.size ≤ ·.size) := fun body =>
      .after _ fun last => (always_le_finishLoop _ (body ++ last) .breaks _).bind fun code hle =>
        always_pure (Nat.le_trans (by rw [size_append]; omega) hle)
    refine h.bind hc (fun body hbody => ?_) fun body _ => ?_
    · refine (notes_resolveJumps hbody.pieced .continues _).step ?_ (hrest _)
      exact Notes.behind (always_naming _) fun last hlast =>
        notes_finishLoop _ ((hbody.resolveJumps .continues _).append hlast) .breaks _
    · have hle := hrest (body.resolveJumps .continueJump .finish)
      rwa [size_resolveJumps] at hle

theorem notes_inScope (h : Notes Fragment.size x c) :
    Notes Fragment.size (inScope ctx x) (Compiling.inScope ctx c) := by
  refine Notes.after _ fun _ => ?_
  refine h.bind (P := fun _ => True) (fun _ => trivial) (fun code _ => ?_) fun code _ => ?_
  · exact Notes.after _ fun _ => notes_pure _
  · exact .after _ fun more => always_pure (by rw [size_append]; omega)

theorem notes_forCode (place : Place) (start : Option Action) (condition : Option Expr) (step : Option Action)
    (h : Notes Fragment.size x c) (hc : Always c (Naming fun _ => True)) :
    Notes Fragment.size (forCode ctx place start condition step x)
      (Compiling.forCode ctx place start condition step c) := by
  rw [Compiling.forCode_eq]
  refine notes_inScope (Notes.after _ fun head =>
    Notes.after _ fun constant => ?_)
  refine (notes_forLoop place constant condition step h hc).bind (P := fun _ => True) (fun _ => trivial)
    (fun code _ => notes_pure _) fun code _ => always_pure ?_
  rw [size_append]
  omega

theorem notes_doWhileTail (condition : Expr) (hbody : body.Naming fun _ => True) :
    Notes Fragment.size (doWhileTail ctx condition body) (Compiling.doWhileTail ctx condition body) := by
  have hback : ∀ code : Fragment, (code.Naming fun _ => True) → Notes Fragment.size
      (backToStart code >>= resolveJumps .breakJump .finish)
      (pure ((Compiling.backToStart code).resolveJumps .breakJump .finish)) := fun code hcode =>
    (notes_backToStart code).step (notes_resolveJumps (@Compiling.naming_backToStart _ _ hcode).pieced .breaks _)
      (always_pure (Nat.le_of_eq (size_resolveJumps ..).symm))
  refine Notes.after _ fun constant => ?_
  split
  · exact notes_resolveJumps hbody.pieced .breaks _
  · exact hback _ hbody
  · refine Notes.behind (always_naming _) fun code hcode => ?_
    exact hback _ inferInstance

theorem always_le_doWhileTail (condition : Expr) (body : Fragment) :
    Always (Compiling.doWhileTail ctx condition body) (body.size ≤ ·.size) := by
  refine .after _ fun constant => ?_
  split
  · exact always_pure (Nat.le_of_eq (size_resolveJumps ..).symm)
  · refine always_pure ?_
    simp only [size_resolveJumps, Compiling.backToStart, size_append]
    omega
  · refine .after _ fun code => always_pure ?_
    simp only [size_resolveJumps, Compiling.backToStart, size_append]
    omega

theorem notes_doWhileCode (condition : Expr) (h : Notes Fragment.size x c) (hc : Always c (Naming fun _ => True)) :
    Notes Fragment.size (doWhileCode ctx x condition) (Compiling.doWhileCode ctx c condition) := by
  refine h.bind hc (fun body hbody => ?_) fun body _ => ?_
  · exact (notes_resolveJumps hbody.pieced .continues _).step (notes_doWhileTail condition (hbody.resolveJumps .continues _))
      (always_le_doWhileTail condition _)
  · have hle : Always (Compiling.doWhileTail ctx condition (body.resolveJumps .continueJump .finish))
        ((body.resolveJumps .continueJump .finish).size ≤ ·.size) := always_le_doWhileTail condition _
    rwa [size_resolveJumps] at hle

theorem notes_passOver (body otherwise : Fragment) : Notes (fun f => f.size + otherwise.size) (passOver body otherwise)
      (pure (if otherwise.size = 0 then body else body ++ .opcode .forward ++ .distance otherwise.size)) := by
  unfold passOver
  split
  · exact notes_pure _
  · exact (notes_distance (Nat.le_refl _)).step (notes_pure _) (always_pure (Nat.le_add_left _ _))

theorem notes_branchCode (condition : Expr) (h : Notes Fragment.size x c) (h' : Notes Fragment.size y d) :
    Notes Fragment.size (branchCode ctx condition x y) (Compiling.branchCode ctx condition c d) := by
  refine Notes.after _ fun constant => ?_
  split
  · exact h
  · exact h'
  · refine Notes.after _ fun test => ?_
    have hsize : ∀ body otherwise : Fragment, body.size + otherwise.size ≤
        (Fragment.opcode .conditional ++ test ++ .distance body.size ++ body ++ otherwise).size := by
      intro body otherwise
      simp only [size_append]
      omega
    have hover : ∀ body otherwise : Fragment, body.size ≤
        (if otherwise.size = 0 then body else body ++ .opcode .forward ++ .distance otherwise.size).size := by
      intro body otherwise
      split
      · exact Nat.le_refl _
      · simp only [size_append]
        omega
    refine h.bind (P := fun _ => True) (fun _ => trivial) (fun body _ => ?_) fun body _ => ?_
    · refine h'.bind (P := fun _ => True) (fun _ => trivial) (fun otherwise _ => ?_) fun otherwise _ => ?_
      · refine (notes_passOver body otherwise).step ?_ (always_pure (hsize _ _))
        exact (notes_distance (Nat.le_refl _)).step (notes_pure _)
          (always_pure (Nat.le_trans (Nat.le_add_right _ _) (hsize _ _)))
      · exact always_pure (Nat.le_trans (Nat.le_add_left _ _) (hsize _ _))
    · exact .after _ fun otherwise => always_pure
        (Nat.le_trans (hover body otherwise) (Nat.le_trans (Nat.le_add_right _ _) (hsize _ _)))

end Control

/-! #### Statements -/

theorem always_le_statements (place : Place) (ss : List Statement) (code : Fragment) :
    Always (Compiling.statements ctx place ss code) (code.size ≤ ·.size) := by
  induction ss generalizing code with
  | nil =>
    exact always_pure (Nat.le_refl _)
  | cons s rest ih =>
    refine .after _ fun more p => Nat.le_trans ?_ (ih (code ++ more) p)
    rw [size_append]
    omega

mutual
theorem notes_statement (place : Place) : (s : Statement) →
    Notes Fragment.size (statement ctx place s) (Compiling.statement ctx place s)
  | .importing _ _ | .global _ _ | .type _ | .metadata _ _ | .action _ => notes_lift _
  | .block body => notes_block place body
  | .whileLoop condition body => notes_whileCode condition (notes_block _ body) (always_naming _)
  | .forLoop start condition step body =>
    notes_forCode place start condition step (notes_block _ body) (always_naming _)
  | .doWhile body condition => notes_doWhileCode condition (notes_block _ body) (always_naming _)
  | .branch b => notes_branch place b

theorem notes_block (place : Place) : (b : Block) →
    Notes Fragment.size (block ctx place b) (Compiling.block ctx place b)
  | .mk _ body => notes_inScope (notes_statements _ body ∅)

theorem notes_branch (place : Place) : (b : Branch) →
    Notes Fragment.size (branch ctx place b) (Compiling.branch ctx place b)
  | .mk condition body other => notes_branchCode condition (notes_block place body) (notes_otherwise place other)

theorem notes_otherwise (place : Place) : (o : Otherwise) →
    Notes Fragment.size (otherwise ctx place o) (Compiling.otherwise ctx place o)
  | .nothing => notes_pure _
  | .branch b => notes_branch place b
  | .block body => notes_block place body

theorem notes_statements (place : Place) : (ss : List Statement) → (code : Fragment) →
    Notes Fragment.size (statements ctx place ss code) (Compiling.statements ctx place ss code)
  | [], code => notes_pure _
  | s :: rest, code => by
    refine (notes_statement place s).bind (P := fun _ => True) (fun _ => trivial)
      (fun more _ => notes_statements place rest (code ++ more)) fun more _ p => ?_
    refine Nat.le_trans ?_ (always_le_statements place rest (code ++ more) p)
    rw [size_append]
    omega
end

end Noting

/-- The record of a file is about nothing but its code, and is all that there is besides. -/
theorem Script.noted_eq (ctx : Context) (script : Script) (code : Fragment) (vars : Variables) :
    ∃ log, script.noted ctx code vars = (((script.compile ctx code vars).1, log), (script.compile ctx code vars).2) ∧
      ∀ w ∈ log, w.Fits (script.compile ctx code vars).1.size :=
  Noting.notes_statements _ script code [] ⟨vars, #[]⟩

end HostScript
