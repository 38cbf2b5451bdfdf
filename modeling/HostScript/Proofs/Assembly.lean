import HostScript.Proofs.Files
import HostScript.Proofs.Parsed

/-! The final code of files.

A file that was compiled without a problem has assembled code, whatever it imports:
the induction is on how the result was built. With a header in front and numbers for
the members of the host it is an `Image`, and that is all a run needs to know. -/
namespace HostScript

open Line List

variable {final : Array UInt8} {code : Fragment} {symbols : Fragment.Symbols} {bits tracked : Prop} {g : Regime} {s : Session}
  {l l' : Linked} {imports : List Nat} {o : Nat} {script : Script}

namespace Session

/-! ### What files say -/

def texts (s : Session) : List String := (s.units.toList.filterMap (·.script)).flatMap Script.texts

/-- What a file asks code for and the variables it has, behind the files that it imports. -/
def survey? (s : Session) (i : Nat) : Option Survey := do
  let u ← s.units[i]?
  let script ← u.script
  let l ← s.linked? u.imports
  return script.survey (s.api i) l.vars

def surveys (s : Session) : List Survey := (List.range s.units.size).filterMap s.survey?

/-- All expressions that code is made for. -/
def asks (s : Session) : List Ask := s.surveys.flatMap (·.asks)

/-- What files must keep to for their code to be sound. -/
structure Proper (bits tracked : Prop) (s : Session) : Prop where
  texts : ∀ x ∈ s.texts, Clean x
  survey : ∀ v ∈ s.surveys, v.Proper bits tracked

variable {i : Nat} {u : FileUnit}

theorem Orderly.formed_script (h : Orderly s) (hu : s.units[i]? = some u) (hscript : u.script = some script) :
    script.Formed := by
  obtain ⟨n, text, hparse⟩ := h.read i u hu script hscript
  exact Script.formed_of_parse hparse

theorem Orderly.formed_api (h : Orderly s) (i : Nat) : (s.api i).Formed := by
  refine Api.formed_ofScripts fun script hmem => ?_
  obtain ⟨j, -, hj⟩ := mem_filterMap.1 hmem
  obtain ⟨u, hu, hscript⟩ := Option.bind_eq_some_iff.1 hj
  exact h.formed_script hu hscript

theorem Proper.clean (h : Proper bits tracked s) (hu : s.units[i]? = some u) (hscript : u.script = some script)
    (hx : x ∈ script.texts) : Clean x := by
  have hmem : u ∈ s.units.toList := Array.mem_toList_iff.2 (Array.mem_of_getElem? hu)
  exact h.texts x (mem_flatMap.2 ⟨script, mem_filterMap.2 ⟨u, hmem, hscript⟩, hx⟩)

/-- Variables matter only where pointers are looked at. -/
theorem proper_of (htexts : ∀ x ∈ s.texts, Clean x) (hvoid : ∀ a ∈ s.asks, a.hasVoidOperand = false)
    (hloose : tracked → ∀ v ∈ s.surveys, v.Sparing) : Proper (∃ a ∈ s.asks, a.wantsFloatBits = true) tracked s := by
  refine ⟨htexts, fun v hv => ⟨fun a ha => ?_, fun ht => (hloose ht v hv).respects⟩⟩
  have hmem : a ∈ s.asks := mem_flatMap.2 ⟨v, hv, ha⟩
  exact ⟨hvoid a hmem, fun hbits => ⟨a, hmem, hbits⟩⟩

/-! ### Assembled files -/

/-- The storage that a file needs is within what addresses reach. -/
def Addressable (room : Storage) : Prop := room.bytes ≤ Storage.limit ∧ room.slots ≤ Storage.limit

theorem Addressable.mono (h : Addressable room') (hle : room.Le room') :
    Addressable room := ⟨Nat.le_trans hle.bytes h.1, Nat.le_trans hle.slots h.2⟩

theorem needed_add (l : Linked) (code : Fragment) (vars : Variables) :
    (l.add code vars).vars.needed = l.vars.needed + vars.needed := rfl

theorem inUse_add (l : Linked) (code : Fragment) (vars : Variables) :
    (l.add code vars).vars.inUse = (l.add code vars).vars.needed := rfl

section

variable (h : s.linkedFrom? l imports = some l')
include h

theorem needed_linkedFrom : l.vars.needed.Le l'.vars.needed := by
  induction imports generalizing l with
  | nil =>
    cases h
    exact .refl _
  | cons j rest ih =>
    rw [linkedFrom_cons] at h
    obtain ⟨r, -, hrest⟩ := Option.bind_eq_some_iff.1 h
    exact (Storage.le_add _ _).trans (ih hrest)

/-- What holds of nothing and of one more file holds of files that are imported one after the other. -/
theorem linkedFrom_induction {motive : Linked → Prop} (haddr : Addressable l'.vars.needed) (hl : motive l)
    (hadd : ∀ {m j code vars}, j ∈ imports → s.result? j = some (code, vars) →
      (m.vars.needed + vars.needed).Le l'.vars.needed → Addressable (m.vars.needed + vars.needed) →
      Addressable vars.needed → motive m → motive (m.add code vars)) : motive l' := by
  induction imports generalizing l with
  | nil =>
    cases h
    exact hl
  | cons j rest ih =>
    rw [linkedFrom_cons] at h
    obtain ⟨⟨code, vars⟩, hj, hrest⟩ := Option.bind_eq_some_iff.1 h
    have hle : (l.vars.needed + vars.needed).Le l'.vars.needed := needed_linkedFrom hrest
    have hlimit := haddr.mono hle
    exact ih hrest (hadd (mem_cons_self ..) hj hle hlimit (hlimit.mono (Storage.le_add_left _ _)) hl)
      fun hk => hadd (mem_cons_of_mem _ hk)

/-- Files that are imported one after the other. -/
theorem assembled_linkedFrom (hl : Assembled g l.code l.vars)
    (hfull : l.vars.inUse = l.vars.needed) (hroom : l'.vars.needed.Le g.room) (haddr : Addressable l'.vars.needed)
    (himports : ∀ j ∈ imports, ∀ code vars, s.result? j = some (code, vars) → Addressable vars.needed →
      Assembled ⟨vars.needed, g.floatBits, g.tracked⟩ code vars) :
    Assembled g l'.code l'.vars ∧ l'.vars.inUse = l'.vars.needed := by
  refine linkedFrom_induction (motive := fun l => Assembled g l.code l.vars ∧ l.vars.inUse = l.vars.needed) h haddr
    ⟨hl, hfull⟩ fun hj hresult hle hlimit hown hm => ?_
  exact ⟨hm.1.add (himports _ hj _ _ hresult hown) (hle.trans hroom) hlimit.1 hlimit.2, inUse_add ..⟩

end

theorem needed_compile (h : script.compile ctx l.code.zeroLines l.vars = (code, progress)) :
    l.vars.needed.Le progress.vars.needed := by
  have hgrows : l.vars.needed.Le (script.compile ctx l.code.zeroLines l.vars).2.vars.needed :=
    (Compiling.keeps_statements ⟨false, false⟩ script l.code.zeroLines).needs ⟨l.vars, #[]⟩
  rwa [h] at hgrows

theorem Built.assembled (ho : Orderly s) (hp : Proper bits tracked s) (hi : Built s i)
    (hresult : s.result? i = some (code, vars)) (haddr : Addressable vars.needed) :
    Assembled ⟨vars.needed, bits, tracked⟩ code vars := by
  induction hi generalizing code vars with
  | @intro i u script sources l code' vars' hunit hscript _ hlinked himports hcompile hresult' ih =>
    rw [result?, hunit] at hresult
    obtain ⟨rfl, rfl⟩ := Prod.mk.inj (Option.some.inj (hresult.symm.trans hresult'))
    have hle : l.vars.needed.Le vars.needed := needed_compile hcompile
    have hnested := Statement.nested_surveyAll (s.api i) script
    have hsurvey : script.survey (s.api i) l.vars ∈ s.surveys := by
      refine mem_filterMap.2 ⟨i, mem_range.2 (Array.getElem?_eq_some_iff.1 hunit).1, ?_⟩
      simp [survey?, hunit, hscript, hlinked]
    -- the storage that the survey finds is the storage that the file needs, but that is known only later
    obtain ⟨hl, hfull⟩ := assembled_linkedFrom hlinked
      (.empty ⟨(Statement.surveyAll (s.api i) script l.vars).2.needed, bits, tracked⟩) rfl
      (hnested.needed l.vars) (haddr.mono hle) fun j hj _ _ => ih j hj
    have hproper := hp.survey _ hsurvey
    obtain ⟨hvars, -⟩ := hl.own hfull (ho.formed_api i) (ho.formed_script hunit hscript)
      (fun x => hp.clean hunit hscript) rfl hproper hcompile
    have hassembled := hl.compile hfull (ho.formed_api i) (ho.formed_script hunit hscript)
      (fun x => hp.clean hunit hscript) rfl hproper hcompile
    rwa [← hvars] at hassembled

end Session

/-! ### Images -/

open Code

def Line.bytes (numbers : String → Nat) (lines : List Line) : List UInt8 :=
  lines.flatMap fun l => l.instr.code numbers

/-- Code with a header that asks for some storage, and behind it lines that can start on storage
that is still empty. -/
structure Image (g : Regime) (numbers : String → Nat) (lines : List Line) (code : Array UInt8) : Prop where
  layout : code.toList =
    Bytes.ofNat 2 g.room.bytes ++ Bytes.ofNat 2 g.room.slots ++ Line.bytes numbers lines
  addressable : Session.Addressable g.room
  small : code.size ≤ maxCodeSize
  leads : Leads g (fun _ => True) lines fun _ => False
  free : ∀ m, Line.Free m lines

theorem Line.final_pieces (numbers : String → Nat) (lines : List Line) :
    Piece.final numbers (lines.flatMap fun l => l.instr.pieces) = bytes numbers lines := by
  induction lines with
  | nil => rfl
  | cons l rest ih =>
    rw [flatMap_cons, Piece.final_append, ih]
    rfl

theorem Line.bytes_resolveSymbols (symbols : Fragment.Symbols) (lines : List Line) :
    ((Line.code lines).resolveSymbols symbols).bytes.toList = bytes symbols.number lines := by
  rw [Line.code, Fragment.bytes_resolveSymbols_ofPieces]
  exact final_pieces symbols.number lines

theorem Instr.length_code (numbers : String → Nat) (i : Instr) : (i.code numbers).length = i.size := by
  unfold Instr.code Instr.size Piece.final
  induction i.pieces with
  | nil => rfl
  | cons p ps ih =>
    rw [map_cons, Piece.bytesOf_cons, Piece.bytesOf_cons, length_append, length_append, ih]
    cases p <;> simp [Piece.resolve, Piece.bytes]

theorem Line.length_bytes (numbers : String → Nat) (lines : List Line) :
    (bytes numbers lines).length = extent lines := by
  induction lines with
  | nil => rfl
  | cons l rest ih =>
    rw [bytes, flatMap_cons, length_append, Instr.length_code]
    exact congrArg (l.size + ·) ih

theorem Line.bytes_append (numbers : String → Nat) (as bs : List Line) :
    bytes numbers (as ++ bs) = bytes numbers as ++ bytes numbers bs := flatMap_append

namespace Image

variable {numbers : String → Nat} {lines : List Line} {code : Array UInt8}

theorem size (h : Image g numbers lines code) : code.size = headerSize + extent lines := by
  rw [← Array.length_toList, h.layout, length_append, length_bytes]
  rfl

/-- Each line stands where the lines before it end. -/
theorem hasAt (h : Image g numbers lines code) {l : Line} (hl : At lines o l) :
    HasAt code (headerSize + o) (l.instr.code numbers) := by
  obtain ⟨pre, post, rfl, rfl⟩ := hl
  have hat : HasAt code 0 (Bytes.ofNat 2 g.room.bytes ++ Bytes.ofNat 2 g.room.slots ++
      (bytes numbers pre ++ (l.instr.code numbers ++ bytes numbers post))) := by
    rw [HasAt, h.layout, bytes_append]
    exact prefix_rfl
  have hline := (hasAt_append.1 (hasAt_append.1 (hasAt_append.1 hat).2).2).1
  rwa [length_bytes] at hline

theorem reached_le (h : Reached g out lines o K) : o ≤ extent lines := by
  obtain ⟨pre, post, rfl, rfl, -⟩ := h
  simp

/-- No jump is too far for a word. -/
theorem near (h : Image g numbers lines code) {l : Line} (hl : At lines o l) : l.instr.Near := by
  have hlands := h.leads.lands o l hl
  have hle := hl.le
  have hextent : extent lines < 256 ^ 2 := by
    have := h.small
    rw [h.size, headerSize, maxCodeSize] at this
    omega
  cases hi : l.instr with
  | conditional c d =>
    have hskip := reached_le (hlands (.skip d) (by rw [hi]; exact .inr rfl))
    show d < 256 ^ 2
    omega
  | forward d =>
    have hskip := reached_le (hlands (.skip d) (by rw [hi]; exact rfl))
    show d < 256 ^ 2
    omega
  | back d =>
    have hback := (hlands (.back d) (by rw [hi]; exact rfl)).1
    show d < 256 ^ 2
    omega
  | _ => trivial

end Image

namespace Session

variable {i : Nat}

/-- What a file with final code is made of. -/
theorem bytecode_eq (h : s.bytecode? i symbols = some final) :
    ∃ code vars, s.result? i = some (code, vars) ∧ Addressable vars.needed ∧
      final.toList = Bytes.ofNat 2 vars.needed.bytes ++ Bytes.ofNat 2 vars.needed.slots ++
        (code.resolveSymbols symbols).bytes.toList := by
  obtain ⟨u, hu, h⟩ := Option.bind_eq_some_iff.1 h
  obtain ⟨⟨code, vars⟩, hr, h⟩ := Option.bind_eq_some_iff.1 h
  obtain ⟨-, -, h⟩ := Option.bind_eq_some_iff.1 h
  obtain ⟨_, hguard, h⟩ := Option.bind_eq_some_iff.1 h
  have haddr : Addressable vars.needed := by
    unfold guard at hguard
    split at hguard
    · assumption
    · cases hguard
  refine ⟨code, vars, Option.bind_eq_some_iff.2 ⟨u, hu, hr⟩, haddr, ?_⟩
  cases h
  have hbytes : (Fragment.word vars.needed.bytes ++ Fragment.word vars.needed.slots ++
      code.resolveSymbols symbols).bytes =
        (Bytes.ofNat 2 vars.needed.bytes).toArray ++ (Bytes.ofNat 2 vars.needed.slots).toArray ++
          (code.resolveSymbols symbols).bytes := rfl
  rw [hbytes]
  simp only [Array.toList_append]

/-- The final code of a file. -/
theorem Built.image (ho : Orderly s) (hp : Proper bits tracked s) (hi : Built s i)
    (h : s.bytecode? i symbols = some final) (hsmall : final.size ≤ maxCodeSize) :
    ∃ vars lines, s.result? i = some (Line.code lines, vars) ∧
      Image ⟨vars.needed, bits, tracked⟩ symbols.number lines final := by
  obtain ⟨code, vars, hresult, haddr, hbytes⟩ := bytecode_eq h
  obtain ⟨lines, rfl, hleads, hfree⟩ := (hi.assembled ho hp hresult haddr).lines
  refine ⟨vars, lines, hresult, ?_, haddr, hsmall, hleads.forget fun _ _ hf => hf.elim, hfree⟩
  rw [hbytes, Line.bytes_resolveSymbols]

end Session

namespace Build

variable {disk : Disk} {debug : Bool} {paths : List String} {path : Path} {code : Array UInt8}

/-- The code that a build gives. -/
theorem image (h : (path, code) ∈ (run disk debug paths).files) (hp : (session disk debug paths).Proper bits tracked) :
    ∃ room lines, Image ⟨room, bits, tracked⟩ (session disk debug paths).symbols.number lines code := by
  obtain ⟨-, hsmall, -⟩ := mem_files h
  obtain ⟨i, -, -, -, hfinal, hbuilt⟩ := built_of_mem_files h
  obtain ⟨vars, lines, -, himage⟩ := hbuilt.image (orderly_session disk debug paths) hp hfinal hsmall
  exact ⟨vars.needed, lines, himage⟩

end Build

end HostScript
