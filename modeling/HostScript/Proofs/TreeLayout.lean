import HostScript.Proofs.ImportTree
import HostScript.Proofs.RootFiles
import Mathlib.Data.List.Nodup

/-! Storage in final code.

The final code of a file holds an address or an index of the string table at every mark
for one. These operands are the places of what the files of its import tree mention, file
by file, each file moved up to where it lies, and everything else about the tree's
storage can be read off that list. -/
namespace HostScript

open Piece

variable {s : Session} {room : Storage}

/-! ### Operands -/

namespace Fragment

/-- The place that final code names at a mark. -/
def operand? (final : Array UInt8) (m : Mark) : Option Slot :=
  match m.kind with
  | .slot => some ⟨true, wordAt final (headerSize + m.location)⟩
  | .address => some ⟨false, wordAt final (headerSize + m.location)⟩
  | _ => none

/-- The places that final code names behind its header. -/
def operands (f : Fragment) (final : Array UInt8) : List Slot := f.marks.toList.filterMap (operand? final)

theorem wordAt_word (pre post : List UInt8) (hn : n ≤ Storage.limit) :
    wordAt (pre ++ Bytes.ofNat 2 n ++ post).toArray pre.length = n := by
  rw [ofNat_two, List.append_assoc]
  refine (wordAt_append pre post _ _).trans ?_
  rw [← ofNat_two, Bytes.toNat_ofNat]
  exact Nat.mod_eq_of_lt (Nat.lt_succ_of_le hn)

theorem filterMap_operand (numbers : String → Nat) (ps : List Piece) (pre : List UInt8)
    (ho : pre.length = headerSize + o) (hsmall : ∀ x ∈ ps.filterMap Piece.slot?, x.index ≤ Storage.limit) :
    (marksFrom o ps).filterMap (operand? (pre ++ bytesOf (ps.map (Piece.resolve numbers))).toArray) =
      ps.filterMap Piece.slot? := by
  induction ps generalizing pre o with
  | nil => rfl
  | cons p rest ih =>
    rw [List.map_cons, bytesOf_cons, marksFrom, List.filterMap_append]
    have hsize : (p.resolve numbers).bytes.length = p.size := by
      cases p <;> simp [Piece.resolve, Piece.bytes, Piece.size]
    have hlater := ih (pre ++ (p.resolve numbers).bytes) (o := o + p.size)
      (by rw [List.length_append, hsize, ho, Nat.add_assoc])
      fun x hx => hsmall x (by rw [List.filterMap_cons]; split <;> simp_all)
    rw [List.append_assoc] at hlater
    rw [hlater]
    cases p with
    | place isString address =>
      have hword := wordAt_word pre (bytesOf (rest.map (Piece.resolve numbers)))
        (hsmall ⟨isString, address⟩ (List.mem_cons_self ..))
      rw [List.append_assoc, ho] at hword
      have hoperand : operand? (pre ++ (Bytes.ofNat 2 address ++ bytesOf (rest.map (Piece.resolve numbers)))).toArray
          ⟨o, if isString then .slot else .address⟩ = some ⟨isString, address⟩ := by
        cases isString <;> exact congrArg (fun n => some (Slot.mk _ n)) hword
      rw [List.filterMap_cons_some (rfl : Piece.slot? (.place isString address) = some ⟨isString, address⟩)]
      exact congrArg (Option.toList · ++ _) hoperand
    | leap l => cases l <;> rfl
    | _ => rfl

/-- Behind a header, code names the places that its fragment names. -/
theorem Names.operands {f : Fragment} (h : f.Names slots) {final : Array UInt8}
    (hfinal : final.toList = Bytes.ofNat 2 room.bytes ++ Bytes.ofNat 2 room.slots ++
      (f.resolveSymbols symbols).bytes.toList) (hsmall : ∀ x ∈ slots, x.index ≤ Storage.limit) :
    f.operands final = slots := by
  obtain ⟨ps, rfl, rfl⟩ := h
  rw [bytes_resolveSymbols_ofPieces] at hfinal
  have hoperands := filterMap_operand symbols.number ps
    (Bytes.ofNat 2 room.bytes ++ Bytes.ofNat 2 room.slots) (o := 0) (by simp [headerSize]) hsmall
  rw [← hfinal] at hoperands
  exact hoperands

end Fragment

/-- A place within what can be addressed is a word. -/
theorem Variable.In.index_le {v : Variable} (h : v.In room) (haddr : Session.Addressable room) :
    v.slot.index ≤ Storage.limit := by
  obtain ⟨k, -, hin⟩ := h
  obtain ⟨hb, hs⟩ := haddr
  unfold Storage.Holds at hin
  show v.address ≤ Storage.limit
  split at hin <;> omega

namespace Session

/-! ### Sessions -/

/-- Sessions that files were loaded and compiled in. -/
inductive Reachable : Session → Prop
  | new (disk : Disk) (debug : Bool) : Reachable (.new disk debug)
  | load {s : Session} (path : Path) (hs : Reachable s) : Reachable (s.load path).2
  | compile {s : Session} (i : Nat) (hs : Reachable s) : Reachable (s.compile i)

theorem Reachable.orderly (h : Reachable s) : Orderly s := by
  induction h with
  | new disk debug => exact orderly_new disk debug
  | load path _ ih => exact (ih.load path).1
  | compile i _ ih => exact (ih.compile i).1

/-- The file itself and everything it imports. -/
abbrev Reaches (s : Session) : Nat → Nat → Prop := Relation.ReflTransGen fun i j => j ∈ s.importsOf i

/-- No problem was found in a file or in what it imports. -/
def Faultless (s : Session) (i : Nat) : Prop :=
  ∀ j, s.Reaches i j → ∀ u : FileUnit, s.units[j]? = some u → u.diagnostics = []

theorem Faultless.quiet (h : s.Faultless i) : s.Quiet (s.Reaches i) :=
  ⟨fun _ hj _ hk => hj.tail hk, fun j u hj hu => h j hj u hu⟩

/-! ### Layout of the tree -/

/-- How the storage of an import tree is laid out in the final code of its root. -/
structure TreeLayout (s : Session) (i : Nat) (final : Array UInt8) (parts : List Part) : Prop where
  /-- The parts are the file and all it imports, each file once. -/
  tree : s.Lays .none [i] parts
  once : (parts.map (·.file)).Nodup
  /-- The operands are the places of what the files mention. -/
  operands : (s.result? i).map (fun r => r.1.operands final) = some (s.places parts)
  /-- Every mention is of a variable that some file of the tree declares. -/
  declared : ∀ p ∈ parts, ∀ e ∈ (s.usage p.file).mentions, ∃ q ∈ parts, ∃ d ∈ (s.usage q.file).declared,
    s.Denotes p.file e q.file d
  /-- A variable has one place, whichever file refers to it. -/
  same : ∀ p ∈ parts, ∀ q ∈ parts, ∀ e d, s.Denotes p.file e q.file d →
    e.1 = d.1 ∧ e.2.up p.base = d.2.up q.base
  /-- Regions of different files are disjoint. -/
  regions : parts.Pairwise fun p q => ∀ d ∈ (s.usage p.file).declared, ∀ e ∈ (s.usage q.file).declared,
    (d.2.up p.base).Separate (e.2.up q.base)
  /-- So are variables that are in sight at one place. -/
  scopes : ∀ p ∈ parts, ∀ vs ∈ (s.usage p.file).scopes,
    vs.entries.Pairwise fun d e => (d.2.up p.base).Separate (e.2.up p.base)
  /-- Everything is within what the header asks for. -/
  inside : ∀ p ∈ parts, ∀ d ∈ (s.usage p.file).declared,
    (d.2.up p.base).In ⟨Fragment.wordAt final 0, Fragment.wordAt final 2⟩

theorem Denotes.mem (h : s.Denotes i e k d) : d ∈ (s.usage k).declared := by
  induction h with
  | own hd => exact hd
  | imported _ _ _ ih => exact ih

section Layout

variable {i : Nat} {symbols : Fragment.Symbols} {final : Array UInt8}

theorem wordAt_header (haddr : Addressable room)
    (h : final.toList = Bytes.ofNat 2 room.bytes ++ Bytes.ofNat 2 room.slots ++ rest) :
    (⟨Fragment.wordAt final 0, Fragment.wordAt final 2⟩ : Storage) = room := by
  have hfinal : final = (Bytes.ofNat 2 room.bytes ++ Bytes.ofNat 2 room.slots ++ rest).toArray := by rw [← h]
  have hbytes := Fragment.wordAt_word [] (Bytes.ofNat 2 room.slots ++ rest) haddr.1
  have hslots := Fragment.wordAt_word (Bytes.ofNat 2 room.bytes) rest haddr.2
  rw [List.nil_append, ← List.append_assoc, ← hfinal] at hbytes
  rw [← hfinal, Bytes.length_ofNat] at hslots
  exact congrArg₂ Storage.mk hbytes hslots

/-- Final code of a file without problems has the storage of its import tree laid out: each variable
has one place for all files that refer to it, and no two files, nor two variables in sight at one
place, have any storage in common. -/
theorem import_tree_layout (hs : Reachable s) (hquiet : s.Faultless i) (h : s.bytecode? i symbols = some final) :
    ∃ parts, s.TreeLayout i final parts := by
  have ho := hs.orderly
  obtain ⟨code, vars, hresult, haddr, hfinal⟩ := bytecode_eq h
  have hbuilt : Built s i := ho.sound _ hquiet.quiet i _ .refl hresult
  have hready : Ready s i := ⟨hbuilt, needed_eq hresult ▸ haddr⟩
  have hone : ∀ j ∈ [i], Ready s j := fun j hj => List.mem_singleton.1 hj ▸ hready
  obtain ⟨inner, hinner⟩ := hbuilt.lays .none
  have hlays : s.Lays .none [i] (inner ++ [⟨i, .none⟩]) := .cons hinner .nil
  have hnames := hready.names ho hresult hinner
  have hresolved := fun p hp e => hlays.resolved ho hone (p := p) hp (e := e)
  generalize inner ++ [⟨i, .none⟩] = parts at hlays hnames hresolved
  have honce := hbuilt.nodup hlays
  have hroom : Storage.none + s.neededBy [i] = vars.needed := by
    rw [Storage.none_add, neededBy, neededBy, Storage.add_none, needed_eq hresult]
  have hinside : ∀ p ∈ parts, ∀ d ∈ (s.usage p.file).declared, (d.2.up p.base).In vars.needed :=
    fun p hp d hd => hroom ▸ (hlays.between ho hone p hp d hd).inTop
  refine ⟨parts, hlays, honce, ?_, fun p hp e he => ?_, fun p hp q hq e d hd => ?_,
    hlays.apart ho hone, fun p hp vs hvs => ?_, ?_⟩
  · rw [hresult, Option.map_some, hnames.operands hfinal]
    intro x hx
    obtain ⟨p, hp, hx⟩ := List.mem_flatMap.1 hx
    obtain ⟨e, he, rfl⟩ := List.mem_map.1 hx
    obtain ⟨q, hq, d, hd, hplace⟩ := hresolved p hp e he
    rw [hplace]
    exact (hinside q hq d hd.mem).index_le haddr
  · obtain ⟨q, hq, d, hd, -⟩ := hresolved p hp e he
    exact ⟨q, hq, d, hd.mem, hd⟩
  · obtain ⟨q', hq', hfile, hname, hplace⟩ := hlays.denoted hd p hp rfl
    obtain rfl : q' = q := List.inj_on_of_nodup_map honce hq' hq hfile
    exact ⟨hname, hplace⟩
  · obtain ⟨l, own, vars', hstored⟩ := (hlays.ready ho hone p hp).stored ho
    exact (hstored.holds.scopes vs hvs).frames.pairwise.imp fun hsep => hsep.up p.base
  · rw [wordAt_header haddr hfinal]
    exact hinside

end Layout

/-! ### Four files -/

def fourFilesCode : Array UInt8 :=
  #[14, 0, 2, 0, 35, 1, 0, 0, 2, 3, 35, 3, 1, 0, 32, 1, 1, 0, 0, 35, 1, 5, 0, 6, 0, 0, 35, 12, 0, 0, 2, 120, 0,
    35, 3, 6, 0, 2, 2, 0, 0, 0, 35, 12, 1, 0, 6, 0, 0, 38, 27, 3, 6, 1, 0, 6, 6, 0, 20, 0, 35, 3, 10, 0, 32, 1,
    1, 0, 0, 35, 3, 1, 0, 7, 6, 10, 0, 6, 6, 0]

theorem reachable_fourFiles : Reachable (fourFilesSession false) := by
  have hload := Reachable.load (fileNamed "a") (.new fourFiles false)
  rw [load_fourFiles] at hload
  exact .compile 0 hload

theorem compile_fourFiles : (fourFilesSession false).diagnostics = [] ∧
    (fourFilesSession false).bytecode? 0 [("GLOBAL_next", 1)] = some fourFilesCode := by decide +kernel

theorem faultless_fourFiles : (fourFilesSession false).Faultless 0 :=
  fun j _ u hu => (diagnostics_eq_nil _).1 compile_fourFiles.1 j u hu

theorem import_tree_layout_fourFiles :
    Reachable (fourFilesSession false) ∧ (fourFilesSession false).Faultless 0 ∧
      (fourFilesSession false).bytecode? 0 [("GLOBAL_next", 1)] = some fourFilesCode ∧
        ∃ parts, (fourFilesSession false).TreeLayout 0 fourFilesCode parts :=
  ⟨reachable_fourFiles, faultless_fourFiles, compile_fourFiles.2,
    import_tree_layout reachable_fourFiles faultless_fourFiles compile_fourFiles.2⟩

end Session

end HostScript
