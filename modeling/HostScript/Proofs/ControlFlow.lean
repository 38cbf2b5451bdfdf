import HostScript.Proofs.Distances
import HostScript.Proofs.Structured

/-! Control flow in final code.

On its way into final code the own code of a file is moved, it loses its lines and it gets the numbers
of host members. None of this touches opcodes or distances, so it stands in the final code of every
file that imports it and is laid out there (`control_flow_laid_out`). -/
namespace HostScript

open Piece Fragment Code

variable {final : Array UInt8} {f own : Fragment} {symbols : Symbols}

/-! ### Code on the move -/

/-- What is done to pieces leaves bytes alone that stand for themselves, and keeps all sizes. -/
structure Piece.Steady (g : Piece → Piece) : Prop where
  raw : ∀ bytes, g (.raw bytes) = .raw bytes
  size : ∀ p, (g p).size = p.size

namespace Piece

theorem Steady.comp (hg : Steady g) (hh : Steady h) : Steady (g ∘ h) where
  raw bytes := (congrArg g (hh.raw bytes)).trans (hg.raw bytes)
  size p := (hg.size (h p)).trans (hh.size p)

theorem steady_relocate (base : Storage) : Steady (Piece.relocate base) :=
  ⟨fun _ => rfl, (patches_relocate base).size 0⟩

theorem steady_zeroLine : Steady Piece.zeroLine := ⟨fun _ => rfl, patches_zeroLines.size 0⟩

theorem steady_resolve (symbols : Symbols) : Steady (Piece.resolve symbols.number) :=
  ⟨fun _ => rfl, (patches_symbols symbols).size 0⟩

theorem Steady.length (hg : Steady g) (ps : List Piece) : (bytesOf (ps.map g)).length = (bytesOf ps).length := by
  induction ps with
  | nil => rfl
  | cons p rest ih =>
    have hsize : (g p).bytes.length = p.bytes.length := hg.size p
    rw [List.map_cons, bytesOf_cons, bytesOf_cons, List.length_append, List.length_append, hsize, ih]

theorem Steady.stand (hg : Steady g) : ∀ {o : Nat}, HasAt code o (bytesOf (ps.map g)) → Stand code .none o ps := by
  induction ps with
  | nil => exact fun _ => trivial
  | cons p rest ih =>
    intro o h
    obtain ⟨hhead, hrest⟩ := hasAt_append.1 h
    rw [show (g p).bytes.length = p.size from hg.size p] at hrest
    cases p with
    | raw bytes =>
      rw [hg.raw] at hhead
      exact ⟨hhead, ih hrest⟩
    | leap l => exact ⟨nofun, ih hrest⟩
    | place _ _ | symbol _ | line _ => exact ih hrest

end Piece

/-- The fragment is `own` with something done to its pieces. -/
def Fragment.Moved (f own : Fragment) : Prop := ∃ g, Steady g ∧ ∀ ps, own = ofPieces ps → f = ofPieces (ps.map g)

theorem Fragment.moved_refl (f : Fragment) : f.Moved f :=
  ⟨id, ⟨fun _ => rfl, fun _ => rfl⟩, fun ps h => by rw [List.map_id, h]⟩

theorem Fragment.Moved.size (h : f.Moved own) (hown : own.Pieced) : f.size = own.size := by
  obtain ⟨g, hg, hmoved⟩ := h
  obtain ⟨ps, rfl⟩ := hown
  rw [hmoved ps rfl, size_ofPieces, size_ofPieces, hg.length]

/-- In the bytes of final code, code that was moved stands behind what is in front of it. -/
theorem Fragment.Moved.stands {pre post : Fragment} (hpre : pre.Pieced) (hf : f.Moved own) (hpost : post.Pieced)
    {head : List UInt8} (hfinal : final.toList = head ++ ((pre ++ f ++ post).resolveSymbols symbols).bytes.toList) :
    own.Stands final (head.length + pre.size) .none := by
  obtain ⟨g, hg, hmoved⟩ := hf
  obtain ⟨as, rfl⟩ := hpre
  obtain ⟨cs, rfl⟩ := hpost
  intro ps hown
  refine ((steady_resolve symbols).comp hg).stand ?_
  rw [hmoved ps hown, ← ofPieces_append, ← ofPieces_append, bytes_resolveSymbols_ofPieces] at hfinal
  unfold HasAt
  rw [hfinal, size_ofPieces, ← (steady_resolve symbols).length as]
  simp

namespace Session

variable {s : Session} {i k : Nat} {code : Fragment} {parts : List Section}

theorem Section.moved (p : Section) : p.code.Moved p.own := by
  refine ⟨_, (steady_relocate p.base).comp steady_zeroLine, fun ps h => ?_⟩
  rw [Section.code, h, zeroLines_ofPieces, relocate_ofPieces, List.map_map]

/-- The own code of every file of the tree is somewhere in the code. -/
theorem Composed.split (h : s.Composed i code parts) (hk : k ∈ parts.map (·.file) ++ [i]) :
    ∃ pre f own post, s.Owns k own ∧ pre.Pieced ∧ f.Moved own ∧ post.Pieced ∧ code = pre ++ f ++ post := by
  obtain ⟨pre, own, hpre, hown, rfl⟩ := h
  rw [List.mem_append, List.mem_singleton] at hk
  obtain hk | rfl := hk
  · obtain ⟨p, hp, rfl⟩ := List.mem_map.1 hk
    obtain ⟨before, after, hparts⟩ := List.append_of_mem hp
    have hpieced : ∀ q ∈ parts, q.code.Pieced := fun q hq => Section.pieced_code (hpre.owns q hq).pieced
    have hjoin : ∀ qs : List Section, qs ⊆ parts → (join (qs.map (·.code))).Pieced := by
      intro qs hqs
      refine pieced_join fun f hf => ?_
      obtain ⟨q, hq, rfl⟩ := List.mem_map.1 hf
      exact hpieced q (hqs hq)
    refine ⟨join (before.map (·.code)), p.code, p.own, join (after.map (·.code)) ++ own, hpre.owns p hp, hjoin _ ?_, p.moved,
      (hjoin _ ?_).append hown.pieced, ?_⟩
    · simp [hparts]
    · simp [hparts]
    · have hcons : join (p.code :: after.map (·.code)) = p.code ++ join (after.map (·.code)) := rfl
      rw [hpre.code, hparts, List.map_append, join_append, List.map_cons, hcons]
      simp only [append_assoc]
  · exact ⟨pre, own, own, ∅, hown, hpre.pieced, moved_refl own, pieced_empty, (append_empty _).symm⟩

/-- Own code stands in the final code of every file that reaches it. -/
theorem Reachable.owns_stands (hs : Reachable s) (h : s.bytecode? i symbols = some final) (hk : s.Reaches i k) :
    ∃ own start, s.Owns k own ∧ headerSize ≤ start ∧ start + own.size ≤ final.size ∧ own.Stands final start .none := by
  obtain ⟨code, vars, hr, -, hfinal⟩ := bytecode_eq h
  have hmade := hs.coded i _ hr
  obtain ⟨parts, hparts⟩ := hmade.composed code vars hr
  obtain ⟨pre, own, hpre, -, -⟩ := id hparts
  have horder : s.Postorder [i] (parts.map (·.file) ++ [i]) := .cons hpre.order .nil
  have hmem : k ∈ parts.map (·.file) ++ [i] := horder.mem_iff.2 ⟨i, List.mem_singleton_self i, hk⟩
  obtain ⟨pre, f, own, post, hown, hpre, hmoved, hpost, rfl⟩ := hparts.split hmem
  have hheader : (Bytes.ofNat 2 vars.needed.bytes ++ Bytes.ofNat 2 vars.needed.slots).length = headerSize := by simp [headerSize]
  have hstands := hmoved.stands hpre hpost hfinal
  have hsize := congrArg List.length hfinal
  have hresolved : ((pre ++ f ++ post).resolveSymbols symbols).bytes.size = (pre ++ f ++ post).size := size_resolveSymbols _ _
  rw [List.length_append, hheader, Array.length_toList, Array.length_toList, hresolved, size_append, size_append,
    hmoved.size hown.pieced] at hsize
  exact ⟨own, headerSize + pre.size, hown, Nat.le_add_right _ _, by omega, hstands⟩

/-- Every statement of a file is laid out in final code from where the own code of the file starts, whichever
files import it, as long as that code is smaller than what a distance can span. The machine goes from the start of a
jump to where it leads, and from the start of a test to what follows it or to where it skips. -/
theorem control_flow_laid_out (hs : Reachable s) {symbols : Symbols} {final : Array UInt8}
    (h : s.bytecode? i symbols = some final) (hk : s.Reaches i k) :
    (∃ script own sources start, (s.units[k]?).bind (·.script) = some script ∧ s.Owns k own ∧
      sources.toList <+: s.sources.toList ∧ headerSize ≤ start ∧ start + own.size ≤ final.size ∧
        (own.size < 65536 → Script.Laid ⟨sources, s.api k, s.debug⟩ final script start (start + own.size) .none)) ∧
      ∀ {σ : Type} (host : Host σ) (memory : Memory) (st : σ),
        (∀ p t, Jumps final p t → headerSize ≤ t →
          Machine.step ⟨final, p, memory⟩ host st = ((.ok .proceed, ⟨final, t, memory⟩), st)) ∧
        ∀ p q t b st', Skips final p q t →
          (Setting.evaluate ⟨final, memory, host⟩).bool false (p + 1) st = ((.ok b, q), st') →
            Machine.step ⟨final, p, memory⟩ host st = ((.ok .proceed, ⟨final, if b then q + 2 else t, memory⟩), st') := by
  refine ⟨?_, fun host memory st => ⟨fun p t hj ht => hj.step ht memory host st, fun p q t b st' hskips he => hskips.step he⟩⟩
  obtain ⟨own, start, hown, hstart, hsize, hstands⟩ := hs.owns_stands h hk
  obtain ⟨hscript, -, hsources, hcompile, -⟩ := id hown
  refine ⟨_, own, _, start, hscript, hown, hsources, hstart, hsize, fun hlt => ?_⟩
  have hyields : Compiling.Yields (Compiling.statements ⟨_, s.api k, s.debug⟩ ⟨false, false⟩ _ ∅) own :=
    ⟨_, congrArg Prod.fst hcompile⟩
  exact laid_statements ⟨false, false⟩ _ _ _ _ hyields hlt nofun hstands

/-- A loop with a branch and another loop in it, which are left and continued. -/
def nestedLoops : String :=
  "bool c = true; for (int32 i = 0; i < 9; i++) \x7b if (i == 5) \x7b continue; \x7d else \x7b do \x7b break; \x7d while (c); \x7d \x7d"

def nestedCode : Array UInt8 :=
  #[5, 0, 0, 0, 35, 11, 0, 0, 3, 35, 3, 1, 0, 2, 0, 0, 0, 0, 38, 25, 3, 6, 1, 0, 2, 9, 0, 0, 0, 47, 0, 38, 23, 3, 6, 1, 0, 2,
    5, 0, 0, 0, 6, 0, 39, 15, 0, 39, 12, 0, 39, 9, 0, 38, 6, 0, 0, 3, 0, 40, 12, 0, 35, 3, 1, 0, 7, 6, 1, 0, 2, 1, 0, 0, 0, 40,
    60, 0]

theorem control_flow_laid_out_nested :
    let s := Build.sessionOf nestedLoops false
    s.bytecode? 0 [] = some nestedCode ∧ ∃ script sources start hi, (s.units[0]?).bind (·.script) = some script ∧
      headerSize ≤ start ∧ hi ≤ nestedCode.size ∧
        Script.Laid ⟨sources, s.api 0, s.debug⟩ nestedCode script start hi .none := by
  intro s
  have hcode : s.bytecode? 0 [] = some nestedCode := by decide +kernel
  have hs : Reachable s := .compile 0 (.load _ (.new _ _))
  obtain ⟨script, own, sources, start, hscript, -, -, hstart, hsize, hlaid⟩ := (control_flow_laid_out hs hcode .refl).1
  have hbytes : nestedCode.size = 78 := rfl
  exact ⟨hcode, script, sources, start, start + own.size, hscript, hstart, hsize, hlaid (by omega)⟩

end Session

end HostScript
