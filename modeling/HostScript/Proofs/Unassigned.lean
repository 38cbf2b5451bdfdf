import HostScript.Proofs.Pointers
import HostScript.Proofs.TreeLayout

/-! Variables before anything is assigned to them.

Storage is cleared once, when a machine is made for code. From then on a variable keeps
what it holds until a statement assigns to it, or to another variable that has some of
the same storage. Nothing is cleared when a scope is entered, so where a scope takes
the storage of an earlier one, or is entered again, a variable without a value shows
what was left there. -/
namespace HostScript

open Line Code List Option

namespace Machine

/-- The variable that the next statement assigns to. -/
def assigns? (m : Machine) : Option Cell :=
  if m.code[m.cursor]? = some (Opcode.code .assign) then
    (m.code[m.cursor + 1]?.bind Kind.ofCode?).map fun k => ⟨k, Fragment.wordAt m.code (m.cursor + 2)⟩
  else none

/-- The variables that so many statements assign to. -/
def assigned {σ : Type} (host : Host σ) : Nat → Machine → σ → List Cell
  | 0, _, _ => []
  | n + 1, m, s =>
    if m.atEnd then []
    else m.assigns?.toList ++
      match m.step host s with
      | ((.ok .proceed, m'), s') => assigned host n m' s'
      | _ => []

end Machine

/-! ### What a run leaves alone -/

theorem wordAt_hasAt {code : Array UInt8} {p n : Nat} (h : HasAt code p (Bytes.ofNat 2 n)) (hn : n < 256 ^ 2) :
    Fragment.wordAt code p = n := by
  obtain ⟨hlow, h⟩ := hasAt_cons.1 h
  obtain ⟨hhigh, -⟩ := hasAt_cons.1 h
  unfold Fragment.wordAt
  rw [hlow, hhigh, getD_some, getD_some, ← Fragment.ofNat_two, Bytes.toNat_ofNat, Nat.mod_eq_of_lt hn]

namespace Image

variable {σ : Type} {g : Regime} {numbers : String → Nat} {lines : List Line} {code : Array UInt8} {host : Host σ}
  {s : σ} {m : Machine} {c : Cell}

/-- An assignment is seen in code as what it is. -/
theorem assigns_line (h : Image g numbers lines code) {o : Nat} {l : Line} (hl : At lines o l) {k : Kind} {a : Nat}
    (hi : l.instr = .assign k a n) (memory : Memory) :
    Machine.assigns? ⟨code, headerSize + o, memory⟩ = some ⟨k, a⟩ := by
  have hat := h.hasAt hl
  have hholds : g.room.Holds k a := by
    have htyped := (h.leads.sound l hl.mem).typed
    rw [hi] at htyped
    exact htyped.1
  rw [hi, Instr.code_eq] at hat
  obtain ⟨hop, hat⟩ := hasAt_cons.1 hat
  obtain ⟨hkind, hat⟩ := hasAt_cons.1 hat
  obtain ⟨hword, -⟩ := hasAt_append.1 hat
  refine (if_pos hop).trans ?_
  rw [hkind, bind_some, Kind.ofCode?_code, map_some, wordAt_hasAt hword (h.lt_of_holds hholds)]

/-- A statement leaves every variable alone that has no storage in common with the one it assigns to. -/
theorem load_step (h : Image g numbers lines code) (hnot : ¬ g.tracked) (host : Host σ)
    (hm : Poised (.any σ) g lines code s m) (hend : m.atEnd = false) (hapart : ∀ b ∈ m.assigns?, b.Apart c) :
    (m.step host s).1.2.memory.load c.address c.kind = m.memory.load c.address c.kind := by
  obtain ⟨rfl, hfits, pre, post, hlines, hcursor, -⟩ := hm
  cases post with
  | nil =>
    rw [Machine.atEnd, h.size, hcursor, hlines] at hend
    simp at hend
  | cons l post =>
    have hl : At lines (extent pre) l := ⟨pre, post, hlines, rfl⟩
    obtain ⟨-, hresult⟩ := h.sat_line (Trust.keptBy_any host) (fun _ _ _ => trivial) hl hfits
      fun ht => absurd ht hnot
    obtain ⟨hok, hfault⟩ := h.step_line hl m.memory host s
    rw [← hcursor] at hok hfault
    rcases he : l.instr.exec ⟨m.memory, host, numbers⟩ s with ⟨f | ⟨mv, memory⟩, s'⟩ <;> rw [he] at hresult
    · obtain ⟨f', p, hx, -⟩ := hfault f s' he
      rw [show m.step host s = _ from hx]
    · rw [show m.step host s = _ from hok mv memory s' he]
      obtain ⟨-, hwrites⟩ : l.instr.Moves mv ∧ l.instr.Writes _ m.memory memory s' := hresult
      cases hi : l.instr with
      | assign k a n =>
        rw [hi] at hwrites
        obtain ⟨v, hv, hstore⟩ := hwrites
        have hcell := h.assigns_line hl hi m.memory
        rw [← hcursor] at hcell
        exact Memory.load_store_apart hstore hv.1 (hapart _ hcell)
      | _ =>
        rw [hi] at hwrites
        obtain rfl : memory = m.memory := hwrites
        rfl

/-- So does a run. -/
theorem load_run (h : Image g numbers lines code) (hnot : ¬ g.tracked) (n : Nat)
    (hm : Poised (.any σ) g lines code s m) (hapart : ∀ b ∈ m.assigned host n s, b.Apart c) :
    (m.run host n s).1.2.memory.load c.address c.kind = m.memory.load c.address c.kind := by
  induction n generalizing s m with
  | zero => rfl
  | succ n ih =>
    unfold Machine.assigned at hapart
    rw [Machine.run_succ]
    split
    · rfl
    · rename_i hend
      rw [if_neg hend] at hapart
      have hfirst := h.load_step hnot host hm (Bool.eq_false_iff.2 hend)
        fun b hb => hapart b (mem_append_left _ (mem_toList.2 hb))
      have hnext := h.step (Trust.keptBy_any host) (fun _ _ _ => trivial) hm (Bool.eq_false_iff.2 hend)
      obtain ⟨-, hnext⟩ := hnext
      generalize m.step host s = r at hfirst hnext hapart
      obtain ⟨⟨f | signal, m'⟩, s'⟩ := r
      · exact hfirst
      · cases signal with
        | proceed => exact (ih hnext fun b hb => hapart b (mem_append_right _ hb)).trans hfirst
        | exit => exact hfirst

end Image

namespace Session

variable {s : Session} {i : Nat} {symbols : Fragment.Symbols} {final : Array UInt8} {parts : List Part} {p : Part}
  {d : String × Variable}

/-- A variable of the import tree of a file reads as zero as long as the run has not assigned to any of
its storage. -/
theorem unassigned_zero (hs : Reachable s) (hquiet : s.Faultless i) (htexts : ∀ x ∈ s.texts, Clean x)
    (hvoid : ∀ a ∈ s.asks, a.hasVoidOperand = false) (hfinal : s.bytecode? i symbols = some final)
    (hsmall : final.size ≤ maxCodeSize) (hparts : s.Lays .none [i] parts) (hp : p ∈ parts)
    (hd : d ∈ (s.usage p.file).declared) :
    ∃ m k, Machine.new final = .ok m ∧ d.2.type.primitive = .kind k ∧
      ∀ {σ : Type} (host : Host σ) (n : Nat) (st : σ),
        (∀ c ∈ m.assigned host n st, c.Apart ⟨k, (d.2.up p.base).address⟩) →
          (m.run host n st).1.2.memory.load (d.2.up p.base).address k = .ok (.zero k) := by
  have ho := hs.orderly
  obtain ⟨code, vars, hresult, haddr, -⟩ := bytecode_eq hfinal
  have hbuilt : Built s i := ho.sound _ hquiet.quiet i _ .refl hresult
  have hready : ∀ j ∈ [i], Ready s j := by
    rintro j hj
    obtain rfl := List.mem_singleton.1 hj
    exact ⟨hbuilt, needed_eq hresult ▸ haddr⟩
  have hroom : Storage.none + s.neededBy [i] = vars.needed := by
    rw [Storage.none_add, neededBy, neededBy, Storage.add_none, needed_eq hresult]
  obtain ⟨k, hk, hholds⟩ := (hparts.between ho hready p hp d hd).inTop
  rw [hroom] at hholds
  obtain ⟨_, lines, hlines, himage⟩ :=
    hbuilt.image ho (proper_of htexts hvoid False.elim : Proper _ False s) hfinal hsmall
  cases hresult.symm.trans hlines
  refine ⟨_, k, himage.new, hk, fun host n st hapart => ?_⟩
  obtain ⟨v, hv⟩ := (Memory.fits_blank vars.needed).load hholds
  rw [himage.load_run id n (Poised.start (.any _) _ lines final st) hapart, hv, Memory.load_blank hv]

/-! ### Storage that is shared -/

namespace Unassigned

open Build

/-- A variable without a value that has its storage for itself. -/
def spare : String := "#global \x7b void f(int32 n); \x7d int32 y; int32 x = 5; f(y);"

def spareCode : Array UInt8 := #[8, 0, 0, 0, 35, 3, 4, 0, 2, 5, 0, 0, 0, 33, 1, 1, 0, 1, 3, 6, 0, 0]

theorem unassigned_zero_spare :
    (sessionOf spare false).bytecode? 0 [("GLOBAL_f_int32", 1)] = some spareCode ∧
      ∃ m, Machine.new spareCode = .ok m ∧ m.assigned Host.idle 1 () = [⟨.int .int32, 4⟩] ∧
        (m.run Host.idle 1 ()).1.2.memory.load 0 (.int .int32) = .ok (.int .int32 0) := by
  obtain ⟨hquiet, hfinal, himports, d, hd, haddress, hkind⟩ : (sessionOf spare false).diagnostics = [] ∧
      (sessionOf spare false).bytecode? 0 [("GLOBAL_f_int32", 1)] = some spareCode ∧
        (sessionOf spare false).importsOf 0 = [] ∧ ∃ d ∈ ((sessionOf spare false).usage 0).declared,
          (d.2.up .none).address = 0 ∧ d.2.type.primitive = .kind (.int .int32) := by decide +kernel
  have hparts : (sessionOf spare false).Lays .none [0] ([] ++ [⟨0, .none⟩]) :=
    .cons (by rw [himports]; exact .nil) .nil
  obtain ⟨m, k, hm, hk, hzero⟩ := unassigned_zero (.compile 0 (.load rootFile (.new (oneFile spare) false)))
    (fun j _ u hu => (diagnostics_eq_nil _).1 hquiet j u hu) (by decide +kernel) (by decide +kernel) hfinal
    (by decide) hparts (List.mem_singleton_self _) hd
  cases hkind.symm.trans hk
  cases hm
  rw [haddress] at hzero
  have hassigned : Machine.assigned Host.idle 1
      ⟨spareCode, headerSize, ⟨Array.replicate 8 0, Array.replicate 0 ""⟩⟩ () = [⟨.int .int32, 4⟩] := by
    decide +kernel
  refine ⟨hfinal, _, rfl, hassigned, hzero Host.idle 1 () fun c hc => ?_⟩
  obtain rfl := List.mem_singleton.1 (hassigned ▸ hc)
  exact .inr (by decide)

/-- Two variables that take the same place one after the other. -/
def reused : String := "#global \x7b void f(int32 n); \x7d \x7b int32 x = 5; \x7d \x7b int32 y; f(y); \x7d"

def reusedCode : Array UInt8 := #[4, 0, 0, 0, 35, 3, 0, 0, 2, 5, 0, 0, 0, 33, 1, 1, 0, 1, 3, 6, 0, 0]

/-- Nothing was assigned to the second variable, but it reads as the first one. -/
theorem unassigned_left_over :
    run (oneFile reused) false ["/a"] = ⟨[], [("GLOBAL_f_int32", 1)], [(rootFile, reusedCode)]⟩ ∧
      (Host.answering .nothing).events 2 reusedCode () = [.call 0 1 [.int .int32 5] .nothing] := by
  refine ⟨run_sorted ["GLOBAL_f_int32"] ?_ ?_, ?_⟩ <;> decide +kernel

end Unassigned

end Session

end HostScript
