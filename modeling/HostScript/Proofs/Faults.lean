import HostScript.Proofs.OneFile
import HostScript.Proofs.Running

/-! Faults that runs of built code have.

Scripts are checked before code is made for them, so that a run can halt only with
what a check cannot foresee. There are three ways around this: a text with a zero
character ends early in code, an operand without a value leaves nothing to read, and
an operator on bits may stand where a floating-point number is expected. Without the
first two a malformed fault is always about the third. -/
namespace HostScript

namespace Build

variable {disk : Disk} {debug : Bool} {paths : List String} {path : Path} {code : Array UInt8}

/-- A run of built code halts with a malformed fault only if bits of a floating-point number were
asked for somewhere, and then that is the fault; all other faults are those that only a run can show. -/
theorem fault_cases (hfile : (path, code) ∈ (run disk debug paths).files)
    (htexts : ∀ x ∈ (session disk debug paths).texts, Clean x)
    (hvoid : ∀ a ∈ (session disk debug paths).asks, a.hasVoidOperand = false)
    {σ : Type} (host : Host σ) (limit : Nat) (s : σ) {fault : Fault}
    (h : (execute host limit code s).1 = .halted fault) :
    (∃ expected found, fault = .wrongReturn expected found) ∨ (∃ service, fault = .missing service) ∨
      fault = .subscriptOfNull ∨ fault = .memberOfNull ∨ fault = .divisionByZero ∨
      ∃ position reason, fault = .malformed position reason ∧ reason.OfFloatBits ∧
        ∃ a ∈ (session disk debug paths).asks, a.wantsFloatBits = true := by
  obtain ⟨room, lines, himage⟩ := image hfile (Session.proper_of htexts hvoid False.elim)
  have hallowed := (himage.execute (T := .any σ) (Trust.keptBy_any host) (fun _ _ _ => trivial)
    (fun _ _ _ _ => trivial) limit s).2
  rw [h] at hallowed
  cases fault with
  | malformed position reason =>
    exact .inr (.inr (.inr (.inr (.inr ⟨position, reason, rfl, hallowed.2, hallowed.1⟩))))
  | wrongReturn expected found => exact .inl ⟨expected, found, rfl⟩
  | missing service => exact .inr (.inl ⟨service, rfl⟩)
  | subscriptOfNull => exact .inr (.inr (.inl rfl))
  | memberOfNull => exact .inr (.inr (.inr (.inl rfl)))
  | divisionByZero => exact .inr (.inr (.inr (.inr (.inl rfl))))

/-- A host that does not answer is one of the faults that only a run can show. -/
theorem fault_cases_countdown :
    (execute Host.idle 9 countdownCode ()).1 = .halted (.missing .invokeFunction) ∧
      ((∃ expected found, Fault.missing .invokeFunction = .wrongReturn expected found) ∨
        (∃ service, Fault.missing .invokeFunction = .missing service) ∨
        Fault.missing .invokeFunction = .subscriptOfNull ∨ Fault.missing .invokeFunction = .memberOfNull ∨
        Fault.missing .invokeFunction = .divisionByZero ∨
        ∃ position reason, Fault.missing .invokeFunction = .malformed position reason ∧ reason.OfFloatBits ∧
          ∃ a ∈ (session (oneFile countdown) false ["/a"]).asks, a.wantsFloatBits = true) := by
  have hrun : (execute Host.idle 9 countdownCode ()).1 = .halted (.missing .invokeFunction) := by decide +kernel
  exact ⟨hrun, fault_cases mem_countdown clean_countdown solid_countdown Host.idle 9 () hrun⟩

/-- A script in which no problem is found, whose code still halts with a malformed fault. -/
def Derails (text : String) (names : List String) (code : Array UInt8) (position : Nat) (reason : Malformed) : Prop :=
  run (oneFile text) false ["/a"] = ⟨[], names.zipIdx 1, [(rootFile, code)]⟩ ∧
    (execute Host.idle 2 code ()).1 = .halted (.malformed position reason)

/-- One script for each way around the checks. -/
theorem derailing_scripts :
    Derails "float64 x = ~1;" [] #[8, 0, 0, 0, 35, 10, 0, 0, 17, 2, 0, 0, 0, 0, 0, 0, 240, 63] 8 .complement ∧
      Derails "string s = \"a\x00b\";" [] #[0, 0, 1, 0, 35, 12, 0, 0, 2, 97, 0, 98, 0] 11 (.unknownOpcode 98) ∧
      Derails "#global \x7b void f(); \x7d bool b = f() == f();" ["GLOBAL_f"] #[1, 0, 0, 0, 35, 11, 0, 0] 8
        .endOfCode := by
  refine ⟨⟨run_sorted [] ?_ ?_, ?_⟩, ⟨run_sorted [] ?_ ?_, ?_⟩, ⟨run_sorted ["GLOBAL_f"] ?_ ?_, ?_⟩⟩ <;> decide +kernel

end Build

end HostScript
