import HostScript.Proofs.Extent
import HostScript.Proofs.Memory

/-! What a step touches.

Only an assignment makes a new memory, and no statement leads back into the header. So whatever
the code and the host, a step leaves the memory as it was or stores one value at the address that
stands behind the instruction, and a store is seen only by what is loaded from the same bytes or
the same text. -/
namespace HostScript

open Exec

/-! ### Stores -/

namespace Memory

/-- What a store of a value at an address changes, and what is loaded then. -/
structure Stores (m m' : Memory) (a : Nat) (v : Value) (k : Kind) : Prop where
  kind : v.kind? = some k
  bytes : ∀ i, m'.bytes[i]? ≠ m.bytes[i]? → k ≠ .string ∧ a ≤ i ∧ i < a + k.size
  strings : ∀ i, m'.strings[i]? ≠ m.strings[i]? → k = .string ∧ i = a
  load : m'.load a k = .ok v
  apart : ∀ c : Cell, Cell.Apart ⟨k, a⟩ c → m'.load c.address c.kind = m.load c.address c.kind

theorem stores {m : Memory} (h : m.store a v = .ok m') : ∃ k, Stores m m' a v k := by
  obtain ⟨k, hk⟩ : ∃ k, v.kind? = some k := by
    cases v with
    | nothing => cases h
    | _ => exact ⟨_, rfl⟩
  refine ⟨k, hk, ?_, ?_, load_store h hk, fun c hc => load_store_apart h hk hc⟩ <;>
    obtain ⟨s, rfl, -, rfl⟩ | ⟨hs, -, rfl⟩ := store_cases h <;> intro i hi
  · exact absurd rfl hi
  · refine ⟨fun hstring => hs (hstring ▸ hk), ?_⟩
    rw [getElem?_write, Value.length_bytes hk] at hi
    have hin := (ite_ne_right_iff.1 hi).1
    exact ⟨hin.1, hin.2.1⟩
  · cases hk
    refine ⟨rfl, Decidable.by_contra fun hne => hi ?_⟩
    exact Array.getElem?_setIfInBounds_ne (Ne.symm hne)
  · exact absurd rfl hi

end Memory

/-! ### Statements -/

section Statements

variable {σ α : Type} {m : Memory} {x y : Exec σ (Signal × Memory)} {s : Setting σ}

/-- A statement, or the rest of one, that ends with this memory. -/
class Leaves (m : Memory) (x : Exec σ (Signal × Memory)) : Prop where
  memory : ∀ {p t r q t'}, x p t = ((.ok r, q), t') → r.2 = m

instance {x : Exec σ α} {f : α → Exec σ (Signal × Memory)} [hf : ∀ a, Leaves m (f a)] : Leaves m (x >>= f) where
  memory h := by
    obtain ⟨a, _, _, -, hrest⟩ := Scan.ok_of_bind h
    exact (hf a).memory hrest

instance (signal : Signal) : Leaves (σ := σ) m (pure (signal, m)) where
  memory h := by
    cases h
    rfl

instance (p : Nat) (reason : Malformed) : Leaves (σ := σ) m (malformed p reason) := ⟨nofun⟩

instance {c : Prop} [Decidable c] [Leaves m x] [Leaves m y] : Leaves m (if c then x else y) := by
  split <;> infer_instance

theorem word_eq_ok {code : Array UInt8} (h : Code.word code p t = ((.ok n, q), t')) :
    n = Bytes.toNat (code.extract p (p + 2)).toList ∧ q = p + 2 ∧ t' = t := by
  obtain ⟨bs, o, t₁, hbytes, h⟩ := Scan.ok_of_bind h
  replace hbytes : (if p + 2 ≤ code.size then goTo (p + 2) >>= fun _ => pure (code.extract p (p + 2)).toList
      else malformed p .endOfCode) p t = _ := hbytes
  split at hbytes <;> cases hbytes
  cases h
  exact ⟨rfl, rfl, rfl⟩

/-- A statement leaves the memory as it is, or it stores the value of the expression that stands behind
the kind and the address of an assignment. -/
theorem statement_cases (h : s.statement p t = ((.ok r, q), t')) : r.2 = s.memory ∨
    s.code[p]?.bind Opcode.ofCode? = some .assign ∧ ∃ k v, s.code[p + 1]?.bind Kind.ofCode? = some k ∧
      (s.evaluate false k (p + 4) t).1.1 = .ok v ∧
        s.memory.store (Bytes.toNat (s.code.extract (p + 2) (p + 4)).toList) v = .ok r.2 := by
  obtain ⟨_, _, _, hcursor, h₁⟩ := Scan.ok_of_bind h
  cases hcursor
  obtain ⟨op, o, t₁, hop, h₂⟩ := Scan.ok_of_bind h₁
  obtain ⟨hopcode, rfl, rfl⟩ := Scan.byte_eq_ok hop
  cases op with
  | assign =>
    obtain ⟨memory, _, _, hassign, hr⟩ := Scan.ok_of_bind h₂
    cases hr
    obtain ⟨k, o, t₂, hk, h₃⟩ := Scan.ok_of_bind hassign
    obtain ⟨hkind, rfl, rfl⟩ := Scan.byte_eq_ok hk
    obtain ⟨a, o, t₃, ha, h₄⟩ := Scan.ok_of_bind h₃
    obtain ⟨rfl, rfl, rfl⟩ := word_eq_ok ha
    obtain ⟨v, o, t₄, hv, h₅⟩ := Scan.ok_of_bind h₄
    refine .inr ⟨hopcode, k, v, hkind, by rw [hv], ?_⟩
    replace h₅ : checked o (s.memory.store _ v) o t₄ = _ := h₅
    generalize s.memory.store _ v = stored at h₅ ⊢
    cases stored <;> cases h₅
    rfl
  | _ => exact .inl (Leaves.memory h₂)

end Statements

namespace Machine

/-- Machines that steps lead to from the start of code. Each step may be before another host, and a fault
is no reason to stop. -/
inductive Reached (code : Array UInt8) : Machine → Prop
  | new (h : Machine.new code = .ok m) : Reached code m
  | step {m : Machine} (host : Host σ) (s : σ) (h : Reached code m) : Reached code (m.step host s).1.2

variable {σ : Type} {m : Machine} {code : Array UInt8}

/-- The next statement is an assignment, and this is the memory with the value of its expression stored
at the address that it names. -/
def Assigns (m : Machine) (host : Host σ) (s : σ) (memory : Memory) : Prop :=
  m.code[m.cursor]?.bind Opcode.ofCode? = some .assign ∧ ∃ k v, m.code[m.cursor + 1]?.bind Kind.ofCode? = some k ∧
    (Setting.evaluate ⟨m.code, m.memory, host⟩ false k (m.cursor + 4) s).1.1 = .ok v ∧
      m.memory.store (Bytes.toNat (m.code.extract (m.cursor + 2) (m.cursor + 4)).toList) v = .ok memory

/-- Everything that a step does to a machine behind the header. -/
theorem step_cases (hm : headerSize ≤ m.cursor) (host : Host σ) (s : σ) :
    ∃ result cursor memory t, m.step host s = ((result, ⟨m.code, cursor, memory⟩), t) ∧ headerSize ≤ cursor ∧
      (memory = m.memory ∨ (∃ signal, result = .ok signal) ∧ m.Assigns host s memory) := by
  have hcursor : headerSize ≤ (Setting.statement ⟨m.code, m.memory, host⟩ m.cursor s).1.2 := Scan.statement_behind hm
  unfold step
  rcases hs : Setting.statement ⟨m.code, m.memory, host⟩ m.cursor s with ⟨⟨fault | ⟨signal, memory⟩, q⟩, t⟩ <;>
    rw [hs] at hcursor
  · exact ⟨_, q, m.memory, t, rfl, hcursor, .inl rfl⟩
  · exact ⟨_, q, memory, t, rfl, hcursor, (statement_cases hs).imp_right fun h => ⟨⟨_, rfl⟩, h⟩⟩

/-- What steps keep. -/
theorem Reached.keeps (h : Reached code m) : ∃ m₀, Machine.new code = .ok m₀ ∧ m.code = code ∧
    headerSize ≤ m.cursor ∧ m.memory.Fits ⟨m₀.memory.bytes.size, m₀.memory.strings.size⟩ := by
  induction h with
  | @new m h =>
    refine ⟨m, h, ?_⟩
    unfold Machine.new at h
    split at h <;> cases h
    exact ⟨rfl, Nat.le_refl _, rfl, rfl⟩
  | step host s _ ih =>
    obtain ⟨m₀, hm₀, hcode, hcursor, hfits⟩ := ih
    obtain ⟨_, _, memory, _, hstep, hcursor', hmemory⟩ := step_cases hcursor host s
    rw [hstep]
    refine ⟨m₀, hm₀, hcode, hcursor', ?_⟩
    obtain rfl | ⟨-, -, _, _, -, -, hstore⟩ := hmemory
    · exact hfits
    · exact hfits.stored hstore

/-- On the way from the start of any code, before any hosts, the sizes of the memory stay those of the
start and the cursor stays behind the header. A fault leaves the memory as it is, and another step does so
unless it is an assignment, which stores a value. A store changes the bytes or the text of its variable
only: the value is loaded from there, and what lies apart is loaded as before. -/
theorem steps_touch (h : Reached code m) : ∃ m₀, Machine.new code = .ok m₀ ∧
    m.memory.bytes.size = m₀.memory.bytes.size ∧ m.memory.strings.size = m₀.memory.strings.size ∧
    m.code = code ∧ headerSize ≤ m.cursor ∧
    (∀ {σ : Type} (host : Host σ) (s : σ), match (m.step host s).1 with
      | (.error _, m') => m'.memory = m.memory
      | (.ok _, m') => m'.memory = m.memory ∨ m.Assigns host s m'.memory) ∧
    ∀ a v memory, m.memory.store a v = .ok memory → ∃ k, m.memory.Stores memory a v k := by
  obtain ⟨m₀, hm₀, hcode, hcursor, hbytes, hslots⟩ := h.keeps
  refine ⟨m₀, hm₀, hbytes, hslots, hcode, hcursor, fun host s => ?_, fun _ _ _ => Memory.stores⟩
  obtain ⟨result, _, _, _, hstep, -, hmemory⟩ := step_cases hcursor host s
  rw [hstep]
  cases result with
  | error => exact hmemory.resolve_right fun ⟨⟨_, h⟩, _⟩ => nomatch h
  | ok => exact hmemory.imp_right And.right

/-- Code with two bytes of storage that stores a truth value in the second: the step is an assignment, and
the value is stored. -/
theorem steps_touch_flag : ∃ m, Machine.new #[2, 0, 0, 0, 35, 11, 1, 0, 3] = .ok m ∧ Reached m.code m ∧
    headerSize ≤ m.cursor ∧ m.Assigns Host.idle () ⟨#[0, 1], #[]⟩ ∧
      ∃ k, m.memory.Stores ⟨#[0, 1], #[]⟩ 1 (.bool true) k := by
  have h : Reached #[2, 0, 0, 0, 35, 11, 1, 0, 3] ⟨#[2, 0, 0, 0, 35, 11, 1, 0, 3], 4, ⟨#[0, 0], #[]⟩⟩ := .new rfl
  obtain ⟨m, hm, -, -, -, hcursor, hstep, hstore⟩ := steps_touch h
  cases hm
  exact ⟨_, rfl, h, hcursor, (hstep Host.idle ()).resolve_left (by decide), hstore 1 (.bool true) _ rfl⟩

end Machine

end HostScript
