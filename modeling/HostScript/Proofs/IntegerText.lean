import HostScript.Proofs.Integers

/-! Integers as text.

The text of an integer is its decimal digits behind a sign. It has no blanks to lose, and it reads as
the same integer as long as that has 64 bits (`read_intText`). So an integer of any kind comes back from
its text, in a running script and at compile time (`text_returns`). -/
namespace HostScript

open List Option

-- powers are those of core
attribute [local instance (high)] instPowNat

variable {c : Char} {n : Int}

namespace Number

theorem digit?_of_isDigit (h : c.isDigit) : digit? c = some (c.toNat - '0'.toNat) :=
  if_pos (by simpa [Char.isDigit, Char.le_def] using h)

/-- Digits are read up to their end, as the library reads them. -/
theorem digits_eq (cs : List Char) (h : ∀ c ∈ cs, c.isDigit) (m : Nat) :
    digits cs m = (Nat.ofDigitChars 10 cs m, []) := by
  induction cs generalizing m with
  | nil => rfl
  | cons c cs ih =>
    obtain ⟨hc, hcs⟩ := forall_mem_cons.1 h
    rw [digits, digit?_of_isDigit hc, Nat.ofDigitChars_cons]
    exact ih hcs _

theorem nat?_toDigits (m : Nat) : nat? (Nat.toDigits 10 m) = some m := by
  have hread := digits_eq (Nat.toDigits 10 m) (fun c => Nat.isDigit_of_mem_toDigits (by decide) (by decide)) 0
  rw [Nat.ofDigitChars_ten_toDigits] at hread
  cases htext : Nat.toDigits 10 m with
  | nil => exact absurd htext Nat.toDigits_ne_nil
  | cons c rest =>
    rw [htext] at hread
    simp only [nat?, hread]

/-- Only an explicit sign is taken off. -/
theorem sign_toDigits (m : Nat) : sign (Nat.toDigits 10 m) = (false, Nat.toDigits 10 m) := by
  cases htext : Nat.toDigits 10 m with
  | nil => rfl
  | cons c rest =>
    have hc : c.isDigit := Nat.isDigit_of_mem_toDigits (b := 10) (n := m) (by decide) (by decide) (by simp [htext])
    unfold sign
    split
    · simp_all [Char.isDigit]
    · simp_all [Char.isDigit]
    · rfl

theorem int?_intText (hleast : -(2 ^ 63) ≤ n) (hgreatest : n < 2 ^ 64) : int? (Value.intText n).toList = some n := by
  unfold Value.intText int?
  rw [String.toList_ofList]
  by_cases hneg : n < 0
  · rw [if_pos hneg]
    have hsmall : n.natAbs ≤ 2 ^ 63 := by omega
    simp only [cons_append, nil_append, sign, nat?_toDigits, bind_some, if_true, if_pos hsmall]
    congr 1
    omega
  · rw [if_neg hneg]
    have hsmall : n.natAbs < 2 ^ 64 := by omega
    simp only [nil_append, sign_toDigits, nat?_toDigits, bind_some, Bool.false_eq_true, if_false, if_pos hsmall]
    congr 1
    omega

end Number

namespace Text

theorem trim_of_forall (h : ∀ c ∈ text, isBlank c = false) : trim text = text := by
  have hdrop : ∀ {text : List Char}, (∀ c ∈ text, isBlank c = false) → text.dropWhile isBlank = text := by
    intro text h
    cases text with
    | nil => rfl
    | cons c rest => rw [dropWhile_cons_of_neg (by simp [h c])]
  rw [trim, hdrop h, hdrop (by simpa using h), reverse_reverse]

theorem isBlank_of_isDigit (h : c.isDigit) : isBlank c = false := by
  have hrange : 48 ≤ c.toNat ∧ c.toNat ≤ 57 := by simpa [Char.isDigit, UInt32.le_iff_toNat_le] using h
  unfold isBlank
  simp
  omega

end Text

theorem Value.isBlank_of_mem_intText (h : c ∈ (intText n).toList) : Text.isBlank c = false := by
  rw [intText, String.toList_ofList] at h
  obtain h | h := mem_append.1 h
  · split at h
    · obtain rfl := mem_singleton.1 h
      decide
    · cases h
  · exact Text.isBlank_of_isDigit (Nat.isDigit_of_mem_toDigits (by decide) (by decide) h)

/-- The text of an integer of 64 bits, signed or not, reads as that integer. -/
theorem Number.read_intText (hleast : -(2 ^ 63) ≤ n) (hgreatest : n < 2 ^ 64) :
    read (Value.intText n).toList = .int n := by
  unfold read
  rw [Text.trim_of_forall fun c => Value.isBlank_of_mem_intText]
  simp only [int?_intText hleast hgreatest]

namespace IntKind

variable {k : IntKind}

theorem read_text (word : Word k) : Number.read (Value.intText (k.toInt word)).toList = .int (k.toInt word) := by
  obtain ⟨hleast, hgreatest⟩ := k.range_toInt word
  have hwide : -(2 ^ 63) ≤ k.least ∧ k.greatest < 2 ^ 64 := by cases k <;> decide
  exact Number.read_intText (by omega) (by omega)

theorem ofInt_toInt (word : Word k) : k.ofInt (k.toInt word) = word := by
  unfold ofInt toInt
  split
  · exact BitVec.ofInt_toInt
  · rw [BitVec.ofInt_natCast, BitVec.ofNat_toNat, BitVec.setWidth_eq]

end IntKind

/-- An integer comes back from its text as it was, and so does a boolean. A running script and the compiler write
the same text, and both read it back. -/
theorem text_returns : (∀ (k : IntKind) (word : Word k), ∃ s, (Value.int k word).cast .string = .string s ∧
      (Value.string s).cast (.int k) = .int k word ∧ (Literal.int k word).cast (.kind .string) = .ok (.string s) ∧
      (Literal.string s).cast (.kind (.int k)) = .ok (.int k word)) ∧
    ∀ b : Bool, ∃ s, (Value.bool b).cast .string = .string s ∧ (Value.string s).cast .bool = .bool b ∧
      (Literal.bool b).cast (.kind .string) = .ok (.string s) ∧
      (Literal.string s).cast (.kind .bool) = .ok (.bool b) := by
  refine ⟨fun k word => ⟨Value.intText (k.toInt word), rfl, ?_, rfl, ?_⟩, fun b => ⟨Value.boolText b, rfl, ?_, rfl, ?_⟩⟩
  · show Value.int k (Number.toWord k (Number.read (Value.intText (k.toInt word)).toList)) = _
    rw [IntKind.read_text]
    exact congrArg (Value.int k) (IntKind.ofInt_toInt word)
  · show (Literal.toWord k (Number.read (Value.intText (k.toInt word)).toList)).map (Literal.int k) = _
    rw [IntKind.read_text, Literal.toWord, Number.whole, if_pos (k.range_toInt word)]
    exact congrArg (fun w => Except.ok (Literal.int k w)) (IntKind.ofInt_toInt word)
  · cases b <;> rfl
  · cases b <;> rfl

example : (Value.int .int8 (-128)).cast .string = .string "-128" ∧
    (Value.string "-128").cast (.int .int8) = .int .int8 (-128) := by decide

end HostScript
