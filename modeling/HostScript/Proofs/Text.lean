import HostScript.Literal
import HostScript.Text.Utf8

/-! Texts in code.

A text is written as its bytes with a zero byte behind it, and read up to the first
zero byte. So it reads back as it was written when no zero byte is among its own,
and that is when it has no `NUL` character. -/
namespace HostScript

open List

variable {digits : List Char} {n : Nat}

namespace Utf8

/-! ### Reading back -/

theorem tail_ofNat (h : low ≤ n) (hh : n ≤ high) (hn : n < 256) : tail low high (UInt8.ofNat n) = some (n - 0x80) := by
  have hb : (UInt8.ofNat n).toNat = n := by
    rw [UInt8.toNat_ofNat']
    exact Nat.mod_eq_of_lt hn
  simp only [tail, hb]
  rw [if_pos ⟨h, hh⟩]

theorem toNat_tail (n : Nat) : 0x80 + n % 64 < 256 ∧ 0x80 ≤ 0x80 + n % 64 ∧ 0x80 + n % 64 ≤ 0xBF := by
  omega

theorem two_encoded (h1 : 0x80 ≤ n) (rest : List UInt8) :
    two (0xC0 + n / 64) (UInt8.ofNat (0x80 + n % 64) :: rest) = .char (Char.ofNat n) rest := by
  obtain ⟨hz, hz1, hz2⟩ := toNat_tail n
  simp only [two, tail_ofNat hz1 hz2 hz]
  rw [show (0xC0 + n / 64 - 0xC0) * 64 + (0x80 + n % 64 - 0x80) = n by omega]

theorem three_encoded (h1 : 0x800 ≤ n) (h2 : n < 0x10000) (hs : n < 0xD800 ∨ 0xDFFF < n) (rest : List UInt8) :
    three (0xE0 + n / 4096) (UInt8.ofNat (0x80 + n / 64 % 64) :: UInt8.ofNat (0x80 + n % 64) :: rest) =
        .char (Char.ofNat n) rest := by
  obtain ⟨hy, -, -⟩ := toNat_tail (n / 64)
  obtain ⟨hz, hz1, hz2⟩ := toNat_tail n
  -- The second byte keeps clear of short forms and of surrogates.
  have hrange : (secondOfThree (0xE0 + n / 4096)).1 ≤ 0x80 + n / 64 % 64 ∧
      0x80 + n / 64 % 64 ≤ (secondOfThree (0xE0 + n / 4096)).2 := by
    unfold secondOfThree
    split
    · constructor <;> dsimp only <;> omega
    · split
      · constructor <;> dsimp only <;> omega
      · constructor <;> dsimp only <;> omega
  simp only [three, tail_ofNat hrange.1 hrange.2 hy, tail_ofNat hz1 hz2 hz]
  rw [show (0xE0 + n / 4096 - 0xE0) * 4096 + (0x80 + n / 64 % 64 - 0x80) * 64 + (0x80 + n % 64 - 0x80) = n by omega]

theorem four_encoded (h1 : 0x10000 ≤ n) (h2 : n < 0x110000) (rest : List UInt8) : four (0xF0 + n / 262144)
      (UInt8.ofNat (0x80 + n / 4096 % 64) :: UInt8.ofNat (0x80 + n / 64 % 64) ::
        UInt8.ofNat (0x80 + n % 64) :: rest) = .char (Char.ofNat n) rest := by
  obtain ⟨hx, -, -⟩ := toNat_tail (n / 4096)
  obtain ⟨hy, hy1, hy2⟩ := toNat_tail (n / 64)
  obtain ⟨hz, hz1, hz2⟩ := toNat_tail n
  have hrange : (secondOfFour (0xF0 + n / 262144)).1 ≤ 0x80 + n / 4096 % 64 ∧
      0x80 + n / 4096 % 64 ≤ (secondOfFour (0xF0 + n / 262144)).2 := by
    unfold secondOfFour
    split
    · constructor <;> dsimp only <;> omega
    · split
      · constructor <;> dsimp only <;> omega
      · constructor <;> dsimp only <;> omega
  simp only [four, tail_ofNat hrange.1 hrange.2 hx, tail_ofNat hy1 hy2 hy, tail_ofNat hz1 hz2 hz]
  rw [show (0xF0 + n / 262144 - 0xF0) * 262144 + (0x80 + n / 4096 % 64 - 0x80) * 4096 +
    (0x80 + n / 64 % 64 - 0x80) * 64 + (0x80 + n % 64 - 0x80) = n by omega]

theorem toNat_ofNat_of_lt (h : n < 256) : (UInt8.ofNat n).toNat = n := by
  rw [UInt8.toNat_ofNat']
  exact Nat.mod_eq_of_lt h

/-- The bytes of a character, in front of anything, read as the character. -/
theorem step_encodeChar (c : Char) :
    ∃ b more, encodeChar c = b :: more ∧ ∀ rest, step b (more ++ rest) = .char c rest := by
  have hvalid : c.toNat < 0xD800 ∨ (0xDFFF < c.toNat ∧ c.toNat < 0x110000) := c.valid
  have hc : Char.ofNat c.toNat = c := Char.ofNat_toNat c
  unfold encodeChar
  dsimp only
  split
  · rename_i h1
    refine ⟨_, _, rfl, fun rest => ?_⟩
    have hlead := toNat_ofNat_of_lt (show c.toNat < 256 by omega)
    simp only [step, hlead, h1, if_true, hc, nil_append]
  · rename_i h1
    split
    · rename_i h2
      refine ⟨_, _, rfl, fun rest => ?_⟩
      have hlead := toNat_ofNat_of_lt (show 0xC0 + c.toNat / 64 < 256 by omega)
      simp only [step, hlead, cons_append, nil_append]
      rw [if_neg (by omega), if_neg (by omega), if_pos (by omega), two_encoded (by omega), hc]
    · split
      · rename_i h2 h3
        refine ⟨_, _, rfl, fun rest => ?_⟩
        have hlead := toNat_ofNat_of_lt (show 0xE0 + c.toNat / 4096 < 256 by omega)
        simp only [step, hlead, cons_append, nil_append]
        rw [if_neg (by omega), if_neg (by omega), if_neg (by omega), if_pos (by omega),
          three_encoded (by omega) (by omega) (by omega), hc]
      · rename_i h2 h3
        refine ⟨_, _, rfl, fun rest => ?_⟩
        have hlead := toNat_ofNat_of_lt (show 0xF0 + c.toNat / 262144 < 256 by omega)
        simp only [step, hlead, cons_append, nil_append]
        rw [if_neg (by omega), if_neg (by omega), if_neg (by omega), if_neg (by omega),
          if_pos (by omega), four_encoded (by omega) (by omega), hc]

theorem decodeFrom_flatMap (chars : List Char) :
    ∀ (fuel index : Nat) (done : List Char), (chars.flatMap encodeChar).length ≤ fuel →
      decodeFrom fuel index (chars.flatMap encodeChar) done = .ok (done.reverse ++ chars) := by
  induction chars with
  | nil =>
    intro fuel index done _
    cases fuel <;> simp [decodeFrom]
  | cons c rest ih =>
    intro fuel index done hfuel
    obtain ⟨b, more, hb, hstep⟩ := step_encodeChar c
    rw [flatMap_cons, hb, cons_append] at hfuel ⊢
    rw [length_cons, length_append] at hfuel
    cases fuel with
    | zero => omega
    | succ fuel =>
      simp only [decodeFrom, hstep]
      rw [ih fuel _ _ (by omega)]
      simp

theorem decode_encode (s : String) : decode (encode s) = .ok s.toList :=
  decodeFrom_flatMap s.toList _ 0 [] (Nat.le_refl _)

/-! ### Zero bytes -/

theorem zero_notMem_encodeChar (h : c ≠ '\x00') : (0 : UInt8) ∉ encodeChar c := by
  have hvalid : c.toNat < 0xD800 ∨ (0xDFFF < c.toNat ∧ c.toNat < 0x110000) := c.valid
  have hpos : c.toNat ≠ 0 := fun h0 => h (by rw [← Char.ofNat_toNat c, h0])
  have hbyte : ∀ {n : Nat}, 0 < n → n < 256 → (0 : UInt8) ≠ UInt8.ofNat n := by
    intro n h0 h1 heq
    have := congrArg UInt8.toNat heq
    rw [toNat_ofNat_of_lt h1] at this
    simp at this
    omega
  unfold encodeChar
  dsimp only
  split
  · simpa using hbyte (by omega) (by omega)
  · split
    · simp only [mem_cons, not_mem_nil, or_false, not_or]
      exact ⟨hbyte (by omega) (by omega), hbyte (by omega) (by omega)⟩
    · split
      · simp only [mem_cons, not_mem_nil, or_false, not_or]
        exact ⟨hbyte (by omega) (by omega), hbyte (by omega) (by omega), hbyte (by omega) (by omega)⟩
      · simp only [mem_cons, not_mem_nil, or_false, not_or]
        exact ⟨hbyte (by omega) (by omega), hbyte (by omega) (by omega),
          hbyte (by omega) (by omega), hbyte (by omega) (by omega)⟩

end Utf8

/-! ### Texts without `NUL` -/

/-- The text has no `NUL` character. -/
def Clean (s : String) : Prop := '\x00' ∉ s.toList

instance (s : String) : Decidable (Clean s) := inferInstanceAs (Decidable (_ ∉ _))

theorem Clean.zero_notMem (h : Clean s) : (0 : UInt8) ∉ Utf8.encode s := by
  intro h0
  obtain ⟨c, hc, h0⟩ := mem_flatMap.1 h0
  exact Utf8.zero_notMem_encodeChar (fun heq => h (heq ▸ hc)) h0

theorem Clean.append (hs : Clean s) (ht : Clean t) : Clean (s ++ t) := by
  unfold Clean at *
  rw [String.toList_append, mem_append]
  exact fun h => h.elim hs ht

theorem clean_ofList (h : '\x00' ∉ chars) : Clean (String.ofList chars) := by
  unfold Clean
  rwa [String.toList_ofList]

/-! ### Numbers as text -/

theorem nul_notMem_toDigits (n : Nat) : '\x00' ∉ Nat.toDigits 10 n := by
  intro h
  have := Nat.isDigit_of_mem_toDigits (by decide) (by decide) h
  exact absurd this (by decide)

namespace Decimal

theorem nul_notMem_padded (width n : Nat) : '\x00' ∉ padded width n := by
  unfold padded
  simp only [mem_append, mem_replicate, not_or]
  exact ⟨fun h => absurd h.2 (by decide), nul_notMem_toDigits n⟩

theorem nul_notMem_fraction (h : '\x00' ∉ digits) : '\x00' ∉ fraction digits := by
  have hrest : '\x00' ∉ (digits.reverse.dropWhile (· == '0')).reverse := by
    rw [mem_reverse]
    intro hm
    exact h (mem_reverse.1 ((dropWhile_sublist _).mem hm))
  unfold fraction
  split
  · simp
  · simp only [mem_cons, not_or]
    exact ⟨by decide, hrest⟩

theorem nul_notMem_positional (h : '\x00' ∉ digits) (e : Int) : '\x00' ∉ positional digits e := by
  unfold positional
  split
  · rw [mem_append, not_or]
    exact ⟨fun hm => h (mem_of_mem_take hm), nul_notMem_fraction fun hm => h (mem_of_mem_drop hm)⟩
  · simp only [mem_cons, not_or]
    refine ⟨by decide, nul_notMem_fraction ?_⟩
    simp only [mem_append, mem_replicate, not_or]
    exact ⟨fun hm => absurd hm.2 (by decide), h⟩

theorem nul_notMem_scientific (h : '\x00' ∉ digits) (e : Int) : '\x00' ∉ scientific digits e := by
  unfold scientific
  simp only [mem_append, not_or]
  refine ⟨⟨⟨fun hm => h (mem_of_mem_take hm),
    nul_notMem_fraction fun hm => h (mem_of_mem_drop hm)⟩, ?_⟩, nul_notMem_padded _ _⟩
  split <;> decide

end Decimal

theorem Binary.nul_notMem_text (format : DecimalFormat) (x : Binary k) : '\x00' ∉ x.text format := by
  have hsign : '\x00' ∉ (if x.negative then ['-'] else [] : List Char) := by
    split <;> decide
  unfold Binary.text
  dsimp only
  split
  · decide
  · rw [mem_append, not_or]
    exact ⟨hsign, by decide⟩
  · split
    · rw [mem_append, not_or]
      exact ⟨hsign, by decide⟩
    · rw [mem_append, not_or]
      refine ⟨hsign, ?_⟩
      generalize Decimal.significant _ _ _ = shown
      split
      · exact Decimal.nul_notMem_positional (Decimal.nul_notMem_padded _ _) _
      · exact Decimal.nul_notMem_scientific (Decimal.nul_notMem_padded _ _) _

theorem Value.clean_intText (n : Int) : Clean (intText n) := by
  refine clean_ofList ?_
  rw [mem_append, not_or]
  refine ⟨?_, nul_notMem_toDigits _⟩
  split <;> decide

theorem Value.clean_floatText (k : FloatKind) (x : Binary k) : Clean (floatText k x) := by
  cases k <;> exact clean_ofList (Binary.nul_notMem_text _ _)

/-! ### Literals -/

namespace Literal

/-- A text literal has no `NUL` character. -/
def Clean : Literal → Prop
  | .string s => HostScript.Clean s
  | _ => True

theorem clean_text {l : Literal} (h : l.Clean) : HostScript.Clean l.text := by
  cases l with
  | int _ _ | untypedSigned _ | untypedInteger _ => exact Value.clean_intText _
  | float k x => exact Value.clean_floatText k x
  | bool b => cases b <;> decide
  | string s => exact h
  | null => decide
  | untypedFloat x => exact Value.clean_floatText _ x

theorem clean_of_primitive {l : Literal} (h : l.primitive ≠ .kind .string) : l.Clean := by
  cases l with
  | string s => exact absurd rfl h
  | _ => trivial

end Literal

end HostScript
