import HostScript.Proofs.Unfolded

/-! Literals in code.

A literal is written without its length: the width of a number follows from the kind it
is read as, and a text ends at a zero byte. `literal_reads_back` says when this is
enough. Every number, truth value and `NULL` reads back, whatever stands around it, and
so does every text but those with a `NUL` character, of which only the part before it is
left. -/
namespace HostScript

open Code

theorem Utf8.encode_append (s t : String) : encode (s ++ t) = encode s ++ encode t := by
  simp [encode]

/-- What stands before the first `NUL` character of a text that has one. -/
theorem exists_clean_before_nul (h : ¬ Clean s) : ∃ a b, Clean a ∧ s = a ++ "\x00" ++ b := by
  obtain ⟨pre, post, hs, hpre⟩ := List.eq_append_cons_of_mem (Classical.not_not.1 h)
  refine ⟨String.ofList pre, String.ofList post, clean_ofList hpre, String.toList_inj.1 ?_⟩
  rw [hs]
  simp

namespace Fragment

theorem bytes_literal (l : Literal) (numbers : String → Nat) :
    (literal l).bytes.toList = (Node.ofLiteral l).code numbers := by
  rw [pieces_ofLiteral, ← Node.final_pieces]
  cases l <;> rfl

/-- A literal stands where it was written, whatever follows. -/
theorem hasAt_literal (f : Fragment) (l : Literal) (rest : Array UInt8) :
    HasAt ((f ++ literal l).bytes ++ rest) f.size (literal l).bytes.toList := by
  have hcode : ((f ++ literal l).bytes ++ rest).toList =
      f.bytes.toList ++ ((literal l).bytes.toList ++ rest.toList) := by
    show (f.bytes ++ (literal l).bytes ++ rest).toList = _
    simp
  unfold HasAt
  rw [hcode, show f.size = f.bytes.toList.length from Array.length_toList.symm, List.drop_left]
  exact List.prefix_append _ _

end Fragment

section Evaluate

variable {σ : Type} {code : Array UInt8} {p : Nat} {l : Literal} {k : Kind}

/-- Where the bytes of a clean literal stand, the machine finds its value. -/
theorem Literal.Clean.evaluate (hc : l.Clean) (hk : l.primitive = .kind k)
    (h : HasAt code p (Fragment.literal l).bytes.toList) (memory : Memory) (host : Host σ) (dead : Bool) (st : σ) :
    Setting.evaluate ⟨code, memory, host⟩ dead k p st = ((.ok l.value, p + (Fragment.literal l).size), st) := by
  have hbytes := Fragment.bytes_literal l fun _ => 0
  have hsize : (Fragment.literal l).size = ((Node.ofLiteral l).code fun _ => 0).length := by
    rw [← hbytes]
    exact Array.length_toList.symm
  rw [hbytes] at h
  rw [hsize]
  exact (evaluates (R := .addressable) (fun _ _ h => h) _ _ k dead p (typed_ofLiteral hk hc) h (Nat.le_refl _) st).1
    _ _ (eval_ofLiteral _ dead k l st)

/-- Of a text with a `NUL` character the machine finds what stands before it. -/
theorem evaluate_text_cut (ha : Clean a) (h : HasAt code p (Fragment.literal (.string (a ++ "\x00" ++ b))).bytes.toList)
    (memory : Memory) (host : Host σ) (dead : Bool) (st : σ) : Setting.evaluate ⟨code, memory, host⟩ dead .string p st =
      ((.ok (.string a), p + (Fragment.literal (.string a)).size), st) := by
  refine Literal.Clean.evaluate (l := .string a) ha rfl ?_ memory host dead st
  have hsplit : (Fragment.literal (.string (a ++ "\x00" ++ b))).bytes.toList =
      (Fragment.literal (.string a)).bytes.toList ++ (Utf8.encode b ++ [0]) := by
    have hnul : Utf8.encode "\x00" = [0] := by decide
    simp [Fragment.literal, Utf8.encode_append, hnul]
  rw [hsplit] at h
  exact (hasAt_append.1 h).1

end Evaluate

/-- A literal reads back as it was written, with the cursor behind it, exactly when it is no text with
a `NUL` character. -/
theorem literal_reads_back {σ : Type} (f : Fragment) {l : Literal} {k : Kind} (hk : l.primitive = .kind k)
    (rest : Array UInt8) (memory : Memory) (host : Host σ) (dead : Bool) (st : σ) :
    Setting.evaluate ⟨(f ++ .literal l).bytes ++ rest, memory, host⟩ dead k f.size st =
      ((.ok l.value, (f ++ .literal l).size), st) ↔ l.Clean := by
  have hat := Fragment.hasAt_literal f l rest
  constructor
  · intro h
    cases l with
    | string s =>
      by_contra hnot
      obtain ⟨a, b, ha, rfl⟩ := exists_clean_before_nul hnot
      cases hk
      rw [evaluate_text_cut ha hat] at h
      have hsame : a = a ++ "\x00" ++ b := by simpa [Literal.value] using congrArg (·.1.1) h
      have hlength := congrArg (fun s : String => s.toList.length) hsame
      simp at hlength
    | _ => trivial
  · intro hc
    rw [hc.evaluate hk hat, Fragment.size_append]

/-- Characters of one to four bytes, with a zero byte among those that follow. -/
theorem literal_reads_back_text :
    Literal.Clean (.string "aé€😀") ∧
      Setting.evaluate ⟨(.opcode .not ++ Fragment.literal (.string "aé€😀")).bytes ++ #[98, 0], ⟨#[], #[]⟩, Host.idle⟩
        false .string 1 () = ((.ok (.string "aé€😀"), 13), ()) :=
  ⟨by show Clean _; decide, (literal_reads_back (.opcode .not) rfl #[98, 0] _ Host.idle false ()).2 (by show Clean _; decide)⟩

/-- The text `a`, `NUL`, `b` reads back as `a`, and the cursor stays in front of what is left of it. -/
theorem literal_text_cut :
    Setting.evaluate ⟨(Fragment.literal (.string "a\x00b")).bytes, ⟨#[], #[]⟩, Host.idle⟩ false .string 0 () =
      ((.ok (.string "a"), 3), ()) ∧ (Fragment.literal (.string "a\x00b")).size = 5 :=
  ⟨evaluate_text_cut (a := "a") (b := "b") (by decide) (by simp [HasAt]) _ _ _ _, by decide⟩

end HostScript
