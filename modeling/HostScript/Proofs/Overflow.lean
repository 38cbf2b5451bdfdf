import HostScript.Host.Console
import HostScript.Proofs.Lockstep

/-! Output that is cut short.

A console with room for so many bytes does what one without a limit does, up to the first text that
does not fit. From there on the two runs go their own ways, for a full console reads no more either. But
nothing of this is seen: the one only adds to its output, and the other keeps what it has. -/
namespace HostScript.Console

variable {room : Nat}

/-- Both consoles have written the same, or one of them is full and has written what fits. -/
def limited (room : Nat) : Company State State where
  near s t := s.capacity = none ∧ s.output.size ≤ room ∧ s.failure ≠ some .full ∧ t = { s with capacity := some room }
  apart s t :=
    s.capacity = none ∧ room < s.output.size ∧ t.failure = some .full ∧ t.output.toList = s.output.toList.take room

theorem emit_apply (text : String) (s : State) :
    emit text s = ((), if s.failure.isSome then s else s.write (Utf8.encode text)) := rfl

theorem write_unlimited {s : State} (hs : s.capacity = none) (bytes : List UInt8) :
    s.write bytes = { s with output := s.output ++ bytes } := by
  rw [State.write, hs]

theorem size_append (output : Array UInt8) (bytes : List UInt8) :
    (output ++ bytes).size = output.size + bytes.length := by
  rw [← Array.length_toList, Array.toList_appendList, List.length_append, Array.length_toList]

theorem keeps_emit (text : String) : (limited room).Keeps (emit text) (emit text) where
  near {s t} := by
    rintro ⟨hcapacity, hsize, hfailure, rfl⟩
    rw [emit_apply, emit_apply]
    split
    · exact .inl ⟨rfl, hcapacity, hsize, hfailure, rfl⟩
    · rw [write_unlimited hcapacity]
      by_cases hfits : room - s.output.size < (Utf8.encode text).length
      · refine .inr ⟨hcapacity, ?_, if_pos hfits, ?_⟩
        · rw [size_append]
          omega
        · simp [State.write, List.take_append, List.take_of_length_le hsize]
      · refine .inl ⟨rfl, hcapacity, ?_, hfailure, ?_⟩
        · rw [size_append]
          omega
        · simp [State.write, if_neg hfits, List.take_of_length_le (Nat.le_of_not_lt hfits)]
  left {s t} := by
    rintro ⟨hcapacity, hsize, hfailure, houtput⟩
    rw [emit_apply]
    split
    · exact ⟨hcapacity, hsize, hfailure, houtput⟩
    · rw [write_unlimited hcapacity]
      refine ⟨hcapacity, ?_, hfailure, houtput.trans ?_⟩
      · rw [size_append]
        omega
      · simp [List.take_append_of_le_length (Nat.le_of_lt hsize)]
  right h := by
    rw [emit_apply, if_pos (by simp [h.2.2.1])]
    exact h

theorem readLine_apply (s : State) : readLine s =
    if s.failure.isSome then ("", s)
    else
      match Utf8.decode (splitLine s.input).1 with
      | .ok chars => (String.ofList (trimEnd chars), { s with input := (splitLine s.input).2 })
      | .error _ => ("", { s with input := (splitLine s.input).2, failure := some .notText }) := rfl

theorem keeps_readLine : (limited room).Keeps readLine readLine where
  near {s t} := by
    rintro ⟨hcapacity, hsize, hfailure, rfl⟩
    refine .inl ?_
    rw [readLine_apply, readLine_apply]
    dsimp only
    split
    · exact ⟨rfl, hcapacity, hsize, hfailure, rfl⟩
    · split
      · exact ⟨rfl, hcapacity, hsize, hfailure, rfl⟩
      · exact ⟨rfl, hcapacity, hsize, nofun, rfl⟩
  left {s t} h := by
    rw [readLine_apply]
    split
    · exact h
    · split <;> exact h
  right h := by
    rw [readLine_apply, if_pos (by simp [h.2.2.1])]
    exact h

theorem keeps_invoke (symbols : Fragment.Symbols) (target : Pointer) (symbol : Symbol) (args : List Value) :
    (limited room).Keeps (invoke symbols target symbol args) (invoke symbols target symbol args) := by
  unfold invoke
  split
  · exact keeps_pure _
  · split
    · exact keeps_readLine.bind fun _ => keeps_pure _
    · split
      · exact (keeps_emit _).bind fun _ => keeps_pure _
      · exact keeps_pure _

theorem keeps_shown {α : Type} (debug : Bool) (shown : α → String) (a : α) :
    (limited room).Keeps (Host.notify ((if debug then some fun a => emit (shown a) else none).map fun f => f a))
      (Host.notify ((if debug then some fun a => emit (shown a) else none).map fun f => f a)) := by
  cases debug with
  | true => exact keeps_emit _
  | false => exact keeps_pure _

theorem match_limited (symbols : Fragment.Symbols) (debug : Bool) :
    (host symbols debug).Match (limited room) (host symbols debug) where
  invokeFunction := .some fun target symbol args => keeps_invoke symbols target symbol args
  invokeSubscript := .none
  assignProperty := .none
  assignSubscript := .none
  metadata _ := keeps_emit _
  debugLine n := keeps_shown debug _ n
  debugUpdate name value := by
    cases debug with
    | true => exact keeps_emit _
    | false => exact keeps_pure _
  debugDelete name := keeps_shown debug _ name
  error _ := keeps_pure _

theorem Outcome.of_eq_failed {ending : Ending} {failure : Option Failure} {f : Failure}
    (h : Outcome.of ending failure = .failed f) : failure = some f := by
  cases failure with
  | some g =>
    cases h
    rfl
  | none => cases ending <;> cases h

/-- However many statements are run, the limited console has written as much of the output as there is room for. It
fails for want of room just if there is more, and otherwise both runs come to the same. -/
theorem output_cut (code : Array UInt8) (symbols : Fragment.Symbols) (debug : Bool) (input : List UInt8)
    (room limit : Nat) :
    let full := run code symbols debug input none limit
    let cut := run code symbols debug input (some room) limit
    cut.2.toList = full.2.toList.take room ∧ (cut.1 = .failed .full ↔ room < full.2.size) ∧
      (full.2.size ≤ room → cut.1 = full.1) := by
  have hrun : ∀ capacity, run code symbols debug input capacity limit =
      (Outcome.of (execute (host symbols debug) limit code ⟨input, #[], capacity, none⟩).1
        (execute (host symbols debug) limit code ⟨input, #[], capacity, none⟩).2.failure,
        (execute (host symbols debug) limit code ⟨input, #[], capacity, none⟩).2.output) := fun _ => rfl
  have hnear : (limited room).near ⟨input, #[], none, none⟩ ⟨input, #[], some room, none⟩ :=
    ⟨rfl, Nat.zero_le _, nofun, rfl⟩
  rw [hrun, hrun]
  obtain ⟨hending, -, hsize, hfailure, hstate⟩ | ⟨-, hsize, hfailure, houtput⟩ :=
    (keeps_execute (match_limited symbols debug) limit code).near hnear
  · rw [hstate, ← hending]
    refine ⟨(List.take_of_length_le hsize).symm, ⟨fun h => ?_, fun h => absurd hsize (Nat.not_le_of_lt h)⟩, fun _ => rfl⟩
    exact absurd (Outcome.of_eq_failed h) hfailure
  · rw [hfailure]
    exact ⟨houtput, ⟨fun _ => hsize, fun _ => rfl⟩, fun h => absurd hsize (Nat.not_lt_of_le h)⟩

/-- There is room for `hi`, but not for the end of the line. -/
example : run #[0, 0, 0, 0, 33, 1, 1, 0, 1, 12, 2, 104, 105, 0] [("GLOBAL_print_VARIADIC", 1)] false [] (some 2) 9 =
    (.failed .full, #[104, 105]) := by decide +kernel

end HostScript.Console
