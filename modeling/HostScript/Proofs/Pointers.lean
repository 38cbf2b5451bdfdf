import HostScript.Proofs.OneFile
import HostScript.Proofs.Running

/-! Where pointers come from.

A script has no way to make a pointer: it can only pass on what the host gave it. The
record of a run shows this, event by event. The storage of a variable is not cleared
when it is used again, though, so a pointer variable that is read before anything is
assigned to it may find there what another variable left. -/
namespace HostScript

open List Option

/-- The pointer that a value is. -/
def Value.pointers : Value → List Pointer
  | .pointer p => [p]
  | _ => []

namespace Event

/-- The pointers that are handed to the host. -/
def given : Event → List Pointer
  | .call target _ args _ => target :: args.flatMap Value.pointers
  | .subscript target index _ => target :: index.pointers
  | .set target _ value => target :: value.pointers
  | .setSubscript target index value => target :: (index.pointers ++ value.pointers)
  | .update _ value => value.pointers
  | _ => []

/-- The pointers that the host gives back. -/
def received : Event → List Pointer
  | .call _ _ _ returned | .subscript _ _ returned => returned.pointers
  | _ => []

/-- Behind some events, every pointer but `NULL` that is handed to the host was received from it
before. -/
def EarnedAfter (past events : List Event) : Prop :=
  ∀ before e after, events = before ++ e :: after → ∀ p ∈ e.given, p ≠ 0 → ∃ b ∈ past ++ before, p ∈ b.received

variable {past as bs : List Event}

theorem earnedAfter_nil (past : List Event) : EarnedAfter past [] := by
  intro before e after h
  simp at h

theorem earnedAfter_singleton (h : ∀ p ∈ e.given, p ≠ 0 → ∃ b ∈ past, p ∈ b.received) : EarnedAfter past [e] := by
  intro before e' after heq p hp hne
  obtain ⟨rfl, h'⟩ | ⟨_, rfl, h'⟩ := append_eq_cons_iff.1 heq.symm
  · cases h'
    rw [append_nil]
    exact h p hp hne
  · simp at h'

theorem EarnedAfter.append (ha : EarnedAfter past as) (hb : EarnedAfter (past ++ as) bs) :
    EarnedAfter past (as ++ bs) := by
  intro before e after heq p hp hne
  obtain ⟨mid, rfl, hrest⟩ | ⟨mid, rfl, hrest⟩ := append_eq_append_iff.1 heq
  · obtain ⟨b, hmem, hb⟩ := hb mid e after hrest p hp hne
    exact ⟨b, by rwa [← append_assoc], hb⟩
  · cases mid with
    | nil =>
      obtain ⟨b, hmem, hb⟩ := hb [] e after hrest.symm p hp hne
      exact ⟨b, by simpa using hmem, hb⟩
    | cons e' mid =>
      obtain ⟨rfl, rfl⟩ := List.cons.inj hrest
      exact ha before e mid rfl p hp hne

end Event

open Event

/-! ### Trust in what was received -/

/-- The pointers that a record shows as received, and `NULL`. -/
def Trust.earned (σ : Type) : Trust (σ × Array Event) where
  later s t := ∃ more, t.2.toList = s.2.toList ++ more ∧ EarnedAfter s.2.toList more
  trusted s p := p = 0 ∨ ∃ e ∈ s.2.toList, p ∈ e.received
  refl s := ⟨[], (List.append_nil _).symm, earnedAfter_nil _⟩
  trans := by
    rintro s t u ⟨as, ht, has⟩ ⟨bs, hu, hbs⟩
    rw [ht] at hu hbs
    exact ⟨as ++ bs, by rw [hu, List.append_assoc], has.append hbs⟩
  mono := by
    rintro s t p ⟨as, ht, -⟩ (hp | ⟨e, he, hp⟩)
    · exact .inl hp
    · exact .inr ⟨e, by rw [ht]; exact List.mem_append_left _ he, hp⟩
  null _ := .inl rfl

section Recording

variable {σ α : Type} {s : σ × Array Event}

/-- A recorded action that hands out trusted pointers only. -/
theorem step_record (action : StateM σ α) (event : α → Event)
    (h : ∀ a, ∀ p ∈ (event a).given, (Trust.earned σ).trusted s p) :
    (Trust.earned σ).Step s (Host.record action event) := by
  refine ⟨[event (action s.1).1], Array.toList_push, earnedAfter_singleton fun p hp hne => ?_⟩
  exact (h _ p hp).resolve_left hne

theorem trusted_of_vouches (h : (Trust.earned σ).Vouches s v) (hp : p ∈ v.pointers) : (Trust.earned σ).trusted s p := by
  cases v with
  | pointer x =>
    rw [mem_singleton.1 hp]
    exact h x rfl
  | _ => cases hp

/-- What was just received is trusted. -/
theorem vouches_record (action : StateM σ Value) (event : Value → Event) (h : ∀ v, (event v).received = v.pointers) :
    (Trust.earned σ).Vouches (Host.record action event s).2 (Host.record action event s).1 := by
  intro p hp
  refine .inr ⟨event (action s.1).1, ?_, ?_⟩
  · show _ ∈ (s.2.push _).toList
    rw [Array.toList_push]
    exact mem_append_right _ (mem_singleton_self _)
  · have hreturned : (action s.1).1 = .pointer p := hp
    rw [h, hreturned]
    exact mem_singleton_self _

theorem keptBy_recording (host : Host σ) : (Trust.earned σ).KeptBy host.recording where
  invokeFunction f hf s target symbol args ht hargs := by
    obtain ⟨g, -, rfl⟩ := map_eq_some_iff.1 hf
    refine ⟨step_record _ _ fun a p hp => ?_, vouches_record _ _ fun _ => rfl⟩
    obtain rfl | hp := mem_cons.1 hp
    · exact ht
    · obtain ⟨v, hv, hp⟩ := mem_flatMap.1 hp
      exact trusted_of_vouches (hargs v hv) hp
  invokeSubscript f hf s target index ht hi := by
    obtain ⟨g, -, rfl⟩ := map_eq_some_iff.1 hf
    refine ⟨step_record _ _ fun a p hp => ?_, vouches_record _ _ fun _ => rfl⟩
    obtain rfl | hp := mem_cons.1 hp
    · exact ht
    · exact trusted_of_vouches hi hp
  assignProperty f hf s target symbol value ht hv := by
    obtain ⟨g, -, rfl⟩ := map_eq_some_iff.1 hf
    refine step_record _ _ fun a p hp => ?_
    obtain rfl | hp := mem_cons.1 hp
    · exact ht
    · exact trusted_of_vouches hv hp
  assignSubscript f hf s target index value ht hi hv := by
    obtain ⟨g, -, rfl⟩ := map_eq_some_iff.1 hf
    refine step_record _ _ fun a p hp => ?_
    obtain rfl | hp := mem_cons.1 hp
    · exact ht
    · exact (mem_append.1 hp).elim (trusted_of_vouches hi) (trusted_of_vouches hv)
  metadata f hf s text := by
    obtain ⟨g, -, rfl⟩ := map_eq_some_iff.1 hf
    exact step_record _ _ fun a p hp => nomatch hp
  debugLine f hf s n := by
    obtain ⟨g, -, rfl⟩ := map_eq_some_iff.1 hf
    exact step_record _ _ fun a p hp => nomatch hp
  debugUpdate f hf s name value hv := by
    obtain ⟨g, -, rfl⟩ := map_eq_some_iff.1 hf
    exact step_record _ _ fun a p hp => trusted_of_vouches hv hp
  debugDelete f hf s name := by
    obtain ⟨g, -, rfl⟩ := map_eq_some_iff.1 hf
    exact step_record _ _ fun a p hp => nomatch hp

end Recording

/-! ### Runs -/

/-- A host whose functions all give back the same value. -/
def Host.answering (v : Value) : Host Unit := { Host.idle with invokeFunction := some fun _ _ _ => pure v }

/-- What a host sees of a run. -/
def Host.events {σ : Type} (host : Host σ) (limit : Nat) (code : Array UInt8) (s : σ) : List Event :=
  (execute host.recording limit code (s, #[])).2.2.toList

namespace Build

open Session

variable {disk : Disk} {debug : Bool} {paths : List String} {path : Path} {code : Array UInt8}

/-- Scripts cannot forge pointers, as long as no pointer variable without a value takes the place of
another variable: every pointer that a run hands to the host was received from it earlier in the run. -/
theorem pointers_earned (hfile : (path, code) ∈ (run disk debug paths).files)
    (htexts : ∀ x ∈ (session disk debug paths).texts, Clean x)
    (hvoid : ∀ a ∈ (session disk debug paths).asks, a.hasVoidOperand = false)
    (hloose : ∀ v ∈ (session disk debug paths).surveys, v.Sparing)
    {σ : Type} (host : Host σ) (limit : Nat) (s : σ) {before after : List Event} {e : Event}
    (h : host.events limit code s = before ++ e :: after) {p : Pointer} (hp : p ∈ e.given) (hne : p ≠ 0) :
    ∃ b ∈ before, p ∈ b.received := by
  obtain ⟨room, lines, himage⟩ := image hfile (Session.proper_of htexts hvoid fun _ : True => hloose)
  have herror : ∀ f, host.recording.error = some f → ∀ s fault, (Trust.earned σ).Step s (f fault) := by
    intro f hf s fault
    obtain ⟨g, -, rfl⟩ := Option.map_eq_some_iff.1 hf
    exact step_record _ _ fun a p hp => nomatch hp
  obtain ⟨⟨more, hmore, hearned⟩, -⟩ :=
    himage.execute (keptBy_recording host) (fun hnot => absurd trivial hnot) herror limit (s, #[])
  have hevents : host.events limit code s = more := hmore
  exact hearned before e after (hevents.symm.trans h) p hp hne

/-! ### A pointer that is passed on -/

/-- A script that follows a list of the host. Its variable has no value at first, but nothing else
is ever kept in its place. -/
def chain : String :=
  "#type Node \x7b Node next(); \x7d #global \x7b Node head(); \x7d Node n; n = head(); n = n.next();"

def chainCode : Array UInt8 :=
  #[8, 0, 0, 0, 35, 13, 0, 0, 32, 1, 1, 0, 0, 35, 13, 0, 0, 32, 6, 0, 0, 2, 0, 0]

theorem run_chain :
    run (oneFile chain) false ["/a"] = ⟨[], [("GLOBAL_head", 1), ("Node_next", 2)], [(rootFile, chainCode)]⟩ :=
  run_sorted ["GLOBAL_head", "Node_next"] (by decide +kernel) (by decide +kernel)

theorem pointers_earned_chain :
    (Host.answering (.pointer 7)).events 2 chainCode () =
        [.call 0 1 [] (.pointer 7), .call 7 2 [] (.pointer 7)] ∧
      ∃ b ∈ [Event.call 0 1 [] (.pointer 7)], (7 : Pointer) ∈ b.received := by
  have hevents : (Host.answering (.pointer 7)).events 2 chainCode () =
      [.call 0 1 [] (.pointer 7)] ++ .call 7 2 [] (.pointer 7) :: [] := by
    decide +kernel
  have hfile : (rootFile, chainCode) ∈ (run (oneFile chain) false ["/a"]).files := by
    rw [run_chain]
    exact List.mem_singleton_self _
  refine ⟨hevents, pointers_earned hfile ?_ ?_ ?_ _ 2 () hevents (List.mem_singleton_self _) (by decide)⟩
  all_goals decide +kernel

/-! ### A pointer that is not -/

/-- A number in one block and, in the same place, a pointer without a value in the next one. -/
def leftover : String :=
  "#type Node \x7b void ping(); \x7d #global \x7b void f(Node n); \x7d \x7b uint64 x = 5; \x7d \x7b Node n; f(n); \x7d"

def leftoverCode : Array UInt8 :=
  #[8, 0, 0, 0, 35, 8, 0, 0, 2, 5, 0, 0, 0, 0, 0, 0, 0, 33, 1, 1, 0, 1, 13, 6, 0, 0]

/-- The number is handed to the host as a pointer, and nothing was received from the host before. -/
theorem pointer_forged :
    run (oneFile leftover) false ["/a"] =
        ⟨[], [("GLOBAL_f_Node", 1), ("Node_ping", 2)], [(rootFile, leftoverCode)]⟩ ∧
      (Host.answering .nothing).events 2 leftoverCode () = [.call 0 1 [.pointer 5] .nothing] := by
  refine ⟨run_sorted ["GLOBAL_f_Node", "Node_ping"] ?_ ?_, ?_⟩ <;> decide +kernel

end Build

end HostScript
