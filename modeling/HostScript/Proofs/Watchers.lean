import HostScript.Proofs.Lockstep
import HostScript.Proofs.Pointers

/-! Those who watch change nothing.

Metadata, what a debugger is told and the report of a fault go to handlers that a host may
have or not, and nothing comes back from them. So a run can tell that somebody watches only
by the answers that it gets later on. Where these are settled by what the script has asked
for and set before (`Host.Heeds`), all that changes with those who watch are the events that
they are told: the rest of the events, the memory after each statement and the end of a run
stay what they are, on any code. -/
namespace HostScript

open List Option

variable {es : List Event} {α β : Type}

/-- What a script asks for or sets. Everything else is told to somebody who watches. -/
def Event.isService : Event → Bool
  | .call _ _ _ _ | .subscript _ _ _ | .set _ _ _ | .setSubscript _ _ _ => true
  | _ => false

namespace Host

variable {σ : Type}

/-- Whether an event gets to a host. -/
def hears (host : Host σ) : Event → Bool
  | .metadata _ => host.metadata.isSome
  | .line _ => host.debugLine.isSome
  | .update _ _ => host.debugUpdate.isSome
  | .delete _ => host.debugDelete.isSome
  | .error _ => host.error.isSome
  | _ => true

/-- The host with nobody who watches. -/
def unwatched (host : Host σ) : Host σ :=
  { host with metadata := none, debugLine := none, debugUpdate := none, debugDelete := none, error := none }

/-! ### What a host knows -/

/-- A host does what is asked of it, and goes on in another state. -/
inductive Serves (host : Host σ) : σ → Event → σ → Prop
  | call (hf : host.invokeFunction = some f) (s : σ) (target : Pointer) (symbol : Symbol) (args : List Value) :
      Serves host s (.call target symbol args (f target symbol args s).1) (f target symbol args s).2
  | subscript (hf : host.invokeSubscript = some f) (s : σ) (target : Pointer) (index : Value) :
      Serves host s (.subscript target index (f target index s).1) (f target index s).2
  | set (hf : host.assignProperty = some f) (s : σ) (target : Pointer) (symbol : Symbol) (value : Value) :
      Serves host s (.set target symbol value) (f target symbol value s).2
  | setSubscript (hf : host.assignSubscript = some f) (s : σ) (target : Pointer) (index value : Value) :
      Serves host s (.setSubscript target index value) (f target index value s).2

/-- Somebody who watches is told something. -/
inductive Tells (host : Host σ) : σ → σ → Prop
  | metadata (hf : host.metadata = some f) (s : σ) (text : String) : Tells host s (f text s).2
  | line (hf : host.debugLine = some f) (s : σ) (n : Nat) : Tells host s (f n s).2
  | update (hf : host.debugUpdate = some f) (s : σ) (name : String) (value : Value) : Tells host s (f name value s).2
  | delete (hf : host.debugDelete = some f) (s : σ) (name : String) : Tells host s (f name s).2
  | error (hf : host.error = some f) (s : σ) (fault : Fault) : Tells host s (f fault s).2

/-- The states that a host can be in after some services, whatever was told in between. -/
inductive After (host : Host σ) (start : σ) : List Event → σ → Prop
  | start : After host start [] start
  | served {es : List Event} (h : After host start es s) (hserves : host.Serves s e t) : After host start (es ++ [e]) t
  | told {es : List Event} (h : After host start es s) (htells : host.Tells s t) : After host start es t

/-- What a host answers is settled by the services that it did before. -/
structure Heeds (host : Host σ) (start : σ) : Prop where
  call : ∀ {f}, host.invokeFunction = some f → ∀ {es s t}, host.After start es s → host.After start es t →
    ∀ target symbol args, (f target symbol args s).1 = (f target symbol args t).1
  subscript : ∀ {f}, host.invokeSubscript = some f → ∀ {es s t}, host.After start es s → host.After start es t →
    ∀ target index, (f target index s).1 = (f target index t).1

section Watched

variable {host host' : Host σ} {start : σ}

theorem unwatched_unwatched : host.unwatched.unwatched = host.unwatched := rfl

theorem services_of_unwatched (hsame : host.unwatched = host'.unwatched) :
    host.invokeFunction = host'.invokeFunction ∧ host.invokeSubscript = host'.invokeSubscript ∧
      host.assignProperty = host'.assignProperty ∧ host.assignSubscript = host'.assignSubscript := by
  simp only [unwatched, Host.mk.injEq] at hsame
  exact ⟨hsame.1, hsame.2.1, hsame.2.2.1, hsame.2.2.2.1⟩

theorem Serves.of_unwatched (hsame : host.unwatched = host'.unwatched) (h : host.Serves s e t) :
    host'.Serves s e t := by
  obtain ⟨hcall, hsubscript, hset, hsetSubscript⟩ := services_of_unwatched hsame
  cases h with
  | call hf s target symbol args => exact .call (hcall.symm.trans hf) s target symbol args
  | subscript hf s target index => exact .subscript (hsubscript.symm.trans hf) s target index
  | set hf s target symbol value => exact .set (hset.symm.trans hf) s target symbol value
  | setSubscript hf s target index value => exact .setSubscript (hsetSubscript.symm.trans hf) s target index value

/-- Nobody is told anything by the host that nobody watches, so what it can come to the watched one can
come to as well. -/
theorem After.of_unwatched (h : host.unwatched.After start es s) : host.After start es s := by
  induction h with
  | start => exact .start
  | served _ hserves ih => exact ih.served (hserves.of_unwatched unwatched_unwatched)
  | told _ htells => cases htells with | _ hf => cases hf

/-! ### Two hosts that differ in who watches -/

/-- Both hosts have done the same for the script. The host that nobody watches has done so as well, and is in
a state that both of them could be in. -/
def Together (host host' : Host σ) (start : σ) (a b : σ × Array Event) : Prop :=
  (∃ es u, host.unwatched.After start es u ∧ host.After start es a.1 ∧ host'.After start es b.1) ∧
    a.2.toList.filter host'.hears = b.2.toList.filter host.hears

theorem hears_of_isService (h : e.isService = true) : host.hears e = true := by
  cases e with
  | call | subscript | set | setSubscript => rfl
  | metadata | line | update | delete | error => cases h

theorem filter_push (es : Array Event) (e : Event) (p : Event → Bool) :
    (es.push e).toList.filter p = es.toList.filter p ++ if p e then [e] else [] := by
  rw [Array.toList_push, filter_append, filter_singleton, cond_eq_ite]

/-- Both hosts answer a script as the host does that nobody watches. -/
theorem keeps_service {event : β → Event} (hsame : host.unwatched = host'.unwatched)
    (hserves : ∀ s, host.Serves s (event (action s).1) (action s).2) (hservice : ∀ b, (event b).isService = true)
    (hanswer : ∀ {es s t}, host.After start es s → host.After start es t → (action s).1 = (action t).1)
    (hanswer' : ∀ {es s t}, host'.After start es s → host'.After start es t → (action s).1 = (action t).1) :
    (Company.always (Together host host' start)).Keeps (record action event) (record action event) := by
  rw [keeps_always]
  rintro ⟨s, as⟩ ⟨t, bs⟩ ⟨⟨es, u, hu, hs, ht⟩, hevents⟩
  have hsu : (action s).1 = (action u).1 := hanswer hs hu.of_unwatched
  have htu : (action t).1 = (action u).1 := hanswer' ht (hsame ▸ hu).of_unwatched
  refine ⟨hsu.trans htu.symm, ⟨es ++ [event (action u).1], (action u).2, ?_, ?_, ?_⟩, ?_⟩
  · exact hu.served ((hserves u).of_unwatched unwatched_unwatched.symm)
  · exact hsu ▸ hs.served (hserves s)
  · exact htu ▸ ht.served ((hserves t).of_unwatched hsame)
  · show (as.push (event (action s).1)).toList.filter _ = (bs.push (event (action t).1)).toList.filter _
    rw [filter_push, filter_push, hears_of_isService (hservice _), hears_of_isService (hservice _), hsu, htu, hevents]

/-- An event is told to whoever watches, and dropped where nobody does. -/
theorem keeps_telling (told : α → StateM σ Unit) (e : Event) (hw : host.hears e = w.isSome)
    (hw' : host'.hears e = w'.isSome) (htells : ∀ f, w = some f → ∀ s, host.Tells s (told f s).2)
    (htells' : ∀ f, w' = some f → ∀ s, host'.Tells s (told f s).2) :
    (Company.always (Together host host' start)).Keeps (notify (w.map fun f => record (told f) fun _ => e))
      (notify (w'.map fun f => record (told f) fun _ => e)) := by
  rw [keeps_always]
  rintro ⟨s, as⟩ ⟨t, bs⟩ ⟨⟨es, u, hu, hs, ht⟩, hevents⟩
  cases w with
  | none =>
    cases w' with
    | none => exact ⟨rfl, ⟨es, u, hu, hs, ht⟩, hevents⟩
    | some g =>
      refine ⟨rfl, ⟨es, u, hu, hs, ht.told (htells' g rfl t)⟩, ?_⟩
      show as.toList.filter _ = (bs.push e).toList.filter _
      rw [filter_push, hw, hevents]
      exact (append_nil _).symm
  | some f =>
    cases w' with
    | none =>
      refine ⟨rfl, ⟨es, u, hu, hs.told (htells f rfl s), ht⟩, ?_⟩
      show (as.push e).toList.filter _ = bs.toList.filter _
      rw [filter_push, hw', hevents]
      exact append_nil _
    | some g =>
      refine ⟨rfl, ⟨es, u, hu, hs.told (htells f rfl s), ht.told (htells' g rfl t)⟩, ?_⟩
      show (as.push e).toList.filter _ = (bs.push e).toList.filter _
      rw [filter_push, filter_push, hw, hw', hevents]
      rfl

/-- A service that both hosts have, or neither. -/
theorem rel_service (hw : w = w') (h : ∀ g, w = some g → P (f g) (f g)) : Option.Rel P (w.map f) (w'.map f) := by
  subst hw
  cases w with
  | none => exact .none
  | some g => exact .some (h g rfl)

theorem match_watched (hsame : host.unwatched = host'.unwatched) (h : host.Heeds start) (h' : host'.Heeds start) :
    host.recording.Match (.always (Together host host' start)) host'.recording := by
  obtain ⟨hcall, hsubscript, hset, hsetSubscript⟩ := services_of_unwatched hsame
  constructor
  case invokeFunction =>
    refine rel_service hcall fun f hf target symbol args => ?_
    exact keeps_service hsame (fun s => .call hf s target symbol args) (fun _ => rfl)
      (fun hs ht => h.call hf hs ht target symbol args) fun hs ht => h'.call (hcall ▸ hf) hs ht target symbol args
  case invokeSubscript =>
    refine rel_service hsubscript fun f hf target index => ?_
    exact keeps_service hsame (fun s => .subscript hf s target index) (fun _ => rfl)
      (fun hs ht => h.subscript hf hs ht target index) fun hs ht => h'.subscript (hsubscript ▸ hf) hs ht target index
  case assignProperty =>
    refine rel_service hset fun f hf target symbol value => ?_
    exact keeps_service hsame (fun s => .set hf s target symbol value) (fun _ => rfl) (fun _ _ => rfl) fun _ _ => rfl
  case assignSubscript =>
    refine rel_service hsetSubscript fun f hf target index value => ?_
    exact keeps_service hsame (fun s => .setSubscript hf s target index value) (fun _ => rfl) (fun _ _ => rfl)
      fun _ _ => rfl
  case metadata =>
    intro text
    rw [recording, recording, Option.map_map, Option.map_map]
    exact keeps_telling (fun f => f text) (.metadata text) rfl rfl (fun f hf s => .metadata hf s text) fun f hf s => .metadata hf s text
  case debugLine =>
    intro n
    rw [recording, recording, Option.map_map, Option.map_map]
    exact keeps_telling (fun f => f n) (.line n) rfl rfl (fun f hf s => .line hf s n) fun f hf s => .line hf s n
  case debugUpdate =>
    intro name value
    rw [recording, recording, Option.map_map, Option.map_map]
    exact keeps_telling (fun f => f name value) (.update name value) rfl rfl (fun f hf s => .update hf s name value)
      fun f hf s => .update hf s name value
  case debugDelete =>
    intro name
    rw [recording, recording, Option.map_map, Option.map_map]
    exact keeps_telling (fun f => f name) (.delete name) rfl rfl (fun f hf s => .delete hf s name) fun f hf s => .delete hf s name
  case error =>
    intro fault
    rw [recording, recording, Option.map_map, Option.map_map]
    exact keeps_telling (fun f => f fault) (.error fault) rfl rfl (fun f hf s => .error hf s fault) fun f hf s => .error hf s fault

/-! ### Records -/

theorem keeps_record (action : StateM σ β) (event : β → Event) :
    (Company.always fun s a => a.1 = s).Keeps action (record action event) := by
  rw [keeps_always]
  rintro s ⟨t, as⟩ rfl
  exact ⟨rfl, rfl⟩

theorem keeps_notify (w : Option α) (told : α → StateM σ Unit) (e : Event) :
    (Company.always fun s a => a.1 = s).Keeps (notify (w.map told)) (notify (w.map fun f => record (told f) fun _ => e)) := by
  cases w with
  | none => exact keeps_pure ()
  | some f => exact keeps_record (told f) fun _ => e

theorem rel_map (w : Option α) (h : ∀ g, P g (f g)) : Option.Rel P w (w.map f) := by
  cases w with
  | none => exact .none
  | some g => exact .some (h g)

/-- A record of what passes changes nothing either. -/
theorem match_recording (host : Host σ) : host.Match (.always fun s a => a.1 = s) host.recording where
  invokeFunction := rel_map host.invokeFunction fun _ _ _ _ => keeps_record _ _
  invokeSubscript := rel_map host.invokeSubscript fun _ _ _ => keeps_record _ _
  assignProperty := rel_map host.assignProperty fun _ _ _ _ => keeps_record _ _
  assignSubscript := rel_map host.assignSubscript fun _ _ _ _ => keeps_record _ _
  metadata text := by
    rw [recording, Option.map_map]
    exact keeps_notify host.metadata (fun f => f text) (.metadata text)
  debugLine n := by
    rw [recording, Option.map_map]
    exact keeps_notify host.debugLine (fun f => f n) (.line n)
  debugUpdate name value := by
    rw [recording, Option.map_map]
    exact keeps_notify host.debugUpdate (fun f => f name value) (.update name value)
  debugDelete name := by
    rw [recording, Option.map_map]
    exact keeps_notify host.debugDelete (fun f => f name) (.delete name)
  error fault := by
    rw [recording, Option.map_map]
    exact keeps_notify host.error (fun f => f fault) (.error fault)

theorem run_recording (host : Host σ) (n : Nat) (m : Machine) (s : σ) :
    (m.run host n s).1 = (m.run host.recording n (s, #[])).1 :=
  (keeps_always.1 (keeps_run host.match_recording n m) s (s, #[]) rfl).1

theorem execute_recording (host : Host σ) (n : Nat) (code : Array UInt8) (s : σ) :
    (execute host n code s).1 = (execute host.recording n code (s, #[])).1 :=
  (keeps_always.1 (keeps_execute host.match_recording n code) s (s, #[]) rfl).1

/-! ### Runs -/

theorem together_start : Together host host' start (start, #[]) (start, #[]) :=
  ⟨⟨[], start, .start, .start, .start⟩, rfl⟩

/-- What the services of a run are, whoever else is told of something. -/
theorem filter_isService_of_heard {es' : List Event} (h : es.filter host'.hears = es'.filter host.hears) :
    es.filter Event.isService = es'.filter Event.isService := by
  have hheard : ∀ (heard : Host σ) (l : List Event), l.filter Event.isService = (l.filter heard.hears).filter Event.isService := by
    intro heard l
    rw [List.filter_filter]
    refine List.filter_congr fun e _ => ?_
    cases he : e.isService with
    | false => rfl
    | true => rw [hears_of_isService he]; rfl
  rw [hheard host' es, h, ← hheard]

/-- Two hosts that differ only in who watches, and that settle their answers by the services they did before:
whatever the code, a run ends alike before both, after any number of statements from any machine it has come to
the same one, the same services were asked for, and what both hosts are told of comes in the same order. -/
theorem watchers_change_nothing {host host' : Host σ} {start : σ} (hsame : host.unwatched = host'.unwatched)
    (h : host.Heeds start) (h' : host'.Heeds start) (code : Array UInt8) (n : Nat) :
    (execute host n code start).1 = (execute host' n code start).1 ∧
      (∀ m : Machine, (m.run host n start).1 = (m.run host' n start).1) ∧
      (host.events n code start).filter Event.isService = (host'.events n code start).filter Event.isService ∧
      (host.events n code start).filter host'.hears = (host'.events n code start).filter host.hears := by
  have hmatch := match_watched hsame h h'
  obtain ⟨hends, -, hevents⟩ := keeps_always.1 (keeps_execute hmatch n code) _ _ together_start
  refine ⟨?_, fun m => ?_, filter_isService_of_heard hevents, hevents⟩
  · rw [execute_recording host, execute_recording host', hends]
  · rw [run_recording host, run_recording host', (keeps_always.1 (keeps_run hmatch n m) _ _ together_start).1]

theorem Heeds.unwatched (h : host.Heeds start) : host.unwatched.Heeds start where
  call hf _ _ _ hs ht := h.call hf hs.of_unwatched ht.of_unwatched
  subscript hf _ _ _ hs ht := h.subscript hf hs.of_unwatched ht.of_unwatched

end Watched

/-! ### A host that counts -/

/-- A host that answers a call with the number of calls before it, and counts apart from them what it is told. -/
def tallying : Host (Nat × Nat) where
  invokeFunction := some fun _ _ _ s => (.int .int32 (.ofNat _ s.1), (s.1 + 1, s.2))
  invokeSubscript := none
  assignProperty := none
  assignSubscript := none
  metadata := none
  debugLine := some fun _ s => ((), (s.1, s.2 + 1))
  debugUpdate := some fun _ _ s => ((), (s.1, s.2 + 1))
  debugDelete := none
  error := some fun _ s => ((), (s.1, s.2 + 1))

theorem calls_tallying (h : tallying.After (0, 0) es s) : s.1 = es.length := by
  induction h with
  | start => rfl
  | served _ hserves ih =>
    cases hserves with
    | call hf =>
      cases hf
      rw [length_append, ← ih]
      rfl
    | _ hf => cases hf
  | told _ htells ih =>
    cases htells with
    | line hf | update hf | error hf =>
      cases hf
      exact ih
    | metadata hf | delete hf => cases hf

theorem heeds_tallying : tallying.Heeds (0, 0) where
  call hf _ _ _ hs ht _ _ _ := by
    cases hf
    show Value.int .int32 _ = Value.int .int32 _
    rw [calls_tallying hs, calls_tallying ht]
  subscript hf := by cases hf

/-- Line 1, `k` set to the answer of a call and shown, and then no statement. -/
def shownCode : Array UInt8 := #[4, 0, 0, 0, 43, 1, 0, 35, 3, 0, 0, 32, 1, 1, 0, 0, 44, 107, 0, 3, 32, 1, 1, 0, 0, 99]

/-- The code breaks off after two calls. Three events are told to those who watch, none without them, and the
second call is answered with 1 all the same. -/
theorem watchers_change_nothing_tallying :
    tallying.Heeds (0, 0) ∧ tallying.unwatched.Heeds (0, 0) ∧
      tallying.events 9 shownCode (0, 0) = [.line 1, .call 0 1 [] (.int .int32 0), .call 0 1 [] (.int .int32 1),
        .update "k" (.int .int32 1), .error (.malformed 25 (.unknownOpcode 99))] ∧
      tallying.unwatched.events 9 shownCode (0, 0) =
        [.call 0 1 [] (.int .int32 0), .call 0 1 [] (.int .int32 1)] ∧
      (execute tallying 9 shownCode (0, 0)).1 = .halted (.malformed 25 (.unknownOpcode 99)) ∧
      (execute tallying 9 shownCode (0, 0)).1 = (execute tallying.unwatched 9 shownCode (0, 0)).1 ∧
      (∀ m : Machine, (m.run tallying 9 (0, 0)).1 = (m.run tallying.unwatched 9 (0, 0)).1) ∧
      (tallying.events 9 shownCode (0, 0)).filter Event.isService =
        (tallying.unwatched.events 9 shownCode (0, 0)).filter Event.isService ∧
      (tallying.events 9 shownCode (0, 0)).filter tallying.unwatched.hears =
        (tallying.unwatched.events 9 shownCode (0, 0)).filter tallying.hears :=
  ⟨heeds_tallying, heeds_tallying.unwatched, by decide +kernel, by decide +kernel, by decide +kernel,
    watchers_change_nothing unwatched_unwatched.symm heeds_tallying heeds_tallying.unwatched shownCode 9⟩

end Host

end HostScript
