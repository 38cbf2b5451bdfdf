import HostScript.Proofs.Assembly

/-! Running the code of files.

A machine that runs an image always stands in front of a line or at the end, and the
pointers it has in memory where something is known are trusted. One statement keeps
this and so does a run, from the start on, where all pointers are `NULL`. It halts
only with the faults that typed statements have. -/
namespace HostScript

open Line Code

variable {code : Array UInt8} {lines : List Line} {m : Machine} {g : Regime}
  {l : Line} {memory memory' : Memory} {o : Nat} {σ : Type}

theorem Machine.run_succ (host : Host σ) (n : Nat) (m : Machine) (s : σ) :
    m.run host (n + 1) s =
      if m.atEnd then ((.ended, m), s)
      else
        match m.step host s with
        | ((.ok .proceed, m'), s') => m'.run host n s'
        | ((.ok .exit, m'), s') => ((.exited, m'), s')
        | ((.error f, m'), s') => ((.halted f, m'), s') := by
  conv_lhs => unfold Machine.run
  split
  · rfl
  · show StateT.bind (m.step host) _ s = _
    unfold StateT.bind
    rcases m.step host s with ⟨⟨f | _ | _, m'⟩, s'⟩ <;> rfl

/-- The machine stands in front of a line or at the end, and knows what the line relies on. -/
structure Poised {σ : Type} (T : Trust σ) (g : Regime) (lines : List Line) (code : Array UInt8) (s : σ)
    (m : Machine) : Prop where
  code : m.code = code
  fits : m.memory.Fits g.room
  stands : ∃ pre post, lines = pre ++ post ∧ m.cursor = headerSize + extent pre ∧
    (g.tracked → ∀ b, entry (fun _ => False) post b → ∀ v, m.memory.load b .pointer = .ok v → T.Vouches s v)

theorem Fault.allowed_of_placeless {f f' : Fault} (h : f'.placeless = f.placeless) (hf : f.Allowed bits) :
    f'.Allowed bits := by
  cases f <;> cases f' <;> cases h <;> exact hf

/-- How a run may end. -/
def Ending.Allowed (bits : Prop) : Ending → Prop
  | .halted f => f.Allowed bits
  | _ => True

theorem Instr.Writes.fits {i : Instr} (h : i.Writes T memory memory' s) (hfits : memory.Fits room) :
    memory'.Fits room := by
  cases i with
  | assign k a n =>
    obtain ⟨v, -, hstore⟩ := h
    exact hfits.stored hstore
  | _ =>
    obtain rfl : memory' = memory := h
    exact hfits

namespace Image

variable {σ : Type} {T : Trust σ} {numbers : String → Nat} {host : Host σ} {s : σ}

theorem lt_of_holds (h : Image g numbers lines code) (hin : g.room.Holds k a) : a < 256 ^ 2 := by
  have haddr := h.addressable
  unfold Session.Addressable Storage.limit at haddr
  unfold Storage.Holds at hin
  split at hin
  · omega
  · omega

section

variable (h : Image g numbers lines code) (hl : At lines o l)
include h hl

/-- The machine performs the line it stands in front of. -/
theorem performs (memory : Memory) (host : Host σ) :
    Performs (Setting.statement ⟨code, memory, host⟩) (headerSize + o) (l.instr.exec ⟨memory, host, numbers⟩)
      (headerSize + (o + l.size)) := by
  have hsound := h.leads.sound l hl.mem
  rw [← Nat.add_assoc, Line.size, ← Instr.length_code numbers]
  refine Instr.performs (R := g.rules l.known) (fun k a hr => h.lt_of_holds hr.1) (fun k a => h.lt_of_holds) l.instr hsound.typed
    (h.near hl) (fun m => h.free m l hl.mem) (h.hasAt hl) fun d hd => ?_
  have hback := (h.leads.lands o l hl (.back d) (by rw [hd]; exact rfl)).1
  rw [Instr.length_code, Nat.add_assoc]
  exact Nat.add_le_add_left hback _

/-- A step is the line that the machine stands in front of. -/
theorem step_line (memory : Memory) (host : Host σ) (s : σ) :
    (∀ mv memory' s', l.instr.exec ⟨memory, host, numbers⟩ s = (.ok (mv, memory'), s') →
        Machine.step ⟨code, headerSize + o, memory⟩ host s =
          ((.ok mv.signal, ⟨code, mv.position (headerSize + (o + l.size)), memory'⟩), s')) ∧
      ∀ f s', l.instr.exec ⟨memory, host, numbers⟩ s = (.error f, s') → ∃ f' c,
        Machine.step ⟨code, headerSize + o, memory⟩ host s = ((.error f', ⟨code, c, memory⟩), s') ∧
          f'.placeless = f.placeless := by
  obtain ⟨hok, hfault⟩ := h.performs hl memory host s
  refine ⟨fun mv memory' s' he => ?_, fun f s' he => ?_⟩
  · unfold Machine.step
    rw [hok mv memory' s' he]
  · obtain ⟨f', c, hx, hplace⟩ := hfault f s' he
    refine ⟨f', c, ?_, hplace⟩
    unfold Machine.step
    rw [hx]

/-- In front of a line there is still something to do. -/
theorem atEnd_line (memory : Memory) :
    Machine.atEnd ⟨code, headerSize + o, memory⟩ = false := by
  have hle := hl.le
  have hpos := l.instr.size_pos
  unfold Line.size at hle
  unfold Machine.atEnd
  rw [h.size, decide_eq_false_iff_not]
  dsimp only
  omega

end

/-- What a step from `s` may come to. -/
def Advance (T : Trust σ) (g : Regime) (lines : List Line) (code : Array UInt8) (s : σ)
    (r : (Except Fault Signal × Machine) × σ) : Prop :=
  T.later s r.2 ∧
    match r.1 with
    | (.ok .proceed, m) => Poised T g lines code r.2 m
    | (.ok .exit, _) => True
    | (.error f, _) => f.Allowed g.floatBits

theorem vouches_stored (hstore : memory.store b v = .ok memory') (hv : T.Of .pointer v s)
    (hw : memory'.load b .pointer = .ok w) : T.Vouches s w := by
  obtain ⟨hkind, hvouches⟩ := hv
  rw [Memory.load_store hstore hkind] at hw
  cases hw
  exact hvouches

/-- What is known behind a line holds when it has run. -/
theorem vouches_after (hsound : l.Sound g) (ht : g.tracked) (hlater : T.later s s')
    (hwrites : l.instr.Writes T memory memory' s')
    (hknown : ∀ b, l.known b → ∀ v, memory.load b .pointer = .ok v → T.Vouches s v) (hb : l.after b)
    (hv : memory'.load b .pointer = .ok v) : T.Vouches s' v := by
  obtain hb | ⟨n, hassign⟩ := hb
  · cases hi : l.instr with
    | assign k a n =>
      rw [hi] at hwrites
      obtain ⟨w, hw, hstore⟩ := hwrites
      obtain hapart | ⟨rfl, rfl⟩ := hsound.apart ht k a n hi b hb
      · rw [Memory.load_store_apart hstore hw.1 hapart.cell] at hv
        exact (hknown b hb v hv).mono hlater
      · exact vouches_stored hstore hw hv
    | _ =>
      rw [hi] at hwrites
      obtain rfl : memory' = memory := hwrites
      exact (hknown b hb v hv).mono hlater
  · rw [hassign] at hwrites
    obtain ⟨w, hw, hstore⟩ := hwrites
    exact vouches_stored hstore hw hv

section

variable (h : Image g numbers lines code) (hT : T.KeptBy host) (hany : ¬ g.tracked → ∀ s p, T.trusted s p)
include h hT hany

/-- What the line that the machine stands in front of can do. -/
theorem sat_line (hl : At lines o l) (hfits : memory.Fits g.room)
    (hknown : g.tracked → ∀ b, l.known b → ∀ v, memory.load b .pointer = .ok v → T.Vouches s v) :
    Effect.Sat T s (l.instr.exec ⟨memory, host, numbers⟩)
      (fun r s' => l.instr.Moves r.1 ∧ l.instr.Writes T memory r.2 s') (Fault.Allowed g.floatBits) := by
  have hcovers : T.Covers (g.rules l.known) s memory := by
    refine ⟨fun k a hr => hfits.load hr.1, fun a v hr hv => ?_⟩
    by_cases ht : g.tracked
    · exact hknown ht a (hr.2 ht rfl) v hv
    · exact fun p _ => hany ht s p
  exact l.instr.sat hT (h.leads.sound l hl.mem).typed (fun m => h.free m l hl.mem) hcovers
    fun k a v hw hv => hfits.store hw hv

/-- The invariant of a run, one statement at a time. -/
theorem step (hm : Poised T g lines code s m) (hend : m.atEnd = false) : Advance T g lines code s (m.step host s) := by
  obtain ⟨rfl, hfits, pre, post, hlines, hcursor, hknown⟩ := hm
  cases post with
  | nil =>
    rw [List.append_nil] at hlines
    rw [Machine.atEnd, h.size, hcursor, hlines] at hend
    simp at hend
  | cons l post =>
    have hl : At lines (extent pre) l := ⟨pre, post, hlines, rfl⟩
    have hsound := h.leads.sound l hl.mem
    obtain ⟨hlater, hresult⟩ := h.sat_line hT hany hl hfits hknown
    obtain ⟨hok, hfault⟩ := h.step_line hl m.memory host s
    rw [← hcursor] at hok hfault
    rcases he : l.instr.exec ⟨m.memory, host, numbers⟩ s with ⟨f | ⟨mv, memory⟩, s'⟩ <;> rw [he] at hlater hresult
    · obtain ⟨f', c, hx, hplace⟩ := hfault f s' he
      rw [show m.step host s = _ from hx]
      exact ⟨hlater, Fault.allowed_of_placeless hplace hresult⟩
    · rw [show m.step host s = _ from hok mv memory s' he]
      refine ⟨hlater, ?_⟩
      obtain ⟨hmoves, hwrites⟩ : l.instr.Moves mv ∧ l.instr.Writes T m.memory memory s' := hresult
      have hpoised : ∀ o, Reached g (fun _ => False) lines o l.after →
          Poised T g lines m.code s' ⟨m.code, headerSize + o, memory⟩ := by
        rintro - ⟨pre', post', hlines', rfl, hle⟩
        refine ⟨rfl, Instr.Writes.fits hwrites hfits, pre', post', hlines', rfl, fun ht b hb v hv => ?_⟩
        exact vouches_after hsound ht hlater hwrites (hknown ht) (hle ht b hb) hv
      have hlands := h.leads.lands _ l hl mv hmoves
      cases mv with
      | next => exact hpoised _ hlands
      | skip d =>
        have hnext := hpoised _ hlands
        rwa [← Nat.add_assoc] at hnext
      | back d =>
        have hnext := hpoised _ hlands.2
        rwa [← Nat.add_sub_assoc hlands.1] at hnext
      | exit => trivial

/-- The invariant holds all along a run. -/
theorem run (n : Nat) (hm : Poised T g lines code s m) :
    T.later s (m.run host n s).2 ∧ (m.run host n s).1.1.Allowed g.floatBits := by
  induction n generalizing s m with
  | zero =>
    refine ⟨T.refl s, ?_⟩
    show Ending.Allowed _ (if m.atEnd then .ended else .running)
    split <;> trivial
  | succ n ih =>
    rw [Machine.run_succ]
    split
    · exact ⟨T.refl s, trivial⟩
    · rename_i hend
      obtain ⟨hlater, hnext⟩ := h.step hT hany hm (Bool.eq_false_iff.2 hend)
      generalize m.step host s = r at hlater hnext
      obtain ⟨⟨f | signal, m'⟩, s'⟩ := r
      · exact ⟨hlater, hnext⟩
      · cases signal with
        | proceed =>
          obtain ⟨hl, ha⟩ := ih hnext
          exact ⟨T.trans hlater hl, ha⟩
        | exit => exact ⟨hlater, trivial⟩

end

/-! ### From the start -/

/-- The header is read as it was written. -/
theorem new (h : Image g numbers lines code) : Machine.new code = .ok ⟨code, headerSize, .blank g.room⟩ := by
  have hsize : ¬ code.size < headerSize := by
    rw [h.size]
    omega
  have hbytes : (code.extract 0 2).toList = Bytes.ofNat 2 g.room.bytes := by
    rw [Array.toList_extract, h.layout]
    simp
  have hslots : (code.extract 2 4).toList = Bytes.ofNat 2 g.room.slots := by
    rw [Array.toList_extract, h.layout]
    simp
  obtain ⟨hb, hs⟩ := h.addressable
  unfold Storage.limit at hb hs
  unfold Machine.new Memory.blank
  rw [if_neg hsize, hbytes, hslots, Bytes.toNat_ofNat, Bytes.toNat_ofNat, Nat.mod_eq_of_lt (by omega),
    Nat.mod_eq_of_lt (by omega)]

end Image

/-- At the start no line has anything to fear: all pointers are `NULL`. -/
theorem Poised.start (T : Trust σ) (g : Regime) (lines : List Line) (code : Array UInt8) (s : σ) :
    Poised T g lines code s ⟨code, headerSize, .blank g.room⟩ := by
  refine ⟨rfl, Memory.fits_blank _, [], lines, rfl, rfl, fun _ b _ v hv => ?_⟩
  rw [Memory.load_blank hv]
  exact T.vouches_zero s .pointer

theorem execute_eq (host : Host σ) (limit : Nat) (s : σ)
    (h : Machine.new code = .ok m) :
    execute host limit code s =
      ((m.run host limit s).1.1,
        match (m.run host limit s).1.1 with
        | .halted fault => (Host.notify (host.error.map fun f => f fault) (m.run host limit s).2).2
        | _ => (m.run host limit s).2) := by
  unfold execute
  rw [h]
  show StateT.bind ((·.1) <$> m.run host limit) _ s = _
  have hmap : ((·.1) <$> m.run host limit : StateM σ Ending) s = ((m.run host limit s).1.1, (m.run host limit s).2) := rfl
  unfold StateT.bind
  rw [hmap]
  rcases (m.run host limit s).1.1 <;> rfl

namespace Image

variable {T : Trust σ} {numbers : String → Nat} {host : Host σ}

/-- How a run of an image ends, and that it was fair to the host. -/
theorem execute (h : Image g numbers lines code) (hT : T.KeptBy host) (hany : ¬ g.tracked → ∀ s p, T.trusted s p)
    (herror : ∀ f, host.error = some f → ∀ s fault, T.Step s (f fault)) (limit : Nat) (s : σ) :
    T.later s (execute host limit code s).2 ∧ (HostScript.execute host limit code s).1.Allowed g.floatBits := by
  obtain ⟨hlater, hallowed⟩ := h.run hT hany limit (Poised.start T g lines code s)
  rw [execute_eq host limit s h.new]
  refine ⟨?_, hallowed⟩
  split
  · refine T.trans hlater ?_
    cases hf : host.error with
    | none => exact T.refl _
    | some f => exact herror f hf _ _
  · exact hlater

end Image

end HostScript
