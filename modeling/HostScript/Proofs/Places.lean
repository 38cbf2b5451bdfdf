import HostScript.Source.Path

/-! Places of normalized paths.

A path leads from a directory to another one: a name goes into a directory, `..` goes out
of it again, and at the root it stays there. What a walk comes to is how far it climbs above
its start, and the names that it then goes down. A normalized path goes down the same names,
but two steps up cancel each other, so a relative path keeps its place if it climbs at most
once. -/
namespace HostScript.Path

open List

/-- Where a component leads from a directory, given by its names, innermost first. -/
def Part.place (chain : List String) : Part → List String
  | .current => chain
  | .parent => chain.tail
  | .name text => text :: chain

/-- Where a path leads from a directory. -/
def place (p : Path) (start : List String) : List String :=
  p.parts.foldl Part.place (if p.rooted then [] else start)

/-- One component more on a walk: how far it climbs above its start, and the names that it then
goes down, innermost first. -/
def Part.walk : Nat × List String → Part → Nat × List String
  | w, .current => w
  | (climb, _ :: names), .parent => (climb, names)
  | (climb, []), .parent => (climb + 1, [])
  | (climb, names), .name text => (climb, text :: names)

/-- How far a path climbs above its start, and the names that it then goes down. -/
def walk (p : Path) : Nat × List String := p.parts.foldl Part.walk (0, [])

variable {rooted : Bool} {n : Nat} {names : List String}

theorem foldl_place (start : List String) (parts : List Part) (w : Nat × List String) :
    parts.foldl Part.place (w.2 ++ start.drop w.1) =
      (parts.foldl Part.walk w).2 ++ start.drop (parts.foldl Part.walk w).1 := by
  induction parts generalizing w with
  | nil => rfl
  | cons part rest ih =>
    rw [foldl_cons, foldl_cons, ← ih]
    congr 1
    obtain ⟨climb, _ | ⟨text, names⟩⟩ := w <;> cases part <;> simp [Part.place, Part.walk]

theorem place_eq (p : Path) (start : List String) :
    p.place start = p.walk.2 ++ (if p.rooted then [] else start).drop p.walk.1 :=
  foldl_place _ p.parts (0, [])

/-- The steps up that are left in front of the names. Above the root there are none, and of a
relative path every second one takes the one before it away. -/
def rise (rooted : Bool) (climb : Nat) : Nat := if rooted then 0 else climb % 2

theorem foldl_extend (rooted : Bool) (parts : List Part) (w : Nat × List String) :
    parts.foldl (extend rooted) (w.2.map .name ++ replicate (rise rooted w.1) .parent) =
      (parts.foldl Part.walk w).2.map .name ++ replicate (rise rooted (parts.foldl Part.walk w).1) .parent := by
  induction parts generalizing w with
  | nil => rfl
  | cons part rest ih =>
    rw [foldl_cons, foldl_cons, ← ih]
    congr 1
    obtain ⟨climb, _ | ⟨text, names⟩⟩ := w
    · cases part <;> try rfl
      -- with no names left, `..` meets a step up that was left before or nothing at all
      obtain h | h := Nat.mod_two_eq_zero_or_one climb <;> cases rooted <;>
        simp [Part.walk, extend, rise, h, Nat.add_mod]
    · cases part <;> rfl

/-- A path of steps up and names below them. -/
def straight (rooted : Bool) (n : Nat) (names : List String) : Path :=
  ⟨rooted, replicate n .parent ++ names.reverse.map .name⟩

theorem normalize_eq (p : Path) : p.normalize = straight p.rooted (rise p.rooted p.walk.1) p.walk.2 := by
  have h := foldl_extend p.rooted p.parts (0, [])
  have hstart : rise p.rooted 0 = 0 := by simp [rise]
  rw [hstart] at h
  unfold normalize straight
  rw [show p.parts.foldl _ [] = _ from h]
  simp [walk]

theorem walk_straight : (straight rooted n names).walk = (n, names) := by
  have hup : ∀ k, (replicate n .parent).foldl Part.walk (k, []) = (k + n, []) := by
    induction n with
    | zero => simp
    | succ n ih =>
      intro k
      rw [replicate_succ, foldl_cons]
      exact (ih (k + 1)).trans (by rw [Nat.add_right_comm]; rfl)
  have hdown : ∀ (below acc : List String), (below.map Part.name).foldl Part.walk (n, acc) = (n, below.reverse ++ acc) := by
    intro below
    induction below with
    | nil => exact fun _ => rfl
    | cons text rest ih => exact fun acc => (ih (text :: acc)).trans (by simp)
  unfold walk straight
  rw [foldl_append, hup, Nat.zero_add, hdown, reverse_reverse, append_nil]

theorem walk_normalize (p : Path) : p.normalize.walk = (rise p.rooted p.walk.1, p.walk.2) := by
  rw [normalize_eq, walk_straight]

theorem rise_rise (climb : Nat) : rise rooted (rise rooted climb) = rise rooted climb := by
  cases rooted <;> simp [rise]

/-- The same names are left from every start only if the walk climbs at most once. -/
theorem le_one_of_drop (h : ∀ start : List String, start.drop (rise false n) = start.drop n) : n ≤ 1 := by
  have hlength := congrArg length (h (replicate n ""))
  simp only [rise, length_drop, length_replicate, Bool.false_eq_true, if_false] at hlength
  omega

/-- A normalized path leads to the same place from every directory if and only if the path is rooted
or climbs at most one directory above its start. It has no `.`, and `..` only in front of a relative
path; to normalize it again changes nothing. -/
theorem place_normalize (p : Path) :
    ((∀ start, p.normalize.place start = p.place start) ↔ p.rooted = true ∨ p.walk.1 ≤ 1) ∧
      Part.current ∉ p.normalize.parts ∧
      (∃ n, ∃ names : List String, p.normalize = ⟨p.rooted, replicate n .parent ++ names.map .name⟩ ∧
        (p.rooted = true → n = 0)) ∧
      p.normalize.normalize = p.normalize := by
  have hplace : ∀ start, p.normalize.place start =
      p.walk.2 ++ (if p.rooted then [] else start).drop (rise p.rooted p.walk.1) := fun start => by
    rw [place_eq, walk_normalize]
    rfl
  refine ⟨⟨fun h => Decidable.or_iff_not_imp_left.2 fun hr => le_one_of_drop fun start => ?_, fun h start => ?_⟩, ?_,
    ⟨_, _, normalize_eq p, fun h => if_pos h⟩, ?_⟩
  · have hsame := (hplace start).symm.trans ((h start).trans (place_eq p start))
    simpa [hr] using hsame
  · rw [hplace, place_eq]
    by_cases hr : p.rooted = true
    · simp [hr]
    · have hclimb : p.walk.1 % 2 = p.walk.1 := Nat.mod_eq_of_lt (Nat.lt_succ_of_le (h.resolve_left hr))
      simp [hr, rise, hclimb]
  · rw [normalize_eq]
    simp [straight]
  · rw [normalize_eq p.normalize, walk_normalize, normalize_eq p]
    simp [straight, rise_rise]

/-- `../..` becomes the empty path, which stays where it is. -/
theorem climb_lost : (⟨false, [.parent, .parent]⟩ : Path).normalize = ⟨false, []⟩ ∧
    place ⟨false, []⟩ ["b", "a"] = ["b", "a"] ∧ place ⟨false, [.parent, .parent]⟩ ["b", "a"] = [] := by
  decide

end HostScript.Path
