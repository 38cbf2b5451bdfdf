import HostScript.Script.Lexeme

/-! Texts in quotes.

What stands between quotes is a row of *glyphs*: a backslash with the character behind it, or any
other character but a quote. A text in quotes ends at the first quote that is no part of a glyph,
and stands for the characters of its glyphs (`quoted_denotes`). Every text can be quoted so. -/
namespace HostScript.Lexeme

open Reader List Option

/-- The characters that a backslash may stand in front of, each with what the two stand for. -/
def escapes : List (Char × Char) :=
  [('a', '\x07'), ('b', '\x08'), ('e', '\x1b'), ('f', '\x0c'), ('n', '\n'), ('r', '\r'), ('t', '\t'), ('v', '\x0b'),
    ('"', '"'), ('\\', '\\')]

theorem escape?_eq (c : Char) : escape? c = escapes.lookup c := by
  unfold escape?
  split
  case h_11 => exact (lookup_eq_none_iff.2 (by simp_all [escapes])).symm
  all_goals rfl

/-- A character between quotes, or a backslash and what is behind it. -/
inductive Glyph where
  | plain (c : Char) (notQuote : c ≠ '"') (notEscape : c ≠ '\\')
  | escaped (c : Char)

namespace Glyph

def text : Glyph → List Char
  | plain c _ _ => [c]
  | escaped c => ['\\', c]

/-- What a glyph stands for; not every escape stands for something. -/
def value? : Glyph → Option Char
  | plain c _ _ => some c
  | escaped c => escapes.lookup c

/-- The text between quotes. -/
def spell (gs : List Glyph) : List Char := gs.flatMap text

/-- Writes a character so that it stands for itself. -/
def quote (c : Char) : Glyph :=
  if h : c = '"' ∨ c = '\\' then escaped c else plain c (fun hc => h (.inl hc)) fun hc => h (.inr hc)

theorem value?_quote (c : Char) : (quote c).value? = some c := by
  unfold quote
  split
  · next h => obtain rfl | rfl := h <;> rfl
  · rfl

theorem spell_quote (text : List Char) :
    spell (text.map quote) = text.flatMap fun c => if c = '"' ∨ c = '\\' then ['\\', c] else [c] := by
  rw [spell, flatMap_map]
  refine congrArg (text.flatMap ·) (funext fun c => ?_)
  unfold quote
  split <;> rfl

theorem values_quote (text : List Char) : (text.map quote).filterMap value? = text := by
  rw [filterMap_map, show value? ∘ quote = some from funext value?_quote, filterMap_some]

end Glyph

open Glyph

theorem quoted_plain (hq : c ≠ '"') (he : c ≠ '\\') (rest done : List Char) :
    quoted (c :: rest) done = quoted rest (c :: done) := by
  rw [quoted.eq_def]
  split
  · next h => exact absurd (List.cons.inj h).1 he
  · next h =>
    obtain ⟨rfl, rfl⟩ := List.cons.inj h
    simp [hq, he]
  · next h => cases h

/-- The glyphs up to the first quote that is no part of one. -/
theorem quoted_spell (gs : List Glyph) (rest done : List Char) :
    quoted (spell gs ++ '"' :: rest) done = (done.reverse ++ spell gs, '"' :: rest) := by
  induction gs generalizing done with
  | nil => simp [spell, quoted]
  | cons g gs ih =>
    have hspell : spell (g :: gs) = g.text ++ spell gs := rfl
    cases g with
    | plain c hq he =>
      rw [hspell, text, append_assoc, singleton_append, quoted_plain hq he, ih]
      simp
    | escaped c =>
      rw [hspell, text]
      show quoted ('\\' :: c :: (spell gs ++ '"' :: rest)) done = _
      rw [quoted, ih]
      simp

/-- What is found up to a quote is made of glyphs. -/
theorem spelled_of_quoted (text done content rest : List Char) (h : quoted text done = (content, '"' :: rest)) :
    ∃ gs, content = done.reverse ++ spell gs ∧ text = spell gs ++ '"' :: rest := by
  fun_induction quoted text done with
  | case1 c text done ih =>
    obtain ⟨gs, rfl, rfl⟩ := ih h
    exact ⟨.escaped c :: gs, by simp [spell, Glyph.text], by simp [spell, Glyph.text]⟩
  | case2 c text done _ hstop =>
    cases h
    exact ⟨[], by simp [spell], rfl⟩
  | case3 c text done _ hstop ih =>
    simp only [Bool.or_eq_true, decide_eq_true_eq, not_or] at hstop
    obtain ⟨gs, rfl, rfl⟩ := ih h
    exact ⟨.plain c hstop.1 hstop.2 :: gs, by simp [spell, Glyph.text], by simp [spell, Glyph.text]⟩
  | case4 done => cases h

/-- One glyph more in front. -/
theorem unescape_cons (g : Glyph) (gs : List Glyph) : unescape (spell (g :: gs)) = match g.value? with
    | some c => (unescape (spell gs)).map (c :: ·)
    | none => .error (.badEscape g.text[1]?) := by
  cases g with
  | plain c hq he =>
    show unescape (c :: spell gs) = (unescape (spell gs)).map (c :: ·)
    rw [unescape.eq_def]
    split
    · next h => cases h
    · next h => exact absurd (List.cons.inj h).1 he
    · next h =>
      obtain ⟨rfl, rfl⟩ := List.cons.inj h
      rw [if_neg he]
  | escaped c =>
    show unescape ('\\' :: c :: spell gs) = _
    rw [unescape, escape?_eq]
    rfl

/-- All escapes stand for something. -/
def Sound (gs : List Glyph) : Prop := ∀ c, .escaped c ∈ gs → c ∈ escapes.map Prod.fst

theorem sound_cons : Sound (g :: gs) ↔ g.value?.isSome ∧ Sound gs := by
  unfold Sound
  cases g with
  | plain c hq he => simp [value?]
  | escaped c => simp [value?, or_imp, forall_and]

theorem sound_quote (text : List Char) : Sound (text.map quote) := by
  intro c hc
  obtain ⟨d, -, hd⟩ := mem_map.1 hc
  have hvalue := value?_quote d
  rw [hd] at hvalue
  simpa [value?] using isSome_of_eq_some hvalue

theorem unescape_spell (h : Sound gs) : unescape (spell gs) = .ok (gs.filterMap value?) := by
  induction gs with
  | nil => rfl
  | cons g gs ih =>
    obtain ⟨hg, hgs⟩ := sound_cons.1 h
    obtain ⟨c, hc⟩ := isSome_iff_exists.1 hg
    rw [unescape_cons, hc, ih hgs, filterMap_cons, hc]
    rfl

theorem unescape_unsound (h : ¬ Sound gs) : ∃ b, unescape (spell gs) = .error b := by
  induction gs with
  | nil => exact absurd nofun h
  | cons g gs ih =>
    rw [sound_cons] at h
    rw [unescape_cons]
    cases hg : g.value? with
    | none => exact ⟨_, rfl⟩
    | some c =>
      obtain ⟨b, hb⟩ := ih fun hgs => h ⟨by rw [hg]; rfl, hgs⟩
      exact ⟨b, by rw [hb]; rfl⟩

/-- What is read between quotes, and where reading goes on. -/
theorem stringText_spell (file offset reach : Nat) (gs : List Glyph) (rest : List Char) (earlier : Option (Span × Blemish)) :
    stringText ⟨file, offset, '"' :: (spell gs ++ '"' :: rest), earlier⟩ reach = match unescape (spell gs) with
      | .ok text => .ok (String.ofList text) ⟨file, offset + 1 + size (spell gs) + 1, rest, earlier⟩ reach
      | .error b => .ok "" ⟨file, offset + 1 + size (spell gs) + 1, rest,
        earlier.or (some (⟨file, offset + 1, offset + 1 + size (spell gs)⟩, b))⟩ reach := by
  have hquoted := quoted_spell gs rest []
  rw [reverse_nil, nil_append] at hquoted
  simp only [stringText, rule, bind, andThen, lit, chars, spanned, stringContent, show "\"".toList = ['"'] from rfl, after?,
    ite_true, hquoted, length_singleton]
  cases unescape (spell gs) <;> rfl

theorem spelled_of_stringText (h : stringText c reach = .ok s d reach') :
    ∃ gs rest, c.rest = '"' :: (spell gs ++ '"' :: rest) := by
  obtain ⟨file, offset, text, earlier⟩ := c
  simp only [stringText, rule, bind, andThen, lit, chars, spanned, stringContent, show "\"".toList = ['"'] from rfl] at h
  cases text with
  | nil => cases h
  | cons d text =>
    by_cases hd : '"' = d
    · subst hd
      rcases hquoted : quoted text [] with ⟨content, _ | ⟨e, rest⟩⟩
      · simp [after?, hquoted] at h
      · by_cases he : '"' = e
        · subst he
          obtain ⟨gs, -, rfl⟩ := spelled_of_quoted text [] content rest hquoted
          exact ⟨gs, rest, rfl⟩
        · simp [after?, hquoted, he] at h
    · simp [after?, hd] at h

/-- A text in quotes is a row of glyphs up to the first quote that is no part of one. It stands for the values of
its glyphs if all escapes stand for something, and is blemished otherwise. With a backslash in front of
each quote and each backslash every text stands for itself. -/
theorem quoted_denotes (file offset reach : Nat) :
    (∀ text, (∃ s c reach', stringText ⟨file, offset, text, none⟩ reach = .ok s c reach') ↔
      ∃ gs rest, text = '"' :: (spell gs ++ '"' :: rest)) ∧
    (∀ gs rest, ∃ s c, stringText ⟨file, offset, '"' :: (spell gs ++ '"' :: rest), none⟩ reach = .ok s c reach ∧
      c.rest = rest ∧ (c.blemish = none ↔ Sound gs) ∧ (Sound gs → s.toList = gs.filterMap value?)) ∧
    ∀ s rest, ∃ c, stringText ⟨file, offset, '"' :: (s.toList.flatMap (fun c =>
      if c = '"' ∨ c = '\\' then ['\\', c] else [c]) ++ '"' :: rest), none⟩ reach = .ok s c reach ∧
      c.rest = rest ∧ c.blemish = none := by
  have hread : ∀ gs rest, ∃ s c, stringText ⟨file, offset, '"' :: (spell gs ++ '"' :: rest), none⟩ reach = .ok s c reach ∧
      c.rest = rest ∧ (c.blemish = none ↔ Sound gs) ∧ (Sound gs → s.toList = gs.filterMap value?) := by
    intro gs rest
    rw [stringText_spell]
    by_cases h : Sound gs
    · rw [unescape_spell h]
      exact ⟨_, _, rfl, rfl, iff_of_true rfl h, fun _ => String.toList_ofList⟩
    · obtain ⟨b, hb⟩ := unescape_unsound h
      rw [hb]
      exact ⟨_, _, rfl, rfl, iff_of_false nofun h, fun h' => absurd h' h⟩
  refine ⟨fun text => ⟨fun ⟨_, _, _, h⟩ => spelled_of_stringText h, ?_⟩, hread, fun s rest => ?_⟩
  · rintro ⟨gs, rest, rfl⟩
    obtain ⟨s, c, h, -⟩ := hread gs rest
    exact ⟨s, c, reach, h⟩
  · obtain ⟨s', c, h, hrest, hblemish, hvalue⟩ := hread (s.toList.map quote) rest
    have hsound := sound_quote s.toList
    obtain rfl : s' = s := String.toList_inj.1 ((hvalue hsound).trans (values_quote _))
    exact ⟨c, spell_quote s'.toList ▸ h, hrest, hblemish.2 hsound⟩

end HostScript.Lexeme
