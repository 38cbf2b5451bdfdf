import HostScript.Proofs.Parsed

/-! Where declarations stand.

Reading never goes back: every reader of the grammar is `Forward`. So the spans of what is
read one after the other are disjoint (`Reads`), and within a script no two types and no
two members stand at the same place (`Script.placed_of_parse`). -/
namespace HostScript

open List

/-! ### Spans one after the other -/

namespace Reader

variable {α β : Type} {p q : Reader α} {f : α → Reader β} {c c' : Cursor} {r r' : Nat} {pre : List Span}
  {post : α → List Span}

theorem bind_ok (h : (p >>= f) c r = .ok b c' r') : ∃ a c₁ r₁, p c r = .ok a c₁ r₁ ∧ f a c₁ r₁ = .ok b c' r' := by
  have h' : andThen p f c r = .ok b c' r' := h
  unfold andThen at h'
  split at h'
  · exact ⟨_, _, _, ‹_›, h'⟩
  · cases h'

theorem orElse_ok (h : Reader.orElse p q c r = .ok a c' r') : p c r = .ok a c' r' ∨ ∃ r₁, q c r₁ = .ok a c' r' := by
  unfold Reader.orElse at h
  split at h
  · cases h
    exact .inl ‹_›
  · exact .inr ⟨_, h⟩

theorem rule_ok (h : Reader.rule p c r = .ok a c' r') : p c r = .ok a c' r' := by
  unfold Reader.rule at h
  split at h
  · cases h
    assumption
  · cases h

theorem spanned_ok (h : Reader.spanned p c r = .ok x c' r') :
    p c r = .ok x.2 c' r' ∧ x.1 = ⟨c.file, c.offset, c'.offset⟩ := by
  unfold Reader.spanned at h
  split at h
  · cases h
    exact ⟨‹_›, rfl⟩
  · cases h

theorem lit_ok (h : lit word c r = .ok u c' r') : c'.offset = c.offset + word.length := by
  unfold lit chars at h
  split at h
  · cases h
    rfl
  · cases h

/-- Reading never goes back. -/
class Forward (p : Reader α) : Prop where
  before : ∀ {c r a c' r'}, p c r = .ok a c' r' → c.Before c'

theorem Lawful.forward (h : Lawful id g P p q) : Forward p := ⟨fun hp => (h.reads hp).1⟩

instance Quiet.forward [hp : Quiet p] : Forward p := (hp.lawful id).forward

instance Regular.forward [Part α] [hp : Regular p] : Forward p := (hp.lawful id).forward

instance : Forward Lexeme.resultType := (Lexeme.lawful_resultType id).forward

instance Forward.bind [Forward p] [∀ a, Forward (f a)] : Forward (p >>= f) where
  before h := by
    obtain ⟨a, c₁, r₁, hp, hf⟩ := bind_ok h
    exact (before hp).trans (before hf)

/-- Something is read. -/
class Strict (p : Reader α) : Prop where
  lt : ∀ {c r a c' r'}, p c r = .ok a c' r' → c.offset < c'.offset

instance : Strict (lit ";") where
  lt h := lit_ok h ▸ Nat.lt_add_of_pos_right (by decide)

instance : Strict (lit "\x7d") where
  lt h := lit_ok h ▸ Nat.lt_add_of_pos_right (by decide)

instance Strict.bind_left [Strict p] [∀ a, Forward (f a)] : Strict (p >>= f) where
  lt h := by
    obtain ⟨a, c₁, r₁, hp, hf⟩ := bind_ok h
    exact Nat.lt_of_lt_of_le (lt hp) (Forward.before hf).offset

instance Strict.bind_right [Forward p] [∀ a, Strict (f a)] : Strict (p >>= f) where
  lt h := by
    obtain ⟨a, c₁, r₁, hp, hf⟩ := bind_ok h
    exact Nat.lt_of_le_of_lt (Forward.before hp).offset (lt hf)

/-- Spans one after the other in front of a place. -/
structure Row (file : Nat) (spans : List Span) (here : Nat) : Prop where
  apart : spans.Pairwise fun a b => a.stop ≤ b.start
  each : ∀ s ∈ spans, s.file = file ∧ s.start < s.stop ∧ s.stop ≤ here

theorem Row.later (h : Row file pre here) (hle : here ≤ there) : Row file pre there :=
  ⟨h.apart, fun s hs => ⟨(h.each s hs).1, (h.each s hs).2.1, Nat.le_trans (h.each s hs).2.2 hle⟩⟩

theorem Row.concat (h : Row file pre here) (hlt : here < there) : Row file (pre ++ [⟨file, here, there⟩]) there := by
  constructor
  · refine pairwise_append.2 ⟨h.apart, pairwise_singleton _ _, fun s hs t ht => ?_⟩
    obtain rfl := mem_singleton.1 ht
    exact (h.each s hs).2.2
  · rw [forall_mem_append, forall_mem_singleton]
    exact ⟨(h.later (Nat.le_of_lt hlt)).each, rfl, hlt, Nat.le_refl _⟩

theorem Row.ne (h : Row file pre here) : pre.Pairwise (· ≠ ·) := by
  refine h.apart.imp_of_mem fun {a b} ha _ hab heq => ?_
  have := (h.each a ha).2.1
  rw [← heq] at hab
  omega

/-- Behind the spans `pre`, the value that is read makes them `post`. -/
def Reads (pre : List Span) (p : Reader α) (post : α → List Span) : Prop :=
  ∀ c r a c' r', p c r = .ok a c' r' → Row c.file pre c.offset → c'.file = c.file ∧ Row c.file (post a) c'.offset

theorem reads_pure (h : post a = pre) : Reads pre (pure a) post := by
  intro c r a c' r' heq hrow
  cases heq
  rw [h]
  exact ⟨rfl, hrow⟩

theorem reads_lawful (h : Lawful id g P p q) (hpost : ∀ a, P a → post a = pre) : Reads pre p post := by
  intro c r a c' r' hp hrow
  obtain ⟨hbefore, ha⟩ := h.reads hp
  rw [hpost a ha]
  exact ⟨hbefore.file, hrow.later hbefore.offset⟩

theorem Reads.bind (hp : Reads pre p post) (hf : ∀ a, Reads (post a) (f a) post') : Reads pre (p >>= f) post' := by
  intro c r b c' r' h hrow
  obtain ⟨a, c₁, r₁, hpa, hfa⟩ := bind_ok h
  obtain ⟨hfile, hrow₁⟩ := hp _ _ _ _ _ hpa hrow
  obtain ⟨hfile', hrow'⟩ := hf a _ _ _ _ _ hfa (hfile ▸ hrow₁)
  exact ⟨hfile'.trans hfile, hfile ▸ hrow'⟩

theorem Reads.after (p : Reader α) [Forward p] (hf : ∀ a, Reads pre (f a) post') : Reads pre (p >>= f) post' :=
  have hp : Reads pre p fun _ => pre := fun _ _ _ _ _ h hrow =>
    ⟨(Forward.before h).file, hrow.later (Forward.before h).offset⟩
  hp.bind hf

theorem Reads.orElse (hp : Reads pre p post) (hq : Reads pre q post) : Reads pre (Reader.orElse p q) post := by
  intro c r a c' r' h
  obtain h | ⟨r₁, h⟩ := orElse_ok h
  · exact hp _ _ _ _ _ h
  · exact hq _ _ _ _ _ h

theorem reads_choice (h : ∀ p ∈ ps, Reads pre p post) : Reads pre (choice ps) post := by
  induction ps with
  | nil => exact fun _ _ _ _ _ h => by cases h
  | cons p ps ih =>
    obtain ⟨hp, hps⟩ := forall_mem_cons.1 h
    exact hp.orElse (ih hps)

theorem Reads.rule (hp : Reads pre p post) : Reads pre (Reader.rule p) post :=
  fun _ _ _ _ _ h => hp _ _ _ _ _ (rule_ok h)

theorem Reads.spanned (hp : Reads pre p post) : Reads pre (Reader.spanned p) fun x => post x.2 :=
  fun _ _ _ _ _ h => hp _ _ _ _ _ (spanned_ok h).1

/-- The span of what is read comes behind those before it. -/
theorem reads_spanned (p : Reader α) [Forward p] [Strict p] : Reads pre (Reader.spanned p) fun x => pre ++ [x.1] := by
  intro c r x c' r' h hrow
  obtain ⟨hp, hspan⟩ := spanned_ok h
  dsimp only
  rw [hspan]
  exact ⟨(Forward.before hp).file, hrow.concat (Strict.lt hp)⟩

section Many

variable {spans : α → List Span} (hp : ∀ pre, Reads pre p fun a => pre ++ spans a)

include hp

theorem reads_more (fuel : Nat) (done : List α) :
    Reads (pre ++ done.reverse.flatMap spans) (more p fuel done) fun as => pre ++ as.flatMap spans := by
  induction fuel generalizing done with
  | zero =>
    intro c r as c' r' h hrow
    cases h
    exact ⟨rfl, hrow⟩
  | succ fuel ih =>
    intro c r as c' r' h hrow
    unfold more at h
    split at h
    · rename_i a c₁ r₁ ha
      obtain ⟨hfile, hrow₁⟩ := Reads.after skip (fun _ => hp _) _ _ _ _ _ ha hrow
      have hnext := ih (a :: done) _ _ _ _ _ h (by simpa [hfile] using hrow₁)
      exact ⟨hnext.1.trans hfile, hfile ▸ hnext.2⟩
    · cases h
      exact ⟨rfl, hrow⟩

theorem Reads.many (fuel : Nat) : Reads pre (Reader.many fuel p) fun as => pre ++ as.flatMap spans := by
  intro c r as c' r' h hrow
  unfold Reader.many at h
  split at h
  · rename_i a c₁ r₁ ha
    obtain ⟨hfile, hrow₁⟩ := hp _ _ _ _ _ _ ha hrow
    have hnext := reads_more hp fuel [a] _ _ _ _ _ h (by simpa [hfile] using hrow₁)
    exact ⟨hnext.1.trans hfile, hfile ▸ hnext.2⟩
  · cases h
    exact ⟨rfl, by simpa using hrow⟩

end Many

end Reader

open Reader

-- a rule of the grammar is a long chain of readers, each with an instance of its own
set_option synthInstance.maxSize 2000

/-! ### Declarations -/

def MemberDecl.span : MemberDecl → Span
  | .function f => f.span
  | .property p => p.span
  | .subscript s => s.span

namespace Grammar

open Lexeme

variable {pre : List Span}

theorem reads_function (fuel : Nat) : Reads pre (function fuel) fun m => pre ++ [m.span] :=
  Reads.rule ((reads_spanned _).bind fun _ => reads_pure rfl)

theorem reads_property : Reads pre property fun m => pre ++ [m.span] :=
  Reads.rule ((reads_spanned _).bind fun _ => reads_pure rfl)

theorem reads_subscript : Reads pre subscript fun m => pre ++ [m.span] :=
  Reads.rule ((reads_spanned _).bind fun _ => reads_pure rfl)

theorem reads_members {p : Reader MemberDecl} (hp : ∀ pre, Reads pre p fun m => pre ++ [m.span]) (fuel : Nat) :
    Reads pre (many fuel p) fun ms => pre ++ ms.map (·.span) := by
  simpa only [map_eq_flatMap] using Reads.many hp fuel

theorem reads_global (fuel : Nat) : Reads pre (global fuel) fun s => pre ++ s.members.map (·.span) := by
  have hbody : Reads pre (do
      sym "#global"
      sym "\x7b"
      let members ← many fuel (orElse (function fuel) property)
      skip
      lit "\x7d"
      return members) fun ms => pre ++ ms.map (·.span) :=
    .after _ fun _ => .after _ fun _ => (reads_members (fun _ => (reads_function fuel).orElse reads_property) fuel).bind
      fun ms => .after _ fun _ => .after _ fun _ => reads_pure rfl
  exact Reads.rule (hbody.spanned.bind fun ⟨span, members⟩ => reads_pure rfl)

theorem reads_typeMembers (fuel : Nat) : Reads pre (typeDecl fuel) fun s => pre ++ s.members.map (·.span) := by
  have hmembers : ∀ pre, Reads pre (choice [function fuel, subscript, property]) fun m => pre ++ [m.span] := by
    intro pre
    refine reads_choice ?_
    simp only [mem_cons, not_mem_nil, or_false, forall_eq_or_imp, forall_eq]
    exact ⟨reads_function fuel, reads_subscript, reads_property⟩
  have hbody : Reads pre (do
      sym "#type"
      let name ← identifier
      skip
      let ancestors ← optional (ancestors fuel)
      skip
      sym "\x7b"
      let members ← many fuel (choice [function fuel, subscript, property])
      skip
      lit "\x7d"
      return (name, ancestors.getD [], members)) fun x => pre ++ x.2.2.map (·.span) :=
    .after _ fun _ => .after _ fun _ => .after _ fun _ => .after _ fun _ => .after _ fun _ => .after _ fun _ =>
      (reads_members hmembers fuel).bind fun ms => .after _ fun _ => .after _ fun _ => reads_pure rfl
  exact Reads.rule (hbody.spanned.bind fun ⟨span, name, ancestors, members⟩ => reads_pure rfl)

theorem reads_typeDecl (fuel : Nat) : Reads pre (typeDecl fuel) fun s => pre ++ s.types.map (·.span) :=
  Reads.rule ((reads_spanned _).bind fun _ => reads_pure rfl)

section Spans

variable {spans : Statement → List Span} (hsilent : ∀ s, Silent s → spans s = [])
  (hglobal : ∀ fuel pre, Reads pre (global fuel) fun s => pre ++ spans s)
  (htype : ∀ fuel pre, Reads pre (typeDecl fuel) fun s => pre ++ spans s)

include hsilent

theorem reads_silent (h : ReadsSilent p) : Reads pre p fun s => pre ++ spans s :=
  reads_lawful (h id) fun s hs => by rw [hsilent s hs.2, append_nil]

include hglobal htype

theorem reads_statement (fuel : Nat) : Reads pre (statement fuel) fun s => pre ++ spans s := by
  cases fuel with
  | zero => exact fun _ _ _ _ _ h => by cases h
  | succ fuel =>
    obtain ⟨ps, hps, hall⟩ := statementWith_choice (fuel + 1) (statement fuel)
    unfold statement
    rw [hps]
    refine reads_choice fun p hp => ?_
    obtain rfl | rfl | h := hall p hp
    · exact hglobal _ pre
    · exact htype _ pre
    · exact reads_silent hsilent h

/-- What a whole text declares stands one after the other. -/
theorem row_of_parse {script : Script} (h : Script.parse n text = .ok script) :
    ∃ here, Row n (script.flatMap spans) here := by
  have hscript : Reads [] (Grammar.script (text.length + 1)) fun ss => ss.flatMap spans := by
    refine Reads.rule (.after _ fun _ => Reads.bind (Reads.many (fun _ => reads_statement hsilent hglobal htype _) _)
      fun ss => .after _ fun _ => ?_)
    exact .after _ fun _ => reads_pure (nil_append _).symm
  obtain ⟨c, reach, hread⟩ := Script.read_of_parse h
  exact ⟨_, (hscript _ _ _ _ _ hread ⟨.nil, nofun⟩).2⟩

end Spans

end Grammar

/-- Within a file no two types and no two members stand at one place. -/
structure Script.Placed (n : Nat) (script : Script) : Prop where
  types : script.types.Pairwise fun t u => t.span ≠ u.span
  typesIn : ∀ t ∈ script.types, t.span.file = n
  globals : script.globals.Pairwise fun m m' => m.span ≠ m'.span
  members : (script.types.flatMap (·.members)).Pairwise fun m m' => m.span ≠ m'.span
  membersIn : ∀ m, m ∈ script.globals ∨ m ∈ script.types.flatMap (·.members) → m.span.file = n

namespace Script

variable {n : Nat} {text : List Char} {script : Script}

theorem types_cons (s : Statement) (rest : Script) : Script.types (s :: rest) = s.types ++ Script.types rest := by
  cases s <;> rfl

theorem types_eq (script : Script) : script.types = script.flatMap (·.types) := by
  induction script with
  | nil => rfl
  | cons s rest ih => rw [types_cons, ih, flatMap_cons]

theorem globals_sublist (script : Script) : script.globals.Sublist (script.flatMap (·.members)) := by
  induction script with
  | nil => exact .slnil
  | cons s rest ih =>
    refine List.Sublist.append ?_ ih
    cases s with
    | global span members => exact .refl _
    | _ => exact nil_sublist _

theorem typeMembers_sublist (script : Script) :
    (script.types.flatMap (·.members)).Sublist (script.flatMap (·.members)) := by
  induction script with
  | nil => exact .slnil
  | cons s rest ih =>
    rw [types_cons, flatMap_append]
    refine List.Sublist.append ?_ ih
    cases s with
    | type decl => simp [Statement.types, Statement.members]
    | _ => exact nil_sublist _

open Grammar

section

variable (h : Script.parse n text = .ok script)
include h

theorem row_types : ∃ here, Reader.Row n (script.types.map (·.span)) here := by
  have hrow := @row_of_parse (fun s => s.types.map (·.span)) (fun s hs => congrArg (List.map _) hs.1)
    (fun fuel pre => Reader.reads_lawful (lawful_global fuel id) fun s hs => by rw [hs.2, List.map_nil, List.append_nil])
    (fun fuel pre => reads_typeDecl fuel) n text script h
  rwa [types_eq, List.map_flatMap]

theorem row_members :
    ∃ here, Reader.Row n ((script.flatMap (·.members)).map (·.span)) here := by
  rw [map_flatMap]
  exact @row_of_parse (fun s => s.members.map (·.span)) (fun s hs => congrArg (List.map _) hs.2)
    (fun fuel pre => reads_global fuel) (fun fuel pre => reads_typeMembers fuel) n text script h

theorem placed_of_parse : script.Placed n := by
  obtain ⟨_, htypes⟩ := row_types h
  obtain ⟨_, hmembers⟩ := row_members h
  have hapart := pairwise_map.1 hmembers.ne
  refine ⟨pairwise_map.1 htypes.ne, fun t ht => (htypes.each _ (mem_map_of_mem ht)).1,
    hapart.sublist script.globals_sublist, hapart.sublist script.typeMembers_sublist, fun m hm => ?_⟩
  have hmem : m ∈ script.flatMap (·.members) :=
    hm.elim (script.globals_sublist.subset ·) (script.typeMembers_sublist.subset ·)
  exact (hmembers.each _ (mem_map_of_mem hmem)).1

end

end Script

end HostScript
