import HostScript.Proofs.CompileOrder
import HostScript.Proofs.Spans
import Mathlib.Data.List.Pairwise

/-! What files declare.

A file that was built has passed the checks of its declarations against everything it
sees: a type has its name alone, its ancestors are declared, and no member that is
declared elsewhere clashes with one of its own (`Api.Checked`). What a file sees are the
declarations of the files it reaches (`mem_visible_iff`), and these all stand at different
places (`Reachable.placed`). -/
namespace HostScript

open List Option

variable {order stack : List Nat} {n : Member MemberDecl} {m : MemberDecl} {owner : Option String} {s : Session} {u : TypeDecl}
  {api : Api} {α : Type} {t : TypeDecl}

/-- Two members that cannot be told apart where they are used. -/
def MemberDecl.Clashes : MemberDecl → MemberDecl → Prop
  | .function f, .function g => f.name.name = g.name.name ∧ f.variadic = g.variadic ∧ f.types = g.types
  | .property p, .property q => p.name.name = q.name.name
  | .subscript d, .subscript e => d.index.type = e.index.type
  | _, _ => False

instance (m n : MemberDecl) : Decidable (m.Clashes n) := by
  unfold MemberDecl.Clashes
  split <;> infer_instance

/-! ### Checks that pass -/

namespace Check

theorem passes_forM {xs : List α} {f : α → Check PUnit} [∀ x, Plain (f x)] (h : Passes (xs.forM f) ⟨⟩) :
    ∀ x ∈ xs, Passes (f x) ⟨⟩ := by
  induction xs with
  | nil => nofun
  | cons x rest ih =>
    obtain ⟨_, hx, hrest⟩ := h.parts
    exact forall_mem_cons.2 ⟨hx, ih hrest⟩

theorem passes_unless {b : Bool} {span : Span} {problem : Problem}
    (h : Passes (if b = true then report span problem else pure ()) ⟨⟩) : b = false := by
  cases b with
  | false => rfl
  | true => exact absurd h (not_passes_report _ _ _)

end Check

namespace Api

/-- Of the members of its owner, none clashes with a member but itself. -/
def Alone (api : Api) (owner : Option String) (m : MemberDecl) : Prop :=
  ∀ n ∈ api.members owner, n.decl.Clashes m → n.decl.span = m.span

/-- A part of the members of an owner, as a search for them sees it. -/
theorem mem_part (hn : n ∈ api.members owner) (ha : part n.decl = some a) :
    ⟨n.owner, a⟩ ∈ (api.members owner).filterMap (Member.part? part) :=
  mem_filterMap.2 ⟨n, hn, by rw [Member.part?, ha, map_some]⟩

theorem alone_function (h : Check.Passes (api.checkMember owner (.function f)) ()) : api.Alone owner (.function f) := by
  obtain ⟨_, -, h⟩ := h.parts
  obtain ⟨_, -, h⟩ := h.parts
  have hothers := any_eq_false.1 (Check.passes_unless h)
  rintro ⟨owner, decl⟩ hn hclash
  cases decl with
  | function g =>
    have hg : ⟨owner, g⟩ ∈ api.functions _ := mem_part hn rfl
    simpa [MemberDecl.span] using hothers _ (mem_filter.2 ⟨hg, by simpa [MemberDecl.Clashes, and_assoc] using hclash⟩)
  | _ => cases hclash

theorem alone_property (h : Check.Passes (api.checkMember owner (.property p)) ()) : api.Alone owner (.property p) := by
  obtain ⟨_, -, h⟩ := h.parts
  have hothers := any_eq_false.1 (Check.passes_unless h)
  rintro ⟨owner, decl⟩ hn hclash
  cases decl with
  | property q =>
    have hq : ⟨owner, q⟩ ∈ api.properties _ := mem_part hn rfl
    simpa [MemberDecl.span] using hothers _ (mem_filter.2 ⟨hq, by simpa [MemberDecl.Clashes] using hclash⟩)
  | _ => cases hclash

theorem alone_subscript {owner : String} (h : Check.Passes (api.checkMember (some owner) (.subscript d)) ()) :
    api.Alone (some owner) (.subscript d) := by
  obtain ⟨_, -, h⟩ := h.parts
  obtain ⟨_, -, h⟩ := h.parts
  have hothers := any_eq_false.1 (Check.passes_unless h)
  rintro ⟨owner, decl⟩ hn hclash
  cases decl with
  | subscript e =>
    have he : ⟨owner, e⟩ ∈ api.subscripts _ := mem_part hn rfl
    simpa [MemberDecl.span] using hothers _ (mem_filter.2 ⟨he, by simpa [MemberDecl.Clashes] using hclash⟩)
  | _ => cases hclash

/-- A type that passed its checks. -/
structure Checked (api : Api) (t : TypeDecl) : Prop where
  name : ∀ u ∈ api.types, u.name.name = t.name.name → u.span = t.span
  ancestors : ∀ a ∈ ancestorsOf t, ∃ u, api.findType? a = some u
  members : ∀ m ∈ t.members, api.Alone (some t.name.name) m

theorem checked_of_passes (h : Check.Passes (api.checkTypeDecl t) ()) : api.Checked t := by
  unfold checkTypeDecl at h
  dsimp only at h
  generalize api.diamond? t.name.name = diamond at h
  split at h
  · cases diamond <;> exact absurd h (Check.not_passes_report_bind _ _ _)
  · rename_i htaken
    cases diamond with
    | some name =>
      obtain ⟨_, -, h⟩ := h.parts
      exact absurd h (Check.not_passes_report_bind _ _ _)
    | none =>
      obtain ⟨_, hfound, h⟩ := h.parts
      refine ⟨fun u hu hname => ?_, fun a ha => ?_, fun m hm => ?_⟩
      · have hall := List.any_eq_false.1 (Bool.eq_false_iff.2 htaken)
        simpa using hall u (List.mem_filter.2 ⟨hu, by simpa using hname⟩)
      · obtain ⟨a, hmem, rfl⟩ := List.mem_map.1 ha
        have hsome := Check.passes_unless (Check.passes_forM hfound a hmem)
        exact Option.isSome_iff_exists.1 (by simpa using hsome)
      · have hm := Check.passes_forM h m hm
        cases m with
        | function f => exact alone_function hm
        | property p => exact alone_property hm
        | subscript d => exact alone_subscript hm

end Api

namespace Script

variable {ctx : Context} {vs vs' : Variables}

/-- The declarations of a script pass when it is compiled without reports. -/
theorem passes_declarations (h : Compiling.Passes (Compiling.statements ctx place ss code) vs code' vs') :
    (∀ t ∈ Script.types ss, Check.Passes (ctx.api.checkTypeDecl t) ()) ∧
      ∀ m ∈ Script.globals ss, Check.Passes (ctx.api.checkMember none m) () := by
  induction ss generalizing code vs with
  | nil => simp [Script.types, Script.globals]
  | cons s rest ih =>
    obtain ⟨more, vs₁, hs, hrest⟩ := h.parts
    obtain ⟨htypes, hglobals⟩ := ih hrest
    cases s with
    | type decl =>
      obtain ⟨_, _, -, hs⟩ := hs.parts
      obtain ⟨_, _, hcheck, -⟩ := hs.parts
      exact ⟨forall_mem_cons.2 ⟨(Compiling.passes_check hcheck).1, htypes⟩, hglobals⟩
    | global span members =>
      obtain ⟨_, _, -, hs⟩ := hs.parts
      obtain ⟨_, _, hcheck, -⟩ := hs.parts
      have hmembers := Check.passes_forM (Compiling.passes_check hcheck).1
      exact ⟨htypes, fun m hm => (mem_append.1 hm).elim (hmembers m) (hglobals m)⟩
    | _ => exact ⟨htypes, hglobals⟩

end Script

namespace Session

variable {i j : Nat}

/-! ### Files in sight -/

theorem nodup_visibleFrom (fuel : Nat) (h : order.Nodup) : (s.visibleFrom fuel stack order).Nodup := by
  induction fuel generalizing stack order with
  | zero => exact h
  | succ fuel ih =>
    cases stack with
    | nil => exact h
    | cons i rest =>
      unfold visibleFrom
      split
      · exact ih h
      · rename_i hi
        exact ih (nodup_append.2 ⟨h, nodup_singleton i, fun a ha b hb hab =>
          hi (mem_singleton.1 hb ▸ hab ▸ ha)⟩)

/-- A walk that is not cut short meets everything reached from its start. -/
theorem reaches_mem_visibleFrom (fuel : Nat) (hfuel : stack.length + s.unfollowed order ≤ fuel)
    (h : Api.Walks s.importsOf i order stack) (hj : s.Reaches i j) : j ∈ s.visibleFrom fuel stack order := by
  induction fuel generalizing stack order with
  | zero =>
    obtain rfl : stack = [] := length_eq_zero_iff.1 (by omega)
    exact h.mem hj
  | succ fuel ih =>
    cases stack with
    | nil => exact h.mem hj
    | cons k rest =>
      rw [length_cons] at hfuel
      unfold visibleFrom
      by_cases hk : k ∈ order
      · rw [if_pos hk]
        exact ih (by omega) (h.skip hk)
      · have hless := s.unfollowed_follow (order ++ [k]) hk (by simp [or_comm])
        rw [if_neg hk]
        exact ih (by rw [length_append]; omega) (h.follow (by simp [or_comm]) (by simp))

theorem mem_visible_iff : j ∈ s.visible i ↔ s.Reaches i j :=
  ⟨mem_visibleFrom (fun _ hk _ hj => hk.tail hj) _ (by simp [Relation.ReflTransGen.refl]) nofun j,
    reaches_mem_visibleFrom _ (s.singleton_le_links i) ⟨.inr (mem_singleton_self i), nofun⟩⟩

/-! ### Declarations in sight -/

def script? (s : Session) (i : Nat) : Option Script := (s.units[i]?).bind (·.script)

def typesOf (s : Session) (i : Nat) : List TypeDecl := ((s.script? i).map Script.types).getD []

def globalsOf (s : Session) (i : Nat) : List MemberDecl := ((s.script? i).map Script.globals).getD []

theorem mem_flatMap_scripts (f : Script → List α) :
    a ∈ ((s.visible i).filterMap s.script?).flatMap f ↔ ∃ j, s.Reaches i j ∧ a ∈ ((s.script? j).map f).getD [] := by
  rw [mem_flatMap]
  constructor
  · rintro ⟨script, hscript, ha⟩
    obtain ⟨j, hj, hjs⟩ := mem_filterMap.1 hscript
    exact ⟨j, mem_visible_iff.1 hj, by rwa [hjs]⟩
  · rintro ⟨j, hj, ha⟩
    cases hjs : s.script? j with
    | none =>
      rw [hjs] at ha
      cases ha
    | some script =>
      rw [hjs] at ha
      exact ⟨script, mem_filterMap.2 ⟨j, mem_visible_iff.2 hj, hjs⟩, ha⟩

theorem mem_types_api : t ∈ (s.api i).types ↔ ∃ j, s.Reaches i j ∧ t ∈ s.typesOf j :=
  mem_flatMap_scripts Script.types

theorem mem_globals_api : m ∈ (s.api i).globals ↔ ∃ j, s.Reaches i j ∧ m ∈ s.globalsOf j :=
  mem_flatMap_scripts Script.globals

theorem Built.checked (h : Built s i) : (∀ t ∈ s.typesOf i, (s.api i).Checked t) ∧
    ∀ m ∈ s.globalsOf i, Check.Passes ((s.api i).checkMember none m) () := by
  obtain ⟨hunit, hscript, -, -, -, hcompile, -⟩ := h
  have hs : s.script? i = some _ := bind_eq_some_iff.2 ⟨_, hunit, hscript⟩
  obtain ⟨htypes, hglobals⟩ := Script.passes_declarations hcompile
  unfold typesOf globalsOf
  rw [hs]
  exact ⟨fun t ht => Api.checked_of_passes (htypes t ht), hglobals⟩

/-! ### Places -/

theorem Reachable.placed (hs : Reachable s) (h : s.script? i = some script) : script.Placed i := by
  have heach : s.Each fun n u => ∀ script, u.script = some script → script.Placed n := by
    clear h
    induction hs with
    | new disk debug => exact fun i u hu => by cases hu
    | @load s path hs ih =>
      refine each_loadFrom (fun disk path n => ?_) (fun _ _ _ h => h) _ path s hs.orderly.complete ih
      unfold readFile
      split
      · exact nofun
      · split
        · rename_i hparse
          intro script hscript
          cases hscript
          exact Script.placed_of_parse hparse
        · exact nofun
    | @compile s k hs ih =>
      intro n u hu script hscript
      obtain ⟨v, hv, hsame, -⟩ := (compiles_compile hs.orderly.fresh k).unit_of hu
      exact ih n v hv script (hsame ▸ hscript)
  obtain ⟨u, hu, hscript⟩ := bind_eq_some_iff.1 h
  exact heach i u hu script hscript

/-- Spans of what the files in sight declare differ, as they do within each file. -/
theorem Reachable.pairwise_spans (hs : Reachable s) {f : Script → List α} {span : α → Span}
    (hf : ∀ {n script}, Script.Placed n script →
      (f script).Pairwise (fun a b => span a ≠ span b) ∧ ∀ a ∈ f script, (span a).file = n) (i : Nat) :
    (((s.visible i).filterMap s.script?).flatMap f).Pairwise fun a b => span a ≠ span b := by
  rw [pairwise_flatMap, pairwise_filterMap]
  constructor
  · intro script hscript
    obtain ⟨j, -, hj⟩ := mem_filterMap.1 hscript
    exact (hf (hs.placed hj)).1
  · refine (nodup_visibleFrom _ .nil).imp fun {j k} hjk script hj script' hk a ha b hb heq => hjk ?_
    rw [← (hf (hs.placed hj)).2 a ha, ← (hf (hs.placed hk)).2 b hb, heq]

end Session

namespace Api

/-- All declarations stand at different places. -/
structure Placed (api : Api) : Prop where
  types : api.types.Pairwise fun t u => t.span ≠ u.span
  globals : api.globals.Pairwise fun m n => m.span ≠ n.span
  members : (api.types.flatMap (·.members)).Pairwise fun m n => m.span ≠ n.span

theorem Placed.type_eq (h : api.Placed) (ht : t ∈ api.types) (hu : u ∈ api.types) (heq : t.span = u.span) : t = u := by
  have : Std.Symm fun t u : TypeDecl => t.span ≠ u.span := ⟨fun _ _ h => h.symm⟩
  by_contra hne
  exact h.types.forall ht hu hne heq

/-- Members of different types. -/
theorem Placed.member_ne (h : api.Placed) (ht : t ∈ api.types) (hu : u ∈ api.types) (hne : t ≠ u) {n : MemberDecl}
    (hm : m ∈ t.members) (hn : n ∈ u.members) : m.span ≠ n.span := by
  have : Std.Symm fun t u : TypeDecl => ∀ m ∈ t.members, ∀ n ∈ u.members, m.span ≠ n.span :=
    ⟨fun _ _ h m hm n hn => (h n hn m hm).symm⟩
  exact (pairwise_flatMap.1 h.members).2.forall ht hu hne m hm n hn

/-- The members of an owner, inherited ones included, stand at different places. -/
theorem Placed.pairwise_members (h : api.Placed) (owner : Option String) :
    (api.members owner).Pairwise fun m n => m.decl.span ≠ n.decl.span := by
  cases owner with
  | none =>
    exact pairwise_map.2 h.globals
  | some name =>
    show ((api.lineage name).flatMap _).Pairwise _
    have hin : ∀ t ∈ api.lineage name, t ∈ api.types := fun t ht => by
      obtain ⟨n, -, hn⟩ := mem_lineage_iff.1 ht
      exact (findType_name hn).1
    rw [pairwise_flatMap]
    constructor
    · intro t ht
      exact pairwise_map.2 ((pairwise_flatMap.1 h.members).1 t (hin t ht))
    · have hnames := pairwise_map.1 (@nodup_lineageFrom [name] [] api (api.links + 1)).1
      refine hnames.imp_of_mem fun {t u} ht hu hne m hm n hn => ?_
      obtain ⟨m, hm', rfl⟩ := mem_map.1 hm
      obtain ⟨n, hn', rfl⟩ := mem_map.1 hn
      exact h.member_ne (hin t ht) (hin u hu) (fun h => hne (h ▸ rfl)) hm' hn'

end Api

theorem Session.Reachable.placed_api (hs : Reachable s) (i : Nat) : (s.api i).Placed where
  types := hs.pairwise_spans (fun h => ⟨h.types, h.typesIn⟩) i
  globals := hs.pairwise_spans (fun h => ⟨h.globals, fun m hm => h.membersIn m (.inl hm)⟩) i
  members := by
    show ((List.flatMap _ _).flatMap _).Pairwise _
    rw [List.flatMap_assoc]
    exact hs.pairwise_spans (fun h => ⟨h.members, fun m hm => h.membersIn m (.inr hm)⟩) i

end HostScript
