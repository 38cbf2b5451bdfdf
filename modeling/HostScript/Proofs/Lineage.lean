import HostScript.Api.Search
import Mathlib.Algebra.GroupWithZero.Nat
import Mathlib.Data.Nat.Init
import Mathlib.Logic.Relation

/-! Walks along inheritance.

The walks from a type to what it inherits from follow each name once, so the bound on
their steps never cuts them short (`lineageFrom_enough`, `cycleFrom_enough`,
`diamondFrom_enough`). The lineage of a name holds a type exactly when steps from a name to
the ancestors of the type it means lead to a name that means this type
(`mem_lineage_iff`). -/
namespace HostScript.Api

open List Option

variable {queue seen : List String} {n : Nat} {name : String} {t : TypeDecl}

/-- Types without members, each with the names it inherits from. -/
def ofAncestors (types : List (String × List String)) : Api :=
  ⟨types.map fun (name, above) => ⟨⟨name, ⟨0, 0, 0⟩⟩, above.map (⟨·, ⟨0, 0, 0⟩⟩), [], ⟨0, 0, 0⟩⟩, []⟩

theorem sum_map_le_of_mem {α : Type} {f g : α → Nat} {c : Nat} {xs : List α} {a : α} (ha : a ∈ xs)
    (h : ∀ x ∈ xs, g x ≤ f x) (hc : g a + c ≤ f a) : (xs.map g).sum + c ≤ (xs.map f).sum := by
  have hall : ∀ xs : List α, (∀ x ∈ xs, g x ≤ f x) → (xs.map g).sum ≤ (xs.map f).sum := by
    intro xs hxs
    induction xs with
    | nil => exact Nat.le_refl _
    | cons x rest ih =>
      obtain ⟨hx, hrest⟩ := forall_mem_cons.1 hxs
      simpa using Nat.add_le_add hx (ih hrest)
  induction xs with
  | nil => cases ha
  | cons x rest ih =>
    obtain ⟨hx, hrest⟩ := forall_mem_cons.1 h
    simp only [map_cons, sum_cons]
    obtain rfl | ha := mem_cons.1 ha
    · have := hall rest hrest
      omega
    · have := ih ha hrest
      omega

/-- Nothing is lost on a walk from a start: what comes next after something it has met was met, too, or waits. -/
structure Walks {α : Type} (next : α → List α) (start : α) (met waiting : List α) : Prop where
  start : start ∈ met ∨ start ∈ waiting
  closed : ∀ a ∈ met, ∀ b ∈ next a, b ∈ met ∨ b ∈ waiting

namespace Walks

variable {α : Type} {next : α → List α} {start a : α} {met rest : List α}

/-- What was met before is left out. -/
theorem skip (h : Walks next start met (a :: rest)) (ha : a ∈ met) : Walks next start met rest where
  start := by grind [h.start]
  closed x hx y hy := by grind [h.closed x hx y hy]

/-- What was not met before is met now, and what comes next after it waits. -/
theorem follow (h : Walks next start met (a :: rest)) (hmet : ∀ x, x ∈ met' ↔ x = a ∨ x ∈ met)
    (hwait : ∀ x, x ∈ waiting ↔ x ∈ next a ∨ x ∈ rest) : Walks next start met' waiting where
  start := by grind [h.start]
  closed x hx y hy := by grind [h.closed x]

/-- Once nothing waits, everything was met. -/
theorem mem (h : Walks next start met []) (ha : Relation.ReflTransGen (fun x y => y ∈ next x) start a) : a ∈ met := by
  induction ha with
  | refl => exact h.start.resolve_right not_mem_nil
  | tail _ hstep ih => exact (h.closed _ ih _ hstep).resolve_right not_mem_nil

end Walks

/-- A walk does not depend on a bound on its steps if that is large enough: each step takes one of those that wait,
and it adds no more of them than are `left` less. -/
theorem walk_enough {α β : Type} {walk : Nat → List α → List α → β} {left : List α → Nat}
    (hnil : ∀ m n met, walk m [] met = walk n [] met)
    (hcons : ∀ a rest met, ∃ waiting met', waiting.length + left met' ≤ rest.length + left met ∧
      ∀ m n, walk m waiting met' = walk n waiting met' → walk (m + 1) (a :: rest) met = walk (n + 1) (a :: rest) met)
    {m n : Nat} {waiting met : List α} (h : waiting.length + left met ≤ n) (hm : n ≤ m) :
    walk m waiting met = walk n waiting met := by
  induction n generalizing m waiting met with
  | zero =>
    obtain rfl : waiting = [] := length_eq_zero_iff.1 (by omega)
    exact hnil ..
  | succ n ih =>
    obtain ⟨m, rfl⟩ := Nat.exists_eq_add_of_le' hm
    cases waiting with
    | nil => exact hnil ..
    | cons a rest =>
      rw [length_cons] at h
      obtain ⟨_, _, hle, hsame⟩ := hcons a rest met
      exact hsame _ _ (ih (by omega) (Nat.le_add_left ..))

variable {api : Api}

/-- The ancestors of the type that a name means. -/
abbrev above (api : Api) (name : String) : List String := ((api.findType? name).map ancestorsOf).getD []

/-- The steps that are left from names not seen yet. -/
def unwalked (api : Api) (seen : List String) : Nat :=
  (api.types.map fun t => if t.name.name ∈ seen then 0 else t.ancestors.length).sum

theorem links_eq (api : Api) : api.links = api.unwalked [] := by
  simp [links, unwalked]

theorem findType_name (h : api.findType? name = some t) : t ∈ api.types ∧ t.name.name = name :=
  ⟨mem_of_find?_eq_some h, by simpa using List.find?_some h⟩

/-- A walk that goes on from one more name. -/
theorem unwalked_cons (api : Api) (hname : name ∉ seen) :
    api.unwalked (name :: seen) + (api.above name).length ≤ api.unwalked seen := by
  have hle : ∀ t ∈ api.types, (if t.name.name ∈ name :: seen then 0 else t.ancestors.length) ≤
      if t.name.name ∈ seen then 0 else t.ancestors.length := by
    intro t _
    by_cases h : t.name.name ∈ seen
    · simp [h]
    · by_cases h' : t.name.name = name <;> simp [h, h']
  unfold unwalked above
  cases hfind : api.findType? name with
  | none =>
    cases htypes : api.types with
    | nil => simp
    | cons t rest =>
      rw [← htypes]
      have ht : t ∈ api.types := by simp [htypes]
      exact sum_map_le_of_mem ht hle (hle t ht)
  | some t =>
    obtain ⟨hmem, hsame⟩ := findType_name hfind
    refine sum_map_le_of_mem hmem hle ?_
    simp [hsame, hname, ancestorsOf]

theorem lineageFrom_seen (hname : name ∈ seen) :
    api.lineageFrom (fuel + 1) (name :: queue) seen = api.lineageFrom fuel queue seen := by
  rw [lineageFrom, if_pos hname]

theorem lineageFrom_unseen (hname : name ∉ seen) : api.lineageFrom (fuel + 1) (name :: queue) seen =
    (api.findType? name).toList ++ api.lineageFrom fuel (queue ++ api.above name) (name :: seen) := by
  rw [lineageFrom, if_neg hname, above]
  cases api.findType? name <;> simp

theorem singleton_le_links (api : Api) (name : String) : [name].length + api.unwalked [] ≤ api.links + 1 := by
  rw [links_eq, length_singleton]
  omega

theorem lineageFrom_enough (name : String) (h : api.links + 1 ≤ n) :
    api.lineageFrom n [name] [] = api.lineage name := by
  refine @walk_enough _ _ api.lineageFrom api.unwalked (fun m n _ => by cases m <;> cases n <;> rfl)
    (fun name queue seen => ?_) _ _ _ _ (api.singleton_le_links name) h
  by_cases hname : name ∈ seen
  · exact ⟨queue, seen, Nat.le_refl _, fun m n h => by rw [lineageFrom_seen hname, lineageFrom_seen hname, h]⟩
  · have hless := api.unwalked_cons hname
    refine ⟨queue ++ api.above name, name :: seen, by rw [length_append]; omega, fun m n h => ?_⟩
    rw [lineageFrom_unseen hname, lineageFrom_unseen hname, h]

theorem diamondFrom_enough (name : String) (h : api.links + 1 ≤ n) :
    api.diamondFrom n [name] [] = api.diamond? name := by
  refine @walk_enough _ _ api.diamondFrom api.unwalked (fun m n _ => by cases m <;> cases n <;> rfl)
    (fun name stack seen => ?_) _ _ _ _ (api.singleton_le_links name) h
  by_cases hname : name ∈ seen
  · exact ⟨stack, seen, Nat.le_refl _, fun m n _ => by rw [diamondFrom, diamondFrom, if_pos hname, if_pos hname]⟩
  · have hless := api.unwalked_cons hname
    refine ⟨(api.above name).reverse ++ stack, name :: seen, ?_, fun m n h => ?_⟩
    · rw [length_append, length_reverse]
      omega
    · rw [diamondFrom, diamondFrom, if_neg hname, if_neg hname]
      exact h

/-- How many types are not on a path. -/
def offPath (api : Api) (path : List String) : Nat :=
  (api.types.map fun t => if t.name.name ∈ path then 0 else 1).sum

theorem offPath_concat {path : List String} (hname : name ∉ path) (hfind : api.findType? name = some t) :
    api.offPath (path ++ [name]) + 1 ≤ api.offPath path := by
  obtain ⟨hmem, hsame⟩ := findType_name hfind
  refine sum_map_le_of_mem hmem (fun u _ => ?_) ?_
  · by_cases h : u.name.name ∈ path
    · simp [h]
    · by_cases h' : u.name.name = name <;> simp [h, h']
  · simp [hsame, hname]

theorem cycleFrom_succ (fuel : Nat) (name : String) (h : api.offPath path ≤ fuel) :
    api.cycleFrom (fuel + 1) path name = api.cycleFrom fuel path name := by
  induction fuel generalizing path name with
  | zero =>
    unfold cycleFrom
    by_cases hname : name ∈ path
    · rw [if_pos hname, if_pos hname]
    · rw [if_neg hname, if_neg hname]
      cases hfind : api.findType? name with
      | none => rfl
      | some t =>
        have := offPath_concat hname hfind
        omega
  | succ fuel ih =>
    conv => lhs; unfold cycleFrom
    conv => rhs; unfold cycleFrom
    by_cases hname : name ∈ path
    · rw [if_pos hname, if_pos hname]
    · rw [if_neg hname, if_neg hname]
      cases hfind : api.findType? name with
      | none => rfl
      | some t =>
        have := offPath_concat hname hfind
        have hsame : api.cycleFrom (fuel + 1) (path ++ [name]) = api.cycleFrom fuel (path ++ [name]) :=
          funext fun a => ih a (by omega)
        dsimp only
        rw [hsame]

theorem cycleFrom_enough (name : String) (h : api.types.length ≤ n) : api.cycleFrom n [] name = api.cycle? name := by
  have hall : api.offPath [] = api.types.length := by simp [offPath, map_const']
  induction n, h using Nat.le_induction with
  | base => rfl
  | succ n h ih => rw [cycleFrom_succ n name (by omega), ih]

/-! ### What a lineage holds -/

/-- One step from a name to an ancestor of the type that it means. -/
def Parent (api : Api) (name above : String) : Prop := ∃ t, api.findType? name = some t ∧ above ∈ ancestorsOf t

/-- Any number of such steps. -/
abbrev Ascends (api : Api) : String → String → Prop := Relation.ReflTransGen api.Parent

theorem parent_iff : api.Parent name m ↔ m ∈ api.above name := by
  unfold Parent above
  cases api.findType? name <;> simp

theorem ascends_of_mem_lineageFrom (h : t ∈ api.lineageFrom fuel queue seen) :
    ∃ q ∈ queue, ∃ n, api.Ascends q n ∧ api.findType? n = some t := by
  induction fuel generalizing queue seen with
  | zero => cases h
  | succ fuel ih =>
    cases queue with
    | nil => cases h
    | cons name queue =>
      by_cases hname : name ∈ seen
      · rw [lineageFrom_seen hname] at h
        obtain ⟨q, hq, hn⟩ := ih h
        exact ⟨q, mem_cons_of_mem _ hq, hn⟩
      · rw [lineageFrom_unseen hname] at h
        obtain h | h := mem_append.1 h
        · exact ⟨name, mem_cons_self .., name, .refl, mem_toList.1 h⟩
        · obtain ⟨q, hq, n, hn, ht⟩ := ih h
          obtain hq | hq := mem_append.1 hq
          · exact ⟨q, mem_cons_of_mem _ hq, n, hn, ht⟩
          · exact ⟨name, mem_cons_self .., n, .head (parent_iff.2 hq) hn, ht⟩

/-- A walk that is not cut short meets everything above its start. -/
theorem mem_lineageFrom {fuel : Nat} (hfuel : queue.length + api.unwalked seen ≤ fuel) {q n : String}
    (h : Walks api.above q seen queue) (hn : api.Ascends q n) (ht : api.findType? n = some t) :
    n ∈ seen ∨ t ∈ api.lineageFrom fuel queue seen := by
  have hup := Relation.ReflTransGen.mono (fun _ _ => parent_iff.1) q n hn
  induction fuel generalizing queue seen with
  | zero =>
    obtain rfl : queue = [] := length_eq_zero_iff.1 (by omega)
    exact .inl (h.mem hup)
  | succ fuel ih =>
    cases queue with
    | nil => exact .inl (h.mem hup)
    | cons name queue =>
      rw [length_cons] at hfuel
      by_cases hname : name ∈ seen
      · rw [lineageFrom_seen hname]
        exact ih (by omega) (h.skip hname)
      · have hless := api.unwalked_cons hname
        rw [lineageFrom_unseen hname]
        have hwalk : Walks api.above q (name :: seen) (queue ++ api.above name) := h.follow (by simp) (by simp [or_comm])
        obtain hmem | hmem := ih (by rw [length_append]; omega) hwalk
        · obtain rfl | hmem := mem_cons.1 hmem
          · exact .inr (mem_append_left _ (mem_toList.2 ht))
          · exact .inl hmem
        · exact .inr (mem_append_right _ hmem)

/-- The lineage of a name holds the types that names above it mean. -/
theorem mem_lineage_iff : t ∈ api.lineage name ↔ ∃ n, api.Ascends name n ∧ api.findType? n = some t := by
  constructor
  · intro h
    obtain ⟨q, hq, n, hn, ht⟩ := ascends_of_mem_lineageFrom h
    obtain rfl := mem_singleton.1 hq
    exact ⟨n, hn, ht⟩
  · rintro ⟨n, hn, ht⟩
    have hwalk : Walks api.above name [] [name] := ⟨.inr (mem_singleton_self name), nofun⟩
    exact (mem_lineageFrom (api.singleton_le_links name) hwalk hn ht).resolve_left not_mem_nil

/-- No name is met twice. -/
theorem nodup_lineageFrom (fuel : Nat) : ((api.lineageFrom fuel queue seen).map (·.name.name)).Nodup ∧
      ∀ t ∈ api.lineageFrom fuel queue seen, t.name.name ∉ seen := by
  induction fuel generalizing queue seen with
  | zero => exact ⟨.nil, nofun⟩
  | succ fuel ih =>
    cases queue with
    | nil => exact ⟨.nil, nofun⟩
    | cons name queue =>
      unfold lineageFrom
      split
      · exact ih
      · rename_i hname
        split
        · exact ⟨ih.1, fun t ht hmem => ih.2 t ht (mem_cons_of_mem _ hmem)⟩
        · rename_i u hu
          obtain ⟨hnodup, hunseen⟩ := @ih (queue ++ ancestorsOf u) (name :: seen)
          have hsame := (findType_name hu).2
          refine ⟨nodup_cons.2 ⟨fun hmem => ?_, hnodup⟩, fun t ht hmem => ?_⟩
          · obtain ⟨t, ht, heq⟩ := mem_map.1 hmem
            exact hunseen t ht (mem_cons.2 (.inl (heq.trans hsame)))
          · obtain rfl | ht := mem_cons.1 ht
            · exact hname (hsame ▸ hmem)
            · exact hunseen t ht (mem_cons_of_mem _ hmem)

end HostScript.Api
