import HostScript.Proofs.Branches

/-! The order of a lineage.

A lineage is found breadth first: what waits in the queue is first names at some distance from the
start, and then names one step farther (`Level`). No name is nearer than those that wait and was not
met before, so what is met later is no nearer (`pairwise_lineageFrom`). As a lineage holds just what
can be reached, being assignable is reflexive and transitive (`lineage_reaches`). -/
namespace HostScript.Api

open List

variable {api : Api} {start name : String} {seen queue near far : List String} {d k : Nat}

/-- A number of steps leads from a name to another one. -/
inductive Steps (api : Api) (start : String) : Nat → String → Prop
  | here : Steps api start 0 start
  | up {k : Nat} {name above : String} (h : Steps api start k name) (hup : api.Parent name above) :
      Steps api start (k + 1) above

/-- One name is as near as another one: no way to the other one is shorter than all ways to it. -/
def Nearer (api : Api) (start : String) (t u : TypeDecl) : Prop :=
  ∀ k, api.Steps start k u.name.name → ∃ j ≤ k, api.Steps start j t.name.name

/-- What waits at distance `d`: the names in front are there, and those behind them one step farther. -/
structure Level (api : Api) (start : String) (d : Nat) (near far seen : List String) : Prop where
  walks : Walks api.above start seen (near ++ far)
  first : ∀ a ∈ near, api.Steps start d a
  farther : ∀ a ∈ far, api.Steps start (d + 1) a
  nearer : ∀ k < d, ∀ a, api.Steps start k a → a ∈ seen
  here : ∀ a, api.Steps start d a → a ∈ seen ∨ a ∈ near

namespace Level

theorem init (api : Api) (start : String) : api.Level start 0 [start] [] [] where
  walks := ⟨.inr (mem_singleton_self start), nofun⟩
  first a ha := by
    rw [mem_singleton.1 ha]
    exact .here
  farther := nofun
  nearer := nofun
  here a h := by
    cases h
    exact .inr (mem_singleton_self start)

/-- When nothing waits at a distance, the next one has come. -/
theorem next (h : api.Level start d [] far seen) : api.Level start (d + 1) far [] seen where
  walks := by simpa using h.walks
  first := h.farther
  farther := nofun
  nearer k hk a ha := by
    obtain hlt | rfl := Nat.lt_succ_iff_lt_or_eq.1 hk
    · exact h.nearer k hlt a ha
    · exact (h.here a ha).resolve_right not_mem_nil
  here a ha := by
    cases ha with
    | up hb hup =>
      have hseen := (h.here _ hb).resolve_right not_mem_nil
      exact h.walks.closed _ hseen a (parent_iff.1 hup)

theorem skip (h : api.Level start d (name :: near) far seen) (hname : name ∈ seen) : api.Level start d near far seen where
  walks := h.walks.skip hname
  first a ha := h.first a (mem_cons_of_mem _ ha)
  farther := h.farther
  nearer := h.nearer
  here a ha := (h.here a ha).elim .inl fun hmem => (mem_cons.1 hmem).elim (fun heq => .inl (heq ▸ hname)) .inr

theorem follow (h : api.Level start d (name :: near) far seen) :
    api.Level start d near (far ++ api.above name) (name :: seen) where
  walks := h.walks.follow (by simp) (by simp [or_comm, or_assoc])
  first a ha := h.first a (mem_cons_of_mem _ ha)
  farther a ha := (mem_append.1 ha).elim (h.farther a) fun hup =>
    .up (h.first name (mem_cons_self ..)) (parent_iff.2 hup)
  nearer k hk a ha := mem_cons_of_mem _ (h.nearer k hk a ha)
  here a ha := by
    obtain hseen | hmem := h.here a ha
    · exact .inl (mem_cons_of_mem _ hseen)
    · obtain rfl | hmem := mem_cons.1 hmem
      · exact .inl (mem_cons_self ..)
      · exact .inr hmem

/-- The name that is taken next is one of the nearest that wait. -/
theorem front (h : api.Level start d near far seen) (hqueue : near ++ far = name :: queue) :
    ∃ d near far, queue = near ++ far ∧ api.Level start d (name :: near) far seen := by
  cases near with
  | nil =>
    obtain rfl : far = name :: queue := hqueue
    exact ⟨d + 1, queue, [], (append_nil _).symm, h.next⟩
  | cons a near =>
    obtain ⟨rfl, rfl⟩ := List.cons.inj hqueue
    exact ⟨d, near, far, rfl, h⟩

end Level

/-- What a walk lists later is no nearer to its start. -/
theorem pairwise_lineageFrom (fuel : Nat) (h : api.Level start d near far seen) :
    (api.lineageFrom fuel (near ++ far) seen).Pairwise (api.Nearer start) := by
  induction fuel generalizing d near far seen with
  | zero => exact .nil
  | succ fuel ih =>
    cases hqueue : near ++ far with
    | nil => exact .nil
    | cons name queue =>
      obtain ⟨d, near, far, rfl, hlevel⟩ := h.front hqueue
      by_cases hname : name ∈ seen
      · rw [lineageFrom_seen hname]
        exact ih (hlevel.skip hname)
      · rw [lineageFrom_unseen hname, append_assoc]
        refine pairwise_append.2 ⟨?_, ih hlevel.follow, fun t ht u hu k hk => ?_⟩
        · cases api.findType? name <;> simp
        · have hunseen := (nodup_lineageFrom fuel).2 u hu
          have hd : d ≤ k := Nat.le_of_not_lt fun hlt =>
            hunseen (mem_cons_of_mem _ (hlevel.nearer k hlt _ hk))
          rw [(findType_name (Option.mem_toList.1 ht)).2]
          exact ⟨d, hd, hlevel.first name (mem_cons_self ..)⟩

theorem head?_lineage (api : Api) (name : String) : (api.lineage name).head? = api.findType? name := by
  unfold lineage
  rw [lineageFrom_unseen not_mem_nil]
  cases hfind : api.findType? name with
  | none =>
    have hnone : api.above name = [] := by simp [above, hfind]
    rw [hnone]
    cases api.links <;> rfl
  | some t => rfl

/-! ### Inheriting -/

theorem numeric_of_kind {p : Primitive} (h : p.isUnsignedInteger ∨ p.isSignedInteger ∨ p.isFloat) :
    p.isNumeric ∧ ¬ p.isUntyped := by
  rcases p with k | _
  · cases k <;>
      simp_all [Primitive.isUnsignedInteger, Primitive.isSignedInteger, Primitive.isFloat, Primitive.isNumeric,
        Primitive.isUntyped]
  all_goals simp [Primitive.isUnsignedInteger, Primitive.isSignedInteger, Primitive.isFloat] at h

/-- What can stand for a value that is no object: a value of the same type, or a number without a kind for one that
has a kind. -/
theorem untyped_of_assignable {source : Ty} {p : Primitive} (h : api.assignable source (.prim p)) :
    source = .prim p ∨ source.primitive.isUntyped ∧ p.isNumeric ∧ ¬ p.isUntyped := by
  unfold assignable at h
  rw [Bool.or_eq_true, decide_eq_true_iff] at h
  refine h.imp_right fun h => ?_
  dsimp only at h
  split at h
  · exact ⟨by rw [of_decide_eq_true h]; rfl, numeric_of_kind (.inl ‹_›)⟩
  · split at h
    · refine ⟨?_, numeric_of_kind (.inr (.inl ‹_›))⟩
      obtain h | h := Bool.or_eq_true_iff.1 h <;> rw [of_decide_eq_true h] <;> rfl
    · split at h
      · exact ⟨h, numeric_of_kind (.inr (.inr ‹_›))⟩
      · cases h

theorem assignable_trans (hab : api.assignable a b) (hbc : api.assignable b c) : api.assignable a c := by
  cases b with
  | object child =>
    obtain ⟨ancestor, rfl, hchild⟩ := assignable_object.1 hbc
    cases a with
    | object grandchild =>
      obtain ⟨_, hchild', hgrand⟩ := assignable_object.1 hab
      cases hchild'
      exact assignable_object.2 ⟨ancestor, rfl, inherits_trans hgrand hchild⟩
    | prim p =>
      obtain rfl : p = .kind .pointer := by simpa [assignable] using hab
      rfl
  | prim q =>
    obtain rfl | ⟨-, hnumeric, htyped⟩ := untyped_of_assignable hab
    · exact hbc
    · cases c with
      | object ancestor =>
        obtain rfl : q = .kind .pointer := by simpa [assignable] using hbc
        cases hnumeric
      | prim r =>
        obtain heq | ⟨huntyped, -⟩ := untyped_of_assignable hbc
        · exact heq ▸ hab
        · exact absurd huntyped htyped

/-- The walk along inheritance ends by itself. It lists, each once and nearer ones first, just the types that steps
from a name to the ancestors of the type it means lead to, and the type of the name at the front. Inheriting is to be
reached so, and being assignable is reflexive and transitive. -/
theorem lineage_reaches (api : Api) (name : String) :
    (∀ fuel, api.links + 1 ≤ fuel → api.lineageFrom fuel [name] [] = api.lineage name) ∧
      (∀ t, t ∈ api.lineage name ↔ ∃ n, api.Ascends name n ∧ api.findType? n = some t) ∧
      ((api.lineage name).map (·.name.name)).Nodup ∧ (api.lineage name).head? = api.findType? name ∧
      (api.lineage name).Pairwise (api.Nearer name) ∧ (∀ ancestor, api.inherits name ancestor ↔
        name = ancestor ∨ api.Ascends name ancestor ∧ (api.findType? ancestor).isSome) ∧ (∀ a, api.assignable a a) ∧
      ∀ a b c, api.assignable a b → api.assignable b c → api.assignable a c :=
  ⟨fun _ => lineageFrom_enough name, fun _ => mem_lineage_iff, (nodup_lineageFrom _).1, head?_lineage api name,
    pairwise_lineageFrom _ (.init api name), fun _ => inherits_iff.trans (or_congr_right mem_lineage_names),
    fun a => by simp [assignable], fun _ _ _ => assignable_trans⟩

example : ((ofAncestors [("A", ["B", "C"]), ("B", ["D"]), ("C", ["D"]), ("D", [])]).lineage "A").map (·.name.name) =
    ["A", "B", "C", "D"] := by decide

end HostScript.Api
