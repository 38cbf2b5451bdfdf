import HostScript.Proofs.Lineage
import Mathlib.Data.List.Chain

/-! Faults of a hierarchy.

The search for a cycle finds one just if there is one above a type (`cycle_exact`): from a name that leads
to a cycle some step leads to another such name, so the search cannot get stuck before a name comes
back. The search for a diamond meets a name a second time just if two ways lead there (`diamond_exact`):
what waits on its stack stands for all ways that were not gone yet, each of them once. -/
namespace HostScript.Api

open List Option

variable {path stack : List String} {fuel : Nat} {w : Nat × List Nat} {api : Api} {name goal : String}

/-! ### Cycles -/

/-- Steps lead from a name to a cycle. -/
def Entangled (api : Api) (name : String) : Prop := ∃ n, api.Ascends name n ∧ Relation.TransGen api.Parent n n

theorem Entangled.step (h : api.Entangled name) : ∃ above, api.Parent name above ∧ api.Entangled above := by
  obtain ⟨n, hn, hcycle⟩ := h
  obtain rfl | ⟨above, hstep, hrest⟩ := Relation.ReflTransGen.cases_head hn
  · obtain ⟨above, hstep, hback⟩ := Relation.TransGen.head'_iff.1 hcycle
    exact ⟨above, hstep, name, hback, hcycle⟩
  · exact ⟨above, hstep, n, hrest, hcycle⟩

theorem isSome_cycleFrom (h : api.Entangled name) (hfuel : api.offPath path ≤ fuel) :
    (api.cycleFrom fuel path name).isSome := by
  induction fuel generalizing path name with
  | zero =>
    obtain ⟨_, ⟨t, ht, -⟩, -⟩ := h.step
    unfold cycleFrom
    split
    · rfl
    · have := offPath_concat ‹_› ht
      omega
  | succ fuel ih =>
    obtain ⟨above, ⟨t, ht, habove⟩, hnext⟩ := h.step
    unfold cycleFrom
    split
    · rfl
    · have := offPath_concat ‹_› ht
      simp only [ht]
      exact List.findSome?_isSome_iff.2 ⟨above, habove, ih hnext (by omega)⟩

/-- Different types, each with the next one among its ancestors, and the last one with the first. -/
structure Ring (api : Api) (first : String) (rest : List String) : Prop where
  nodup : (first :: rest).Nodup
  declared : ∀ n ∈ first :: rest, (api.findType? n).isSome
  chain : (first :: rest ++ [first]).IsChain api.Parent

theorem Ring.transGen (h : api.Ring name rest) : Relation.TransGen api.Parent name name := by
  have hpairs := isChain_iff_pairwise.1 (h.chain.imp fun _ _ => Relation.TransGen.single)
  exact (pairwise_cons.1 hpairs).1 name (by simp)

section

variable (hnodup : path.Nodup) (hdeclared : ∀ n ∈ path, (api.findType? n).isSome)
  (hchain : (path ++ [name]).IsChain api.Parent)
include hnodup hdeclared hchain

/-- The end of a path from a name on it, back to which the path leads. -/
theorem ring_of_mem (hname : name ∈ path) :
    ∃ rest, path.dropWhile (· ≠ name) = name :: rest ∧ api.Ring name rest := by
  obtain ⟨front, rest, rfl, hfront⟩ := eq_append_cons_of_mem hname
  refine ⟨rest, ?_, (nodup_append.1 hnodup).2.1, fun n hn => hdeclared n (mem_append_right _ hn), ?_⟩
  · rw [dropWhile_append_of_pos fun n hn => by simpa using fun h : n = name => hfront (h ▸ hn)]
    simp
  · rw [append_assoc] at hchain
    exact hchain.right_of_append

theorem ring_of_cycleFrom (h : api.cycleFrom fuel path name = some names) :
    ∃ first rest, names = first :: rest ∧ api.Ascends name first ∧ api.Ring first rest := by
  induction fuel generalizing path name
  all_goals
    unfold cycleFrom at h
    split at h
    · obtain ⟨rest, heq, hring⟩ := ring_of_mem hnodup hdeclared hchain ‹_›
      exact ⟨name, rest, (Option.some.inj h).symm.trans heq, .refl, hring⟩
  case zero => cases h
  case succ fuel ih hname =>
    dsimp only at h
    split at h
    · cases h
    · rename_i t ht
      obtain ⟨above, habove, h⟩ := exists_of_findSome?_eq_some h
      have hstep : api.Parent name above := ⟨t, ht, habove⟩
      have hnodup : (path ++ [name]).Nodup := by
        simpa [nodup_append, hnodup] using fun n hn (heq : n = name) => hname (heq ▸ hn)
      have hdeclared : ∀ n ∈ path ++ [name], (api.findType? n).isSome := by
        simpa [or_imp, forall_and, ht] using hdeclared
      obtain ⟨first, rest, heq, hfirst, hring⟩ :=
        ih hnodup hdeclared (isChain_append.2 ⟨hchain, .singleton _, by simpa using hstep⟩) h
      exact ⟨first, rest, heq, .head hstep hfirst, hring⟩

end

/-- The search for a cycle ends by itself. It finds nothing just if no cycle is above a name, and otherwise the
names around a cycle. -/
theorem cycle_exact (api : Api) (name : String) :
    (∀ fuel, api.types.length ≤ fuel → api.cycleFrom fuel [] name = api.cycle? name) ∧
      (api.cycle? name = none ↔ ¬ api.Entangled name) ∧
      ∀ names, api.cycle? name = some names →
        ∃ first rest, names = first :: rest ∧ api.Ascends name first ∧ api.Ring first rest := by
  have hfound : ∀ names, api.cycle? name = some names → ∃ first rest, names = first :: rest ∧
      api.Ascends name first ∧ api.Ring first rest := fun names => ring_of_cycleFrom .nil (by simp) (.singleton _)
  refine ⟨fun fuel => cycleFrom_enough name, ⟨fun hnone h => ?_, fun h => ?_⟩, hfound⟩
  · have hsome : (api.cycle? name).isSome := isSome_cycleFrom h (by simp [offPath, List.map_const'])
    rw [hnone] at hsome
    cases hsome
  · cases hcycle : api.cycle? name with
    | none => rfl
    | some names =>
      obtain ⟨first, rest, -, hfirst, hring⟩ := hfound names hcycle
      exact absurd ⟨first, hfirst, hring.transGen⟩ h

example : (ofAncestors [("A", ["B"]), ("B", ["C"]), ("C", ["B"])]).cycle? "A" = some ["B", "C"] := by decide

/-! ### Diamonds -/

/-- A way up from a name, by the number of the ancestor that is taken at each step. Ancestors are counted from the
last one on, as they are tried. -/
inductive Way (api : Api) : String → List Nat → String → Prop
  | here (name : String) : Way api name [] name
  | up {name next goal : String} {i : Nat} {rest : List Nat} (hi : (api.above name).reverse[i]? = some next)
      (h : Way api next rest goal) : Way api name (i :: rest) goal

/-- Two ways lead from a name to another one. -/
def Forks (api : Api) (name goal : String) : Prop := ∃ w w', w ≠ w' ∧ api.Way name w goal ∧ api.Way name w' goal

/-- A way from one of the names that wait, with its number. -/
def Leads (api : Api) (stack : List String) (w : Nat × List Nat) (goal : String) : Prop :=
  ∃ n, stack[w.1]? = some n ∧ api.Way n w.2 goal

/-- What a way on from the first of `n` ancestors or from the names behind them is, seen from the name below. -/
def below (n : Nat) (w : Nat × List Nat) : Nat × List Nat := if w.1 < n then (0, w.1 :: w.2) else (w.1 - n + 1, w.2)

theorem below_ne (n : Nat) (w : Nat × List Nat) : below n w ≠ (0, []) := by
  unfold below
  split <;> simp

theorem below_inj (h : below n w = below n w') : w = w' := by
  unfold below at h
  split at h <;> split at h <;> simp only [Prod.mk.injEq, List.cons.injEq] at h <;> ext <;> grind

/-- Ways from a stack are the one that ends at its first name, and those from the stack after it. -/
theorem leads_cons : api.Leads (name :: stack) w goal ↔ w = (0, []) ∧ goal = name ∨
      ∃ v, w = below (api.above name).length v ∧ api.Leads ((api.above name).reverse ++ stack) v goal := by
  obtain ⟨p, way⟩ := w
  constructor
  · rintro ⟨n, hn, hway⟩
    cases p with
    | zero =>
      cases hn
      cases hway with
      | here => exact .inl ⟨rfl, rfl⟩
      | @up _ next _ i rest hi h =>
        have hlt : i < (api.above name).reverse.length := (List.getElem?_eq_some_iff.1 hi).1
        refine .inr ⟨(i, rest), ?_, next, (List.getElem?_append_left hlt).trans hi, h⟩
        rw [length_reverse] at hlt
        exact (if_pos hlt).symm
    | succ p =>
      refine .inr ⟨(p + (api.above name).length, way), by simp [below], n, ?_, hway⟩
      rw [List.getElem?_append_right (by simp), length_reverse, Nat.add_sub_cancel]
      exact hn
  · rintro (⟨heq, rfl⟩ | ⟨⟨i, rest⟩, heq, n, hn, hway⟩)
    · cases heq
      exact ⟨_, rfl, .here _⟩
    · rw [List.getElem?_append, length_reverse] at hn
      unfold below at heq
      split at heq
      · rw [if_pos ‹_›] at hn
        cases heq
        exact ⟨name, rfl, .up hn hway⟩
      · rw [if_neg ‹_›] at hn
        cases heq
        exact ⟨n, hn, hway⟩

/-- A search that meets no name again leaves out no way. -/
theorem ways_of_diamondFrom_none (hfuel : stack.length + api.unwalked seen ≤ fuel)
    (h : api.diamondFrom fuel stack seen = none) (hw : api.Leads stack w goal) :
    goal ∉ seen ∧ ∀ w', api.Leads stack w' goal → w' = w := by
  induction fuel generalizing stack seen w with
  | zero =>
    obtain rfl : stack = [] := length_eq_zero_iff.1 (by omega)
    obtain ⟨n, hn, -⟩ := hw
    cases hn
  | succ fuel ih =>
    cases stack with
    | nil =>
      obtain ⟨n, hn, -⟩ := hw
      cases hn
    | cons name stack =>
      unfold diamondFrom at h
      split at h
      · cases h
      · rename_i hname
        have hless := api.unwalked_cons hname
        unfold above at hless
        rw [length_cons] at hfuel
        have hrest := fun v hv => ih (w := v) (by rw [length_append, length_reverse]; omega) h hv
        obtain ⟨rfl, rfl⟩ | ⟨v, rfl, hv⟩ := leads_cons.1 hw
        · refine ⟨hname, fun w' hw' => ?_⟩
          obtain ⟨rfl, -⟩ | ⟨v', -, hv'⟩ := leads_cons.1 hw'
          · rfl
          · exact absurd (mem_cons_self ..) (hrest v' hv').1
        · obtain ⟨hgoal, honly⟩ := hrest v hv
          refine ⟨fun hseen => hgoal (mem_cons_of_mem _ hseen), fun w' hw' => ?_⟩
          obtain ⟨-, rfl⟩ | ⟨v', rfl, hv'⟩ := leads_cons.1 hw'
          · exact absurd (mem_cons_self ..) hgoal
          · rw [honly v' hv']

/-- A name that is met again was reached before, or two ways to it were left. -/
theorem ways_of_diamondFrom_some (h : api.diamondFrom fuel stack seen = some goal) :
    (goal ∈ seen ∧ ∃ w, api.Leads stack w goal) ∨ ∃ w w', w ≠ w' ∧ api.Leads stack w goal ∧ api.Leads stack w' goal := by
  induction fuel generalizing stack seen with
  | zero => cases h
  | succ fuel ih =>
    cases stack with
    | nil => cases h
    | cons name stack =>
      unfold diamondFrom at h
      split at h
      · cases h
        exact .inl ⟨‹_›, (0, []), leads_cons.2 (.inl ⟨rfl, rfl⟩)⟩
      · have hback := fun v (hv : api.Leads ((api.above name).reverse ++ stack) v goal) => leads_cons.2 (.inr ⟨v, rfl, hv⟩)
        obtain ⟨hseen, v, hv⟩ | ⟨v, v', hne, hv, hv'⟩ := ih h
        · obtain rfl | hseen := mem_cons.1 hseen
          · exact .inr ⟨(0, []), _, (below_ne _ v).symm, leads_cons.2 (.inl ⟨rfl, rfl⟩), hback v hv⟩
          · exact .inl ⟨hseen, _, hback v hv⟩
        · exact .inr ⟨_, _, fun heq => hne (below_inj heq), hback v hv, hback v' hv'⟩

theorem leads_singleton : api.Leads [name] w goal ↔ w.1 = 0 ∧ api.Way name w.2 goal := by
  simp [Leads, List.getElem?_singleton]

/-- The search for a diamond ends by itself. It finds a name just if two ways lead to some name, and then such a
name. -/
theorem diamond_exact (api : Api) (name : String) :
    (∀ fuel, api.links + 1 ≤ fuel → api.diamondFrom fuel [name] [] = api.diamond? name) ∧
      ((api.diamond? name).isSome ↔ ∃ goal, api.Forks name goal) ∧
      ∀ goal, api.diamond? name = some goal → api.Forks name goal := by
  have hfound : ∀ goal, api.diamond? name = some goal → api.Forks name goal := by
    intro goal h
    obtain ⟨hseen, -⟩ | ⟨w, w', hne, hw, hw'⟩ := ways_of_diamondFrom_some h
    · cases hseen
    · obtain ⟨hzero, hw⟩ := leads_singleton.1 hw
      obtain ⟨hzero', hw'⟩ := leads_singleton.1 hw'
      exact ⟨w.2, w'.2, fun heq => hne (Prod.ext (hzero.trans hzero'.symm) heq), hw, hw'⟩
  refine ⟨fun fuel => diamondFrom_enough name, ⟨fun h => ?_, ?_⟩, hfound⟩
  · obtain ⟨goal, h⟩ := Option.isSome_iff_exists.1 h
    exact ⟨goal, hfound goal h⟩
  · rintro ⟨goal, w, w', hne, hw, hw'⟩
    by_contra hnone
    have honly := ways_of_diamondFrom_none (api.singleton_le_links name) (Option.not_isSome_iff_eq_none.1 hnone)
      (w := (0, w)) (leads_singleton.2 ⟨rfl, hw⟩)
    exact hne (congrArg Prod.snd (honly.2 (0, w') (leads_singleton.2 ⟨rfl, hw'⟩))).symm

example : (ofAncestors [("A", ["B", "C"]), ("B", ["D"]), ("C", ["D"]), ("D", [])]).diamond? "A" = some "D" := by decide

end HostScript.Api
