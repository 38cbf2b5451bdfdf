import HostScript.Proofs.Lineage
import HostScript.Compile.Typing
import Mathlib.Data.List.Nodup

/-! The type of a value that comes from one of two branches.

Two types meet in a third one (`Api.Meet`): in themselves, in the object type next to `NULL`,
in the only type that both descend from, or in what two primitives combine to. Whatever takes a
value of that type takes the values of both branches, and it does not matter which branch comes
first. Inheritance may go in circles, and ancestors may be missing. -/
namespace HostScript

open Primitive List Option

variable {p q : Primitive} {reports : Reports} {a b name : String}

namespace Primitive

variable {r : Primitive}

theorem reconcile_comm (p q : Primitive) : p.reconcile q = q.reconcile p := by
  unfold reconcile
  by_cases h : p = q
  · rw [h]
  · rw [if_neg h, if_neg (Ne.symm h), Bool.or_comm]
    cases hp : p.isUntyped <;> cases hq : q.isUntyped <;> simp only [or_comm]

/-- Different primitives combine when one of them is a literal without a kind: two such are one again, and
one takes the kind of the other side. -/
theorem reconcile_of_ne (hne : p ≠ q) (h : p.reconcile q = some r) : (p.isUntyped = true ∧ q.isUntyped = true ∧
      r = if p = .untypedFloat ∨ q = .untypedFloat then .untypedFloat else .untypedSigned) ∨
    (p.isNumeric = true ∧ p.isUntyped = false ∧ q.isUntyped = true ∧ reconcile.settle p q = some r) ∨
    (q.isNumeric = true ∧ q.isUntyped = false ∧ p.isUntyped = true ∧ reconcile.settle q p = some r) := by
  unfold reconcile at h
  rw [if_neg hne] at h
  split at h
  · cases h
  · rename_i hnumeric
    obtain ⟨hnp, hnq⟩ : p.isNumeric = true ∧ q.isNumeric = true := by simpa using hnumeric
    cases hp : p.isUntyped <;> cases hq : q.isUntyped <;> rw [hp, hq] at h
    · cases h
    · exact .inr (.inl ⟨hnp, rfl, rfl, h⟩)
    · exact .inr (.inr ⟨hnq, rfl, rfl, h⟩)
    · refine .inl ⟨rfl, rfl, ?_⟩
      dsimp only at h
      split at h
      · rw [if_pos ‹_›]
        exact (Option.some.inj h).symm
      · rw [if_neg ‹_›]
        exact (Option.some.inj h).symm

end Primitive

namespace Api

variable {api : Api} {c : String} {l r t target : Ty}

/-! ### Inheritance -/

theorem mem_lineage_names {above : String} :
    above ∈ (api.lineage name).map (·.name.name) ↔ api.Ascends name above ∧ (api.findType? above).isSome = true := by
  constructor
  · intro h
    obtain ⟨t, ht, rfl⟩ := mem_map.1 h
    obtain ⟨n, hn, hfind⟩ := mem_lineage_iff.1 ht
    rw [(findType_name hfind).2, hfind]
    exact ⟨hn, rfl⟩
  · rintro ⟨hascends, hsome⟩
    obtain ⟨t, ht⟩ := isSome_iff_exists.1 hsome
    exact mem_map.2 ⟨t, mem_lineage_iff.2 ⟨above, hascends, ht⟩, (findType_name ht).2⟩

theorem inherits_iff : api.inherits a b = true ↔ a = b ∨ b ∈ (api.lineage a).map (·.name.name) := by
  simp [inherits]

theorem inherits_trans (hab : api.inherits a b = true) (hbc : api.inherits b c = true) : api.inherits a c = true := by
  rw [inherits_iff] at hab hbc ⊢
  obtain rfl | hab := hab
  · exact hbc
  · obtain rfl | hbc := hbc
    · exact .inr hab
    · rw [mem_lineage_names] at hab hbc ⊢
      exact .inr ⟨hab.1.trans hbc.1, hbc.2⟩

theorem mem_commonAncestors : c ∈ api.commonAncestors a b ↔
    c ∈ (api.lineage a).map (·.name.name) ∧ c ∈ (api.lineage b).map (·.name.name) := by
  simp [commonAncestors]

theorem commonAncestors_perm (api : Api) (a b : String) : (api.commonAncestors a b).Perm (api.commonAncestors b a) := by
  have hnodup : ∀ a b, (api.commonAncestors a b).Nodup := fun a b =>
    (nodup_lineageFrom (api.links + 1)).1.filter _
  refine (perm_ext_iff_of_nodup (hnodup a b) (hnodup b a)).2 fun c => ?_
  rw [mem_commonAncestors, mem_commonAncestors, and_comm]

/-! ### Assignment -/

/-- Pointers are assigned along inheritance only. -/
theorem assignable_object :
    api.assignable (.object a) target = true ↔ ∃ b, target = .object b ∧ api.inherits a b = true := by
  cases target with
  | object b =>
    simp only [assignable, Ty.object.injEq, Bool.or_eq_true, decide_eq_true_eq, exists_eq_left', inherits_iff]
    tauto
  | prim p => simp [assignable, Ty.primitive, isUntyped]

theorem assignable_prim (api : Api) (p : Primitive) (k : Kind) : api.assignable (.prim p) (.prim (.kind k)) = true ↔
    p = .kind k ∨ match k with
      | .int j => p = .untypedInteger ∨ (j.signed = true ∧ p = .untypedSigned)
      | .float _ => p.isUntyped = true
      | _ => False := by
  cases k with
  | int j =>
    cases hj : j.signed <;>
      simp only [assignable, isUnsignedInteger, isSignedInteger, hj, Ty.prim.injEq, Bool.or_eq_true,
        decide_eq_true_eq, Bool.not_true, Bool.not_false, Bool.false_eq_true, if_false, if_true, true_and, false_and, or_false]
    · rfl
    · exact or_congr_right or_comm
  | _ => simp [assignable, Ty.primitive, isUnsignedInteger, isSignedInteger, isFloat]

/-- What takes a number kind's place takes the literals that the kind settles. -/
theorem assignable_settled (api : Api) {r : Primitive} (hp : p.isNumeric = true) (hp' : p.isUntyped = false)
    (hq : q.isUntyped = true) (h : reconcile.settle p q = some r) :
    r = p ∧ ∃ k, p = .kind k ∧ api.assignable (.prim q) (.prim (.kind k)) = true := by
  cases p with
  | kind k =>
    cases k with
    | int j =>
      cases hj : j.signed <;> cases q <;>
        simp [reconcile.settle, isFloat, isSignedInteger, isUntyped, hj, assignable_prim] at h hq ⊢ <;> exact h.symm
    | float j =>
      have hsettle : some (kind (.float j)) = some r := h
      exact ⟨(Option.some.inj hsettle).symm, _, rfl, (assignable_prim api q (.float j)).2 (.inr hq)⟩
    | _ => cases hp
  | untypedSigned | untypedInteger | untypedFloat => cases hp'
  | _ => cases hp

/-- Literals of two primitives can stand wherever what they combine to can. -/
theorem assignable_combined {r : Primitive} (hne : p ≠ q) (h : p.reconcile q = some r) {k : Kind}
    (ha : api.assignable (.prim r) (.prim (.kind k)) = true) :
    api.assignable (.prim p) (.prim (.kind k)) = true ∧ api.assignable (.prim q) (.prim (.kind k)) = true := by
  -- a kind is assigned to itself only
  have hsame : ∀ {j : Kind}, api.assignable (.prim (.kind j)) (.prim (.kind k)) = true → j = k := by
    intro j hj
    rw [assignable_prim] at hj
    obtain hj | hj := hj
    · exact kind.inj hj
    · cases k <;> simp [isUntyped] at hj
  obtain ⟨hp, hq, rfl⟩ | ⟨hnumeric, hkind, hq, hsettle⟩ | ⟨hnumeric, hkind, hp, hsettle⟩ := reconcile_of_ne hne h
  · rw [assignable_prim] at ha ⊢
    rw [assignable_prim]
    cases k with
    | int j => cases p <;> cases q <;> simp_all [isUntyped]
    | float j => exact ⟨.inr hp, .inr hq⟩
    | _ => split at ha <;> simp at ha
  · obtain ⟨rfl, j, rfl, htakes⟩ := assignable_settled api hnumeric hkind hq hsettle
    obtain rfl := hsame ha
    exact ⟨ha, htakes⟩
  · obtain ⟨rfl, j, rfl, htakes⟩ := assignable_settled api hnumeric hkind hp hsettle
    obtain rfl := hsame ha
    exact ⟨htakes, ha⟩

/-! ### Where two types meet -/

/-- The type of a value that is of type `l` or of type `r`. -/
inductive Meet (api : Api) : (l r t : Ty) → Prop
  | same (t : Ty) : Meet api t t t
  | nullLeft (name : String) : Meet api .null (.object name) (.object name)
  | nullRight (name : String) : Meet api (.object name) .null (.object name)
  | heirs {a b c : String} (hne : a ≠ b) (h : api.commonAncestors a b = [c]) : Meet api (.object a) (.object b) (.object c)
  | combined {p q r : Primitive} (hne : p ≠ q) (h : p.reconcile q = some r) : Meet api (.prim p) (.prim q) (.prim r)

theorem Meet.symm (h : api.Meet l r t) : api.Meet r l t := by
  cases h with
  | same => exact .same _
  | nullLeft name => exact .nullRight name
  | nullRight name => exact .nullLeft name
  | heirs hne h => exact .heirs hne.symm (perm_singleton.1 (h ▸ api.commonAncestors_perm _ _))
  | combined hne h => exact .combined hne.symm (reconcile_comm _ _ ▸ h)

/-- Pointers and literals both stand where their common type can. -/
theorem Meet.assignable (h : api.Meet l r t) (hkind : target.primitive.kind?.isSome = true)
    (ha : api.assignable t target = true) : api.assignable l target = true ∧ api.assignable r target = true := by
  cases h with
  | same => exact ⟨ha, ha⟩
  | nullLeft name =>
    obtain ⟨b, rfl, -⟩ := assignable_object.1 ha
    exact ⟨rfl, ha⟩
  | nullRight name =>
    obtain ⟨b, rfl, -⟩ := assignable_object.1 ha
    exact ⟨ha, rfl⟩
  | @heirs a b c _ h =>
    obtain ⟨d, rfl, hd⟩ := assignable_object.1 ha
    obtain ⟨hac, hbc⟩ := mem_commonAncestors.1 (h ▸ mem_singleton_self c : c ∈ api.commonAncestors a b)
    exact ⟨assignable_object.2 ⟨d, rfl, inherits_trans (inherits_iff.2 (.inr hac)) hd⟩,
      assignable_object.2 ⟨d, rfl, inherits_trans (inherits_iff.2 (.inr hbc)) hd⟩⟩
  | @combined p q s hne h =>
    cases target with
    | prim target =>
      obtain ⟨k, hk⟩ := isSome_iff_exists.1 hkind
      obtain rfl : target = .kind k := by
        cases target <;> cases hk
        rfl
      exact assignable_combined hne h ha
    | object name =>
      -- no two primitives combine to a pointer
      obtain rfl : s = .kind .pointer := by simpa [assignable] using ha
      obtain ⟨-, -, hs⟩ | ⟨hnumeric, hkind, hq, hsettle⟩ | ⟨hnumeric, hkind, hp, hsettle⟩ := reconcile_of_ne hne h
      · split at hs <;> cases hs
      · obtain ⟨rfl, -⟩ := assignable_settled api hnumeric hkind hq hsettle
        cases hnumeric
      · obtain ⟨rfl, -⟩ := assignable_settled api hnumeric hkind hp hsettle
        cases hnumeric

end Api

section Types

variable {api : Api} {span : Span} {l r t : Ty}

theorem branchType_prim (api : Api) (span : Span) (hne : p ≠ q) :
    branchType api span (.prim p) (.prim q) = combinedType span (.prim p) (.prim q) := by
  refine (if_neg fun heq => hne (Ty.prim.inj heq)).trans ?_
  split
  · nomatch ‹Ty.prim q = .object _›
  · nomatch ‹Ty.prim p = .object _›
  · nomatch ‹Ty.prim p = .object _›
  · rfl

theorem branchType_objects (api : Api) (span : Span) (hne : a ≠ b) :
    branchType api span (.object a) (.object b) = match api.commonAncestors a b with
      | [ancestor] => pure (some (.object ancestor))
      | common => Check.refuse span (.unrelatedBranches a b common) :=
  if_neg fun heq => hne (Ty.object.inj heq)

/-- A pointer is nothing that a number could combine with. -/
theorem branchType_mixed (api : Api) (span : Span) (hne : p ≠ .kind .pointer) :
    branchType api span (.object name) (.prim p) = Check.refuse span (.mismatch (.object name) (.prim p)) ∧
      branchType api span (.prim p) (.object name) = Check.refuse span (.mismatch (.prim p) (.object name)) := by
  have hnone : (kind .pointer).reconcile p = none := by
    rw [reconcile, if_neg hne.symm]
    rfl
  have hnone' : p.reconcile (.kind .pointer) = none := by rw [reconcile_comm, hnone]
  constructor
  · refine (if_neg nofun).trans ?_
    split
    · nomatch ‹Ty.prim p = .object _›
    · exact absurd (Ty.prim.inj ‹_›) hne
    · nomatch ‹Ty.prim p = .object _›
    · simp only [combinedType, Ty.primitive, hnone]
  · refine (if_neg nofun).trans ?_
    split
    · exact absurd (Ty.prim.inj ‹_›) hne
    · nomatch ‹Ty.prim p = .object _›
    · nomatch ‹Ty.prim p = .object _›
    · simp only [combinedType, Ty.primitive, hnone']

/-- Where two types meet their common type is found, and nothing is reported. -/
theorem branchType_of_meet (h : api.Meet l r t) (span : Span) : branchType api span l r = pure (some t) := by
  cases h with
  | same => exact if_pos rfl
  | nullLeft _ | nullRight _ => rfl
  | heirs hne h => rw [branchType_objects api span hne, h]
  | combined hne h =>
    rw [branchType_prim api span hne]
    unfold combinedType
    dsimp only [Ty.primitive]
    rw [h]

theorem reconcile_of_combinedType (h : (combinedType span l r reports).1 = some t) :
    ∃ p, t = .prim p ∧ l.primitive.reconcile r.primitive = some p := by
  unfold combinedType at h
  cases hp : l.primitive.reconcile r.primitive with
  | none =>
    rw [hp] at h
    cases h
  | some p =>
    rw [hp] at h
    cases h
    exact ⟨p, rfl, rfl⟩

theorem meet_of_branchType (h : (branchType api span l r reports).1 = some t) : api.Meet l r t := by
  by_cases heq : l = r
  · subst heq
    have hsame : (branchType api span l l reports).1 = some l := by rw [branchType_of_meet (.same l)]; rfl
    cases hsame.symm.trans h
    exact .same l
  · cases l with
    | prim p =>
      cases r with
      | prim q =>
        have hne : p ≠ q := fun h => heq (congrArg _ h)
        rw [branchType_prim api span hne] at h
        obtain ⟨c, rfl, hc⟩ := reconcile_of_combinedType h
        exact .combined hne hc
      | object name =>
        by_cases hp : p = .kind .pointer
        · subst hp
          cases h
          exact .nullLeft name
        · rw [(branchType_mixed api span hp).2] at h
          cases h
    | object a =>
      cases r with
      | prim q =>
        by_cases hq : q = .kind .pointer
        · subst hq
          cases h
          exact .nullRight a
        · rw [(branchType_mixed api span hq).1] at h
          cases h
      | object b =>
        have hne : a ≠ b := fun h => heq (congrArg _ h)
        rw [branchType_objects api span hne] at h
        split at h
        · cases h
          exact .heirs hne ‹_›
        · cases h

/-- Whatever takes a value of the type that is found for two branches takes a value of either, and the branches
have that type in the other order as well. -/
theorem branches_share_type {reports : Reports} (h : (branchType api span l r reports).1 = some t) :
    (∀ target : Ty, target.primitive.kind?.isSome = true → api.assignable t target = true →
      api.assignable l target = true ∧ api.assignable r target = true) ∧
    ∀ (span' : Span) (reports' : Reports), branchType api span' r l reports' = (some t, reports') :=
  have hmeet := meet_of_branchType h
  ⟨fun _ => hmeet.assignable, fun span' reports' => congrFun (branchType_of_meet hmeet.symm span') reports'⟩

end Types

namespace Branches

def here : Span := ⟨0, 0, 0⟩

def typeNamed (name : String) (ancestors : List String) : TypeDecl :=
  ⟨⟨name, here⟩, ancestors.map (⟨·, here⟩), [], here⟩

/-- `Left` and `Base` have ancestors that are declared nowhere, and `Right` is among its own. -/
def tangled : Api :=
  ⟨[typeNamed "Left" ["Lost", "Base"], typeNamed "Right" ["Right", "Base"], typeNamed "Base" ["Lost"]], []⟩

theorem branches_share_type_tangled :
    (branchType tangled here (.object "Left") (.object "Right") #[]).1 = some (.object "Base") ∧
      (tangled.assignable (.object "Left") (.object "Base") = true ∧ tangled.assignable (.object "Right") (.object "Base") = true) ∧
      branchType tangled here (.object "Right") (.object "Left") #[] = (some (.object "Base"), #[]) := by
  have hfound : (branchType tangled here (.object "Left") (.object "Right") #[]).1 = some (.object "Base") := by decide
  obtain ⟨htarget, hswap⟩ := branches_share_type hfound
  exact ⟨hfound, htarget (.object "Base") rfl (by decide), hswap here #[]⟩

end Branches

end HostScript
