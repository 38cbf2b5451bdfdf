import HostScript.Proofs.ImportTree
import Mathlib.Data.List.Nodup

/-! Ways along imports.

A way from a file is a list of positions: which import to follow in the file, which one
in the file that this leads to, and so on. The search for a file that is reached twice
finds none exactly when each file is reached along one way (`repeated_eq_none_iff`). One
direction follows the search with the ways to all files it has met; for the other, a
search that ends has met every way there is (`Spans`). -/
namespace HostScript.Session

open List Option

variable {files js p seen stack : List Nat} {j : Nat}

/-- Where a way along imports leads. -/
def follow (s : Session) (i : Nat) : List Nat → Option Nat
  | [] => some i
  | k :: way => ((s.importsOf i)[k]?).bind fun j => s.follow j way

/-- One way at most leads to any file. To the file itself this is the empty one. -/
def Tree (s : Session) (i : Nat) : Prop := ∀ p q j, s.follow i p = some j → s.follow i q = some j → p = q

variable {s : Session} {i : Nat}

theorem follow_concat (s : Session) (i : Nat) (p : List Nat) (k : Nat) :
    s.follow i (p ++ [k]) = (s.follow i p).bind fun j => (s.importsOf j)[k]? := by
  induction p generalizing i with
  | nil => simp [follow]
  | cons m p ih =>
    simp only [cons_append, follow]
    cases (s.importsOf i)[m]? with
    | none => rfl
    | some j => exact ih j

/-! ### A tree has no repetition -/

/-- The ways to the imports of a file that a way leads to. -/
def onward (s : Session) (p : List Nat) (j : Nat) : List (List Nat) :=
  (List.range (s.importsOf j).length).map fun k => p ++ [k]

theorem map_follow_onward (h : s.follow i p = some j) : (s.onward p j).map (s.follow i) = (s.importsOf j).map some := by
  unfold onward
  rw [List.map_map]
  refine List.ext_getElem (by simp) fun k hk _ => ?_
  have hk : k < (s.importsOf j).length := by simpa using hk
  simp [follow_concat, h, hk]

theorem mem_onward (h : x ∈ s.onward p j) : ∃ k, x = p ++ [k] := by
  obtain ⟨k, -, rfl⟩ := mem_map.1 h
  exact ⟨k, rfl⟩

theorem nodup_onward (s : Session) (p : List Nat) (j : Nat) : (s.onward p j).Nodup :=
  List.Nodup.map (fun a b h => by simpa using h) nodup_range

/-- The search keeps a way to each file that waits and to each that was seen, no two of them the same.
A way is taken up once the one before it was followed. -/
theorem repeatedFrom_of_tree (h : s.Tree i) (fuel : Nat) {ps qs : List (List Nat)}
    (hstack : ps.map (s.follow i) = stack.map some) (hseen : qs.map (s.follow i) = seen.map some) (hnodup : (ps ++ qs).Nodup)
    (hbefore : ∀ x k, x ++ [k] ∈ ps ++ qs → x ∈ qs) : s.repeatedFrom fuel stack seen = none := by
  induction fuel generalizing ps qs stack seen with
  | zero => rfl
  | succ fuel ih =>
    cases stack with
    | nil => rfl
    | cons j rest =>
      obtain ⟨p, ps, rfl, hp, hps⟩ := map_eq_cons_iff.1 hstack
      have hpq : p ∉ qs := fun hmem => (nodup_cons.1 hnodup).1 (mem_append_right _ hmem)
      have hj : j ∉ seen := by
        intro hmem
        obtain ⟨q, hq, hqj⟩ := mem_map.1 (hseen ▸ mem_map_of_mem (f := some) hmem)
        exact hpq (h p q j hp hqj ▸ hq)
      have hnew : ∀ k, p ++ [k] ∉ p :: ps ++ qs := fun k hmem => hpq (hbefore p k hmem)
      have hperm : ((s.onward p j).reverse ++ ps ++ p :: qs).Perm (s.onward p j ++ (p :: ps ++ qs)) := by
        refine perm_middle.trans ?_
        rw [append_assoc]
        exact ((reverse_perm _).append_right _).cons p |>.trans perm_middle.symm
      have hstack' : ((s.onward p j).reverse ++ ps).map (s.follow i) = ((s.importsOf j).reverse ++ rest).map some := by
        rw [map_append, map_reverse, map_follow_onward hp, hps, map_append, map_reverse]
      have hseen' : (p :: qs).map (s.follow i) = (j :: seen).map some := by rw [map_cons, map_cons, hp, hseen]
      unfold repeatedFrom
      rw [if_neg hj]
      refine ih hstack' hseen' (hperm.nodup_iff.2 ?_) fun x k hmem => ?_
      · refine nodup_append.2 ⟨s.nodup_onward p j, hnodup, fun x hx y hy hxy => ?_⟩
        obtain ⟨k, rfl⟩ := mem_onward hx
        exact hnew k (hxy ▸ hy)
      · obtain hmem | hmem := mem_append.1 (hperm.mem_iff.1 hmem)
        · obtain ⟨k', hk'⟩ := mem_onward hmem
          rw [(append_inj' hk' rfl).1]
          exact mem_cons_self ..
        · exact mem_cons_of_mem _ (hbefore x k hmem)

/-! ### Without a repetition there is a tree -/

theorem Spans.of_append (h : s.Spans (js ++ ks) files) : ∃ first last, s.Spans js first ∧ s.Spans ks last := by
  induction js generalizing files with
  | nil => exact ⟨[], files, .nil, h⟩
  | cons j rest ih =>
    cases h with
    | cons hinner houter =>
      obtain ⟨first, last, hfirst, hlast⟩ := ih houter
      exact ⟨_, last, .cons hinner hfirst, hlast⟩

/-- A search that is not cut short and finds nothing has met everything there is. -/
theorem spans_of_repeatedFrom (fuel : Nat) (hfuel : stack.length + s.unfollowed seen ≤ fuel)
    (hnone : s.repeatedFrom fuel stack seen = none) : ∃ files, s.Spans stack files := by
  induction fuel generalizing stack seen with
  | zero =>
    obtain rfl : stack = [] := length_eq_zero_iff.1 (by omega)
    exact ⟨[], .nil⟩
  | succ fuel ih =>
    cases stack with
    | nil => exact ⟨[], .nil⟩
    | cons j rest =>
      unfold repeatedFrom at hnone
      split at hnone
      · cases hnone
      · rename_i hj
        have hfollow := s.unfollowed_follow (j :: seen) hj (by simp)
        obtain ⟨files, hfiles⟩ := ih
          (by rw [length_append, length_reverse]; rw [length_cons] at hfuel; omega) hnone
        obtain ⟨inner, outer, hinner, houter⟩ := hfiles.of_append
        obtain ⟨inner', hinner', -⟩ := hinner.perm (reverse_perm _)
        exact ⟨_, .cons hinner' houter⟩

namespace Spans

theorem follow_mem (h : s.Spans js files) {k x : Nat} (hj : js[k]? = some j) (hp : s.follow j p = some x) :
    x ∈ files := by
  induction h generalizing k j p with
  | nil => cases hj
  | @cons j' rest inner outer hinner houter ihinner ihouter =>
    cases k with
    | zero =>
      cases hj
      cases p with
      | nil =>
        cases hp
        exact mem_cons_self ..
      | cons m p =>
        obtain ⟨c, hc, hp⟩ := bind_eq_some_iff.1 hp
        exact mem_cons_of_mem _ (mem_append_left _ (ihinner hc hp))
    | succ k => exact mem_cons_of_mem _ (mem_append_right _ (ihouter hj hp))

/-- Where each file is met once, two ways to a file are the same. -/
theorem follow_inj (h : s.Spans js files) (hnodup : files.Nodup) {k k' j' x : Nat} (hj : js[k]? = some j)
    (hj' : js[k']? = some j') (hp : s.follow j p = some x) (hq : s.follow j' q = some x) : k = k' ∧ p = q := by
  induction h generalizing k k' j j' p q with
  | nil => cases hj
  | @cons first rest inner outer hinner houter ihinner ihouter =>
    obtain ⟨hfirst, hrest⟩ := nodup_cons.1 hnodup
    obtain ⟨hin, hout, hapart⟩ := nodup_append.1 hrest
    -- a way from the first file stays with it, or leads to one of its imports
    have hway : ∀ {p}, s.follow first p = some x → p = [] ∧ x = first ∨ x ∈ inner := by
      intro p hp
      cases p with
      | nil => exact .inl ⟨rfl, (Option.some.inj hp).symm⟩
      | cons m p =>
        obtain ⟨c, hc, hp⟩ := bind_eq_some_iff.1 hp
        exact .inr (hinner.follow_mem hc hp)
    have hcross : ∀ {p q : List Nat} {k j : Nat}, s.follow first p = some x → rest[k]? = some j → s.follow j q = some x → False := by
      intro p q k j hp hj hq
      have hmem := houter.follow_mem hj hq
      obtain ⟨-, rfl⟩ | hx := hway hp
      · exact hfirst (mem_append_right _ hmem)
      · exact hapart x hx x hmem rfl
    cases k with
    | zero =>
      cases hj
      cases k' with
      | zero =>
        cases hj'
        refine ⟨rfl, ?_⟩
        cases p with
        | nil =>
          obtain ⟨rfl, -⟩ | hx := hway hq
          · rfl
          · cases hp
            exact absurd (mem_append_left _ hx) hfirst
        | cons m p =>
          obtain ⟨c, hc, hpc⟩ := bind_eq_some_iff.1 hp
          cases q with
          | nil =>
            cases hq
            exact absurd (mem_append_left _ (hinner.follow_mem hc hpc)) hfirst
          | cons n q =>
            obtain ⟨d, hd, hqd⟩ := bind_eq_some_iff.1 hq
            obtain ⟨rfl, rfl⟩ := ihinner hin hc hd hpc hqd
            rfl
      | succ k' => exact (hcross hp hj' hq).elim
    | succ k =>
      cases k' with
      | zero =>
        cases hj'
        exact (hcross hq hj hp).elim
      | succ k' =>
        obtain ⟨rfl, rfl⟩ := ihouter hout hj hj' hp hq
        exact ⟨rfl, rfl⟩

end Spans

theorem spans_of_repeated (h : s.repeated? i = none) : ∃ files, s.Spans [i] files ∧ files.Nodup := by
  have hfuel : [i].length + s.unfollowed [] ≤ s.links + 1 := by
    rw [links_eq, length_singleton, Nat.add_comm]
  obtain ⟨files, hfiles⟩ := spans_of_repeatedFrom _ hfuel h
  exact ⟨files, hfiles, (hfiles.nodup _ hfuel h).1⟩

/-- No file is found twice exactly when each is reached along one way. -/
theorem repeated_eq_none_iff : s.repeated? i = none ↔ s.Tree i := by
  constructor
  · intro h p q j hp hq
    obtain ⟨files, hfiles, hnodup⟩ := spans_of_repeated h
    have hfirst : [i][0]? = some i := rfl
    exact (hfiles.follow_inj hnodup hfirst hfirst hp hq).2
  · intro h
    have hstack : [[]].map (s.follow i) = [i].map some := rfl
    have hseen : [].map (s.follow i) = [].map some := rfl
    exact repeatedFrom_of_tree h _ hstack hseen (by simp) (by simp)

end HostScript.Session
