import HostScript.Proofs.Choices
import HostScript.Proofs.Output
import Mathlib.Data.String.Basic
import Mathlib.Data.Finset.Card

/-! Numbers in code.

The numbers of host members are given once all files are there, while code was made, moved
and joined file by file before. Still every number that was left open finds its member: the
table has the descriptors of all files in order (`Numbered`), and filling it in puts the
number of the member that was chosen for a name where the code refers to it and changes
nothing else (`Filled`). -/
namespace HostScript

open Piece List Option

variable {cs : List Choice} {ps : List Piece} {r : Nat × String} {symbols : Symbols}

namespace Fragment

/-- Where the numbers of members stand in code. -/
def references (f : Fragment) : List Nat :=
  f.marks.toList.filterMap fun m => (MarkKind.descriptor? m.kind).map fun _ => m.location

/-- The final bytes are those of the code, with the number of each chosen member where the code refers to it. -/
structure Filled (f : Fragment) (symbols : Symbols) (cs : List Choice) (final : Array UInt8) : Prop where
  size : final.size = f.size
  inside : ∀ location ∈ f.references, location + 2 ≤ f.size
  apart : f.references.Pairwise fun location next => location + 2 ≤ next
  numbers : List.Forall₂ (fun location c => symbols.find? c.descriptor = some (wordAt final location)) f.references cs
  others : ∀ k, (∀ location ∈ f.references, k < location ∨ location + 2 ≤ k) → final[k]? = f.bytes[k]?

section Pieces

/-- Where the numbers of members stand in pieces, and whose they are. -/
def refersFrom (o : Nat) (ps : List Piece) : List (Nat × String) :=
  (marksFrom o ps).filterMap fun m => (MarkKind.descriptor? m.kind).map fun d => (m.location, d)

variable {o : Nat}

theorem refersFrom_cons (hp : ∀ d, p ≠ .symbol d) : refersFrom o (p :: ps) = refersFrom (o + p.size) ps := by
  cases p with
  | symbol d => exact absurd rfl (hp d)
  | place isString address => cases isString <;> rfl
  | leap l => cases l <;> rfl
  | _ => rfl

/-- A reference stands behind the pieces in front of it. -/
theorem split_of_mem_refersFrom (h : r ∈ refersFrom o ps) :
    ∃ before after, ps = before ++ .symbol r.2 :: after ∧ r.1 = o + (bytesOf before).length := by
  induction ps generalizing o with
  | nil => cases h
  | cons p rest ih =>
    have hlater : r ∈ refersFrom (o + p.size) rest →
        ∃ before after, p :: rest = before ++ .symbol r.2 :: after ∧ r.1 = o + (bytesOf before).length := by
      intro hr
      obtain ⟨before, after, rfl, hat⟩ := ih hr
      exact ⟨p :: before, after, rfl, by rw [hat, bytesOf_cons, length_append, Nat.add_assoc]⟩
    by_cases hp : ∀ d, p ≠ .symbol d
    · exact hlater (refersFrom_cons hp ▸ h)
    · push Not at hp
      obtain ⟨d, rfl⟩ := hp
      obtain rfl | hr := mem_cons.1 h
      · exact ⟨[], rest, rfl, rfl⟩
      · exact hlater hr

theorem apart_refersFrom (o : Nat) (ps : List Piece) : (refersFrom o ps).Pairwise fun r next => r.1 + 2 ≤ next.1 := by
  induction ps generalizing o with
  | nil => exact .nil
  | cons p rest ih =>
    by_cases hp : ∀ d, p ≠ .symbol d
    · exact refersFrom_cons hp ▸ ih _
    · push Not at hp
      obtain ⟨d, rfl⟩ := hp
      refine pairwise_cons.2 ⟨fun r hr => ?_, ih _⟩
      obtain ⟨before, -, -, hat⟩ := split_of_mem_refersFrom hr
      exact hat ▸ Nat.le_add_right _ _

section

variable (numbers : String → Nat)
include numbers

theorem length_resolve (p : Piece) : (p.resolve numbers).bytes.length = p.size := by
  cases p <;> simp [Piece.resolve, Piece.bytes, Piece.size]

theorem length_bytesOf_resolve (ps : List Piece) :
    (bytesOf (ps.map (Piece.resolve numbers))).length = (bytesOf ps).length := by
  induction ps with
  | nil => rfl
  | cons p rest ih => rw [map_cons, bytesOf_cons, bytesOf_cons, length_append, length_append, ih, length_resolve]

/-- The word at a reference is the number of what is referred to. -/
theorem wordAt_resolve (h : r ∈ refersFrom 0 ps) (hsmall : numbers r.2 ≤ 65535) :
    wordAt (bytesOf (ps.map (Piece.resolve numbers))).toArray r.1 = numbers r.2 := by
  obtain ⟨before, after, rfl, hat⟩ := split_of_mem_refersFrom h
  have hword := wordAt_word (bytesOf (before.map (Piece.resolve numbers))) (bytesOf (after.map (Piece.resolve numbers))) hsmall
  rw [length_bytesOf_resolve] at hword
  rw [hat, Nat.zero_add, List.map_append, List.map_cons, bytesOf_append, bytesOf_cons, ← List.append_assoc]
  exact hword

/-- Bytes outside of references stay. -/
theorem getElem?_resolve (h : ∀ r ∈ refersFrom o ps, o + k < r.1 ∨ r.1 + 2 ≤ o + k) :
    (bytesOf (ps.map (Piece.resolve numbers)))[k]? = (bytesOf ps)[k]? := by
  induction ps generalizing o k with
  | nil => rfl
  | cons p rest ih =>
    rw [map_cons, bytesOf_cons, bytesOf_cons]
    rcases Nat.lt_or_ge k p.size with hk | hk
    · have hp : ∀ d, p ≠ .symbol d := by
        rintro d rfl
        have hk : k < 2 := hk
        have hfirst := h (o, d) (mem_cons_self ..)
        omega
      have hsame : p.resolve numbers = p := by
        cases p with
        | symbol d => exact absurd rfl (hp d)
        | _ => rfl
      rw [hsame, List.getElem?_append_left hk, List.getElem?_append_left hk]
    · rw [List.getElem?_append_right (by rwa [length_resolve]), List.getElem?_append_right hk, length_resolve]
      refine ih (o := o + p.size) fun r hr => ?_
      have hall : r ∈ refersFrom o (p :: rest) := by
        by_cases hp : ∀ d, p ≠ .symbol d
        · rwa [refersFrom_cons hp]
        · push Not at hp
          obtain ⟨d, rfl⟩ := hp
          exact mem_cons_of_mem _ hr
      have := h r hall
      omega

end

end Pieces

/-- References of code and the members that they refer to, one by one. -/
theorem forall₂_of_cites {P : Nat → String → Prop} {rs : List (Nat × String)} (h : ∀ r ∈ rs, P r.1 r.2)
    (hcs : rs.map (·.2) = cs.map Choice.descriptor) :
    List.Forall₂ (fun location c => P location c.descriptor) (rs.map (·.1)) cs := by
  induction rs generalizing cs with
  | nil => exact map_eq_nil_iff.1 hcs.symm ▸ .nil
  | cons r rest ih =>
    cases cs with
    | nil => cases hcs
    | cons c more =>
      obtain ⟨hhead, htail⟩ := List.cons.inj hcs
      obtain ⟨hr, hrest⟩ := forall_mem_cons.1 h
      exact .cons (hhead ▸ hr) (ih hrest htail)

theorem references_ofPieces (ps : List Piece) : (ofPieces ps).references = (refersFrom 0 ps).map (·.1) := by
  unfold refersFrom
  rw [map_filterMap]
  refine filterMap_congr fun m _ => ?_
  cases MarkKind.descriptor? m.kind <;> rfl

theorem cited_ofPieces (ps : List Piece) : (ofPieces ps).cited = (refersFrom 0 ps).map (·.2) := by
  unfold refersFrom
  rw [map_filterMap]
  refine filterMap_congr fun m _ => ?_
  cases MarkKind.descriptor? m.kind <;> rfl

/-- What code refers to has a number unless it is missing. -/
theorem find?_of_unresolved (h : (ofPieces ps).unresolved symbols = []) (hr : r ∈ refersFrom 0 ps) :
    symbols.find? r.2 = some (symbols.number r.2) := by
  obtain ⟨m, hm, hdescriptor⟩ := mem_filterMap.1 hr
  obtain ⟨d, hd, rfl⟩ := map_eq_some_iff.1 hdescriptor
  have hnone := filterMap_eq_nil_iff.1 h m hm
  rw [hd] at hnone
  unfold Symbols.number
  cases hfind : symbols.find? d with
  | none => simp [hfind] at hnone
  | some n => rfl

/-- Code with a number for each member it names is filled in completely. -/
theorem Cites.filled {f : Fragment} (hcs : Cites cs f) (hf : f.Pieced) (hfound : f.unresolved symbols = [])
    (hsmall : ∀ d n, symbols.find? d = some n → n ≤ 65535) :
    ∃ final, f.resolveSymbols? symbols = some final ∧ f.Filled symbols cs final.bytes := by
  obtain ⟨ps, rfl⟩ := hf
  have hinside : ∀ r ∈ refersFrom 0 ps, r.1 + 2 ≤ (ofPieces ps).size := by
    intro r hr
    obtain ⟨before, after, rfl, hat⟩ := split_of_mem_refersFrom hr
    simp [hat, Piece.bytes]
  have hbytes := bytes_resolveSymbols_ofPieces symbols ps
  refine ⟨(ofPieces ps).resolveSymbols symbols, if_pos ?_, ?_, ?_, ?_, ?_, ?_⟩
  · rw [Array.all_eq_true_iff_forall_mem]
    intro m hm
    cases hd : MarkKind.descriptor? m.kind with
    | none => rfl
    | some d =>
      have hr : (m.location, d) ∈ refersFrom 0 ps :=
        List.mem_filterMap.2 ⟨m, Array.mem_toList_iff.2 hm, by rw [hd]; rfl⟩
      rw [Bool.or_eq_true]
      exact .inr (decide_eq_true (hinside _ hr))
  · rw [hbytes, List.size_toArray, length_bytesOf_resolve, size_ofPieces]
  · rw [references_ofPieces]
    exact List.forall_mem_map.2 hinside
  · rw [references_ofPieces]
    exact List.pairwise_map.2 (apart_refersFrom 0 ps)
  · rw [references_ofPieces, hbytes]
    refine forall₂_of_cites (P := fun location d => symbols.find? d = some (wordAt _ location)) (fun r hr => ?_)
      ((cited_ofPieces ps).symm.trans hcs)
    have hfind := find?_of_unresolved hfound hr
    rw [wordAt_resolve symbols.number hr (hsmall _ _ hfind), hfind]
  · intro k hk
    rw [references_ofPieces] at hk
    rw [hbytes, List.getElem?_toArray]
    refine (getElem?_resolve (o := 0) symbols.number fun r hr => ?_).trans (List.getElem?_toArray ..).symm
    rw [Nat.zero_add]
    exact hk _ (List.mem_map_of_mem hr)

end Fragment

/-! ### The table -/

theorem loop_eraseReps {as acc : List String} (h : (a :: as).Pairwise (· ≤ ·)) :
    ∃ xs, List.eraseRepsBy.loop (· == ·) a as acc = acc.reverse ++ a :: xs ∧ (a :: xs).Pairwise (· < ·) := by
  induction as generalizing a acc with
  | nil => exact ⟨[], by simp [List.eraseRepsBy.loop], pairwise_singleton ..⟩
  | cons b rest ih =>
    obtain ⟨hhead, htail⟩ := pairwise_cons.1 h
    unfold List.eraseRepsBy.loop
    cases hab : a == b with
    | true =>
      obtain rfl := eq_of_beq hab
      exact ih htail
    | false =>
      obtain ⟨xs, hloop, hsorted⟩ := @ih b (a :: acc) htail
      refine ⟨b :: xs, by rw [hloop]; simp, pairwise_cons.2 ⟨fun x hx => ?_, hsorted⟩⟩
      have hlt : a < b := lt_of_le_of_ne (hhead b (mem_cons_self ..)) (ne_of_beq_false hab)
      obtain rfl | hx := mem_cons.1 hx
      · exact hlt
      · exact hlt.trans (rel_of_pairwise_cons hsorted hx)

/-- Of texts in order, each stays once. -/
theorem pairwise_eraseReps {xs : List String} (h : xs.Pairwise (· ≤ ·)) : xs.eraseReps.Pairwise (· < ·) := by
  cases xs with
  | nil => exact .nil
  | cons a rest =>
    obtain ⟨ys, hloop, hsorted⟩ := @loop_eraseReps a rest [] h
    show (List.eraseRepsBy.loop (· == ·) a rest []).Pairwise _
    rw [hloop]
    exact hsorted

namespace Session

variable {s : Session} {i : Nat}

/-- The descriptors of the functions and properties of all files that were read. -/
def declared (s : Session) : List String :=
  (s.units.toList.filterMap (·.script)).flatMap fun script => (Api.ofScripts [script]).offers.map Offer.descriptor

/-- The table has the declared descriptors in order, and numbers them one by one. -/
structure Numbered (s : Session) : Prop where
  sorted : (s.symbols.map (·.1)).Pairwise (· < ·)
  names : ∀ d, d ∈ s.symbols.map (·.1) ↔ d ∈ s.declared
  numbers : s.symbols.map (·.2) = List.range' 1 s.declared.toFinset.card

theorem numbered (s : Session) : s.Numbered := by
  let sorted := ((s.units.toList.filterMap (·.script)).flatMap descriptors).mergeSort fun a b => a ≤ b
  have hnames : s.symbols.map (·.1) = sorted.eraseReps := List.zipIdx_map_fst ..
  have hsorted : (s.symbols.map (·.1)).Pairwise (· < ·) := by
    rw [hnames]
    refine pairwise_eraseReps ((List.pairwise_mergeSort ?_ ?_ _).imp of_decide_eq_true)
    · exact fun a b c hab hbc => decide_eq_true (le_trans (of_decide_eq_true hab) (of_decide_eq_true hbc))
    · exact fun a b => by simpa using le_total a b
  have hmem : ∀ d, d ∈ s.symbols.map (·.1) ↔ d ∈ s.declared := by
    intro d
    rw [hnames, mem_eraseReps, List.mem_mergeSort, declared, funext descriptors_eq]
  refine ⟨hsorted, hmem, ?_⟩
  have hcard : s.declared.toFinset.card = s.symbols.length := by
    rw [← List.length_map (·.1), ← List.toFinset_card_of_nodup (hsorted.imp ne_of_lt)]
    exact congrArg _ (Finset.ext fun d => by rw [List.mem_toFinset, List.mem_toFinset, hmem])
  rw [hcard]
  unfold symbols
  rw [List.zipIdx_map_snd, List.length_zipIdx]

/-- No number is larger than there are descriptors. -/
theorem number_le (h : s.symbols.find? d = some n) : n ≤ s.declared.toFinset.card := by
  obtain ⟨before, after, hsplit, -⟩ := lookup_eq_some_iff.1 h
  have hmem : n ∈ s.symbols.map (·.2) := by simp [hsplit]
  rw [s.numbered.numbers, mem_range'_1] at hmem
  omega

/-- The members chosen in the script of a file, where what its imports declare is in sight. -/
def choices (s : Session) (i : Nat) : List Choice :=
  match (s.units[i]?).bind (·.script), s.linked? (s.importsOf i) with
  | some script, some l => script.choices (s.api i) l.vars
  | _, _ => []

theorem Owns.cites (h : s.Owns i own) : Fragment.Cites (s.choices i) own := by
  obtain @⟨script, sources, l, progress, hscript, hlinked, -, hcompile, -⟩ := h
  have hcites := Script.cites_compile ⟨sources, s.api i, s.debug⟩ script l.vars
  rw [hcompile] at hcites
  unfold choices
  rw [hscript, hlinked]
  exact hcites

theorem Consists.cites {js : List Nat} {code : Fragment} {parts : List Section} (h : s.Consists js code parts) :
    Fragment.Cites ((parts.map (·.file)).flatMap s.choices) code := by
  obtain ⟨-, howns, rfl⟩ := h
  induction parts with
  | nil => exact Fragment.cites_empty
  | cons p rest ih =>
    obtain ⟨hown, howns⟩ := forall_mem_cons.1 howns
    refine Fragment.Cites.append ?_ (ih howns)
    exact ((Fragment.cited_relocate _ _).trans (Fragment.cited_zeroLines _)).trans hown.cites

/-- Every number that is left open in code is that of a declared member: the table has all of them in order, and filling
it in puts the number of the chosen member at each reference and changes nothing else. -/
theorem symbols_fill_code (hs : Reachable s) (hroom : s.declared.toFinset.card ≤ 65535) :
    s.Numbered ∧ ∀ i code vars, s.result? i = some (code, vars) →
      code.unresolved s.symbols = [] ∧ ∃ order final, s.Postorder [i] order ∧
        code.resolveSymbols? s.symbols = some final ∧
          code.Filled s.symbols (order.flatMap s.choices) final.bytes := by
  refine ⟨s.numbered, fun i code vars hr => ?_⟩
  have hfound := hs.coded.resolved hr
  obtain ⟨parts, pre, own, hpre, hown, rfl⟩ := (hs.coded i _ hr).composed code vars hr
  have hcites : Fragment.Cites ((parts.map (·.file) ++ [i]).flatMap s.choices) (pre ++ own) := by
    rw [List.flatMap_append, List.flatMap_singleton]
    exact hpre.cites.append hown.cites
  obtain ⟨final, hfinal, hfilled⟩ := hcites.filled (hpre.pieced.append hown.pieced) hfound
    fun d n hn => (number_le hn).trans hroom
  exact ⟨hfound, _, final, .cons hpre.order .nil, hfinal, hfilled⟩

theorem symbols_fill_code_fourFiles :
    Reachable (fourFilesSession false) ∧ (fourFilesSession false).declared.toFinset.card ≤ 65535 ∧
      (fourFilesSession false).Numbered ∧ ∃ code vars order final, (fourFilesSession false).result? 0 = some (code, vars) ∧
        code.references = [12, 62] ∧ code.unresolved (fourFilesSession false).symbols = [] ∧
          (fourFilesSession false).Postorder [0] order ∧
            code.resolveSymbols? (fourFilesSession false).symbols = some final ∧
              code.Filled (fourFilesSession false).symbols (order.flatMap (fourFilesSession false).choices) final.bytes := by
  have hdeclared : (fourFilesSession false).declared = ["GLOBAL_next"] := by decide +kernel
  have hreferences : ((fourFilesSession false).result? 0).map (·.1.references) = some [12, 62] := by decide +kernel
  have hroom : (fourFilesSession false).declared.toFinset.card ≤ 65535 := by
    rw [hdeclared]
    decide
  obtain ⟨⟨code, vars⟩, hr, href⟩ := Option.map_eq_some_iff.1 hreferences
  obtain ⟨hnumbered, hall⟩ := symbols_fill_code reachable_fourFiles hroom
  obtain ⟨hfound, order, final, horder, hfinal, hfilled⟩ := hall 0 code vars hr
  exact ⟨reachable_fourFiles, hroom, hnumbered, code, vars, order, final, hr, href, hfound, horder, hfinal, hfilled⟩

end Session

end HostScript
