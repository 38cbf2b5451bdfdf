import HostScript.Proofs.Assembly
import HostScript.Proofs.Usage

/-! Storage of an import tree.

A file and everything it imports form a tree, because no file is reached along two ways.
In the code of the file they stand one behind the other, what is imported first, and each
is moved up as a whole above the storage of those before it (`Lays`). A variable that a
file declares is seen by the files above it at other addresses, but moved to where the
file that sees it lies, all of these are one place (`Lays.denoted`). The regions of two
files have nothing in common, and the header asks for all of them (`Lays.between`,
`Lays.apart`). -/
namespace HostScript

open Variable List Option

variable {code : Fragment} {post pre : List Nat} {vars : Variables}
  {own : Fragment} {l l' : Linked} {js : List Nat} {i j : Nat} {s : Session} {base : Storage} {e : String × Variable}

/-! ### Moving up -/

namespace Storage

theorem add_assoc (a b c : Storage) : a + b + c = a + (b + c) :=
  congrArg₂ Storage.mk (Nat.add_assoc ..) (Nat.add_assoc ..)

theorem add_none (a : Storage) : a + .none = a := rfl

theorem none_add (a : Storage) : .none + a = a := congrArg₂ Storage.mk (Nat.zero_add _) (Nat.zero_add _)

theorem Le.add_left (h : a.Le b) (base : Storage) : (base + a).Le (base + b) :=
  ⟨Nat.add_le_add_left h.bytes _, Nat.add_le_add_left h.slots _⟩

end Storage

theorem Variable.up_up (v : Variable) (a b : Storage) : (v.up a).up b = v.up (b + a) := by
  unfold up Variables.addressIn
  congr 1
  split
  · show v.address + a.slots + b.slots = v.address + (b.slots + a.slots)
    omega
  · show v.address + a.bytes + b.bytes = v.address + (b.bytes + a.bytes)
    omega

theorem Variable.slot_up (v : Variable) (base : Storage) : (v.up base).slot = v.slot.up base := by
  unfold slot Slot.up isString
  congr 1
  simp [up, Variables.addressIn]

theorem Slot.up_up (x : Slot) (a b : Storage) : (x.up a).up b = x.up (b + a) := by
  unfold Slot.up
  congr 1
  dsimp only
  split
  · show x.index + a.slots + b.slots = x.index + (b.slots + a.slots)
    omega
  · show x.index + a.bytes + b.bytes = x.index + (b.bytes + a.bytes)
    omega

theorem Slot.up_none (x : Slot) : x.up .none = x := by
  unfold Slot.up Storage.none
  simp

/-- Everything that is in sight, the innermost scope first. -/
def Variables.entries (vs : Variables) : List (String × Variable) := vs.frames.flatMap (·.vars.toList)

/-- No two variables in sight share storage. -/
theorem Frame.Laid.pairwise (h : Frame.Laid frames top) :
    (frames.flatMap (·.vars.toList)).Pairwise fun d e => d.2.Separate e.2 := by
  induction frames generalizing top with
  | nil => exact .nil
  | cons frame rest ih =>
    obtain ⟨-, hbetween, hpairwise, hrest⟩ := h
    rw [flatMap_cons, pairwise_append]
    refine ⟨hpairwise, ih hrest, fun d hd e he => ?_⟩
    obtain ⟨f, hf, he⟩ := mem_flatMap.1 he
    exact (separate_of_in (hrest.inTop hf he) (hbetween d hd)).symm

namespace Session

/-! ### What a file has and sees -/

/-- The storage that a file needs along with what it imports. -/
def needed (s : Session) (i : Nat) : Storage := ((s.result? i).map (·.2.needed)).getD .none

/-- The storage that files need one behind the other. -/
def neededBy (s : Session) : List Nat → Storage
  | [] => .none
  | j :: rest => s.needed j + s.neededBy rest

/-- The variables that a file shows to those that import it. -/
def exports (s : Session) (i : Nat) : List (String × Variable) :=
  ((s.result? i).map (·.2.globals.vars.toList)).getD []

def usage? (s : Session) (i : Nat) : Option Usage := do
  let u ← s.units[i]?
  let script ← u.script
  let l ← s.linked? u.imports
  return Statement.usageAll (s.api i) s.debug script l.vars

/-- What a file refers to behind the files that it imports. -/
def usage (s : Session) (i : Nat) : Usage := (s.usage? i).getD .empty

/-- What one file sees under a name is a variable that another one declares: its own, or what an
imported file shows, moved up above the storage of the imports before it. -/
inductive Denotes (s : Session) : Nat → String × Variable → Nat → String × Variable → Prop
  | own {k : Nat} {d : String × Variable} (hd : d ∈ (s.usage k).declared) : Denotes s k d k d
  | imported {i j k : Nat} {pre post : List Nat} {w d : String × Variable}
      (himports : s.importsOf i = pre ++ j :: post) (hw : w ∈ s.exports j) (hinner : Denotes s j w k d) :
      Denotes s i (w.1, w.2.up (s.neededBy pre)) k d

/-- A file of an import tree, above the storage of the files before it. -/
structure Part where
  file : Nat
  base : Storage

/-- Files from some storage on, each behind what it imports. -/
inductive Lays (s : Session) : Storage → List Nat → List Part → Prop
  | nil {base : Storage} : Lays s base [] []
  | cons {base : Storage} {j : Nat} {rest : List Nat} {inner outer : List Part}
      (hinner : Lays s base (s.importsOf j) inner) (houter : Lays s (base + s.needed j) rest outer) :
      Lays s base (j :: rest) (inner ++ ⟨j, base⟩ :: outer)

/-- The places that parts of a tree mention. -/
def places (s : Session) (parts : List Part) : List Slot :=
  parts.flatMap fun p => (s.usage p.file).mentions.map fun e => (e.2.up p.base).slot

section Files

variable {u : FileUnit}

theorem importsOf_eq (hu : s.units[i]? = some u) : s.importsOf i = u.imports := by simp [importsOf, hu]

theorem needed_eq (h : s.result? i = some (code, vars)) : s.needed i = vars.needed := by simp [needed, h]

theorem neededBy_linkedFrom (h : s.linkedFrom? l imports = some l') :
    l'.vars.needed = l.vars.needed + s.neededBy imports := by
  induction imports generalizing l with
  | nil =>
    cases h
    rfl
  | cons j rest ih =>
    rw [linkedFrom_cons] at h
    obtain ⟨⟨code, vars⟩, hj, hrest⟩ := bind_eq_some_iff.1 h
    rw [ih hrest, needed_add, neededBy, needed_eq hj, Storage.add_assoc]

/-- A file that has code, behind the files that it imports. -/
structure Stored (s : Session) (i : Nat) (l : Linked) (own : Fragment) (vars : Variables) : Prop where
  linked : s.linked? (s.importsOf i) = some l
  result : s.result? i = some (l.code.zeroLines ++ own, vars)
  imported : l.vars.Settled
  full : l.vars.inUse = l.vars.needed
  settled : vars.Settled
  mentions : own.Mentions (s.usage i).mentions
  holds : (s.usage i).Holds l.vars vars
  grows : l.vars.needed.Le vars.needed

theorem Stored.exports (h : Stored s i l own vars) : s.exports i = vars.top.vars.toList := by
  simp [Session.exports, h.result, h.settled.globals]

theorem Stored.needed (h : Stored s i l own vars) : s.needed i = vars.needed :=
  needed_eq h.result

theorem Stored.neededBy (h : Stored s i l own vars) : l.vars.needed = s.neededBy (s.importsOf i) :=
  (neededBy_linkedFrom h.linked).trans (Storage.none_add _)

theorem settled_linkedFrom (h : s.linkedFrom? l imports = some l') (hl : l.vars.Settled)
    (hfull : l.vars.inUse = l.vars.needed) (haddr : Addressable l'.vars.needed)
    (himports : ∀ j ∈ imports, ∀ code vars, s.result? j = some (code, vars) → Addressable vars.needed →
      vars.Settled) : l'.vars.Settled ∧ l'.vars.inUse = l'.vars.needed := by
  refine linkedFrom_induction (motive := fun l => l.vars.Settled ∧ l.vars.inUse = l.vars.needed) h haddr
    ⟨hl, hfull⟩ fun hj hresult _ hlimit hown hm => ?_
  exact ⟨hm.1.add (himports _ hj _ _ hresult hown) _ hlimit.1 hlimit.2, inUse_add ..⟩

theorem Built.stored (ho : Orderly s) (hi : Built s i) (hresult : s.result? i = some (code, vars))
    (haddr : Addressable vars.needed) : ∃ l own, Stored s i l own vars := by
  induction hi generalizing code vars with
  | @intro i u script sources l code' vars' hunit hscript _ hlinked himports hcompile hresult' ih =>
    have hsame := hresult
    rw [result?, hunit] at hsame
    obtain ⟨rfl, rfl⟩ := Prod.mk.inj (Option.some.inj (hsame.symm.trans hresult'))
    have hle : l.vars.needed.Le vars.needed := needed_compile hcompile
    have hnested := Statement.nested_surveyAll (s.api i) script
    obtain ⟨hl, hfull⟩ := settled_linkedFrom hlinked .empty rfl (haddr.mono hle) fun j hj code vars hr ha => by
      obtain ⟨_, _, hstored⟩ := ih j hj hr ha
      exact hstored.settled
    obtain ⟨own, rfl, hvars, hlaid, hformed, hmentions, hholds⟩ := passes_usages (ho.formed_api i) ⟨false, false⟩
      script (ho.formed_script hunit hscript) l.code.zeroLines hl.laid hl.formed hcompile
    have husage : s.usage i = Statement.usageAll (s.api i) s.debug script l.vars := by
      simp [usage, usage?, hunit, hscript, hlinked]
    rw [← husage] at hmentions hholds
    refine ⟨l, own, (importsOf_eq hunit).symm ▸ hlinked, hresult, hl, hfull, ⟨hlaid, hformed, ?_, ?_⟩, hmentions,
      hholds, hle⟩
    · rw [hvars, hnested.outer, hl.flat]
    · rw [hvars, hnested.base, hl.lowest]

theorem Built.imports (hi : Built s i) : ∀ j ∈ s.importsOf i, Built s j := by
  obtain ⟨hunit, -, -, -, himports, -, -⟩ := hi
  rwa [importsOf_eq hunit]

theorem Built.once (hi : Built s i) : s.repeated? i = none := by
  obtain ⟨-, -, honce, -, -, -, -⟩ := hi
  exact honce

theorem Built.result (hi : Built s i) : ∃ code vars, s.result? i = some (code, vars) := by
  obtain ⟨hunit, -, -, -, -, -, hresult⟩ := hi
  exact ⟨_, _, bind_eq_some_iff.2 ⟨_, hunit, hresult⟩⟩

end Files

/-! ### The tree -/

/-- Files that were built and whose storage can be addressed. -/
def Ready (s : Session) (i : Nat) : Prop := Built s i ∧ Addressable (s.needed i)

theorem Ready.stored (ho : Orderly s) (hi : Ready s i) : ∃ l own vars, Stored s i l own vars := by
  obtain ⟨code, vars, hresult⟩ := hi.1.result
  obtain ⟨l, own, hstored⟩ := hi.1.stored ho hresult (needed_eq hresult ▸ hi.2)
  exact ⟨l, own, vars, hstored⟩

theorem le_neededBy (hj : j ∈ js) : (s.needed j).Le (s.neededBy js) := by
  induction js with
  | nil => cases hj
  | cons k rest ih =>
    obtain rfl | hj := mem_cons.1 hj
    · exact Storage.le_add _ _
    · exact (ih hj).trans (Storage.le_add_left _ _)

theorem Ready.imports (ho : Orderly s) (hi : Ready s i) : ∀ j ∈ s.importsOf i, Ready s j := by
  intro j hj
  obtain ⟨l, own, vars, hstored⟩ := hi.stored ho
  refine ⟨hi.1.imports j hj, hi.2.mono ?_⟩
  rw [hstored.needed]
  refine Storage.Le.trans ?_ hstored.grows
  rw [hstored.neededBy]
  exact le_neededBy hj

theorem lays_of_each (h : ∀ j ∈ js, ∀ base, ∃ parts, s.Lays base (s.importsOf j) parts) :
    ∀ base, ∃ parts, s.Lays base js parts := by
  induction js with
  | nil => exact fun _ => ⟨[], .nil⟩
  | cons j rest ih =>
    intro base
    obtain ⟨hj, hrest⟩ := forall_mem_cons.1 h
    obtain ⟨inner, hinner⟩ := hj base
    obtain ⟨outer, houter⟩ := ih hrest (base + s.needed j)
    exact ⟨_, .cons hinner houter⟩

/-- The imports of a file that was built come to an end. -/
theorem Built.lays (hi : Built s i) : ∀ base, ∃ parts, s.Lays base (s.importsOf i) parts := by
  induction hi with
  | intro hunit _ _ _ _ _ _ ih =>
    rw [importsOf_eq hunit]
    exact lays_of_each ih

namespace Lays

variable {parts : List Part}

theorem mem_of_eq (h : s.Lays base (pre ++ j :: post) parts) : ⟨j, base + s.neededBy pre⟩ ∈ parts := by
  induction pre generalizing base parts with
  | nil =>
    cases h with
    | cons hinner houter => exact mem_append_right _ (mem_cons_self ..)
  | cons a rest ih =>
    cases h with
    | cons hinner houter =>
      refine mem_append_right _ (mem_cons_of_mem _ ?_)
      rw [neededBy, ← Storage.add_assoc]
      exact ih houter

/-- What a part imports is a part again, above the storage of the imports before it. -/
theorem import_mem (h : s.Lays base js parts) (hp : p ∈ parts) (hsplit : s.importsOf p.file = pre ++ j :: post) :
    ⟨j, p.base + s.neededBy pre⟩ ∈ parts := by
  induction h with
  | nil => cases hp
  | cons hinner houter ihinner ihouter =>
    obtain hp | hp := mem_append.1 hp
    · exact mem_append_left _ (ihinner hp)
    · obtain rfl | hp := mem_cons.1 hp
      · rw [hsplit] at hinner
        exact mem_append_left _ hinner.mem_of_eq
      · exact mem_append_right _ (mem_cons_of_mem _ (ihouter hp))

/-- A variable is at one and the same place for the file that declares it and for one that sees it. -/
theorem denoted (h : s.Lays base js parts) (hd : s.Denotes i e k d) :
    ∀ p ∈ parts, p.file = i → ∃ q ∈ parts, q.file = k ∧ e.1 = d.1 ∧ e.2.up p.base = d.2.up q.base := by
  induction hd with
  | own hd => exact fun p hp hi => ⟨p, hp, hi, rfl, rfl⟩
  | imported himports hw hinner ih =>
    rintro p hp rfl
    obtain ⟨q, hq, hk, hname, hplace⟩ := ih _ (h.import_mem hp himports) rfl
    refine ⟨q, hq, hk, hname, ?_⟩
    rw [← hplace, up_up]

section Ready

variable (ho : Orderly s)
include ho

theorem ready (h : s.Lays base js parts) (hjs : ∀ j ∈ js, Ready s j) : ∀ p ∈ parts, Ready s p.file := by
  induction h with
  | nil => exact nofun
  | cons hinner houter ihinner ihouter =>
    obtain ⟨hj, hrest⟩ := forall_mem_cons.1 hjs
    intro p hp
    obtain hp | hp := mem_append.1 hp
    · exact ihinner (hj.imports ho) p hp
    · obtain rfl | hp := mem_cons.1 hp
      · exact hj
      · exact ihouter hrest p hp

/-- The imports of a file lie below its own variables, and these below what it needs. -/
theorem own_between (hj : Ready s j) (base : Storage) (he : e ∈ (s.usage j).declared) :
    (e.2.up base).Between (base + s.neededBy (s.importsOf j)) (base + s.needed j) := by
  obtain ⟨l, own, vars, hstored⟩ := hj.stored ho
  rw [← hstored.neededBy, hstored.needed, ← hstored.full]
  exact (hstored.holds.declared e he).up base

theorem imports_le (hj : Ready s j) (base : Storage) : (base + s.neededBy (s.importsOf j)).Le (base + s.needed j) := by
  obtain ⟨l, own, vars, hstored⟩ := hj.stored ho
  rw [← hstored.neededBy, hstored.needed]
  exact hstored.grows.add_left base

section

variable (h : s.Lays base js parts) (hjs : ∀ j ∈ js, Ready s j)
include h hjs

/-- Files keep to the storage that is kept free for them. -/
theorem between :
    ∀ p ∈ parts, ∀ e ∈ (s.usage p.file).declared, (e.2.up p.base).Between base (base + s.neededBy js) := by
  induction h with
  | nil => exact nofun
  | @cons base j rest inner outer hinner houter ihinner ihouter =>
    obtain ⟨hj, hrest⟩ := forall_mem_cons.1 hjs
    have hfirst : (base + s.needed j).Le (base + s.neededBy (j :: rest)) := (Storage.le_add _ _).add_left base
    intro p hp e he
    obtain hp | hp := mem_append.1 hp
    · exact (ihinner (hj.imports ho) p hp e he).mono ((imports_le ho hj base).trans hfirst)
    · obtain rfl | hp := mem_cons.1 hp
      · exact ((own_between ho hj base he).mono hfirst).lower (Storage.le_add _ _)
      · have hlater := (ihouter hrest p hp e he).lower (Storage.le_add base (s.needed j))
        rwa [Storage.add_assoc] at hlater

/-- The regions of different parts have nothing in common. -/
theorem apart :
    parts.Pairwise fun p q => ∀ d ∈ (s.usage p.file).declared, ∀ e ∈ (s.usage q.file).declared,
      (d.2.up p.base).Separate (e.2.up q.base) := by
  induction h with
  | nil => exact .nil
  | @cons base j rest inner outer hinner houter ihinner ihouter =>
    obtain ⟨hj, hrest⟩ := forall_mem_cons.1 hjs
    have hlater := houter.between ho hrest
    have hown := fun e => own_between ho hj base (e := e)
    have himports := hinner.between ho (hj.imports ho)
    rw [pairwise_append, pairwise_cons]
    refine ⟨ihinner (hj.imports ho), ⟨fun q hq d hd e he => ?_, ihouter hrest⟩, fun p hp q hq d hd e he => ?_⟩
    · exact separate_of_in (hown d hd).inTop (hlater q hq e he)
    · have hlow := (himports p hp d hd).inTop
      obtain rfl | hq := mem_cons.1 hq
      · exact separate_of_in hlow (hown e he)
      · exact separate_of_in (hlow.mono (imports_le ho hj base)) (hlater q hq e he)

/-- The code of files one behind the other names the places of what they mention. The storage in
front of the files is part of their code only from `l` on; below it, they are moved up later. -/
theorem names (b : Storage) (hbase : base = b + l.vars.needed)
    (hlinked : s.linkedFrom? l js = some l') (haddr : Addressable l'.vars.needed) (hl : l.code.Names slots) :
    ∃ slots', l'.code.Names (slots ++ slots') ∧ slots'.map (Slot.up b) = s.places parts := by
  induction h generalizing l l' slots b with
  | nil =>
    cases hlinked
    exact ⟨[], by rwa [List.append_nil], rfl⟩
  | @cons base j rest inner outer hinner houter ihinner ihouter =>
    obtain ⟨hj, hrest⟩ := List.forall_mem_cons.1 hjs
    obtain ⟨lj, own, vars, hstored⟩ := hj.stored ho
    rw [linkedFrom_cons, hstored.result, Option.bind_some] at hlinked
    have hlimit := haddr.mono ((Storage.le_add _ _).trans (needed_linkedFrom hlinked))
    obtain ⟨first, hfirst, hplaces⟩ := ihinner (hj.imports ho) (l := .empty) base (Storage.add_none base).symm
      hstored.linked (hj.2.mono (hstored.needed ▸ hstored.grows)) Fragment.names_empty
    obtain ⟨last, hlast, hrestPlaces⟩ := ihouter hrest b
      (by rw [hbase, hstored.needed, needed_add, Storage.add_assoc]) hlinked haddr <| by
        rw [Assembled.add_code hlimit.1 hlimit.2]
        exact hl.append ((hfirst.zeroLines.append hstored.mentions).relocate l.vars.needed)
    refine ⟨_, by rwa [List.append_assoc] at hlast, ?_⟩
    have hshift : ∀ xs : List Slot, (xs.map (Slot.up l.vars.needed)).map (Slot.up b) = xs.map (Slot.up base) := by
      intro xs
      rw [List.map_map, hbase]
      exact List.map_congr_left fun x _ => Slot.up_up ..
    rw [List.map_append, hshift, List.nil_append, List.map_append, hplaces, hrestPlaces]
    simp [places, slot_up]

end

/-- What comes from an imported file is moved up above the imports before it. -/
theorem source (hjs : ∀ j ∈ js, Ready s j) (hlinked : s.linkedFrom? l js = some l')
    (haddr : Addressable l'.vars.needed) (hl : l.vars.Settled) (he : e ∈ l'.vars.top.vars.toList) :
    e ∈ l.vars.top.vars.toList ∨ ∃ pre j post w, js = pre ++ j :: post ∧ w ∈ s.exports j ∧
      e = (w.1, w.2.up (l.vars.needed + s.neededBy pre)) := by
  induction js generalizing l with
  | nil =>
    cases hlinked
    exact .inl he
  | cons j rest ih =>
    obtain ⟨hj, hrest⟩ := forall_mem_cons.1 hjs
    obtain ⟨lj, own, vars, hstored⟩ := hj.stored ho
    rw [linkedFrom_cons, hstored.result, bind_some] at hlinked
    have hlimit := haddr.mono (needed_linkedFrom hlinked)
    obtain he | ⟨pre, k, post, w, rfl, hw, rfl⟩ := ih hrest hlinked (hl.add hstored.settled _ hlimit.1 hlimit.2)
    · obtain he | ⟨d, hd, rfl⟩ := hl.source_add hstored.settled _ hlimit.1 hlimit.2 he
      · exact .inl he
      · exact .inr ⟨[], j, rest, d, rfl, hstored.exports ▸ hd, rfl⟩
    · refine .inr ⟨j :: pre, k, post, w, rfl, hw, ?_⟩
      rw [neededBy, hstored.needed, needed_add, Storage.add_assoc]

end Ready

end Lays

/-! ### Each file once -/

/-- Files and everything they import. -/
inductive Spans (s : Session) : List Nat → List Nat → Prop
  | nil : Spans s [] []
  | cons {j : Nat} {rest inner outer : List Nat} (hinner : Spans s (s.importsOf j) inner)
      (houter : Spans s rest outer) : Spans s (j :: rest) (j :: (inner ++ outer))

namespace Spans

variable {ks files : List Nat}

theorem append (h : s.Spans js files) (h' : s.Spans ks more) : s.Spans (js ++ ks) (files ++ more) := by
  induction h with
  | nil => exact h'
  | cons hinner _ _ ih =>
    rw [cons_append, cons_append, append_assoc]
    exact .cons hinner ih

/-- Whatever the order of files, the same are reached. -/
theorem perm (h : s.Spans js files) (hp : js.Perm ks) : ∃ files', s.Spans ks files' ∧ files'.Perm files := by
  induction hp generalizing files with
  | nil => exact ⟨files, h, .refl _⟩
  | cons j _ ih =>
    cases h with
    | cons hinner houter =>
      obtain ⟨outer, houter', hperm⟩ := ih houter
      exact ⟨_, .cons hinner houter', (hperm.append_left _).cons j⟩
  | swap j k rest =>
    cases h with
    | @cons _ _ first _ hfirst h =>
      cases h with
      | @cons _ _ second outer hsecond houter =>
        refine ⟨_, .cons hsecond (.cons hfirst houter), perm_iff_count.2 fun a => ?_⟩
        simp only [count_cons, count_append]
        omega
  | trans _ _ ih ih' =>
    obtain ⟨files', h', hperm⟩ := ih h
    obtain ⟨files'', h'', hperm'⟩ := ih' h'
    exact ⟨files'', h'', hperm'.trans hperm⟩

/-- A walk that ends without a repetition has met each file once. -/
theorem nodup (fuel : Nat) (h : s.Spans js files) (hfuel : js.length + s.unfollowed seen ≤ fuel)
    (hnone : s.repeatedFrom fuel js seen = none) : files.Nodup ∧ ∀ j ∈ files, j ∉ seen := by
  induction fuel generalizing js seen files with
  | zero =>
    obtain rfl : js = [] := length_eq_zero_iff.1 (by omega)
    cases h
    exact ⟨.nil, nofun⟩
  | succ fuel ih =>
    cases h with
    | nil => exact ⟨.nil, nofun⟩
    | @cons j rest inner outer hinner houter =>
      unfold repeatedFrom at hnone
      split at hnone
      · cases hnone
      · rename_i hj
        have hfollow := s.unfollowed_follow (j :: seen) hj (by simp)
        obtain ⟨inner', hinner', hperm⟩ := hinner.perm (reverse_perm _).symm
        obtain ⟨hnodup, hunseen⟩ := ih (hinner'.append houter)
          (by rw [length_append, length_reverse]; rw [length_cons] at hfuel; omega) hnone
        have hsame := hperm.append_right outer
        have hunseen' : ∀ k ∈ inner ++ outer, k ≠ j ∧ k ∉ seen := fun k hk => by
          simpa using hunseen k (hsame.mem_iff.2 hk)
        refine ⟨nodup_cons.2 ⟨fun hmem => (hunseen' j hmem).1 rfl, hsame.nodup_iff.1 hnodup⟩, fun k hk => ?_⟩
        obtain rfl | hk := mem_cons.1 hk
        · exact hj
        · exact (hunseen' k hk).2

end Spans

theorem Lays.spans (h : s.Lays base js parts) : ∃ files, s.Spans js files ∧ files.Perm (parts.map (·.file)) := by
  induction h with
  | nil => exact ⟨[], .nil, .refl _⟩
  | cons _ _ ihinner ihouter =>
    obtain ⟨inner, hinner, hperm⟩ := ihinner
    obtain ⟨outer, houter, hperm'⟩ := ihouter
    refine ⟨_, .cons hinner houter, ?_⟩
    rw [map_append, map_cons]
    exact ((hperm.append hperm').cons _).trans perm_middle.symm

/-- No file stands twice in the tree of a file that was built. -/
theorem Built.nodup (hi : Built s i) (h : s.Lays base [i] parts) : (parts.map (·.file)).Nodup := by
  obtain ⟨files, hspans, hperm⟩ := h.spans
  refine hperm.nodup_iff.1 (hspans.nodup (s.links + 1) ?_ hi.once).1
  rw [links_eq, length_singleton, Nat.add_comm]

/-! ### What is in sight -/

/-- Everything in sight in a file is declared by it or by a file that it reaches. -/
theorem Built.denotes (ho : Orderly s) (hi : Built s i) :
    Addressable (s.needed i) → ∀ {l own vars}, Stored s i l own vars → ∀ e, l.vars.Has e ∨ e ∈ (s.usage i).declared →
      ∃ k d, s.Denotes i e k d := by
  induction hi with
  | @intro i u _ _ _ _ _ hunit hscript honce hlinked himports hcompile hresult ih =>
    intro haddr l own vars hstored e he
    obtain he | he := he
    · have hready : Ready s i := ⟨.intro hunit hscript honce hlinked himports hcompile hresult, haddr⟩
      have htop : e ∈ l.vars.top.vars.toList := by
        obtain ⟨frame, hf, he⟩ := he
        rw [Variables.frames, hstored.imported.flat] at hf
        exact mem_singleton.1 hf ▸ he
      obtain h | ⟨pre, j, post, w, hsplit, hw, rfl⟩ := Lays.source ho (hready.imports ho) hstored.linked
        (haddr.mono (hstored.needed ▸ hstored.grows)) .empty htop
      · simp [Linked.empty, Variables.empty] at h
      · have hj : j ∈ s.importsOf i := by simp [hsplit]
        obtain ⟨lj, ownj, varsj, hj'⟩ := (hready.imports ho j hj).stored ho
        have hhas : varsj.Has w := ⟨varsj.top, mem_cons_self .., hj'.exports ▸ hw⟩
        obtain ⟨k, d, hd⟩ := ih j (importsOf_eq hunit ▸ hj) (hready.imports ho j hj).2 hj' w (hj'.holds.leaves w hhas)
        refine ⟨k, d, ?_⟩
        have := Denotes.imported hsplit hw hd
        rwa [show Linked.empty.vars.needed + s.neededBy pre = s.neededBy pre from Storage.none_add _]
    · exact ⟨i, e, .own he⟩

/-- What a part mentions is declared by some part, and there is one place for both. -/
theorem Lays.resolved (ho : Orderly s) (h : s.Lays base js parts) (hjs : ∀ j ∈ js, Ready s j) (hp : p ∈ parts)
    (he : e ∈ (s.usage p.file).mentions) :
    ∃ q ∈ parts, ∃ d, s.Denotes p.file e q.file d ∧ e.2.up p.base = d.2.up q.base := by
  have hready := h.ready ho hjs p hp
  obtain ⟨l, own, vars, hstored⟩ := hready.stored ho
  obtain ⟨k, d, hd⟩ := hready.1.denotes ho hready.2 hstored e (hstored.holds.mentions e he)
  obtain ⟨q, hq, rfl, -, hplace⟩ := h.denoted hd p hp rfl
  exact ⟨q, hq, d, hd, hplace⟩

/-- The code of the imports comes first, and what the file itself mentions stands behind it. -/
theorem Ready.names (ho : Orderly s) (hi : Ready s i) (hresult : s.result? i = some (code, vars)) {inner : List Part}
    (h : s.Lays .none (s.importsOf i) inner) : code.Names (s.places (inner ++ [⟨i, .none⟩])) := by
  obtain ⟨l, own, vars', hstored⟩ := hi.stored ho
  obtain ⟨slots, hslots, hplaces⟩ := h.names ho (hi.imports ho) (l := .empty) .none rfl hstored.linked
    (hi.2.mono (hstored.needed ▸ hstored.grows)) Fragment.names_empty
  obtain rfl : slots = s.places inner := by
    rw [← hplaces, show Slot.up .none = id from funext Slot.up_none, List.map_id]
  rw [(Prod.mk.inj (Option.some.inj (hresult.symm.trans hstored.result))).1]
  have hall := hslots.zeroLines.append hstored.mentions
  rw [List.nil_append] at hall
  simpa [places, slot_up, Slot.up_none] using hall

end Session

end HostScript
