import HostScript.Proofs.CompileOrder

/-! Own code.

Of the code of a file, the last part is made from its own script (`Owns`). It is `Made`
behind the code of what the file imports, also when there are problems with it. As code
is moved piece by piece, the code in front is the own code of the files of the import
tree, each moved up and without lines: imports before importers and in the order of
imports (`Postorder`). `import_discipline` adds that compiling ends and that a file is
refused for its imports exactly when these are no tree. -/
namespace HostScript

open List hiding append_assoc

variable {own : Fragment} {l l' : Linked} {fs : List Fragment} {js : List Nat} {i : Nat} {s : Session}

namespace Fragment

variable {f g : Fragment}

section

variable (hf : f.Pieced)
include hf

theorem Pieced.relocate (base : Storage) : (f.relocate base).Pieced := by
  obtain ⟨ps, rfl⟩ := hf
  exact ⟨_, relocate_ofPieces base ps⟩

theorem Pieced.zeroLines : f.zeroLines.Pieced := by
  obtain ⟨ps, rfl⟩ := hf
  exact ⟨_, zeroLines_ofPieces ps⟩

theorem relocate_append (hg : g.Pieced) (base : Storage) :
    (f ++ g).relocate base = f.relocate base ++ g.relocate base := by
  obtain ⟨ps, rfl⟩ := hf
  obtain ⟨qs, rfl⟩ := hg
  rw [← ofPieces_append, relocate_ofPieces, map_append, ofPieces_append, relocate_ofPieces, relocate_ofPieces]

theorem zeroLines_append (hg : g.Pieced) : (f ++ g).zeroLines = f.zeroLines ++ g.zeroLines := by
  obtain ⟨ps, rfl⟩ := hf
  obtain ⟨qs, rfl⟩ := hg
  rw [← ofPieces_append, zeroLines_ofPieces, map_append, ofPieces_append, zeroLines_ofPieces, zeroLines_ofPieces]

theorem zeroLines_relocate (base : Storage) :
    (f.relocate base).zeroLines = f.zeroLines.relocate base := by
  obtain ⟨ps, rfl⟩ := hf
  have hpiece : Piece.zeroLine ∘ Piece.relocate base = Piece.relocate base ∘ Piece.zeroLine := by
    funext p
    cases p <;> rfl
  simp only [relocate_ofPieces, zeroLines_ofPieces, map_map, hpiece]

theorem zeroLines_zeroLines : f.zeroLines.zeroLines = f.zeroLines := by
  obtain ⟨ps, rfl⟩ := hf
  have hpiece : Piece.zeroLine ∘ Piece.zeroLine = Piece.zeroLine := by
    funext p
    cases p <;> rfl
  simp only [zeroLines_ofPieces, map_map, hpiece]

theorem relocate_relocate (a b : Storage) : (f.relocate a).relocate b = f.relocate (a + b) := by
  obtain ⟨ps, rfl⟩ := hf
  have hpiece : Piece.relocate b ∘ Piece.relocate a = Piece.relocate (a + b) := by
    funext p
    cases p with
    | place isString address =>
      cases isString
      · exact congrArg (Piece.place _) (Nat.add_assoc _ _ _)
      · exact congrArg (Piece.place _) (Nat.add_assoc _ _ _)
    | _ => rfl
  simp only [relocate_ofPieces, map_map, hpiece]

end

theorem pieced_join (h : ∀ f ∈ fs, f.Pieced) : (join fs).Pieced := by
  induction fs with
  | nil => exact pieced_empty
  | cons f fs ih =>
    obtain ⟨hf, hfs⟩ := forall_mem_cons.1 h
    exact hf.append (ih hfs)

theorem relocate_join (h : ∀ f ∈ fs, f.Pieced) (base : Storage) :
    (join fs).relocate base = join (fs.map (·.relocate base)) := by
  induction fs with
  | nil => rfl
  | cons f fs ih =>
    obtain ⟨hf, hfs⟩ := forall_mem_cons.1 h
    show (f ++ join fs).relocate base = f.relocate base ++ join (fs.map (·.relocate base))
    rw [relocate_append hf (pieced_join hfs), ih hfs]

theorem zeroLines_join (h : ∀ f ∈ fs, f.Pieced) : (join fs).zeroLines = join (fs.map (·.zeroLines)) := by
  induction fs with
  | nil => rfl
  | cons f fs ih =>
    obtain ⟨hf, hfs⟩ := forall_mem_cons.1 h
    show (f ++ join fs).zeroLines = f.zeroLines ++ join (fs.map (·.zeroLines))
    rw [zeroLines_append hf (pieced_join hfs), ih hfs]

end Fragment

open Fragment

namespace Session

/-! ### Files with code -/

/-- The own code of a file: what is made from its script where the variables of its imports are in sight.
Files that were loaded later do not matter for it. -/
inductive Owns (s : Session) (i : Nat) (own : Fragment) : Prop
  | intro {script : Script} {sources : Sources} {l : Linked} {progress : Progress}
      (hscript : (s.units[i]?).bind (·.script) = some script) (hlinked : s.linked? (s.importsOf i) = some l)
      (hsources : sources.toList <+: s.sources.toList)
      (hcompile : script.compile ⟨sources, s.api i, s.debug⟩ ∅ l.vars = (own, progress))
      (hresult : s.result? i = some (l.code.zeroLines ++ own, progress.vars)) : Owns s i own

/-- A file has code of its own, and so has everything it imports. -/
inductive Made (s : Session) : Nat → Prop
  | intro {i : Nat} {own : Fragment} (hown : s.Owns i own) (honce : s.repeated? i = none)
      (himports : ∀ j ∈ s.importsOf i, Made s j) : Made s i

theorem Made.once (h : s.Made i) : s.repeated? i = none := by
  cases h with
  | intro _ honce _ => exact honce

/-- Every file with code was made, whether or not there are problems with it. -/
def Coded (s : Session) : Prop := ∀ i r, s.result? i = some r → s.Made i

section Coded

variable {t : Session} {job : Job}

theorem Owns.pieced (h : s.Owns i own) : own.Pieced := by
  obtain ⟨-, -, -, hcompile, -⟩ := h
  exact Eq.mp (congrArg (fun r => r.1.Pieced) hcompile) (Script.pieced_compile _ _ _)

theorem Extends.owns (h : Extends s t) (hsources : s.sources.toList <+: t.sources.toList) (hown : s.Owns i own) :
    t.Owns i own := by
  obtain ⟨hscript, hlinked, hknown, hcompile, hresult⟩ := hown
  obtain ⟨u, hu, -⟩ := Option.bind_eq_some_iff.1 hresult
  obtain ⟨u', hu', hscript', himports', -⟩ := h.unit hu
  have hlt : i < s.units.size := (Array.getElem?_eq_some_iff.1 hu).1
  rw [importsOf_eq hu, ← himports', ← importsOf_eq hu'] at hlinked
  rw [← h.api hlt, ← h.debug] at hcompile
  refine .intro ?_ (h.linked hlinked) (hknown.trans hsources) hcompile (h.result hresult)
  rw [hu, Option.bind_some] at hscript
  rw [hu', Option.bind_some, hscript', hscript]

theorem Extends.made (h : Extends s t) (hsources : s.sources.toList <+: t.sources.toList) (hi : s.Made i) :
    t.Made i := by
  induction hi with
  | @intro i own hown honce _ ih =>
    obtain ⟨-, -, -, -, hresult⟩ := id hown
    obtain ⟨u, hu, -⟩ := Option.bind_eq_some_iff.1 hresult
    obtain ⟨u', hu', -, himports', -⟩ := h.unit hu
    refine .intro (h.owns hsources hown) ((h.repeated (Array.getElem?_eq_some_iff.1 hu).1).trans honce) ?_
    rwa [importsOf_eq hu', himports', ← importsOf_eq hu]

theorem lasts_coded : Lasts Coded := by
  refine lasts_traced (fun hextends hsources _ => hextends.made (by simp [hsources])) ?_
  intro t i u script l code progress hu hscript honce hlinked hcompile hresult _ himports
  rw [Script.compile_behind] at hcompile
  generalize hown : script.compile ⟨t.sources, t.api i, t.debug⟩ ∅ l.vars = made at hcompile
  obtain ⟨own, _⟩ := made
  cases hcompile
  rw [← importsOf_eq hu] at hlinked himports
  refine .intro (.intro ?_ hlinked (prefix_refl _) hown ?_) honce himports
  · rw [hu, Option.bind_some, hscript]
  · rw [result?, hu, Option.bind_some, hresult]

theorem fresh_begin (h : Fresh s) (i : Nat) : Fresh (s.begin i) := fresh_modify h fun _ => Stage.noConfusion

theorem Runs.fresh (h : Runs job s t) (hf : Fresh s) : Fresh t := by
  induction h with
  | settled | done => exact hf
  | unread => exact fresh_modify (fresh_begin hf _) fun _ => Stage.noConfusion
  | refused =>
    show Fresh ((Session.modifyUnit _ _ _).modifyUnit _ _)
    rw [modifyUnit_modifyUnit]
    exact fresh_modify (fresh_begin hf _) fun _ => Stage.noConfusion
  | failed _ _ _ _ _ ih => exact fresh_modify (ih (fresh_begin hf _)) fun _ => Stage.noConfusion
  | made _ _ _ _ _ ih =>
    show Fresh ((Session.modifyUnit _ _ _).modifyUnit _ _)
    rw [modifyUnit_modifyUnit]
    exact fresh_modify (ih (fresh_begin hf _)) fun _ => Stage.noConfusion
  | stop _ _ _ _ ih => exact ih hf
  | next _ _ _ _ _ ih ih' => exact ih' (ih hf)

theorem Reachable.coded (hs : Reachable s) : Coded s := by
  induction hs with
  | new disk debug => exact fun i r hr => by cases hr
  | @load s path hs ih =>
    have hc := hs.orderly.complete
    have hloads := (loads_loadFrom s.disk.files.length path s hc).1
    exact hloads.traced ((hloads.extends hc).made (prefix_loadFrom _ path hc)) ih
  | @compile s i hs ih => exact (advances_compileFrom lasts_coded s.units.size i s hs.orderly.fresh ih).kept

end Coded

/-! ### Imports before importers -/

/-- Files and everything they import, each file behind what it imports. -/
inductive Postorder (s : Session) : List Nat → List Nat → Prop
  | nil : Postorder s [] []
  | cons {j : Nat} {rest inner outer : List Nat} (hinner : Postorder s (s.importsOf j) inner)
      (houter : Postorder s rest outer) : Postorder s (j :: rest) (inner ++ j :: outer)

/-- Own code of a file in the code of another. -/
structure Section where
  file : Nat
  own : Fragment
  base : Storage

/-- It is moved up and has no lines. -/
def Section.code (p : Section) : Fragment := p.own.zeroLines.relocate p.base

def Section.up (base : Storage) (p : Section) : Section := { p with base := p.base + base }

/-- Code that consists of the own code of files and everything they import. -/
structure Consists (s : Session) (js : List Nat) (code : Fragment) (parts : List Section) : Prop where
  order : s.Postorder js (parts.map (·.file))
  owns : ∀ p ∈ parts, s.Owns p.file p.own
  code : code = join (parts.map (·.code))

section Postorder

variable {order : List Nat}

theorem Postorder.spans (h : s.Postorder js order) : ∃ files, s.Spans js files ∧ files.Perm order := by
  induction h with
  | nil => exact ⟨[], .nil, .refl _⟩
  | cons _ _ ihinner ihouter =>
    obtain ⟨inner, hinner, hperm⟩ := ihinner
    obtain ⟨outer, houter, hperm'⟩ := ihouter
    exact ⟨_, .cons hinner houter, ((hperm.append hperm').cons _).trans perm_middle.symm⟩

/-- No file stands twice in the order of a tree. -/
theorem Postorder.nodup (h : s.Postorder [i] order) (honce : s.repeated? i = none) : order.Nodup := by
  obtain ⟨files, hspans, hperm⟩ := h.spans
  exact hperm.nodup_iff.1 (hspans.nodup (s.links + 1) (s.singleton_le_links i) honce).1

theorem Postorder.mem_iff (h : s.Postorder js order) : k ∈ order ↔ ∃ j ∈ js, s.Reaches j k := by
  induction h with
  | nil => simp
  | @cons j rest inner outer _ _ ihinner ihouter =>
    have hj : s.Reaches j k ↔ j = k ∨ ∃ m ∈ s.importsOf j, s.Reaches m k := Relation.ReflTransGen.cases_head_iff
    grind

end Postorder

/-! ### Code of a tree -/

namespace Section

variable {p : Section}

theorem pieced_code (h : p.own.Pieced) : p.code.Pieced := h.zeroLines.relocate _

theorem zeroLines_code (h : p.own.Pieced) : p.code.zeroLines = p.code := by
  unfold code
  rw [zeroLines_relocate h.zeroLines, zeroLines_zeroLines h]

theorem code_up (h : p.own.Pieced) (base : Storage) : (p.up base).code = p.code.relocate base :=
  (relocate_relocate h.zeroLines _ _).symm

end Section

section Consists

variable {j : Nat} {rest : List Nat} {pre post : Fragment} {inner outer parts : List Section}

section

variable (h : s.Consists js pre parts)
include h

theorem Consists.pieced_codes : ∀ f ∈ parts.map (·.code), f.Pieced := by
  intro f hf
  obtain ⟨p, hp, rfl⟩ := mem_map.1 hf
  exact Section.pieced_code (h.owns p hp).pieced

theorem Consists.pieced : pre.Pieced := h.code ▸ pieced_join h.pieced_codes

theorem Consists.zeroLines : pre.zeroLines = pre := by
  have hsame : (parts.map (·.code)).map (·.zeroLines) = parts.map (·.code) := by
    rw [map_map]
    exact map_congr_left fun p hp => Section.zeroLines_code (h.owns p hp).pieced
  rw [h.code, zeroLines_join h.pieced_codes, hsame]

theorem Consists.relocate (base : Storage) :
    s.Consists js (pre.relocate base) (parts.map (·.up base)) := by
  refine ⟨by rw [map_map]; exact h.order, fun p hp => ?_, ?_⟩
  · obtain ⟨q, hq, rfl⟩ := mem_map.1 hp
    exact h.owns q hq
  · rw [h.code, relocate_join h.pieced_codes, map_map, map_map]
    exact congrArg join (map_congr_left fun p hp => (Section.code_up (h.owns p hp).pieced base).symm)

end

/-- A file is moved up as a whole: the code of its imports and its own, which loses its lines. -/
theorem Consists.cons (hinner : s.Consists (s.importsOf j) pre inner) (hown : s.Owns j own)
    (houter : s.Consists rest post outer) (base : Storage) :
    s.Consists (j :: rest) (((pre ++ own).relocate base).zeroLines ++ post) (inner.map (·.up base) ++ ⟨j, own, base⟩ :: outer) := by
  have hmoved := hinner.relocate base
  refine ⟨?_, ?_, ?_⟩
  · rw [map_append]
    exact .cons hmoved.order houter.order
  · rw [forall_mem_append, forall_mem_cons]
    exact ⟨hmoved.owns, hown, houter.owns⟩
  · have hpieced := hown.pieced
    rw [zeroLines_relocate (hinner.pieced.append hpieced), zeroLines_append hinner.pieced hpieced, hinner.zeroLines,
      relocate_append hinner.pieced hpieced.zeroLines, map_append, join_append, ← hmoved.code, append_assoc,
      houter.code]
    rfl

/-- The code of a file: that of its imports, and behind it its own. -/
def Composed (s : Session) (i : Nat) (code : Fragment) (parts : List Section) : Prop :=
  ∃ pre own, s.Consists (s.importsOf i) pre parts ∧ s.Owns i own ∧ code = pre ++ own

theorem consists_linkedFrom
    (hjs : ∀ j ∈ js, ∀ code vars, s.result? j = some (code, vars) → ∃ parts, s.Composed j code parts)
    (hl : l.code.Pieced) (h : s.linkedFrom? l js = some l') :
    ∃ post parts, s.Consists js post parts ∧ l'.code.zeroLines = l.code.zeroLines ++ post := by
  induction js generalizing l with
  | nil =>
    cases h
    exact ⟨∅, [], ⟨.nil, nofun, rfl⟩, (append_empty _).symm⟩
  | cons j rest ih =>
    rw [linkedFrom_cons] at h
    obtain ⟨⟨code, vars⟩, hr, hrest⟩ := Option.bind_eq_some_iff.1 h
    obtain ⟨hj, hjs⟩ := forall_mem_cons.1 hjs
    obtain ⟨inner, pre, own, hinner, hown, rfl⟩ := hj code vars hr
    obtain ⟨base, hadd⟩ : ∃ base, (l.add (pre ++ own) vars).code = l.code ++ (pre ++ own).relocate base := ⟨_, rfl⟩
    have hpieced := (hinner.pieced.append hown.pieced).relocate base
    obtain ⟨post, outer, houter, hcode⟩ := ih hjs (hadd ▸ hl.append hpieced) hrest
    refine ⟨_, _, hinner.cons hown houter base, ?_⟩
    rw [hcode, hadd, zeroLines_append hl hpieced, append_assoc]

theorem Made.composed (h : s.Made i) :
    ∀ code vars, s.result? i = some (code, vars) → ∃ parts, s.Composed i code parts := by
  induction h with
  | intro hown _ _ ih =>
    intro code vars hr
    obtain ⟨-, hlinked, -, -, hresult⟩ := id hown
    obtain ⟨pre, parts, hpre, hcode⟩ := consists_linkedFrom ih pieced_empty hlinked
    cases hresult.symm.trans hr
    exact ⟨parts, pre, _, hpre, hown, by rw [hcode]; exact congrArg (· ++ _) (empty_append pre)⟩

end Consists

/-! ### Import graphs -/

/-- Walks over files and over types come to an end by themselves: with more steps they give the same. -/
structure WalksEnd (s : Session) (i : Nat) : Prop where
  visible : ∀ n, s.links + 1 ≤ n → s.visibleFrom n [i] [] = s.visible i
  repeated : ∀ n, s.links + 1 ≤ n → s.repeatedFrom n [i] [] = s.repeated? i
  lineage : ∀ name n, (s.api i).links + 1 ≤ n → (s.api i).lineageFrom n [name] [] = (s.api i).lineage name
  diamond : ∀ name n, (s.api i).links + 1 ≤ n → (s.api i).diamondFrom n [name] [] = (s.api i).diamond? name
  cycle : ∀ name n, (s.api i).types.length ≤ n → (s.api i).cycleFrom n [] name = (s.api i).cycle? name

theorem walksEnd (s : Session) (i : Nat) : s.WalksEnd i where
  visible _ hn := visibleFrom_enough s hn
  repeated _ hn := repeatedFrom_enough s hn
  lineage name _ hn := Api.lineageFrom_enough name hn
  diamond name _ hn := Api.diamondFrom_enough name hn
  cycle name _ hn := Api.cycleFrom_enough name hn

/-- What holds of a file whatever its imports are. -/
structure ImportDiscipline (s : Session) (i : Nat) : Prop where
  /-- Compiling the file comes to an end, and every import is done when it is put behind others. -/
  ends : Runs (.file i) s (s.compile i)
  walks : s.WalksEnd i
  /-- No file is found twice exactly when a single way leads to each. -/
  tree : s.repeated? i = none ↔ s.Tree i
  /-- Code of the file is the own code of all files it reaches, each once, imports before importers. -/
  once : ∀ code vars, s.result? i = some (code, vars) → ∃ parts, s.Composed i code parts ∧
    s.Postorder [i] (parts.map (·.file) ++ [i]) ∧ (parts.map (·.file) ++ [i]).Nodup ∧
    ∀ k, k ∈ parts.map (·.file) ++ [i] ↔ s.Reaches i k

/-- Whatever was loaded and compiled before, and whatever files import each other. -/
theorem import_discipline {s : Session} (hs : Reachable s) {i : Nat} (hi : i < s.units.size) :
    s.ImportDiscipline i := by
  refine ⟨hs.runs hi, s.walksEnd i, repeated_eq_none_iff, fun code vars hr => ?_⟩
  have hmade := hs.coded i _ hr
  obtain ⟨parts, hparts⟩ := hmade.composed code vars hr
  obtain ⟨pre, own, hpre, -, -⟩ := id hparts
  have horder : s.Postorder [i] (parts.map (·.file) ++ [i]) := .cons hpre.order .nil
  refine ⟨parts, hparts, horder, horder.nodup hmade.once, fun k => ?_⟩
  rw [horder.mem_iff, List.exists_mem_cons_iff]
  simp

theorem import_discipline_fourFiles :
    Reachable (fourFilesSession false) ∧ 0 < (fourFilesSession false).units.size ∧
      (fourFilesSession false).ImportDiscipline 0 := by
  have hsize : 0 < (fourFilesSession false).units.size := by decide +kernel
  exact ⟨reachable_fourFiles, hsize, import_discipline reachable_fourFiles hsize⟩

end Session

end HostScript
