import HostScript.Proofs.Compiling

/-! Scopes and their storage.

Whatever is done to the variables of a file, the variables in sight have different names and lie one
above the other in the order of their declaration, below what is in use (`Tidy`). Leaving a scope
brings back what was there when it was entered, and what was needed once stays needed
(`scopes_kept`). -/
namespace HostScript

open List hiding span

variable {v w : Variable} {s t : Storage} {type : Ty} {xs ys : List (String × Variable)} {frames : List Frame}
  {vs other : Variables} {name : String} {e : String × Variable} {base : Storage}

namespace Variable

/-- The end of the storage of a variable. -/
def stop (v : Variable) : Nat := v.address + if v.isString then 1 else v.type.primitive.size

/-- Two variables share no byte of primitive memory, and no slot. -/
def Disjoint (v w : Variable) : Prop := v.isString = w.isString → v.stop ≤ w.address ∨ w.stop ≤ v.address

end Variable

namespace Variables

open Variable Storage

/-! ### Storage in use -/

theorem addressIn_add (s t : Storage) (type : Ty) : addressIn (s + t) type = addressIn s type + addressIn t type := by
  unfold addressIn
  split <;> rfl

theorem addressIn_mono (h : s.Le t) (type : Ty) : addressIn s type ≤ addressIn t type := by
  unfold addressIn
  split
  · exact h.slots
  · exact h.bytes

theorem addressIn_congr (h : v.isString = w.isString) (s : Storage) : addressIn s v.type = addressIn s w.type := by
  unfold addressIn
  simp only [isString, decide_eq_decide] at h
  simp only [h]

theorem stop_eq (v : Variable) : v.stop = v.address + addressIn (storageOf v.type) v.type := by
  unfold stop isString addressIn storageOf
  by_cases h : v.type.primitive = .kind .string <;> simp [h]

/-- Variables in the order of their declaration: each lies above those before it, and all lie below an amount of
storage. -/
structure Rising (xs : List (String × Variable)) (top : Storage) : Prop where
  pairwise : xs.Pairwise fun d e => d.2.isString = e.2.isString → d.2.stop ≤ e.2.address
  under : ∀ e ∈ xs, e.2.stop ≤ addressIn top e.2.type

namespace Rising

theorem sublist (h : Rising xs s) (hsub : ys.Sublist xs) : Rising ys s :=
  ⟨h.pairwise.sublist hsub, fun e he => h.under e (hsub.subset he)⟩

theorem mono (h : Rising xs s) (hle : s.Le t) : Rising xs t :=
  ⟨h.pairwise, fun e he => Nat.le_trans (h.under e he) (addressIn_mono hle _)⟩

/-- More variables, above the storage of those that are there. -/
theorem append (hx : Rising xs s) (hy : Rising ys t) (hle : s.Le t)
    (habove : ∀ e ∈ ys, addressIn s e.2.type ≤ e.2.address) : Rising (xs ++ ys) t where
  pairwise := pairwise_append.2 ⟨hx.pairwise, hy.pairwise, fun d hd e he hsort => by
    have hd := hx.under d hd
    rw [addressIn_congr hsort] at hd
    exact Nat.le_trans hd (habove e he)⟩
  under e he := (mem_append.1 he).elim ((hx.mono hle).under e) (hy.under e)

theorem declared (s : Storage) (name : String) (type : Ty) (span : Span) :
    Rising [(name, ⟨type, addressIn s type, span⟩)] (s + storageOf type) where
  pairwise := pairwise_singleton ..
  under e he := by
    obtain rfl := mem_singleton.1 he
    exact Nat.le_of_eq ((stop_eq _).trans (addressIn_add ..).symm)

end Rising

/-! ### What is in sight -/

/-- Everything in sight, in the order of its declaration. -/
def history : List Frame → List (String × Variable)
  | [] => []
  | frame :: outer => history outer ++ frame.vars.toList

theorem mem_history (frame : Frame) (h : frame ∈ frames) : frame.vars.toList.Sublist (history frames) := by
  induction frames with
  | nil => cases h
  | cons f frames ih =>
    obtain rfl | h := mem_cons.1 h
    · exact sublist_append_right ..
    · exact (ih h).trans (sublist_append_left ..)

/-- The names in sight. -/
def names (vs : Variables) : List String := (history vs.frames).map (·.1)

theorem find?_isSome (vs : Variables) (name : String) : (vs.find? name).isSome ↔ name ∈ vs.names := by
  unfold find? names
  induction vs.frames with
  | nil => simp [history]
  | cons frame outer ih =>
    rw [history, map_append, mem_append, ← ih]
    simp [Frame.find?, or_comm]

/-- Each scope is below what was in use when the next one was entered. -/
def Stacked : List Frame → Storage → Prop
  | [], _ => True
  | frame :: outer, top => frame.base.Le top ∧ Rising (history (frame :: outer)) top ∧ Stacked outer frame.base

structure Tidy (vs : Variables) : Prop where
  names : vs.names.Nodup
  stacked : Stacked vs.frames vs.inUse
  needed : vs.inUse.Le vs.needed

theorem Tidy.rising (h : vs.Tidy) : Rising (history vs.frames) vs.inUse := h.stacked.2.1

theorem Tidy.push (h : vs.Tidy) : vs.push.Tidy := by
  have hhistory : history vs.push.frames = history vs.frames := append_nil _
  have hnames : vs.push.names = vs.names := congrArg (List.map Prod.fst) hhistory
  refine ⟨hnames ▸ h.names, ⟨.refl _, ?_, h.stacked⟩, h.needed⟩
  show Rising (history vs.push.frames) vs.inUse
  rw [hhistory]
  exact h.rising

theorem Tidy.pop (h : vs.Tidy) : vs.pop.2.Tidy := by
  obtain ⟨top, outer, inUse, needed⟩ := vs
  cases outer with
  | nil => exact h
  | cons frame outer =>
    obtain ⟨hbase, -, houter⟩ := h.stacked
    exact ⟨h.names.sublist ((sublist_append_left ..).map _), houter, hbase.trans h.needed⟩

/-- Variables with more of them in the innermost scope. -/
def extend (vs : Variables) (xs : List (String × Variable)) : Variables :=
  { vs with top := { vs.top with vars := vs.top.vars ++ xs.toArray } }

theorem history_extend (vs : Variables) (xs : List (String × Variable)) :
    history (vs.extend xs).frames = history vs.frames ++ xs := by
  simp [extend, frames, history]

theorem nodup_extend (h : vs.names.Nodup) (hname : e.1 ∉ vs.names) : (vs.extend [e]).names.Nodup := by
  unfold names
  rw [history_extend, map_append]
  refine nodup_append.2 ⟨h, pairwise_singleton .., fun n hn m hm heq => hname ?_⟩
  obtain rfl := mem_singleton.1 hm
  rwa [show n = e.1 from heq] at hn

/-- Above everything that is in use there is room for more. -/
theorem Tidy.extend (h : vs.Tidy) (xs : List (String × Variable)) (hle : vs.inUse.Le s) (hst : s.Le t)
    (hxs : Rising xs s) (habove : ∀ e ∈ xs, addressIn vs.inUse e.2.type ≤ e.2.address)
    (hnames : (vs.extend xs).names.Nodup) : Tidy { vs.extend xs with inUse := s, needed := t } := by
  obtain ⟨hbase, hrising, houter⟩ := h.stacked
  refine ⟨hnames, ⟨hbase.trans hle, ?_, houter⟩, hst⟩
  show Rising (history (vs.extend xs).frames) s
  rw [history_extend]
  exact hrising.append hxs hle habove

theorem Tidy.declare {v : Variable} {vs' : Variables} {span : Span} (h : vs.Tidy)
    (hd : vs.declare name type span = .ok (v, vs')) : vs'.Tidy := by
  obtain ⟨rfl, rfl⟩ := declare_eq hd
  have hfree : name ∉ vs.names := by
    intro hname
    rw [Variables.declare, if_pos ((find?_isSome vs name).2 hname)] at hd
    cases hd
  exact h.extend [(name, ⟨type, addressIn vs.inUse type, span⟩)] (le_add ..) (le_max_right ..)
    (.declared ..) (by simp) (nodup_extend h.names hfree)

/-! ### Imported variables -/

/-- An entry of an imported file, above storage that is needed already. -/
def above (base : Storage) (e : String × Variable) : String × Variable := (e.1, relocate base e.2)

/-- Of the variables of an imported file, those whose names are free are added. -/
theorem foldl_importOne (base : Storage) (xs clashes : List (String × Variable)) (vs : Variables) :
    ∃ kept : List (String × Variable), kept.Sublist xs ∧
      (xs.foldl (importOne base) (clashes, vs)).2 = vs.extend (kept.map (above base)) ∧ (vs.names.Nodup →
        (vs.extend (kept.map (above base))).names.Nodup) := by
  induction xs generalizing clashes vs with
  | nil =>
    have hnone : vs.extend [] = vs := by simp [extend]
    exact ⟨[], .slnil, hnone.symm, by rw [map_nil]; exact id⟩
  | cons x xs ih =>
    rw [foldl_cons, importOne]
    split
    · obtain ⟨kept, hsub, heq, hnames⟩ := ih (x :: clashes) vs
      exact ⟨kept, hsub.cons x, heq, hnames⟩
    · rename_i hfree
      rw [find?_isSome] at hfree
      obtain ⟨kept, hsub, heq, hnames⟩ := ih clashes (vs.extend [above base x])
      have htwice : (vs.extend [above base x]).extend (kept.map (above base)) =
          vs.extend ((x :: kept).map (above base)) := by simp [extend]
      rw [htwice] at heq hnames
      exact ⟨x :: kept, hsub.cons_cons x, heq, fun h => hnames (nodup_extend h hfree)⟩

/-- Variables that fit keep their distances when they are moved up. -/
theorem Rising.above (h : Rising xs s) (hfits : (base + s).Le ⟨limit, limit⟩) :
    Rising (xs.map (above base)) (base + s) ∧
      ∀ e ∈ xs.map (Variables.above base), addressIn base e.2.type ≤ e.2.address := by
  have haddress : ∀ e ∈ xs, (relocate base e.2).address = e.2.address + addressIn base e.2.type := by
    intro e he
    have hunder := h.under e he
    have hroom := addressIn_mono hfits e.2.type
    have hlimit : addressIn ⟨limit, limit⟩ e.2.type = Storage.limit := ite_self _
    rw [addressIn_add] at hroom
    rw [stop_eq] at hunder
    exact Nat.min_eq_left (by omega)
  have hstop : ∀ e ∈ xs, (relocate base e.2).stop = e.2.stop + addressIn base e.2.type := by
    intro e he
    rw [stop_eq, haddress e he, stop_eq, Nat.add_right_comm]
    rfl
  refine ⟨⟨?_, ?_⟩, ?_⟩
  · rw [pairwise_map]
    refine h.pairwise.imp_of_mem fun {d e} hd he hde hsort => ?_
    show (relocate base d.2).stop ≤ (relocate base e.2).address
    rw [hstop d hd, haddress e he, addressIn_congr (v := d.2) hsort]
    exact Nat.add_le_add_right (hde hsort) _
  · intro e he
    obtain ⟨d, hd, rfl⟩ := mem_map.1 he
    show (relocate base d.2).stop ≤ addressIn (base + s) d.2.type
    rw [hstop d hd, addressIn_add, Nat.add_comm]
    exact Nat.add_le_add_left (h.under d hd) _
  · intro e he
    obtain ⟨d, hd, rfl⟩ := mem_map.1 he
    show addressIn base d.2.type ≤ (relocate base d.2).address
    rw [haddress d hd]
    exact Nat.le_add_left ..

theorem append_eq (vs other : Variables) :
    ∃ kept : List (String × Variable), kept.Sublist other.globals.vars.toList ∧
      (vs.append other).2 = { vs.extend (kept.map (above vs.needed)) with
        inUse := vs.needed + other.needed, needed := vs.needed + other.needed } ∧
      (vs.names.Nodup → (vs.extend (kept.map (above vs.needed))).names.Nodup) := by
  obtain ⟨kept, hsub, heq, hnames⟩ := foldl_importOne vs.needed other.globals.vars.toList [] vs
  refine ⟨kept, hsub, ?_, hnames⟩
  unfold append
  rw [← Array.foldl_toList]
  show ({ (other.globals.vars.toList.foldl (importOne vs.needed) ([], vs)).2 with
    inUse := vs.needed + other.needed, needed := vs.needed + other.needed } : Variables) = _
  rw [heq]

theorem globals_mem (vs : Variables) : vs.globals ∈ vs.frames := by
  unfold globals
  cases hlast : vs.outer.getLast? with
  | none => exact mem_cons_self ..
  | some frame => exact mem_cons_of_mem _ (mem_of_getLast? hlast)

theorem Tidy.append (h : vs.Tidy) (ho : other.Tidy)
    (hfits : (vs.append other).2.needed.Le ⟨limit, limit⟩) : (vs.append other).2.Tidy := by
  obtain ⟨kept, hsub, heq, hnames⟩ := append_eq vs other
  have hkept := ((ho.rising.sublist (mem_history _ other.globals_mem)).mono ho.needed).sublist hsub
  obtain ⟨hrising, habove⟩ := hkept.above hfits
  rw [heq]
  exact h.extend _ (h.needed.trans (le_add ..)) (.refl _) hrising
    (fun e he => Nat.le_trans (addressIn_mono h.needed _) (habove e he)) (hnames h.names)

/-! ### Runs -/

/-- What is done to the variables of a file. Those of an imported file have a history of their own. -/
inductive Change where
  | push
  | pop
  | declare (name : String) (type : Ty) (span : Span)
  | append (imported : List Change)

mutual
def act : Change → Variables → Variables
  | .push, vs => vs.push
  | .pop, vs => vs.pop.2
  | .declare name type span, vs =>
    match vs.declare name type span with
    | .ok (_, vs) => vs
    | .error _ => vs
  | .append imported, vs => (vs.append (run imported .empty)).2

def run : List Change → Variables → Variables
  | [], vs => vs
  | c :: rest, vs => run rest (act c vs)
end

theorem run_append (cs ds : List Change) (vs : Variables) : run (cs ++ ds) vs = run ds (run cs vs) := by
  induction cs generalizing vs with
  | nil => rfl
  | cons c cs ih => exact ih _

theorem needed_act (c : Change) (vs : Variables) : vs.needed.Le (act c vs).needed := by
  cases c with
  | push => exact .refl _
  | pop =>
    obtain ⟨top, outer, inUse, needed⟩ := vs
    cases outer <;> exact .refl _
  | declare name type span =>
    unfold act
    split
    · rename_i hd
      rw [(declare_eq hd).2]
      exact le_max_left ..
    · exact .refl _
  | append imported =>
    exact le_add ..

theorem needed_run (cs : List Change) (vs : Variables) : vs.needed.Le (run cs vs).needed := by
  induction cs generalizing vs with
  | nil => exact .refl _
  | cons c cs ih => exact (needed_act c vs).trans (ih _)

theorem tidy_empty : Tidy .empty := ⟨.nil, ⟨.refl _, ⟨.nil, nofun⟩, trivial⟩, .refl _⟩

mutual
theorem tidy_act {vs : Variables} (h : vs.Tidy) : (c : Change) →
    (act c vs).needed.Le ⟨limit, limit⟩ → (act c vs).Tidy
  | .push, _ => h.push
  | .pop, _ => h.pop
  | .declare name type span, _ => by
    rw [act]
    split
    · exact h.declare ‹_›
    · exact h
  | .append imported, hfits => by
    have hother : (run imported .empty).needed.Le ⟨limit, limit⟩ := (le_add_left ..).trans hfits
    exact h.append (tidy_run tidy_empty imported hother) hfits

theorem tidy_run {vs : Variables} (h : vs.Tidy) : (cs : List Change) →
    (run cs vs).needed.Le ⟨limit, limit⟩ → (run cs vs).Tidy
  | [], _ => h
  | c :: rest, hfits => tidy_run (tidy_act h c ((needed_run rest _).trans hfits)) rest hfits
end

/-! ### Matching pops -/

/-- Changes in which every scope that is entered is left again. -/
inductive Closed : List Change → Prop
  | nil : Closed []
  | declare (name : String) (type : Ty) (span : Span) (h : Closed rest) : Closed (.declare name type span :: rest)
  | append (imported : List Change) (h : Closed rest) : Closed (.append imported :: rest)
  | scope (hbody : Closed body) (h : Closed rest) : Closed (.push :: body ++ .pop :: rest)

/-- The scopes around are as they were, and what was in use when the innermost one was entered. -/
def Inside (vs vs' : Variables) : Prop := vs'.outer = vs.outer ∧ vs'.top.base = vs.top.base

/-- Leaving a scope brings back what was there before it. -/
theorem Inside.pop {vs vs' : Variables} (h : Inside vs.push vs') :
    (act .pop vs').frames = vs.frames ∧ (act .pop vs').inUse = vs.inUse := by
  obtain ⟨houter, hbase⟩ := h
  obtain ⟨hframes, hinUse⟩ : (act .pop vs').frames = vs'.outer ∧ (act .pop vs').inUse = vs'.top.base := by
    rw [act, Variables.pop, houter]
    exact ⟨rfl, rfl⟩
  exact ⟨hframes.trans houter, hinUse.trans hbase⟩

theorem Inside.trans (h : Inside a b) (h' : Inside b c) : Inside a c :=
  ⟨h'.1.trans h.1, h'.2.trans h.2⟩

theorem Closed.inside (h : Closed cs) (vs : Variables) : Inside vs (run cs vs) := by
  induction h generalizing vs with
  | nil => exact ⟨rfl, rfl⟩
  | declare name type span _ ih =>
    refine Inside.trans ?_ (ih _)
    rw [act]
    split
    · rename_i hd
      rw [(declare_eq hd).2]
      exact ⟨rfl, rfl⟩
    · exact ⟨rfl, rfl⟩
  | append imported _ ih =>
    refine Inside.trans ?_ (ih _)
    obtain ⟨kept, -, heq, -⟩ := append_eq vs (run imported .empty)
    rw [act, heq]
    exact ⟨rfl, rfl⟩
  | scope _ _ ihbody ih =>
    obtain ⟨htop, houter⟩ := List.cons.inj (ihbody vs.push).pop.1
    rw [cons_append, run, run_append]
    exact Inside.trans ⟨houter, congrArg Frame.base htop⟩ (ih _)

/-- After any changes, as long as everything can be addressed, the variables in sight have different names, share no
storage and lie below what is in use, which is no more than what is needed. From there on, what is needed only grows,
a scope that is entered and left leaves everything in sight and in use as it was, and so does a declaration that
fails. -/
theorem scopes_kept (changes : List Change) {vs : Variables} (hvs : vs = run changes .empty)
    (h : vs.needed.Le ⟨limit, limit⟩) : ((history vs.frames).map (·.1)).Nodup ∧
      (history vs.frames).Pairwise (fun d e => d.2.Disjoint e.2) ∧
      (∀ e ∈ history vs.frames, e.2.stop ≤ addressIn vs.inUse e.2.type) ∧ vs.inUse.Le vs.needed ∧
      (∀ more, vs.needed.Le (run more vs).needed) ∧
      (∀ body, Closed body → (run (.push :: body ++ [.pop]) vs).frames = vs.frames ∧
        (run (.push :: body ++ [.pop]) vs).inUse = vs.inUse) ∧
      ∀ name type span problem, vs.declare name type span = .error problem → act (.declare name type span) vs = vs := by
  have htidy : vs.Tidy := by
    subst hvs
    exact tidy_run tidy_empty changes h
  refine ⟨htidy.names, htidy.rising.pairwise.imp fun hde hsort => .inl (hde hsort), htidy.rising.under, htidy.needed,
    fun more => needed_run more vs, fun body hbody => ?_, fun name type span problem hd => ?_⟩
  · rw [List.cons_append, run, run_append]
    exact (hbody.inside vs.push).pop
  · rw [act, hd]

/-- A scope with an imported file in it, whose name `x` is taken, and a variable behind the scope. -/
def sampleChanges : List Change :=
  [.declare "x" (.prim (.kind (.int .int32))) ⟨0, 0, 1⟩, .push, .declare "s" .string ⟨0, 2, 3⟩,
    .append [.declare "x" .bool ⟨1, 0, 1⟩, .declare "t" .string ⟨1, 2, 3⟩, .declare "y" (.object "Node") ⟨1, 4, 5⟩],
    .declare "z" .bool ⟨0, 4, 5⟩]

theorem scopes_kept_sample : (run sampleChanges .empty).needed.Le ⟨limit, limit⟩ ∧
      (history (run sampleChanges .empty).frames).map (fun e => (e.1, e.2.address)) =
        [("x", 0), ("s", 0), ("t", 1), ("y", 5), ("z", 13)] ∧
      (history (run sampleChanges .empty).frames).Pairwise fun d e => d.2.Disjoint e.2 :=
  have hfits : (run sampleChanges .empty).needed.Le ⟨limit, limit⟩ :=
    ⟨by decide +kernel, by decide +kernel⟩
  ⟨hfits, by decide +kernel, (scopes_kept sampleChanges rfl hfits).2.1⟩

end Variables

end HostScript
